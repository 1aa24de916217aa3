import TapeLang.Error

/-!
# Executable memory

Code is placed in a region of memory that can be written, and then the region is made executable.
These are the checks on the way. Regions that no system can provide are refused.
-/

namespace TapeLang

/-- A region of memory that code can be written to. -/
structure WritableRegion where
  /-- The number of bytes in the region. -/
  size : Nat
  /-- The number of bytes of code written to it. -/
  codeSize : Nat
  deriving DecidableEq

/-- A region of memory that can be executed. -/
structure ExecutableRegion where
  /-- The number of bytes of code in it. -/
  codeSize : Nat
  deriving DecidableEq

namespace WritableRegion

/-- The size from which on no region can be provided. -/
def sizeLimit : Nat := 0x800000000000

/-- Asks for a region. -/
def allocate (size : Nat) : Except Error WritableRegion :=
  if size = 0 then .error (.arena .emptyRegion)
  else if size < sizeLimit then .ok ⟨size, 0⟩
  else .error (.arena (.mapRefused size))

/-- Writes code to the start of the region, in the place of any written before. -/
def write (region : WritableRegion) (code : List UInt8) : Except Error WritableRegion :=
  if code.length ≤ region.size then .ok { region with codeSize := code.length }
  else .error (.arena (.codeTooLarge code.length region.size))

/-- Makes the region executable. -/
def makeExecutable (region : WritableRegion) : Except Error ExecutableRegion :=
  if region.codeSize = 0 then .error (.arena .nothingWritten)
  else .ok ⟨region.codeSize⟩

end WritableRegion

/-- Places code in a region of its own size and makes it executable. -/
def ExecutableRegion.load (code : List UInt8) : Except Error ExecutableRegion := do
  let region ← WritableRegion.allocate code.length
  (← region.write code).makeExecutable

end TapeLang
