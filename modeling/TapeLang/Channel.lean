import TapeLang.Error

/-!
# Input and output

A program reads from an `Input` and writes to an `Output`, byte by byte. An input may deliver a
byte, be interrupted, which only delays the read, or fail; when nothing is left it is at its end.
An output may have a limit on the bytes it takes.
-/

namespace TapeLang

/-- What one attempt to read comes to. -/
inductive InputEvent where
  /-- A byte is delivered. -/
  | byte (value : UInt8)
  /-- The attempt is interrupted and has to be made again. -/
  | interrupted
  /-- The attempt fails. -/
  | failure (text : String)
  deriving DecidableEq

/-- A source of bytes. -/
@[ext]
structure Input where
  /-- What the attempts to read will come to; after these the input is at its end. -/
  events : List InputEvent
  /-- The number of bytes delivered so far. -/
  consumed : Nat := 0
  deriving DecidableEq

namespace Input

/-- An input that delivers the given bytes. -/
def ofBytes (bytes : List UInt8) : Input :=
  { events := bytes.map .byte }

/-- What reading a byte gives, and the events and the number of bytes delivered after it. -/
def readFrom (consumed : Nat) : List InputEvent → Except Error (Option UInt8) × Input
  | [] => (.ok none, ⟨[], consumed⟩)
  | .byte value :: rest => (.ok (some value), ⟨rest, consumed + 1⟩)
  | .interrupted :: rest => readFrom consumed rest
  | .failure text :: rest => (.error (.io text), ⟨rest, consumed⟩)

/-- Reads a byte: the byte, or `none` at the end of the input, or the error of a failed attempt.
Interrupted attempts are made again. -/
def read (input : Input) : Except Error (Option UInt8) × Input :=
  readFrom input.consumed input.events

end Input

/-- What an output does with a byte that it has no room for. -/
inductive Refusal where
  /-- It fails. -/
  | fails (text : String)
  /-- It takes no byte, which is an error of the writer. -/
  | takesNothing
  /-- It interrupts the write once; from then on it has room for all bytes. -/
  | interrupts
  deriving DecidableEq

/-- A sink of bytes. -/
@[ext]
structure Output where
  /-- The bytes written so far. -/
  bytes : Array UInt8 := #[]
  /-- For how many bytes there is room, and what happens after them; `none` if there is room for
  all. -/
  limit : Option (Nat × Refusal) := none
  deriving DecidableEq

namespace Output

/-- An output without bytes that has room for all. -/
def unlimited : Output := {}

/-- The output with one more byte. -/
def push (output : Output) (byte : UInt8) : Output :=
  { output with bytes := output.bytes.push byte }

/-- Writes a byte. -/
def write (output : Output) (byte : UInt8) : Except Error Output :=
  match output with
  | ⟨bytes, none⟩ => .ok ⟨bytes.push byte, none⟩
  | ⟨bytes, some (room, refusal)⟩ =>
    if bytes.size < room then .ok ⟨bytes.push byte, some (room, refusal)⟩
    else
      match refusal with
      | .fails text => .error (.io text)
      | .takesNothing => .error (.io "failed to write whole buffer")
      | .interrupts => .ok ⟨bytes.push byte, none⟩

/-- Writes bytes until one is refused; then the bytes before it have been written. -/
def writeAll (output : Output) : List UInt8 → Except Error Unit × Output
  | [] => (.ok (), output)
  | byte :: rest =>
    match output.write byte with
    | .ok next => next.writeAll rest
    | .error error => (.error error, output)

/-- An output without limit takes every byte. -/
theorem write_of_unlimited {output : Output} (byte : UInt8) (h : output.limit = none) :
    output.write byte = .ok (output.push byte) := by
  obtain ⟨bytes, limit⟩ := output
  subst h
  rfl

/-- An output without limit takes all bytes that are written to it. -/
theorem writeAll_of_unlimited {output : Output} (bytes : List UInt8) (h : output.limit = none) :
    output.writeAll bytes = (.ok (), { output with bytes := output.bytes ++ bytes.toArray }) := by
  induction bytes generalizing output with
  | nil => simp [writeAll]
  | cons byte rest ih =>
    rw [writeAll, write_of_unlimited byte h]
    show (output.push byte).writeAll rest = _
    rw [@ih (output.push byte) h]
    simp [push]

end Output

end TapeLang
