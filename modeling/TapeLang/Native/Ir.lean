import TapeLang.Native.Block

/-!
# Intermediate code

What is handed to an optimizing code generator is a function in intermediate code. Its instructions
stand in blocks, which are entered at their labels; the last instruction of a block says where to go
on. A block may have parameters, for which a jump to it has arguments. Values are defined once and
not changed; there is one variable besides them, which holds the index of the current cell.
-/

namespace TapeLang

namespace Ir

/-- A value, numbered in the order in which values are defined. -/
structure Value where
  /-- The number of the value. -/
  index : Nat
  deriving DecidableEq

/-- The label of a block of instructions, numbered in the order in which labels are made. -/
structure Label where
  /-- The number of the label. -/
  index : Nat
  deriving DecidableEq

/-- The types of numbers. -/
inductive Width where
  /-- Eight bits: a cell. -/
  | i8
  /-- Thirty-two bits: a descriptor. -/
  | i32
  /-- Sixty-four bits: an index, an address or a count. -/
  | i64
  deriving DecidableEq

/-- The functions that code calls, with a descriptor, the address of a cell and a count. -/
inductive Helper where
  /-- Writes the cell to the descriptor so many times. -/
  | writeCell
  /-- Reads so many bytes from the descriptor into the cell. -/
  | readCell
  deriving DecidableEq

/-- What a value is defined as. -/
inductive Operation where
  /-- A number. -/
  | const (width : Width) (number : Int)
  /-- The address of a helper. -/
  | helper (helper : Helper)
  /-- What the variable holds. -/
  | index
  /-- The sum of two values. -/
  | add (left right : Value)
  /-- The difference of two values. -/
  | sub (left right : Value)
  /-- The sum of a value and a number. -/
  | addConst (value : Value) (number : Int)
  /-- Whether a value, as an unsigned number, is at least a bound. -/
  | aboveEq (value : Value) (bound : Nat)
  /-- The byte at an address. -/
  | load (address : Value)
  deriving DecidableEq

/-- A line of a function. -/
inductive Line where
  /-- The beginning of a block. -/
  | block (label : Label) (params : List Value)
  /-- Defines a value. -/
  | define (value : Value) (operation : Operation)
  /-- Puts a value into the variable. -/
  | setIndex (value : Value)
  /-- Puts a byte at an address. -/
  | store (value address : Value)
  /-- Calls a helper. -/
  | call (callee : Value) (args : List Value)
  /-- Goes on in a block. -/
  | jump (target : Label) (args : List Value)
  /-- Goes on in one block if a value is not zero, and in another one if it is. -/
  | branch (condition : Value) (target : Label) (args : List Value) (other : Label)
      (otherArgs : List Value)
  /-- Returns a value. -/
  | ret (value : Value)
  deriving DecidableEq

/-- A function. It is entered at its first block, which has one parameter. -/
structure Function where
  /-- The lines, block after block. -/
  lines : Array Line
  deriving DecidableEq

end Ir

end TapeLang
