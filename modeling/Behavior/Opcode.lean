import Behavior.Operator

/-!
The instruction set. A code word is 32 bits wide: the opcode in the upper eight bits and an operand
in the other twenty-four. The operand is a table index, a slot or a code offset, and is zero for
opcodes that have none.
-/

namespace Behavior

/-- What an instruction does. -/
inductive Opcode where
  /-- Push a constant. -/
  | pushConst
  | pop
  /-- Push the top of the stack once more. -/
  | dup
  | swap
  | loadInput
  | loadLocal
  | storeLocal
  | storeOutput
  /-- Replace operands by the operator's result; the last operand is on top. -/
  | unary (f : UnaryFn)
  | binary (f : BinaryFn)
  | ternary (f : TernaryFn)
  | jump
  | jumpIfFalse
  | jumpIfTrue
  /-- Continue elsewhere and remember where to come back to. -/
  | call
  /-- Come back from a call; without one to come back from, stop. -/
  | ret
  | halt
  /-- Push the next random number. -/
  | random
  /-- Suspend for the popped number of seconds. -/
  | wait
  /-- Suspend at a continuation point. -/
  | pause
  | nop
deriving DecidableEq, Repr, Inhabited

namespace Opcode

/-- Number of the opcode in a code word. -/
def byte : Opcode → UInt8
  | pushConst => 0
  | pop => 1
  | dup => 2
  | swap => 3
  | loadInput => 10
  | loadLocal => 11
  | storeLocal => 12
  | storeOutput => 13
  | binary .add => 20
  | binary .sub => 21
  | binary .mul => 22
  | binary .div => 23
  | binary .mod => 24
  | unary .neg => 25
  | binary .min => 26
  | binary .max => 27
  | unary .abs => 28
  | binary .eq => 30
  | binary .ne => 31
  | binary .lt => 32
  | binary .le => 33
  | binary .gt => 34
  | binary .ge => 35
  | unary .not => 40
  | binary .and => 41
  | binary .or => 42
  | jump => 50
  | jumpIfFalse => 51
  | jumpIfTrue => 52
  | call => 53
  | ret => 54
  | halt => 55
  | random => 60
  | ternary .lerp => 61
  | ternary .clamp => 62
  | wait => 70
  | pause => 71
  | nop => 255

def ofByte? : UInt8 → Option Opcode
  | 0 => some pushConst
  | 1 => some pop
  | 2 => some dup
  | 3 => some swap
  | 10 => some loadInput
  | 11 => some loadLocal
  | 12 => some storeLocal
  | 13 => some storeOutput
  | 20 => some (binary .add)
  | 21 => some (binary .sub)
  | 22 => some (binary .mul)
  | 23 => some (binary .div)
  | 24 => some (binary .mod)
  | 25 => some (unary .neg)
  | 26 => some (binary .min)
  | 27 => some (binary .max)
  | 28 => some (unary .abs)
  | 30 => some (binary .eq)
  | 31 => some (binary .ne)
  | 32 => some (binary .lt)
  | 33 => some (binary .le)
  | 34 => some (binary .gt)
  | 35 => some (binary .ge)
  | 40 => some (unary .not)
  | 41 => some (binary .and)
  | 42 => some (binary .or)
  | 50 => some jump
  | 51 => some jumpIfFalse
  | 52 => some jumpIfTrue
  | 53 => some call
  | 54 => some ret
  | 55 => some halt
  | 60 => some random
  | 61 => some (ternary .lerp)
  | 62 => some (ternary .clamp)
  | 70 => some wait
  | 71 => some pause
  | 255 => some nop
  | _ => none

def name : Opcode → String
  | pushConst => "PUSH_CONST"
  | pop => "POP"
  | dup => "DUP"
  | swap => "SWAP"
  | loadInput => "LOAD_INPUT"
  | loadLocal => "LOAD_LOCAL"
  | storeLocal => "STORE_LOCAL"
  | storeOutput => "STORE_OUTPUT"
  | binary .add => "ADD"
  | binary .sub => "SUB"
  | binary .mul => "MUL"
  | binary .div => "DIV"
  | binary .mod => "MOD"
  | unary .neg => "NEG"
  | binary .min => "MIN"
  | binary .max => "MAX"
  | unary .abs => "ABS"
  | binary .eq => "EQ"
  | binary .ne => "NE"
  | binary .lt => "LT"
  | binary .le => "LE"
  | binary .gt => "GT"
  | binary .ge => "GE"
  | unary .not => "NOT"
  | binary .and => "AND"
  | binary .or => "OR"
  | jump => "JUMP"
  | jumpIfFalse => "JUMP_IF_FALSE"
  | jumpIfTrue => "JUMP_IF_TRUE"
  | call => "CALL"
  | ret => "RETURN"
  | halt => "HALT"
  | random => "RANDOM"
  | ternary .lerp => "LERP"
  | ternary .clamp => "CLAMP"
  | wait => "WAIT"
  | pause => "PAUSE"
  | nop => "NOP"

/-- Values taken off the operand stack. -/
def pops : Opcode → Nat
  | pop | storeLocal | storeOutput | dup | unary _ | jumpIfFalse | jumpIfTrue | wait => 1
  | swap | binary _ => 2
  | ternary _ => 3
  | pushConst | loadInput | loadLocal | random | jump | call | ret | halt | pause | nop => 0

/-- Values put on the operand stack after that. -/
def pushes : Opcode → Nat
  | pushConst | loadInput | loadLocal | random | unary _ | binary _ | ternary _ => 1
  | dup | swap => 2
  | pop | storeLocal | storeOutput | jumpIfFalse | jumpIfTrue | wait | jump | call | ret | halt
  | pause | nop => 0

def hasOperand : Opcode → Bool
  | pushConst | loadInput | loadLocal | storeLocal | storeOutput | jump | jumpIfFalse | jumpIfTrue
  | call | pause => true
  | _ => false

theorem ofByte?_byte (op : Opcode) : ofByte? op.byte = some op := by
  cases op with
  | unary f => cases f <;> rfl
  | binary f => cases f <;> rfl
  | ternary f => cases f <;> rfl
  | _ => rfl

end Opcode

abbrev Word := UInt32

namespace Word

def maxOperand : Nat := 0xffffff

/-- The word of an opcode and an operand, of which the lower twenty-four bits count. -/
def encode (op : Opcode) (operand : Nat) : Word :=
  (op.byte.toUInt32 <<< 24) ||| (operand.toUInt32 &&& 0xffffff)

def byte (w : Word) : UInt8 :=
  (w >>> 24).toUInt8

def opcode? (w : Word) : Option Opcode :=
  Opcode.ofByte? (byte w)

def operand (w : Word) : Nat :=
  (w &&& 0xffffff).toNat

end Word

end Behavior
