/-!
Instructions of the bytecode machine. An instruction is one byte that names it and a fixed number of
operand bytes (`Opcode.width`); `closure` is followed besides by a pair of bytes for each variable
its function captures. Operands of two bytes have the high byte first.

* `Opcode.byte`, `Opcode.ofByte?`: the naming byte, and back (`ofByte?_byte`).
* `Opcode.mnemonic`: the name in listings.
-/

namespace TwinLisp

inductive Opcode where
  | const
  | nil
  | true
  | false
  | pop
  /-- Drops values below the top one. -/
  | popN
  | getLocal
  | setLocal
  | getUpvalue
  | setUpvalue
  | closeUpvalue
  | getVar
  | setVar
  | add
  | subtract
  | multiply
  | divide
  | negate
  | equal
  | less
  | greater
  | not
  | jump
  | jumpIfFalse
  | loop
  | call
  | closure
  | recur
  | ret
  | vector
  | map
  | set
  deriving DecidableEq, Repr, Inhabited

namespace Opcode

/-- All instructions in the order of their bytes. -/
def all : Array Opcode :=
  #[const, nil, true, false, pop, popN, getLocal, setLocal, getUpvalue, setUpvalue, closeUpvalue,
    getVar, setVar, add, subtract, multiply, divide, negate, equal, less, greater, not, jump,
    jumpIfFalse, loop, call, closure, recur, ret, vector, map, set]

def byte : Opcode → UInt8
  | const => 0 | nil => 1 | true => 2 | false => 3 | pop => 4 | popN => 5
  | getLocal => 6 | setLocal => 7 | getUpvalue => 8 | setUpvalue => 9 | closeUpvalue => 10
  | getVar => 11 | setVar => 12
  | add => 13 | subtract => 14 | multiply => 15 | divide => 16 | negate => 17
  | equal => 18 | less => 19 | greater => 20 | not => 21
  | jump => 22 | jumpIfFalse => 23 | loop => 24
  | call => 25 | closure => 26 | recur => 27 | ret => 28
  | vector => 29 | map => 30 | set => 31

/-- The instruction of a byte; other bytes name none. -/
def ofByte? (b : UInt8) : Option Opcode := all[b.toNat]?

theorem ofByte?_byte (op : Opcode) : ofByte? op.byte = some op := by
  cases op <;> rfl

/-- The number of operand bytes, the pairs of `closure` apart. -/
def width : Opcode → Nat
  | nil | true | false | pop | add | subtract | multiply | divide | negate | equal | less | greater
  | not | ret => 0
  | popN | getLocal | setLocal | getUpvalue | setUpvalue | closeUpvalue | call => 1
  | const | getVar | setVar | jump | jumpIfFalse | loop | closure | recur | vector | map | set => 2

def mnemonic : Opcode → String
  | const => "CONST" | nil => "NIL" | true => "TRUE" | false => "FALSE"
  | pop => "POP" | popN => "POP_N"
  | getLocal => "GET_LOCAL" | setLocal => "SET_LOCAL"
  | getUpvalue => "GET_UPVALUE" | setUpvalue => "SET_UPVALUE" | closeUpvalue => "CLOSE_UPVALUE"
  | getVar => "GET_VAR" | setVar => "SET_VAR"
  | add => "ADD" | subtract => "SUBTRACT" | multiply => "MULTIPLY" | divide => "DIVIDE"
  | negate => "NEGATE" | equal => "EQUAL" | less => "LESS" | greater => "GREATER" | not => "NOT"
  | jump => "JUMP" | jumpIfFalse => "JUMP_IF_FALSE" | loop => "LOOP"
  | call => "CALL" | closure => "CLOSURE" | recur => "RECUR" | ret => "RETURN"
  | vector => "VECTOR" | map => "MAP" | set => "SET"

def ofMnemonic? (s : String) : Option Opcode := all.find? fun op => op.mnemonic == s

end Opcode

end TwinLisp
