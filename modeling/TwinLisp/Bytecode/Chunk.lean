import TwinLisp.Bytecode.Opcode
import TwinLisp.Error.Program
import TwinLisp.Value.Basic
/-!
Code of one function: instruction bytes, the source line of every byte, and a pool of constants.
Constants are never shared; the pool holds at most 65535 of them.

* `emitJump`, `patchJump`: a forward jump is written with a placeholder, which is overwritten when
  its target is known to be the end of the code.
* `emitLoop`: a backward jump to a known offset.
* `Proto`: a compiled function, with the functions written inside it.
-/

namespace TwinLisp

structure Chunk where
  code : Array UInt8
  constants : Array Value
  lines : Array Nat
  deriving Inhabited

namespace Chunk

def empty : Chunk := ⟨#[], #[], #[]⟩

def maxConstants : Nat := 65535

def size (c : Chunk) : Nat := c.code.size

def writeByte (c : Chunk) (b : UInt8) (line : Nat) : Chunk :=
  { c with code := c.code.push b, lines := c.lines.push line }

def writeOp (c : Chunk) (op : Opcode) (line : Nat) : Chunk := c.writeByte op.byte line

/-- The high byte of a number of sixteen bits. -/
def highByte (n : Nat) : UInt8 := UInt8.ofNat (n / 256)

def lowByte (n : Nat) : UInt8 := UInt8.ofNat n

def writeWord (c : Chunk) (n : Nat) (line : Nat) : Chunk :=
  (c.writeByte (highByte n) line).writeByte (lowByte n) line

/-- The number that two bytes stand for. -/
def wordOf (high low : UInt8) : Nat := high.toNat * 256 + low.toNat

theorem wordOf_bytes {n : Nat} (h : n < 65536) :
    (highByte n).toNat * 256 + (lowByte n).toNat = n := by
  have : (lowByte n).toNat = n % 256 := by simp [lowByte]
  rw [highByte, UInt8.toNat_ofNat_of_lt' (show n / 256 < 256 by omega), this]
  omega

/-- A number of sixteen bits with its highest bit as sign. -/
def signedWord (n : Nat) : Int := if n < 32768 then n else (n : Int) - 65536

def readWord? (c : Chunk) (at_ : Nat) : Option Nat :=
  match c.code[at_]?, c.code[at_ + 1]? with
  | some h, some l => some (wordOf h l)
  | _, _ => none

/-- Adds a constant; the answer is its index, or that the pool is full. -/
def addConstant (c : Chunk) (v : Value) (line : Nat) : Except CompileError Nat × Chunk :=
  if c.constants.size ≥ maxConstants then (.error ⟨.tooManyConstants, .ofLine line⟩, c)
  else (.ok c.constants.size, { c with constants := c.constants.push v })

/-- Adds a constant and the instruction that pushes it. -/
def emitConstant (c : Chunk) (v : Value) (line : Nat) : Except CompileError Chunk :=
  match c.addConstant v line with
  | (.ok i, c) => .ok ((c.writeOp .const line).writeWord i line)
  | (.error e, _) => .error e

/-- Writes a jump without target; the answer is the offset of its operand. -/
def emitJump (c : Chunk) (op : Opcode) (line : Nat) : Nat × Chunk :=
  let c := (c.writeOp op line).writeWord 65535 line
  (c.size - 2, c)

/-- Lets the jump whose operand stands at `placeholder` go to the end of the code. -/
def patchJump (c : Chunk) (placeholder : Nat) : Except CompileError Chunk :=
  let distance := c.size - (placeholder + 2)
  if placeholder + 2 ≤ c.size ∧ distance ≤ 32767 then
    .ok { c with
      code := (c.code.setIfInBounds placeholder (highByte distance)).setIfInBounds
        (placeholder + 1) (lowByte distance) }
  else .error ⟨.jumpTooLarge, .ofLine (c.lines.getD placeholder 0)⟩

/-- Writes a backward jump; when it is too long its opcode has been written nevertheless. -/
def emitLoop (c : Chunk) (start : Nat) (line : Nat) : Except CompileError Unit × Chunk :=
  let c := c.writeOp .loop line
  if start ≤ c.size + 2 ∧ c.size + 2 - start ≤ 65535 then
    (.ok (), c.writeWord (c.size + 2 - start) line)
  else (.error ⟨.jumpTooLarge, .ofLine line⟩, c)

@[simp] theorem size_writeByte (c : Chunk) (b : UInt8) (line : Nat) :
    (c.writeByte b line).size = c.size + 1 := by
  simp [writeByte, size]

@[simp] theorem size_writeOp (c : Chunk) (op : Opcode) (line : Nat) :
    (c.writeOp op line).size = c.size + 1 := by
  simp [writeOp]

@[simp] theorem size_writeWord (c : Chunk) (n line : Nat) :
    (c.writeWord n line).size = c.size + 2 := by
  simp [writeWord]

end Chunk

/-- How a function captures one variable of the function around it: a slot of that function, or one
of the variables it has captured itself. -/
structure Capture where
  isLocal : Bool
  index : UInt8
  deriving DecidableEq, Repr, Inhabited

/-- A compiled function of a fixed number of arguments. -/
structure Proto where
  name : String
  arity : Nat
  chunk : Chunk
  captures : Array Capture
  subs : Array Proto
  deriving Inhabited

end TwinLisp
