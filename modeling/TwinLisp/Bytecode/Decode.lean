import TwinLisp.Bytecode.Chunk
import TwinLisp.Error.Running
/-!
Instructions as the machine reads them. Reading never looks outside the code: an offset at or past
its end, or operands that are cut off, are a fault, and so is a byte that names no instruction.

* `Chunk.fetch`: the instruction at an offset, with the offset of the next one (`fetch_next`).
-/

namespace TwinLisp

/-- An instruction with its operand bytes as one number. -/
structure Instruction where
  op : Opcode
  operand : Nat
  next : Nat
  deriving DecidableEq, Repr

namespace Instruction

def first (i : Instruction) : Nat := i.operand / 256

def second (i : Instruction) : Nat := i.operand % 256

end Instruction

namespace Chunk

def pastEnd : RuntimeFault := .general "Instruction pointer past the end of the chunk"

/-- A number of `width` bytes, at most two. -/
def operand? (c : Chunk) (at_ width : Nat) : Option Nat :=
  match width with
  | 0 => some 0
  | 1 => c.code[at_]?.map UInt8.toNat
  | _ => c.readWord? at_

def fetch (c : Chunk) (at_ : Nat) : Except RuntimeFault Instruction :=
  match c.code[at_]? with
  | none => .error pastEnd
  | some b =>
    match Opcode.ofByte? b with
    | none => .error (.invalidOpcode b)
    | some op =>
      match c.operand? (at_ + 1) op.width with
      | none => .error pastEnd
      | some n => .ok ⟨op, n, at_ + 1 + op.width⟩

theorem fetch_next {c : Chunk} {at_ : Nat} {i : Instruction} (h : c.fetch at_ = .ok i) :
    i.next = at_ + 1 + i.op.width := by
  unfold fetch at h
  split at h
  · cases h
  · split at h
    · cases h
    · split at h
      · cases h
      · cases h
        rfl

theorem fetch_lt {c : Chunk} {at_ : Nat} {i : Instruction} (h : c.fetch at_ = .ok i) :
    at_ < c.size := by
  unfold fetch at h
  split at h
  · cases h
  · next hb => exact (Array.getElem?_eq_some_iff.mp hb).1

end Chunk

end TwinLisp
