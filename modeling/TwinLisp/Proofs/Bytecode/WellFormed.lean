import TwinLisp.Bytecode.Compile
import TwinLisp.Bytecode.Decode

/-! Static well-formedness of compiled functions. Instructions follow one another from the beginning
of the code to its end, and each place has an outline of the frame: how high the stack is, and which
slots nested functions may have captured. Every instruction fits the outline of its place and leads
to places whose outlines fit what it does.

* `Proto.Walk`, `Proto.Boundary`: the offsets where instructions begin.
* `Outline`, `Instruction.after`: the frame at a place, and after an instruction there.
* `Proto.Admits`: an instruction fits its place.
* `Proto.WellFormed`: a function, with the functions inside it. -/

namespace TwinLisp

/-- The frame of a function at some place of its code: the height of the stack above the base, and
the slots of locals that nested functions may have captured. -/
structure Outline where
  height : Nat
  held : List Nat

namespace Outline

/-- The frame after the cells of all slots from `n` on have been closed. -/
def closedFrom (o : Outline) (n : Nat) : Outline := ⟨o.height, o.held.filter (· < n)⟩

/-- A frame may arrive at a place: it is as high, and captured slots are known as such there. -/
structure Into (o o' : Outline) : Prop where
  height : o'.height = o.height
  held : ∀ s ∈ o.held, s ∈ o'.held

theorem Into.refl (o : Outline) : o.Into o := ⟨rfl, fun _ h => h⟩

theorem Into.trans {o o' o'' : Outline} (h : o.Into o') (h' : o'.Into o'') : o.Into o'' :=
  ⟨h'.height.trans h.height, fun s hs => h'.held s (h.held s hs)⟩

end Outline

namespace Instruction

/-- How many values an instruction takes from the top of the stack. -/
def takes (i : Instruction) : Nat :=
  match i.op with
  | .const | .nil | .true | .false | .getLocal | .getUpvalue | .closeUpvalue | .getVar | .jump
  | .loop | .closure => 0
  | .pop | .setLocal | .setUpvalue | .setVar | .negate | .not | .jumpIfFalse | .ret => 1
  | .add | .subtract | .multiply | .divide | .equal | .less | .greater => 2
  | .popN | .call => i.operand + 1
  | .vector | .set => i.operand
  | .map => i.operand * 2
  | .recur => i.first

def gives (i : Instruction) : Nat :=
  match i.op with
  | .pop | .closeUpvalue | .jump | .jumpIfFalse | .loop | .ret => 0
  | .recur => i.first
  | _ => 1

def after (i : Instruction) (o : Outline) : Outline :=
  match i.op with
  | .closeUpvalue => o.closedFrom i.operand
  | .recur => ⟨i.second + i.first, (o.closedFrom i.second).held⟩
  | _ => ⟨o.height - i.takes + i.gives, o.held⟩

end Instruction

namespace Proto

variable (p : Proto)

/-- Where the next instruction begins: the pairs behind `closure` belong to it. -/
def next (i : Instruction) : Nat :=
  match i.op, p.subs[i.operand]? with
  | .closure, some q => i.next + 2 * q.captures.size
  | _, _ => i.next

/-- Where a function may go on after an instruction. -/
def targets (i : Instruction) : List Nat :=
  match i.op with
  | .jump => [i.next + i.operand]
  | .jumpIfFalse => [i.next, i.next + i.operand]
  | .loop => [i.next - i.operand]
  | .ret => []
  | _ => [p.next i]

/-- Instructions follow one another from an offset to another. -/
inductive Walk : Nat → Nat → Prop
  | refl {k} : Walk k k
  | step {k m i} (h : p.chunk.fetch k = .ok i) (hw : Walk (p.next i) m) : Walk k m

/-- An instruction begins at an offset, or the code ends there. -/
def Boundary (k : Nat) : Prop := p.Walk 0 k

/-- The pairs of bytes behind the instruction that makes a closure. -/
def HasPairs (k : Nat) (cs : Array Capture) : Prop :=
  ∀ i c, cs[i]? = some c → p.chunk.code[k + 2 * i]? = some (if c.isLocal then 1 else 0) ∧
    p.chunk.code[k + 2 * i + 1]? = some c.index

/-- What a nested function captures is a captured slot of the frame, or a variable that the function
has captured itself. -/
def Reaches (o : Outline) (c : Capture) : Prop :=
  if c.isLocal then c.index.toNat ∈ o.held ∧ c.index.toNat < o.height
  else c.index.toNat < p.captures.size

/-- The operands of an instruction mean something at its place. -/
def Means (o : Outline) (i : Instruction) : Prop :=
  match i.op with
  | .const => i.operand < p.chunk.constants.size
  | .getVar | .setVar => ∃ v, p.chunk.constants[i.operand]? = some (.var v)
  | .getLocal | .setLocal | .closeUpvalue => i.operand < o.height
  | .getUpvalue | .setUpvalue => i.operand < p.captures.size
  | .jump | .jumpIfFalse => i.operand < 32768
  | .loop => i.operand ≤ i.next
  | .closure => ∃ q, p.subs[i.operand]? = some q ∧ p.HasPairs i.next q.captures ∧
    ∀ c ∈ q.captures, p.Reaches o c
  | .recur => i.second + i.first ≤ o.height
  | _ => True

/-- An instruction fits a frame: no captured slot is dropped. -/
structure Fits (o : Outline) (i : Instruction) : Prop where
  means : p.Means o i
  takes : i.takes ≤ o.height
  kept : ∀ s ∈ o.held, s < o.height - i.takes

variable (S : Nat → Outline)

structure Admits (k : Nat) (i : Instruction) : Prop where
  fits : p.Fits (S k) i
  leads : ∀ t ∈ p.targets i, p.Boundary t ∧ t < p.chunk.size ∧ (i.after (S k)).Into (S t)

structure Outlined : Prop where
  tiles : p.Boundary p.chunk.size
  start : (S 0).height = p.arity + 1
  admits : ∀ k, p.Boundary k → k < p.chunk.size → ∃ i, p.chunk.fetch k = .ok i ∧ p.Admits S k i
  last : ∃ k, p.Boundary k ∧ k + 1 = p.chunk.size ∧ p.chunk.fetch k = .ok ⟨.ret, 0, k + 1⟩ ∧
    (S k).height = p.arity + 2

/-- A well-formed function; so are all functions inside it. -/
inductive WellFormed : Proto → Prop
  | mk {p : Proto} {S : Nat → Outline} (h : p.Outlined S) (hs : ∀ q ∈ p.subs, WellFormed q) :
    WellFormed p

variable {p} {S}

namespace Walk

variable {k l m : Nat}

theorem one {i : Instruction} (h : p.chunk.fetch k = .ok i) : p.Walk k (p.next i) := .step h .refl

theorem trans (h : p.Walk k l) (h' : p.Walk l m) : p.Walk k m := by
  induction h with
  | refl => exact h'
  | step hf _ ih => exact .step hf (ih h')

theorem next_gt {i : Instruction} (h : p.chunk.fetch k = .ok i) : k < p.next i := by
  have hn : i.next = k + 1 + i.op.width := Chunk.fetch_next h
  unfold next
  split
  · omega
  · omega

theorem le (h : p.Walk k m) : k ≤ m := by
  induction h with
  | refl => exact Nat.le_refl _
  | step hf _ ih =>
    have := next_gt hf
    omega

/-- Of two walks from one offset the shorter is the beginning of the longer. -/
theorem compare (h : p.Walk k l) (h' : p.Walk k m) (hle : l ≤ m) : p.Walk l m := by
  induction h with
  | refl => exact h'
  | step hf hw ih =>
    cases h' with
    | refl =>
      have := next_gt hf
      have := hw.le
      omega
    | step hf' hw' =>
      rw [hf] at hf'
      cases hf'
      exact ih hw' hle

theorem next_le {i : Instruction} (h : p.Walk k m) (hf : p.chunk.fetch k = .ok i) (hlt : k < m) :
    p.next i ≤ m := by
  cases h with
  | refl => omega
  | step hf' hw =>
    rw [hf] at hf'
    cases hf'
    exact hw.le

end Walk

end Proto

end TwinLisp
