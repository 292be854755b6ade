import TwinLisp.Bytecode.Chunk
import TwinLisp.Text.Digits
import TwinLisp.Value.Printing
/-!
Listings of bytecode, an instruction a line. A line begins with the instruction's offset and with
its source line, or a bar where that is the line of the byte before. Bytes that name no instruction,
and an instruction whose operands are cut off, are listed as such, so that every chunk has a listing.

* `Proto.instruction`: the line of one instruction and the offset of the next, which is greater
  (`lt_instruction_next`).
* `Proto.listing`: the listing of a function and of those inside it.
-/

namespace TwinLisp.Proto

open Text (padLeft padRight)

/-- An integer with at least four digits, the sign counting as one. -/
def fourDigits (n : Int) : String :=
  if n < 0 then "-" ++ padLeft 3 '0' (toString n.natAbs) else padLeft 4 '0' (toString n.natAbs)

/-- A mnemonic and its operand in columns. -/
def columns (op : Opcode) (operand : String) : String :=
  padRight 14 op.mnemonic ++ " " ++ padLeft 5 ' ' operand

/-- The offset of a line and the source line. -/
def gutter (c : Chunk) (at_ : Nat) : String :=
  let line := c.lines.getD at_ 0
  if at_ > 0 ∧ c.lines[at_ - 1]? = some line then fourDigits at_ ++ "    | "
  else fourDigits at_ ++ " " ++ padLeft 4 ' ' (toString line) ++ " "

def constantText (c : Chunk) (index : Nat) : String :=
  match c.constants[index]? with
  | some v => v.readable
  | none => "???"

/-- The lines of captured variables, and the offset after them; code that is cut off ends there. -/
def captureLines (c : Chunk) : (count at_ : Nat) → List String × Nat
  | 0, at_ => ([], at_)
  | count + 1, at_ =>
    match c.code[at_]?, c.code[at_ + 1]? with
    | some isLocal, some index =>
      let (rest, stop) := captureLines c count (at_ + 2)
      let kind := if isLocal = 0 then "upvalue" else "local"
      ((fourDigits at_ ++ "    |   " ++ padRight 14 kind ++ " " ++ toString index.toNat) :: rest,
        stop)
    | _, _ => ([], c.size)

/-- The line of one instruction without its gutter, further lines, and the offset of the next. -/
def instruction (p : Proto) (at_ : Nat) : List String × Nat :=
  let c := p.chunk
  let b := c.code.getD at_ 0
  match Opcode.ofByte? b with
  | none => ([gutter c at_ ++ "<invalid 0x" ++ Text.hexByte b ++ ">"], at_ + 1)
  | some op =>
    let next := at_ + 1 + op.width
    if next > c.size then ([gutter c at_ ++ op.mnemonic ++ " <truncated>"], c.size)
    else
      let word := (c.readWord? (at_ + 1)).getD 0
      let first := (c.code.getD (at_ + 1) 0).toNat
      let line (s : String) : List String := [gutter c at_ ++ s]
      match op with
      | .const | .getVar | .setVar =>
        (line (columns op (toString word) ++ " (" ++ constantText c word ++ ")"), next)
      | .popN | .getLocal | .setLocal | .getUpvalue | .setUpvalue | .closeUpvalue | .call =>
        (line (columns op (toString first)), next)
      | .jump | .jumpIfFalse =>
        let distance := Chunk.signedWord word
        (line (columns op (toString distance) ++ " -> " ++ fourDigits (next + distance)), next)
      | .loop =>
        (line (columns op (toString word) ++ " -> " ++ fourDigits ((next : Int) - word)), next)
      | .recur =>
        let second := (c.code.getD (at_ + 2) 0).toNat
        (line (columns op (toString first) ++ " from " ++ toString second), next)
      | .vector | .map | .set => (line (columns op (toString word)), next)
      | .closure =>
        match p.subs[word]? with
        | none => (line (columns op (toString word) ++ " (?)"), next)
        | some sub =>
          let (rest, stop) := captureLines c sub.captures.size next
          (line (columns op (toString word) ++ " (<fn " ++ sub.name ++ ">)") ++ rest, stop)
      | _ => (line op.mnemonic, next)

theorem le_captureLines (c : Chunk) (count at_ : Nat) (h : at_ ≤ c.size) :
    at_ ≤ (captureLines c count at_).2 := by
  induction count generalizing at_ with
  | zero => exact Nat.le_refl _
  | succ n ih =>
    unfold captureLines
    split
    · rename_i x y hx hy
      have hlt : at_ + 1 < c.code.size := by
        rcases Array.getElem?_eq_some_iff.mp hy with ⟨hi, _⟩
        exact hi
      have := ih (at_ + 2) (by unfold Chunk.size; omega)
      simp only
      omega
    · exact h

theorem lt_instruction_next (p : Proto) (at_ : Nat) (h : at_ < p.chunk.size) :
    at_ < (p.instruction at_).2 := by
  unfold instruction
  simp only
  split
  · exact Nat.lt_succ_self _
  · split
    · exact h
    · rename_i op _ hn
      split <;> try (simp only; omega)
      split
      · simp only; omega
      · rename_i sub _
        have := le_captureLines p.chunk sub.captures.size (at_ + 1 + Opcode.width .closure)
          (by omega)
        simp only
        omega

/-- The lines of the code from an offset on, behind those already listed in reverse. -/
def codeLines (p : Proto) (at_ : Nat) (acc : List String) : List String :=
  if _h : at_ < p.chunk.size then
    codeLines p (p.instruction at_).2 ((p.instruction at_).1.reverse ++ acc)
  else acc.reverse
termination_by p.chunk.size - at_
decreasing_by
  have := lt_instruction_next p at_ _h
  omega

def heading (p : Proto) : String :=
  "== " ++ (if p.name.isEmpty then "<fn>" else p.name) ++ " (arity " ++ toString p.arity ++
    ", upvalues " ++ toString p.captures.size ++ ") =="

mutual

/-- The listing of a function, and after a blank line each of the functions inside it. -/
def listing : Proto → List String
  | ⟨name, arity, chunk, captures, ⟨subs⟩⟩ =>
    let p : Proto := ⟨name, arity, chunk, captures, ⟨subs⟩⟩
    p.heading :: p.codeLines 0 [] ++ listings subs

def listings : List Proto → List String
  | [] => []
  | p :: rest => "" :: p.listing ++ listings rest

end

end TwinLisp.Proto
