import Mathlib.Data.List.Basic
import TwinLisp.Error.Program
import TwinLisp.Machine.Step
import TwinLisp.Proofs.Value.Renaming

/-! The faults of corrupt bytecode. They are told from the faults a program can raise by the first
letters of their text.

* `RuntimeFault.Corrupt`: the faults that well-formed code on a well-formed stack never raises.
* `plain_general`: a general fault whose text does not begin like one of these. -/

namespace TwinLisp

/-- Faults that only corrupt bytecode, or a machine that got lost, can raise. -/
inductive RuntimeFault.Corrupt : RuntimeFault → Prop
  | underflow : Corrupt .stackUnderflow
  | opcode (b : UInt8) : Corrupt (.invalidOpcode b)
  | pastEnd : Corrupt Chunk.pastEnd
  | constant (n : Nat) : Corrupt (.general ("Constant " ++ toString n ++ " out of range"))
  | upvalue (n : Nat) : Corrupt (.general ("Upvalue " ++ toString n ++ " out of range"))
  | subFunction (n : Nat) : Corrupt (.general ("Sub-function " ++ toString n ++ " out of range"))
  | notVar (found : String) : Corrupt (.general ("Expected a Var constant, found " ++ found))
  | jump : Corrupt (.general "Jump before start of chunk")
  | lost : Corrupt Machine.lost

namespace RuntimeFault

/-- The value that a fault carries, with its functions renamed. -/
def rename (ρ : Renaming) : RuntimeFault → RuntimeFault
  | .thrown text v => .thrown text (v.rename ρ)
  | f => f

@[simp] theorem text_rename (ρ : Renaming) (f : RuntimeFault) : (f.rename ρ).text = f.text := by
  cases f <;> rfl

@[simp] theorem rename_id (f : RuntimeFault) : f.rename .id = f := by
  cases f with
  | thrown text v => rw [rename, Value.rename_id]
  | _ => rfl

/-- A fault that a program can raise at any time and that carries no value. -/
structure Plain (f : RuntimeFault) : Prop where
  sound : ¬ f.Corrupt
  bare : ∀ text v, f ≠ .thrown text v
  roomy : ∀ n, f ≠ .frameOverflow n

theorem Plain.rename {f : RuntimeFault} (h : f.Plain) (ρ : Renaming) : f.rename ρ = f := by
  cases f with
  | thrown text v => exact absurd rfl (h.bare text v)
  | _ => rfl

/-! ## Texts -/

/-- The first four letters of a text. -/
def stem (s : String) : List Char := s.toList.take 4

/-- How the texts of the general faults of corrupt bytecode begin. -/
def corruptStems : List (List Char) :=
  ["Inst", "Cons", "Upva", "Sub-", "Expe", "Jump", "VM s"].map String.toList

theorem stem_append {s t : String} (h : 4 ≤ s.toList.length) : stem (s ++ t) = stem s := by
  simp only [stem, String.toList_append]
  exact List.take_append_of_le_length h

theorem stem_of_corrupt {s : String} (h : Corrupt (.general s)) : stem s ∈ corruptStems := by
  cases h with
  | pastEnd | jump | lost => decide
  | constant n | upvalue n | subFunction n =>
    rw [String.append_assoc, stem_append] <;> decide
  | notVar t => rw [stem_append] <;> decide

theorem plain_general {s : String} (h : stem s ∉ corruptStems) : Plain (.general s) :=
  ⟨fun hc => h (stem_of_corrupt hc), nofun, nofun⟩

/-- A fault is plain if its text begins with a text that begins like no fault of corrupt bytecode. -/
theorem plain_general_append {s : String} (t : String) (hl : 4 ≤ s.toList.length)
    (h : stem s ∉ corruptStems) : Plain (.general (s ++ t)) :=
  plain_general (by rwa [stem_append hl])

theorem plain_wrongArity (name : String) (got : Nat) : Plain (.wrongArity name got) :=
  ⟨nofun, nofun, nofun⟩

theorem plain_stackOverflow : Plain .stackOverflow := ⟨nofun, nofun, nofun⟩

theorem plain_unboundVar (name : String) : Plain (.unboundVar name) := ⟨nofun, nofun, nofun⟩

theorem plain_typeError (s : String) : Plain (.typeError s) := ⟨nofun, nofun, nofun⟩

end RuntimeFault

/-- A fault of a program text that stays a plain one when the program runs. -/
structure ParseFault.Plain (f : ParseFault) : Prop where
  long : 4 ≤ f.text.toList.length
  stem : RuntimeFault.stem f.text ∉ RuntimeFault.corruptStems

namespace ParseFault

theorem plain_of_append {f : ParseFault} (s t : String) (h : f.text = s ++ t)
    (hl : 4 ≤ s.toList.length) (hs : RuntimeFault.stem s ∉ RuntimeFault.corruptStems) : f.Plain := by
  refine ⟨?_, ?_⟩
  · rw [h, String.toList_append, List.length_append]
    omega
  · rwa [h, RuntimeFault.stem_append hl]

theorem plain_unexpectedForm (expected found : String) : (unexpectedForm expected found).Plain :=
  plain_of_append "Unexpected form '" (found ++ "', expected " ++ expected) (by
    show "Unexpected form '" ++ found ++ "', expected " ++ expected = _
    simp only [String.append_assoc]) (by decide) (by decide)

theorem plain_unresolvedSymbol (name : String) : (unresolvedSymbol name).Plain :=
  plain_of_append "Unable to resolve symbol: " (name ++ " in this context") (by
    show "Unable to resolve symbol: " ++ name ++ " in this context" = _
    rw [String.append_assoc]) (by decide) (by decide)

theorem plain_wrongArity (form : String) (got : Nat) : (wrongArity form got).Plain :=
  plain_of_append "Wrong number of args (" (toString got ++ ") passed to " ++ form) (by
    show "Wrong number of args (" ++ toString got ++ ") passed to " ++ form = _
    simp only [String.append_assoc]) (by decide) (by decide)

theorem plain_general {s : String} (hl : 4 ≤ s.toList.length)
    (hs : RuntimeFault.stem s ∉ RuntimeFault.corruptStems) : (general s).Plain := ⟨hl, hs⟩

theorem plain_general_append {s : String} (t : String) (hl : 4 ≤ s.toList.length)
    (hs : RuntimeFault.stem s ∉ RuntimeFault.corruptStems) : (general (s ++ t)).Plain :=
  plain_of_append s t rfl hl hs

theorem Plain.message {e : ParseError} (h : e.cause.Plain) :
    (RuntimeFault.general e.message).Plain := by
  rw [ParseError.message, String.append_assoc]
  exact RuntimeFault.plain_general_append _ h.long h.stem

theorem plain_ofExpansion (e : RuntimeError) : (ParseError.ofExpansion e).cause.Plain :=
  plain_general_append e.message (by decide) (by decide)

end ParseFault

end TwinLisp
