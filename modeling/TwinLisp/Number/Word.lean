/-!
Words: integers of 64 bits. `Word.ofInt?` is the word of an integer that fits, and nothing else
(`ofInt?_eq_some_iff`).
-/

namespace TwinLisp.Word

/-- Whether an integer is a word: at least `-2^63` and below `2^63`. -/
def Fits (n : Int) : Prop := -9223372036854775808 ≤ n ∧ n < 9223372036854775808

instance (n : Int) : Decidable (Fits n) := inferInstanceAs (Decidable (_ ∧ _))

/-- The word of an integer, if it fits. -/
def ofInt? (n : Int) : Option Int64 := if Fits n then some (Int64.ofInt n) else none

theorem toInt_ofInt {n : Int} (h : Fits n) : (Int64.ofInt n).toInt = n :=
  Int64.toInt_ofInt_of_le (by simpa [Fits] using h.1) (by simpa [Fits] using h.2)

theorem fits_toInt (w : Int64) : Fits w.toInt :=
  ⟨by simpa using Int64.le_toInt w, by simpa using Int64.toInt_lt w⟩

theorem ofInt?_eq_some_iff {n : Int} {w : Int64} : ofInt? n = some w ↔ w.toInt = n := by
  unfold ofInt?
  split
  · rename_i h
    constructor
    · intro e
      rw [← Option.some.inj e, toInt_ofInt h]
    · intro e
      rw [← e, Int64.ofInt_toInt]
  · rename_i h
    constructor
    · intro e; simp at e
    · intro e
      exact absurd (e ▸ fits_toInt w) h

end TwinLisp.Word
