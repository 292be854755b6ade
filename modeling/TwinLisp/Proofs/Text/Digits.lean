import TwinLisp.Text.Digits

/-! Decimal digits read back. The text of a number is a run of digits behind an optional minus sign.

* `Text.natOfDigits?_toDigits`, `Text.intOfDigits?_text`: the digits of a number are read as it.
* `Text.int_text_cases`: the characters of an integer. -/

namespace TwinLisp.Text

theorem toNat_of_isDigit {c : Char} (h : c.isDigit = true) : 48 ≤ c.toNat ∧ c.toNat ≤ 57 := by
  simp only [Char.isDigit, Bool.and_eq_true, decide_eq_true_eq] at h
  exact ⟨UInt32.le_iff_toNat_le.mp h.1, UInt32.le_iff_toNat_le.mp h.2⟩

theorem mem_of_isDigit {c : Char} (h : c.isDigit = true) :
    c ∈ ['0', '1', '2', '3', '4', '5', '6', '7', '8', '9'] := by
  have hall : ∀ k < 10, Char.ofNat (48 + k) ∈ ['0', '1', '2', '3', '4', '5', '6', '7', '8', '9'] := by
    decide
  obtain ⟨hlow, hhigh⟩ := toNat_of_isDigit h
  have := hall (c.toNat - 48) (by omega)
  rwa [Nat.add_sub_cancel' hlow, Char.ofNat_toNat] at this

theorem digitValue?_of_isDigit {c : Char} (h : c.isDigit = true) :
    digitValue? 10 c = some (c.toNat - 48) := by
  obtain ⟨hlow, hhigh⟩ := toNat_of_isDigit h
  have hv : c.toNat - 48 < 10 := by omega
  simp [digitValue?, hlow, hhigh, hv]

theorem natOfDigitsFrom?_of_isDigit {cs : List Char} (h : ∀ c ∈ cs, c.isDigit = true) (acc : Nat) :
    natOfDigitsFrom? 10 acc cs = some (Nat.ofDigitChars 10 cs acc) := by
  induction cs generalizing acc with
  | nil => rfl
  | cons c cs ih =>
    obtain ⟨hc, hcs⟩ := List.forall_mem_cons.mp h
    rw [natOfDigitsFrom?, digitValue?_of_isDigit hc, Nat.mul_comm]
    exact ih hcs _

theorem isDigit_of_mem_digits {n : Nat} {c : Char} (h : c ∈ Nat.toDigits 10 n) :
    c.isDigit = true :=
  Nat.isDigit_of_mem_toDigits (by decide) (by decide) h

theorem natOfDigits?_toDigits (n : Nat) : natOfDigits? 10 (Nat.toDigits 10 n) = some n := by
  have hread := natOfDigitsFrom?_of_isDigit (fun c => isDigit_of_mem_digits (n := n)) 0
  rw [Nat.ofDigitChars_ten_toDigits] at hread
  rw [natOfDigits?]
  · exact hread
  · exact Nat.toDigits_ne_nil

/-- The text of an integer: digits, behind a minus sign if it is negative. -/
theorem int_text_cases (n : Int) :
    (∃ m : Nat, n = m ∧ (toString n).toList = Nat.toDigits 10 m) ∨
      ∃ m : Nat, n = -m ∧ (toString n).toList = '-' :: Nat.toDigits 10 m := by
  cases n with
  | ofNat m => exact .inl ⟨m, rfl, Nat.toList_repr⟩
  | negSucc m =>
    refine .inr ⟨m + 1, rfl, ?_⟩
    change ("-" ++ (m + 1).repr).toList = _
    rw [String.toList_append, Nat.toList_repr]
    rfl

theorem digits_eq_cons (n : Nat) : ∃ c cs, Nat.toDigits 10 n = c :: cs ∧ c.isDigit = true := by
  cases h : Nat.toDigits 10 n with
  | nil => exact absurd h Nat.toDigits_ne_nil
  | cons c cs =>
    have hc : c ∈ Nat.toDigits 10 n := by rw [h]; exact List.mem_cons_self
    exact ⟨c, cs, rfl, isDigit_of_mem_digits hc⟩

theorem intOfDigits?_text (n : Int) : intOfDigits? 10 (toString n).toList = some n := by
  rcases int_text_cases n with ⟨m, rfl, h⟩ | ⟨m, rfl, h⟩
  · obtain ⟨c, cs, hcs, hc⟩ := digits_eq_cons m
    have hread := natOfDigits?_toDigits m
    rw [h, hcs, intOfDigits?]
    · rw [← hcs, hread]
      rfl
    · intro _ he
      cases he
      exact absurd hc (by decide)
    · intro _ he
      cases he
      exact absurd hc (by decide)
  · rw [h, intOfDigits?, natOfDigits?_toDigits]
    rfl

theorem lt_length_digitsOnto (base fuel n : Nat) (acc : List Char) :
    acc.length < (digitsOnto base (fuel + 1) n acc).length := by
  induction fuel generalizing n acc with
  | zero =>
    rw [digitsOnto]
    split <;> simp [digitsOnto]
  | succ fuel ih =>
    rw [digitsOnto]
    split
    · simp
    · have hmore := ih (n / base) (digitChar (n % base) :: acc)
      rw [List.length_cons] at hmore
      exact Nat.lt_of_succ_lt hmore

theorem digitsOf_pos (base n : Nat) : 0 < (digitsOf base n).length := by
  rw [digitsOf]
  exact lt_length_digitsOnto base n.log2 n []

end TwinLisp.Text
