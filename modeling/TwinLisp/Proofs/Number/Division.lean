import Mathlib.Data.Int.ModEq
import TwinLisp.Number.Tower

/-! Division of words. The quotient is cut off towards zero and the remainder has the sign of the
dividend; the modulus is the remainder, or the sum of remainder and divisor where their signs differ.
Numbers of different signs have a sum between them, so that this sum is a word.

* `Word.toInt_div_eq`: the quotient, but for the one that is no word.
* `Word.correction_fits`: the sum of a remainder and a divisor of the other sign.
* `Number.division`: the three operations together. -/

namespace TwinLisp

namespace Word

variable {x y r : Int64}

theorem toInt_ne_zero (h : y ≠ 0) : y.toInt ≠ 0 := fun e => h (Int64.toInt_inj.mp e)

/-- Only the least word has a quotient that is no word, by minus one. -/
theorem toInt_div_eq (h : ¬ (x = Int64.minValue ∧ y = -1)) : (x / y).toInt = x.toInt.tdiv y.toInt := by
  by_cases hx : x = Int64.minValue
  · exact Int64.toInt_div_of_ne_right x y fun hy => h ⟨hx, hy⟩
  · exact Int64.toInt_div_of_ne_left x y hx

theorem quot_mul_add_rem (x y : Int64) :
    (x / y).toInt * y.toInt + (x % y).toInt ≡ x.toInt [ZMOD 2 ^ 64] := by
  have hq : (x / y).toInt ≡ x.toInt.tdiv y.toInt [ZMOD 2 ^ 64] := by
    rw [Int64.toInt_div]
    exact Int.bmod_emod
  calc (x / y).toInt * y.toInt + (x % y).toInt
      ≡ x.toInt.tdiv y.toInt * y.toInt + x.toInt.tmod y.toInt [ZMOD 2 ^ 64] := by
        rw [Int64.toInt_mod]
        exact (hq.mul_right _).add_right _
    _ = x.toInt := Int.tdiv_mul_add_tmod x.toInt y.toInt

theorem tmod_bounds (a : Int) {b : Int} (h : b ≠ 0) :
    |a.tmod b| < |b| ∧ (a.tmod b = 0 ∨ (a.tmod b).sign = a.sign) := by
  have hlt : |a.tmod b| < |b| := by
    rw [Int.abs_eq_natAbs, Int.abs_eq_natAbs, Int.natAbs_tmod]
    exact_mod_cast Nat.mod_lt _ (Int.natAbs_pos.mpr h)
  refine ⟨hlt, ?_⟩
  rcases Int.lt_trichotomy a 0 with ha | rfl | ha
  · have hneg := Int.tmod_nonneg b (neg_nonneg.mpr ha.le)
    rw [Int.neg_tmod] at hneg
    rcases (neg_nonneg.mp hneg).eq_or_lt with hr | hr
    · exact .inl hr
    · exact .inr (by rw [Int.sign_eq_neg_one_of_neg hr, Int.sign_eq_neg_one_of_neg ha])
  · exact .inl (Int.zero_tmod b)
  · rcases (Int.tmod_nonneg b ha.le).eq_or_lt with hr | hr
    · exact .inl hr.symm
    · exact .inr (by rw [Int.sign_eq_one_of_pos hr, Int.sign_eq_one_of_pos ha])

theorem sign_ne_iff : (decide (r < 0) != decide (y < 0)) = true ↔ ¬ (r.toInt < 0 ↔ y.toInt < 0) := by
  simp only [bne_iff_ne, ne_eq, decide_eq_decide, Int64.lt_iff_toInt_lt, Int64.toInt_zero]

/-- Words of different signs have a sum between them. -/
theorem correction_fits (h : ¬ (r.toInt < 0 ↔ y.toInt < 0)) : Fits (r.toInt + y.toInt) := by
  have hr := fits_toInt r
  have hy := fits_toInt y
  unfold Fits at *
  omega

theorem toInt_add_eq (h : Fits (r.toInt + y.toInt)) : (r + y).toInt = r.toInt + y.toInt := by
  rw [Int64.toInt_add]
  unfold Fits at h
  exact Int.bmod_eq_of_le (by omega) (by omega)

/-- The modulus: a remainder, corrected where its sign is not that of the divisor. -/
def corrected (r y : Int64) : Int64 :=
  if r ≠ 0 ∧ (decide (r < 0) != decide (y < 0)) then r + y else r

theorem toInt_corrected :
    (corrected r y).toInt =
      if r.toInt ≠ 0 ∧ ¬ (r.toInt < 0 ↔ y.toInt < 0) then r.toInt + y.toInt else r.toInt := by
  have hzero : r ≠ 0 ↔ r.toInt ≠ 0 := by rw [ne_eq, ← Int64.toInt_inj, Int64.toInt_zero]
  simp only [corrected, hzero, sign_ne_iff]
  split
  · next h => exact toInt_add_eq (correction_fits h.2)
  · rfl

/-- The modulus differs from the remainder by a multiple of the divisor, is smaller than it and has
its sign. -/
theorem corrected_bounds (h : |r.toInt| < |y.toInt|) :
    (corrected r y).toInt ≡ r.toInt [ZMOD y.toInt] ∧ |(corrected r y).toInt| < |y.toInt| ∧
      (corrected r y = 0 ∨ (corrected r y).toInt.sign = y.toInt.sign) := by
  rw [← Int64.toInt_inj, Int64.toInt_zero, toInt_corrected]
  split
  · next hc =>
    refine ⟨Int.add_modEq_right, ?_, .inr ?_⟩
    · rw [Int.abs_eq_natAbs, Int.abs_eq_natAbs] at *
      omega
    · rw [Int.abs_eq_natAbs, Int.abs_eq_natAbs] at h
      rcases Int.lt_trichotomy y.toInt 0 with hy | hy | hy
      · rw [Int.sign_eq_neg_one_of_neg hy, Int.sign_eq_neg_one_of_neg (by omega)]
      · omega
      · rw [Int.sign_eq_one_of_pos hy, Int.sign_eq_one_of_pos (by omega)]
  · next hc =>
    refine ⟨rfl, h, ?_⟩
    rcases Int.lt_trichotomy r.toInt 0 with hr | hr | hr
    · have hy : y.toInt < 0 := by omega
      exact .inr (by rw [Int.sign_eq_neg_one_of_neg hr, Int.sign_eq_neg_one_of_neg hy])
    · exact .inl hr
    · have hy : 0 < y.toInt := by
        rw [Int.abs_eq_natAbs, Int.abs_eq_natAbs] at h
        omega
      exact .inr (by rw [Int.sign_eq_one_of_pos hr, Int.sign_eq_one_of_pos hy])

end Word

namespace Number

open Word (corrected)

variable {x y : Int64}

theorem modulo_words (hy : y ≠ 0) :
    modulo (.int x) (.int y) = .ok (.int (corrected (x % y) y)) := by
  simp only [modulo, if_neg hy, corrected]

/-- The division of words by any divisor but zero. Quotient and remainder belong together up to
`2^64`; the quotient is cut off towards zero, and wraps for the least word by minus one alone; the
remainder has the sign of the dividend and the modulus that of the divisor, and both are smaller than
the divisor; and the sum by which the modulus corrects the remainder is a word. -/
theorem division (hy : y ≠ 0) :
    ∃ q r m : Int64,
      (quot (.int x) (.int y) = .ok (.int q) ∧ rem (.int x) (.int y) = .ok (.int r) ∧
        modulo (.int x) (.int y) = .ok (.int m)) ∧
      q.toInt * y.toInt + r.toInt ≡ x.toInt [ZMOD 2 ^ 64] ∧
      (q.toInt = x.toInt.tdiv y.toInt ∨ x = Int64.minValue ∧ y = -1 ∧ q = Int64.minValue) ∧
      ((r = 0 ∨ r.toInt.sign = x.toInt.sign) ∧ |r.toInt| < |y.toInt|) ∧
      (m.toInt ≡ x.toInt [ZMOD y.toInt] ∧ (m = 0 ∨ m.toInt.sign = y.toInt.sign) ∧
        |m.toInt| < |y.toInt|) ∧
      (r ≠ 0 → ¬ (r < 0 ↔ y < 0) →
        Word.Fits (r.toInt + y.toInt) ∧ m.toInt = r.toInt + y.toInt) := by
  have hrem : (x % y).toInt = x.toInt.tmod y.toInt := Int64.toInt_mod x y
  have hbounds := Word.tmod_bounds x.toInt (Word.toInt_ne_zero hy)
  obtain ⟨hlt, hsign⟩ := hrem ▸ hbounds
  obtain ⟨hmod, hmlt, hmsign⟩ := Word.corrected_bounds hlt
  refine ⟨x / y, x % y, corrected (x % y) y, ⟨if_neg hy, if_neg hy, modulo_words hy⟩,
    Word.quot_mul_add_rem x y, ?quotient, ⟨?sign, hlt⟩, ⟨?congruent, hmsign, hmlt⟩, ?correction⟩
  case quotient =>
    by_cases h : x = Int64.minValue ∧ y = -1
    · obtain ⟨rfl, rfl⟩ := h
      exact .inr ⟨rfl, rfl, rfl⟩
    · exact .inl (Word.toInt_div_eq h)
  case sign => rwa [← Int64.toInt_inj, Int64.toInt_zero]
  case congruent =>
    have hx : x.toInt.tmod y.toInt ≡ x.toInt [ZMOD y.toInt] := by
      rw [Int.tmod_def]
      exact Int.modEq_iff_dvd.mpr ⟨x.toInt.tdiv y.toInt, sub_sub_cancel _ _⟩
    exact hmod.trans (hrem ▸ hx)
  case correction =>
    intro hr hs
    simp only [Int64.lt_iff_toInt_lt, Int64.toInt_zero] at hs
    refine ⟨Word.correction_fits hs, ?_⟩
    rw [Word.toInt_corrected, if_pos ⟨Word.toInt_ne_zero hr, hs⟩]

/-- The least word by minus one wraps, and the modulus of the least word by three is corrected. -/
theorem division_of_least :
    ((-1 : Int64) ≠ 0 ∧ (3 : Int64) ≠ 0) ∧
      (∃ q r m : Int64, quot (.int Int64.minValue) (.int (-1)) = .ok (.int q) ∧
        rem (.int Int64.minValue) (.int (-1)) = .ok (.int r) ∧
        modulo (.int Int64.minValue) (.int (-1)) = .ok (.int m) ∧ q = Int64.minValue ∧ r = 0) ∧
      ∃ m : Int64, modulo (.int Int64.minValue) (.int 3) = .ok (.int m) ∧ m.toInt = 1 := by
  have h₁ : (-1 : Int64) ≠ 0 := by decide
  have h₃ : (3 : Int64) ≠ 0 := by decide
  obtain ⟨q, r, m, ⟨hq, hr, hm⟩, -⟩ := division (x := Int64.minValue) h₁
  obtain ⟨_, r₃, m₃, ⟨-, hr₃, hm₃⟩, -, -, -, -, hsum⟩ := division (x := Int64.minValue) h₃
  refine ⟨⟨h₁, h₃⟩, ⟨q, r, m, hq, hr, hm, ?_, ?_⟩, m₃, hm₃, ?_⟩
  · cases hq
    decide
  · cases hr
    decide
  · cases hr₃
    exact (hsum (by decide) (by decide)).2

end Number

end TwinLisp
