import Mathlib.Algebra.Order.Field.Rat
import Mathlib.Data.Rat.Lemmas
import Mathlib.Tactic.FieldSimp
import Mathlib.Tactic.Positivity
import TwinLisp.Proofs.Number.Fraction
import TwinLisp.Value.Equality

/-! Words and ratios as rational numbers. Every operation on them that is computed with ratios has
the canonical value of the exact result, or is an overflow if its lowest terms do not fit; the
order is that of the rational numbers.

* `Number.rational`: the rational number of a word or a ratio.
* `Number.Canonical`: the answer that stands for a rational number.
* `Number.ratio_canonical`: a fraction is computed as such an answer. -/

namespace TwinLisp.Number

def isExact : Value → Bool
  | .int _ | .ratio _ => true
  | _ => false

def isRatio : Value → Bool
  | .ratio _ => true
  | _ => false

/-- The rational number that a word or a ratio stands for. -/
def rational (v : Value) : ℚ := (fraction v).1 / (fraction v).2

/-- The answer that stands for a rational number: the word it is, or the ratio with the same lowest
terms, or an overflow if these are no words. -/
inductive Canonical (q : ℚ) : Except RuntimeFault Value → Prop
  | whole {n : Int64} (h : q = n.toInt) : Canonical q (.ok (.int n))
  | proper {r : Ratio} (hn : q.num = r.num.toInt) (hd : (q.den : Int) = r.den.toInt) :
    Canonical q (.ok (.ratio r))
  | overflow (h : ¬ (Word.Fits q.num ∧ Word.Fits q.den)) : Canonical q (.error ratioOverflow)

/-! ## Parts -/

variable {a b v : Value}

theorem fraction_den_pos (v : Value) : 0 < (fraction v).2 := by
  cases v with
  | ratio r => exact Int.lt_trans Int.one_pos r.proper
  | _ => exact Int.one_pos

theorem fraction_coprime (v : Value) : Int.gcd (fraction v).1 (fraction v).2 = 1 := by
  cases v with
  | ratio r => exact r.coprime
  | _ => exact Int.gcd_one_right _

theorem fraction_inj (ha : isExact a) (hb : isExact b) (h : fraction a = fraction b) : a = b := by
  cases a with
  | int m =>
    cases b with
    | int n => rw [Int64.toInt_inj.mp (Prod.mk.inj h).1]
    | ratio r => exact absurd (Prod.mk.inj h).2 r.proper.ne
    | _ => cases hb
  | ratio r =>
    cases b with
    | int n => exact absurd (Prod.mk.inj h).2 r.proper.ne'
    | ratio s =>
      obtain ⟨rn, rd, _, _⟩ := r
      obtain ⟨sn, sd, _, _⟩ := s
      obtain rfl : rn = sn := Int64.toInt_inj.mp (Prod.mk.inj h).1
      obtain rfl : rd = sd := Int64.toInt_inj.mp (Prod.mk.inj h).2
      rfl
    | _ => cases hb
  | _ => cases ha

theorem fraction_fits (v : Value) : Word.Fits (fraction v).1 ∧ Word.Fits (fraction v).2 := by
  have hzero : Word.Fits 0 := by decide
  have hone : Word.Fits 1 := by decide
  cases v with
  | int n => exact ⟨Word.fits_toInt n, hone⟩
  | ratio r => exact ⟨Word.fits_toInt r.num, Word.fits_toInt r.den⟩
  | _ => exact ⟨hzero, hone⟩

theorem num_den_div (num : Int) {den : Int} (h : den ≠ 0) :
    (num / den : ℚ).num = (lowest num den).1 ∧
      ((num / den : ℚ).den : Int) = (lowest num den).2 := by
  have hpos := lowest_pos num h
  have hq : (num / den : ℚ) = (lowest num den).1 / (lowest num den).2 := by
    rw [div_eq_div_iff (by exact_mod_cast h) (by exact_mod_cast hpos.ne')]
    exact_mod_cast lowest_cross num den
  rw [hq]
  exact ⟨Rat.num_div_eq_of_coprime hpos (gcd_lowest num h),
    Rat.den_div_eq_of_coprime hpos (gcd_lowest num h)⟩

theorem rational_num_den (v : Value) :
    (rational v).num = (fraction v).1 ∧ ((rational v).den : Int) = (fraction v).2 :=
  ⟨Rat.num_div_eq_of_coprime (fraction_den_pos v) (fraction_coprime v),
    Rat.den_div_eq_of_coprime (fraction_den_pos v) (fraction_coprime v)⟩

/-! ## Canonical answers -/

variable {q : ℚ}

/-- The answers that are values. -/
theorem canonical_ok_iff : Canonical q (.ok v) ↔
    isExact v ∧ q.num = (fraction v).1 ∧ (q.den : Int) = (fraction v).2 := by
  constructor
  · intro h
    cases h with
    | whole h => exact ⟨rfl, by rw [h]; exact Rat.num_intCast _, by rw [h, Rat.den_intCast]; rfl⟩
    | proper hn hd => exact ⟨rfl, hn, hd⟩
  · rintro ⟨hv, hn, hd⟩
    cases v with
    | int n =>
      have hone : q.den = 1 := Int.ofNat_inj.mp hd
      exact .whole (by rw [← (Rat.den_eq_one_iff q).mp hone, hn]; rfl)
    | ratio r => exact .proper hn hd
    | _ => cases hv

theorem canonical_error_iff {e : RuntimeFault} : Canonical q (.error e) ↔
    e = ratioOverflow ∧ ¬ (Word.Fits q.num ∧ Word.Fits q.den) := by
  constructor
  · rintro (_ | _ | h)
    exact ⟨rfl, h⟩
  · rintro ⟨rfl, h⟩
    exact .overflow h

theorem canonical_rational (h : isExact v) : Canonical (rational v) (.ok v) :=
  canonical_ok_iff.mpr ⟨h, rational_num_den v⟩

theorem Canonical.unique {x y : Except RuntimeFault Value} (hx : Canonical q x)
    (hy : Canonical q y) : x = y := by
  have fits {v : Value} (h : Canonical q (.ok v)) : Word.Fits q.num ∧ Word.Fits q.den := by
    obtain ⟨-, hn, hd⟩ := canonical_ok_iff.mp h
    exact hn ▸ hd ▸ fraction_fits v
  cases x with
  | ok v =>
    cases y with
    | ok w =>
      obtain ⟨hv, hn, hd⟩ := canonical_ok_iff.mp hx
      obtain ⟨hw, hn', hd'⟩ := canonical_ok_iff.mp hy
      rw [fraction_inj hv hw (Prod.ext (hn.symm.trans hn') (hd.symm.trans hd'))]
    | error e => exact absurd (fits hx) (canonical_error_iff.mp hy).2
  | error e =>
    cases y with
    | ok w => exact absurd (fits hy) (canonical_error_iff.mp hx).2
    | error e' => rw [(canonical_error_iff.mp hx).1, (canonical_error_iff.mp hy).1]

theorem rational_inj (ha : isExact a) (hb : isExact b) (h : rational a = rational b) : a = b :=
  Except.ok.inj ((canonical_rational ha).unique (h ▸ canonical_rational hb))

/-- A fraction is computed as the answer for its number. -/
theorem ratio_canonical (num : Int) {den : Int} (h : den ≠ 0) :
    Canonical (num / den) (ratio num den) := by
  obtain ⟨hnum, hden⟩ := num_den_div num h
  unfold ratio
  rw [dif_neg h]
  split
  · next n d hn hd =>
    rw [Word.ofInt?_eq_some_iff] at hn hd
    split
    · next hone =>
      subst hone
      exact canonical_ok_iff.mpr ⟨rfl, hnum.trans hn.symm, hden.trans hd.symm⟩
    · exact .proper (hnum.trans hn.symm) (hden.trans hd.symm)
  · next hno =>
    refine .overflow fun hfits => ?_
    rw [hnum, hden] at hfits
    exact hno _ _ (Word.ofInt?_eq_some_iff.mpr (Word.toInt_ofInt hfits.1))
      (Word.ofInt?_eq_some_iff.mpr (Word.toInt_ofInt hfits.2))

/-! ## Operations -/

theorem rational_ne_zero_iff : rational v ≠ 0 ↔ (fraction v).1 ≠ 0 := by
  rw [Ne, rational, div_eq_zero_iff, not_or]
  constructor
  · exact fun h => by exact_mod_cast h.1
  · exact fun h => ⟨by exact_mod_cast h, by exact_mod_cast (fraction_den_pos v).ne'⟩

theorem categories_ratio (op : String) (ha : isExact a) (hb : isExact b)
    (h : isRatio a ∨ isRatio b) : categories op a b = .ok .ratio := by
  cases a with
  | int _ =>
    cases b with
    | int _ => simp [isRatio] at h
    | ratio _ => rfl
    | _ => cases hb
  | ratio _ =>
    cases b with
    | int _ => rfl
    | ratio _ => rfl
    | _ => cases hb
  | _ => cases ha

/-- Words and ratios meet as words or as ratios. -/
theorem categories_exact (op : String) (ha : isExact a) (hb : isExact b) :
    categories op a b = .ok .int ∨ categories op a b = .ok .ratio := by
  cases a with
  | int _ =>
    cases b with
    | int _ => exact .inl rfl
    | ratio _ => exact .inr rfl
    | _ => cases hb
  | ratio _ => exact .inr (categories_ratio op rfl hb (.inl rfl))
  | _ => cases ha

theorem den_mul_ne_zero (a b : Value) : (fraction a).2 * (fraction b).2 ≠ 0 :=
  (Int.mul_pos (fraction_den_pos a) (fraction_den_pos b)).ne'

theorem rational_add (a b : Value) : rational a + rational b =
    ((fraction a).1 * (fraction b).2 + (fraction b).1 * (fraction a).2 : Int) /
      ((fraction a).2 * (fraction b).2 : Int) := by
  have ha : ((fraction a).2 : ℚ) ≠ 0 := by exact_mod_cast (fraction_den_pos a).ne'
  have hb : ((fraction b).2 : ℚ) ≠ 0 := by exact_mod_cast (fraction_den_pos b).ne'
  rw [rational, rational, div_add_div _ _ ha hb]
  push_cast
  ring

theorem rational_sub (a b : Value) : rational a - rational b =
    ((fraction a).1 * (fraction b).2 - (fraction b).1 * (fraction a).2 : Int) /
      ((fraction a).2 * (fraction b).2 : Int) := by
  have ha : ((fraction a).2 : ℚ) ≠ 0 := by exact_mod_cast (fraction_den_pos a).ne'
  have hb : ((fraction b).2 : ℚ) ≠ 0 := by exact_mod_cast (fraction_den_pos b).ne'
  rw [rational, rational, div_sub_div _ _ ha hb]
  push_cast
  ring

theorem rational_mul (a b : Value) : rational a * rational b =
    ((fraction a).1 * (fraction b).1 : Int) / ((fraction a).2 * (fraction b).2 : Int) := by
  rw [rational, rational, div_mul_div_comm]
  push_cast
  rfl

theorem rational_div (a b : Value) : rational a / rational b =
    ((fraction a).1 * (fraction b).2 : Int) / ((fraction a).2 * (fraction b).1 : Int) := by
  rw [rational, rational, div_div_div_eq]
  push_cast
  rfl

theorem add_canonical (ha : isExact a) (hb : isExact b) (h : isRatio a ∨ isRatio b) :
    Canonical (rational a + rational b) (add a b) := by
  rw [rational_add, add, categories_ratio _ ha hb h]
  exact ratio_canonical _ (den_mul_ne_zero a b)

theorem sub_canonical (ha : isExact a) (hb : isExact b) (h : isRatio a ∨ isRatio b) :
    Canonical (rational a - rational b) (sub a b) := by
  rw [rational_sub, sub, categories_ratio _ ha hb h]
  exact ratio_canonical _ (den_mul_ne_zero a b)

theorem mul_canonical (ha : isExact a) (hb : isExact b) (h : isRatio a ∨ isRatio b) :
    Canonical (rational a * rational b) (mul a b) := by
  rw [rational_mul, mul, categories_ratio _ ha hb h]
  exact ratio_canonical _ (den_mul_ne_zero a b)

theorem div_canonical (ha : isExact a) (hb : isExact b) (h : rational b ≠ 0) :
    Canonical (rational a / rational b) (div a b) := by
  have hn := rational_ne_zero_iff.mp h
  have hquot : div a b = ratio ((fraction a).1 * (fraction b).2)
      ((fraction a).2 * (fraction b).1) := by
    obtain hc | hc := categories_exact "/" ha hb <;>
    · rw [div, hc]
      exact if_neg hn
  rw [rational_div, hquot]
  exact ratio_canonical _ (Int.mul_ne_zero (fraction_den_pos a).ne' hn)

theorem negate_canonical (r : Ratio) :
    Canonical (-rational (.ratio r)) (negate (.ratio r)) := by
  obtain ⟨hnum, hden⟩ := rational_num_den (.ratio r)
  simp only [negate]
  split
  · next n hn =>
    refine .proper ?_ ?_
    · rw [Rat.neg_num, hnum, Word.ofInt?_eq_some_iff.mp hn]
      rfl
    · rw [Rat.neg_den, hden]
      rfl
  · next hno =>
    refine .overflow fun hfits => ?_
    rw [Rat.neg_num, hnum] at hfits
    have hsome := Word.ofInt?_eq_some_iff.mpr (Word.toInt_ofInt hfits.1)
    cases hno.symm.trans hsome

/-! ## Order -/

theorem orderOf_eq_cmp {m n : Int} {x y : ℚ} (hlt : m < n ↔ x < y) (heq : m = n ↔ x = y) :
    orderOf m n = cmp x y := by
  unfold orderOf cmp cmpUsing
  by_cases h : x < y
  · rw [if_pos (hlt.mpr h), if_pos h]
  · rw [if_neg (hlt.not.mpr h), if_neg h]
    by_cases he : x = y
    · rw [if_pos (heq.mpr he), if_neg (by simp [he])]
    · rw [if_neg (heq.not.mpr he), if_pos (lt_of_le_of_ne (not_lt.mp h) (Ne.symm he))]

theorem rational_lt_iff (a b : Value) : (fraction a).1 * (fraction b).2 <
    (fraction b).1 * (fraction a).2 ↔ rational a < rational b := by
  rw [rational, rational, div_lt_div_iff₀ (by exact_mod_cast fraction_den_pos a)
    (by exact_mod_cast fraction_den_pos b)]
  exact_mod_cast Iff.rfl

theorem rational_eq_iff (a b : Value) : (fraction a).1 * (fraction b).2 =
    (fraction b).1 * (fraction a).2 ↔ rational a = rational b := by
  rw [rational, rational, div_eq_div_iff (by exact_mod_cast (fraction_den_pos a).ne')
    (by exact_mod_cast (fraction_den_pos b).ne')]
  exact_mod_cast Iff.rfl

theorem compare_exact (ha : isExact a) (hb : isExact b) :
    compare a b = .ok (some (cmp (rational a) (rational b))) := by
  rw [← orderOf_eq_cmp (rational_lt_iff a b) (rational_eq_iff a b)]
  obtain hc | hc := categories_exact "comparison" ha hb <;>
  · rw [compare, hc]
    rfl

theorem same_exact_iff (ha : isExact a) (hb : isExact b) :
    a.same b = true ↔ rational a = rational b := by
  have hsame : a.same b = true ↔ a = b := by
    cases a with
    | int m =>
      cases b with
      | int n => simp [Value.same]
      | ratio r => simp [Value.same]
      | _ => cases hb
    | ratio r =>
      cases b with
      | int n => simp [Value.same]
      | ratio s => simp [Value.same]
      | _ => cases hb
    | _ => cases ha
  exact hsame.trans ⟨fun h => h ▸ rfl, rational_inj ha hb⟩

end TwinLisp.Number
