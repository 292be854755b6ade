import TwinLisp.Proofs.Number.Exact

/-! Ratios in 128 bits. The parts of a result are made of products and sums of words, and Euclid's
algorithm reduces them; here every intermediate result is checked against 128 bits. None of them
is too large, so the checked computation finds the parts of the exact result.

* `Wide.lowest?`: lowest terms, with all the intermediate results checked.
* `Wide.sum?`, `Wide.product?`, `Wide.order?`: the operations.
* `Number.exact_arithmetic`: words and ratios compute as rational numbers. -/

namespace TwinLisp

namespace Wide

/-- Whether an integer has at most 128 bits. -/
def Fits (n : Int) : Prop := -2 ^ 127 ≤ n ∧ n < 2 ^ 127

instance (n : Int) : Decidable (Fits n) := inferInstanceAs (Decidable (_ ∧ _))

/-- An intermediate result, if it fits. -/
def checked (n : Int) : Option Int := if Fits n then some n else none

theorem checked_eq {n : Int} (h : |n| < 2 ^ 127) : checked n = some n :=
  if_pos ⟨(abs_lt.mp h).1.le, (abs_lt.mp h).2⟩

/-! ## Lowest terms -/

/-- Euclid's algorithm. A remainder overflows where the quotient does. -/
def gcd? (a b : Int) : Option Int :=
  if _h : b = 0 then some a
  else (checked (a.tdiv b)).bind fun _ => gcd? b (a.tmod b)
termination_by b.natAbs
decreasing_by
  rw [Int.natAbs_tmod]
  exact Nat.mod_lt _ (Int.natAbs_pos.mpr _h)

theorem gcd?_eq {a b : Int} (ha : 0 ≤ a) (hb : 0 ≤ b) (hfits : a < 2 ^ 127)
    (hfits' : b < 2 ^ 127) : gcd? a b = some (Int.gcd a b : Int) := by
  induction a, b using gcd?.induct with
  | case1 a => rw [gcd?, dif_pos rfl, Int.gcd_zero_right, Int.natAbs_of_nonneg ha]
  | case2 a b hne ih =>
    have hpos : 0 < b := by omega
    have hquot : |a.tdiv b| < 2 ^ 127 := by
      rw [abs_of_nonneg (Int.tdiv_nonneg ha hb)]
      exact (Int.tdiv_le_self b ha).trans_lt hfits
    have hrem : a.tmod b < 2 ^ 127 := (Int.tmod_lt_of_pos a hpos).trans hfits'
    rw [gcd?, dif_neg hne, checked_eq hquot, Option.bind_some,
      ih hb (Int.tmod_nonneg b ha) hfits' hrem, Int.tmod_eq_emod_of_nonneg ha, Int.gcd_comm,
      Int.gcd_emod]

/-- The parts of `num / den` over their greatest common divisor, the denominator made positive. -/
def lowest? (num den : Int) : Option (Int × Int) := do
  let a ← checked |num|
  let b ← checked |den|
  let g := max (← gcd? a b) 1
  let n ← checked (num.tdiv g)
  let d ← checked (den.tdiv g)
  if d < 0 then return (← checked (-n), ← checked (-d)) else return (n, d)

/-- The parts that are left by the greatest common divisor are those in lowest terms up to sign. -/
theorem lowest_of_gcd {g n d : Int} (hpos : 0 < g) (hg : Int.gcd (g * n) (g * d) = g) :
    Number.lowest (g * n) (g * d) = if d < 0 then (-n, -d) else (n, d) := by
  have hsign : g * d < 0 ↔ d < 0 := by
    rw [mul_neg_iff]
    omega
  change ((if g * d < 0 then -1 else 1) * (g * n) / (Int.gcd (g * n) (g * d) : Int),
    (if g * d < 0 then -1 else 1) * (g * d) / (Int.gcd (g * n) (g * d) : Int)) = _
  rw [hg]
  by_cases hd : d < 0
  · rw [if_pos (hsign.mpr hd), if_pos hd, mul_left_comm, mul_left_comm (-1),
      Int.mul_ediv_cancel_left _ hpos.ne', Int.mul_ediv_cancel_left _ hpos.ne', neg_one_mul,
      neg_one_mul]
  · rw [if_neg (hsign.not.mpr hd), if_neg hd, one_mul, one_mul,
      Int.mul_ediv_cancel_left _ hpos.ne', Int.mul_ediv_cancel_left _ hpos.ne']

theorem lowest?_eq {num den : Int} (hden : den ≠ 0) (hn : |num| < 2 ^ 127) (hd : |den| < 2 ^ 127) :
    lowest? num den = some (Number.lowest num den) := by
  have hgcd : gcd? |num| |den| = some (Int.gcd num den : Int) := by
    rw [gcd?_eq (abs_nonneg _) (abs_nonneg _) hn hd, Int.gcd_eq_natAbs_gcd_natAbs, Int.natAbs_abs,
      Int.natAbs_abs, ← Int.gcd_eq_natAbs_gcd_natAbs]
  have hpos : 0 < (Int.gcd num den : Int) :=
    Int.natCast_pos.mpr (Int.gcd_pos_of_ne_zero_right _ hden)
  generalize hg : (Int.gcd num den : Int) = g at hgcd hpos
  obtain ⟨n, rfl⟩ : g ∣ num := hg ▸ Int.gcd_dvd_left num den
  obtain ⟨d, rfl⟩ : g ∣ den := hg ▸ Int.gcd_dvd_right _ den
  have part {k : Int} (h : |g * k| < 2 ^ 127) : |k| < 2 ^ 127 := by
    rw [abs_mul, abs_of_pos hpos] at h
    exact (le_mul_of_one_le_left (abs_nonneg k) hpos).trans_lt h
  have hn' := part hn
  have hd' := part hd
  have hmax : max g 1 = g := max_eq_left hpos
  rw [lowest_of_gcd hpos hg, lowest?, checked_eq (by rwa [abs_abs]), checked_eq (by rwa [abs_abs])]
  simp only [Option.bind_eq_bind, Option.bind_some, hgcd, hmax,
    Int.mul_tdiv_cancel_left _ hpos.ne', checked_eq hn', checked_eq hd']
  split
  · rw [checked_eq (by rwa [abs_neg]), checked_eq (by rwa [abs_neg])]
    rfl
  · rfl

/-! ## Operations -/

/-- The sum or the difference of two fractions, over the product of the denominators. -/
def sum? (op : Int → Int → Int) (x y : Int × Int) : Option (Int × Int) := do
  let a ← checked (x.1 * y.2)
  let b ← checked (y.1 * x.2)
  let num ← checked (op a b)
  let den ← checked (x.2 * y.2)
  lowest? num den

def product? (x y : Int × Int) : Option (Int × Int) := do
  let num ← checked (x.1 * y.1)
  let den ← checked (x.2 * y.2)
  lowest? num den

/-- The order by the products across. -/
def order? (x y : Int × Int) : Option Ordering := do
  let a ← checked (x.1 * y.2)
  let b ← checked (y.1 * x.2)
  return Number.orderOf a b

variable {m n : Int}

theorem abs_mul_le (hm : Word.Fits m) (hn : Word.Fits n) : |m * n| ≤ 2 ^ 126 := by
  have hm' : |m| ≤ 2 ^ 63 := abs_le.mpr ⟨hm.1, hm.2.le⟩
  have hn' : |n| ≤ 2 ^ 63 := abs_le.mpr ⟨hn.1, hn.2.le⟩
  rw [abs_mul]
  exact (mul_le_mul hm' hn' (abs_nonneg n) (by decide)).trans (by decide)

theorem abs_mul_lt (hm : Word.Fits m) (hn : Word.Fits n) (hpos : 0 < n) : |m * n| < 2 ^ 126 := by
  have hm' : |m| ≤ 2 ^ 63 := abs_le.mpr ⟨hm.1, hm.2.le⟩
  rw [abs_mul, abs_of_pos hpos]
  calc |m| * n ≤ 2 ^ 63 * n := Int.mul_le_mul_of_nonneg_right hm' hpos.le
    _ < 2 ^ 63 * 2 ^ 63 := Int.mul_lt_mul_of_pos_left hn.2 (by decide)
    _ = 2 ^ 126 := by decide

theorem sum?_eq {op : Int → Int → Int} {x y : Int × Int} (hop : ∀ a b, |op a b| ≤ |a| + |b|)
    (hx : Word.Fits x.1 ∧ Word.Fits x.2) (hy : Word.Fits y.1 ∧ Word.Fits y.2) (hx' : 0 < x.2)
    (hy' : 0 < y.2) :
    sum? op x y = some (Number.lowest (op (x.1 * y.2) (y.1 * x.2)) (x.2 * y.2)) := by
  have ha := abs_mul_lt hx.1 hy.2 hy'
  have hb := abs_mul_lt hy.1 hx.2 hx'
  have hnum : |op (x.1 * y.2) (y.1 * x.2)| < 2 ^ 127 :=
    (hop _ _).trans_lt ((add_lt_add ha hb).trans_eq (by decide))
  have hden : |x.2 * y.2| < 2 ^ 127 := (abs_mul_lt hx.2 hy.2 hy').trans (by decide)
  rw [sum?, checked_eq (ha.trans (by decide)), checked_eq (hb.trans (by decide))]
  simp only [Option.bind_eq_bind, Option.bind_some, checked_eq hnum, checked_eq hden]
  exact lowest?_eq (Int.mul_pos hx' hy').ne' hnum hden

theorem product?_eq {x y : Int × Int} (hx : Word.Fits x.1 ∧ Word.Fits x.2)
    (hy : Word.Fits y.1 ∧ Word.Fits y.2) (hne : x.2 * y.2 ≠ 0) :
    product? x y = some (Number.lowest (x.1 * y.1) (x.2 * y.2)) := by
  have hnum : |x.1 * y.1| < 2 ^ 127 := (abs_mul_le hx.1 hy.1).trans_lt (by decide)
  have hden : |x.2 * y.2| < 2 ^ 127 := (abs_mul_le hx.2 hy.2).trans_lt (by decide)
  rw [product?, checked_eq hnum, checked_eq hden]
  exact lowest?_eq hne hnum hden

theorem order?_eq {x y : Int × Int} (hx : Word.Fits x.1 ∧ Word.Fits x.2)
    (hy : Word.Fits y.1 ∧ Word.Fits y.2) :
    order? x y = some (Number.orderOf (x.1 * y.2) (y.1 * x.2)) := by
  rw [order?, checked_eq ((abs_mul_le hx.1 hy.2).trans_lt (by decide)),
    checked_eq ((abs_mul_le hy.1 hx.2).trans_lt (by decide))]
  rfl

end Wide

namespace Number

/-- The lowest terms of a rational number. -/
def terms (q : ℚ) : Int × Int := (q.num, q.den)

theorem lowest_eq_terms (num : Int) {den : Int} (h : den ≠ 0) :
    lowest num den = terms (num / den) :=
  (Prod.ext (num_den_div num h).1 (num_den_div num h).2).symm

variable {a b : Value}

/-- Words and ratios compute as rational numbers: a result is the canonical answer for the exact
one, the order is exact, no intermediate result has more than 128 bits, and every ratio is in
lowest terms. -/
theorem exact_arithmetic (ha : isExact a) (hb : isExact b) :
    (isRatio a ∨ isRatio b →
      Canonical (rational a + rational b) (add a b) ∧
      Canonical (rational a - rational b) (sub a b) ∧
      Canonical (rational a * rational b) (mul a b)) ∧
    (rational b ≠ 0 → Canonical (rational a / rational b) (div a b)) ∧
    (isRatio a → Canonical (-rational a) (negate a)) ∧
    (compare a b = .ok (some (cmp (rational a) (rational b))) ∧
      (compare a b = .ok (some .eq) ↔ a.same b = true)) ∧
    (Wide.sum? (· + ·) (fraction a) (fraction b) = some (terms (rational a + rational b)) ∧
      Wide.sum? (· - ·) (fraction a) (fraction b) = some (terms (rational a - rational b)) ∧
      Wide.product? (fraction a) (fraction b) = some (terms (rational a * rational b)) ∧
      (rational b ≠ 0 → Wide.product? (fraction a) (fraction b).swap =
        some (terms (rational a / rational b))) ∧
      Wide.order? (fraction a) (fraction b) = some (cmp (rational a) (rational b))) ∧
    ∀ r : Ratio, 1 < r.den.toInt ∧ Int.gcd r.num.toInt r.den.toInt = 1 := by
  have hfa := fraction_fits a
  have hfb := fraction_fits b
  have hpa := fraction_den_pos a
  have hpb := fraction_den_pos b
  refine ⟨fun h => ⟨add_canonical ha hb h, sub_canonical ha hb h, mul_canonical ha hb h⟩,
    div_canonical ha hb, fun h => ?negate, ⟨compare_exact ha hb, ?same⟩,
    ⟨?sum, ?difference, ?product, fun h => ?quotient, ?order⟩, fun r => ⟨r.proper, r.coprime⟩⟩
  case negate =>
    cases a with
    | ratio r => exact negate_canonical r
    | _ => cases h
  case same =>
    rw [compare_exact ha hb, same_exact_iff ha hb, Except.ok.injEq, Option.some.injEq,
      cmp_eq_eq_iff]
  case sum =>
    rw [Wide.sum?_eq abs_add_le hfa hfb hpa hpb, rational_add,
      lowest_eq_terms _ (den_mul_ne_zero a b)]
  case difference =>
    rw [Wide.sum?_eq abs_sub hfa hfb hpa hpb, rational_sub, lowest_eq_terms _ (den_mul_ne_zero a b)]
  case product =>
    rw [Wide.product?_eq hfa hfb (den_mul_ne_zero a b), rational_mul,
      lowest_eq_terms _ (den_mul_ne_zero a b)]
  case quotient =>
    have hne := Int.mul_ne_zero hpa.ne' (rational_ne_zero_iff.mp h)
    rw [Wide.product?_eq hfa hfb.symm hne, rational_div, ← lowest_eq_terms _ hne]
    rfl
  case order =>
    rw [Wide.order?_eq hfa hfb, orderOf_eq_cmp (rational_lt_iff a b) (rational_eq_iff a b)]

/-- Half of the least word is a word; a half more than it, and a half divided by it, have parts
that are no words. -/
theorem exact_arithmetic_of_least :
    let half := Value.ratio ⟨1, 2, by decide, by decide⟩
    let least := Value.int (-9223372036854775808)
    (isExact half ∧ isExact least ∧ isRatio half ∧ rational least ≠ 0) ∧
      Canonical (rational half * rational least) (.ok (.int (-4611686018427387904))) ∧
      Canonical (rational half + rational least) (.error ratioOverflow) ∧
      Canonical (rational half / rational least) (.error ratioOverflow) := by
  intro half least
  have hne : rational least ≠ 0 := rational_ne_zero_iff.mpr (by decide)
  obtain ⟨hsums, hquot, -⟩ := exact_arithmetic (a := half) (b := least) rfl rfl
  obtain ⟨hadd, -, hmul⟩ := hsums (.inl rfl)
  exact ⟨⟨rfl, rfl, rfl, hne⟩, hmul, hadd, hquot hne⟩

end Number

end TwinLisp
