import Mathlib.Data.List.DropRight
import Mathlib.Data.List.Induction
import TwinLisp.Text.Blank
import TwinLisp.Text.Digits

/-! Numerals as a grammar, apart from the functions that read them, and texts without the blanks around
them.

* `Digit`, `Digits`: the digits of a base, and runs of them with the numbers that they write.
* `Sign`, `signed`: an optional sign, and a number with it.
* `natOfDigits?_eq_some_iff`, `intOfDigits?_eq_some_iff`: what the readers accept, and as what.
* `trim_eq`, `exists_trim`, `exists_trimEnd`: what is left without blanks, and what they take away. -/

namespace TwinLisp.Text

/-! ## Digits -/

/-- The digits up to sixteen, in either case. -/
def digitNames : List (List Char) := ["0123456789abcdef".toList, "0123456789ABCDEF".toList]

/-- `c` is the digit of value `v`. -/
def Digit (base : Nat) (c : Char) (v : Nat) : Prop :=
  v < base ∧ ∃ names ∈ digitNames, names[v]? = some c

/-- `cs` is a nonempty run of digits, and `n` the number that they write. -/
inductive Digits (base : Nat) : List Char → Nat → Prop where
  | one {c : Char} {v : Nat} (h : Digit base c v) : Digits base [c] v
  | more {cs : List Char} {n : Nat} {c : Char} {v : Nat} (hs : Digits base cs n)
    (h : Digit base c v) : Digits base (cs ++ [c]) (n * base + v)

theorem named_of_digitValue? {base : Nat} {c : Char} {v : Nat} (h : digitValue? base c = some v) :
    ∃ names ∈ digitNames, names[v]? = some c := by
  -- The three runs of digits in the order of the characters.
  have hdecimal : ∀ k < 10, "0123456789abcdef".toList[k]? = some (Char.ofNat (0x30 + k)) := by decide
  have hlower : ∀ k < 6, "0123456789abcdef".toList[k + 10]? = some (Char.ofNat (0x61 + k)) := by
    decide
  have hupper : ∀ k < 6, "0123456789ABCDEF".toList[k + 10]? = some (Char.ofNat (0x41 + k)) := by
    decide
  simp only [digitNames, List.mem_cons, List.not_mem_nil, or_false, exists_eq_or_imp,
    exists_eq_left]
  simp only [digitValue?, Bool.and_eq_true, decide_eq_true_eq, Option.ite_none_right_eq_some] at h
  obtain ⟨hlt, h⟩ := h
  have hv := Option.some.inj h
  subst hv
  by_cases hd : 0x30 ≤ c.toNat ∧ c.toNat ≤ 0x39
  · have := hdecimal (c.toNat - 0x30) (by omega)
    rw [Nat.add_sub_cancel' hd.1, Char.ofNat_toNat] at this
    rw [if_pos hd]
    exact .inl this
  rw [if_neg hd] at hlt ⊢
  by_cases hl : 0x61 ≤ c.toNat ∧ c.toNat ≤ 0x66
  · have := hlower (c.toNat - 0x61) (by omega)
    rw [Nat.add_sub_cancel' hl.1, Char.ofNat_toNat] at this
    rw [if_pos hl]
    exact .inl this
  rw [if_neg hl] at hlt ⊢
  by_cases hu : 0x41 ≤ c.toNat ∧ c.toNat ≤ 0x46
  · have := hupper (c.toNat - 0x41) (by omega)
    rw [Nat.add_sub_cancel' hu.1, Char.ofNat_toNat] at this
    rw [if_pos hu]
    exact .inr this
  · rw [if_neg hu] at hlt
    exact absurd hlt (Nat.lt_irrefl _)

theorem digitValue?_of_named {names : List Char} {c : Char} {v : Nat} (hn : names ∈ digitNames)
    (hc : names[v]? = some c) : digitValue? 16 c = some v := by
  have hall : ∀ names ∈ digitNames, ∀ p ∈ names.zipIdx, digitValue? 16 p.1 = some p.2 := by decide
  exact hall names hn (c, v) (List.mem_zipIdx_iff_getElem?.mpr hc)

theorem digitValue?_eq_some_iff {base : Nat} {c : Char} {v : Nat} :
    digitValue? base c = some v ↔ Digit base c v := by
  constructor
  · intro h
    refine ⟨?_, named_of_digitValue? h⟩
    simp only [digitValue?, Option.ite_none_right_eq_some] at h
    exact Option.some.inj h.2 ▸ h.1
  · rintro ⟨hlt, names, hn, hc⟩
    have h := digitValue?_of_named hn hc
    simp only [digitValue?, Bool.and_eq_true, decide_eq_true_eq, Option.ite_none_right_eq_some,
      Option.some.injEq] at h ⊢
    split_ifs at h ⊢ <;> omega

/-! ## Runs of digits -/

theorem natOfDigitsFrom?_append (base acc : Nat) (cs ds : List Char) :
    natOfDigitsFrom? base acc (cs ++ ds) =
      (natOfDigitsFrom? base acc cs).bind fun n => natOfDigitsFrom? base n ds := by
  induction cs generalizing acc with
  | nil => rfl
  | cons c cs ih =>
    rw [List.cons_append, natOfDigitsFrom?, natOfDigitsFrom?]
    split
    · exact ih _
    · rfl

theorem natOfDigitsFrom?_snoc {base acc n : Nat} {cs : List Char} {c : Char} :
    natOfDigitsFrom? base acc (cs ++ [c]) = some n ↔
      ∃ m v, natOfDigitsFrom? base acc cs = some m ∧ digitValue? base c = some v ∧
        n = m * base + v := by
  rw [natOfDigitsFrom?_append, Option.bind_eq_some_iff]
  refine exists_congr fun m => ?_
  cases hv : digitValue? base c with
  | none => simp [natOfDigitsFrom?, hv]
  | some v => simp [natOfDigitsFrom?, hv, eq_comm]

theorem Digits.ne_nil {base n : Nat} {cs : List Char} (h : Digits base cs n) : cs ≠ [] := by
  cases h <;> simp

theorem natOfDigits?_of_ne_nil {base : Nat} {cs : List Char} (h : cs ≠ []) :
    natOfDigits? base cs = natOfDigitsFrom? base 0 cs := by
  cases cs with
  | nil => exact absurd rfl h
  | cons => rfl

theorem Digits.read {base n : Nat} {cs : List Char} (h : Digits base cs n) :
    natOfDigitsFrom? base 0 cs = some n := by
  induction h with
  | @one c v h => simp [natOfDigitsFrom?, digitValue?_eq_some_iff.mpr h]
  | more _ h ih => exact natOfDigitsFrom?_snoc.mpr ⟨_, _, ih, digitValue?_eq_some_iff.mpr h, rfl⟩

theorem digits_of_read {base n : Nat} {cs : List Char} (hne : cs ≠ [])
    (h : natOfDigitsFrom? base 0 cs = some n) : Digits base cs n := by
  induction cs using List.reverseRecOn generalizing n with
  | nil => exact absurd rfl hne
  | append_singleton cs c ih =>
    obtain ⟨m, v, hm, hv, rfl⟩ := natOfDigitsFrom?_snoc.mp h
    have hc := digitValue?_eq_some_iff.mp hv
    cases cs with
    | nil =>
      cases hm
      simpa using Digits.one hc
    | cons => exact .more (ih (List.cons_ne_nil _ _) hm) hc

theorem natOfDigits?_eq_some_iff {base : Nat} {cs : List Char} {n : Nat} :
    natOfDigits? base cs = some n ↔ Digits base cs n := by
  constructor
  · intro h
    have hne : cs ≠ [] := by
      rintro rfl
      cases h
    rw [natOfDigits?_of_ne_nil hne] at h
    exact digits_of_read hne h
  · intro h
    rw [natOfDigits?_of_ne_nil h.ne_nil]
    exact h.read

theorem Digits.unique {base m n : Nat} {ds : List Char} (hm : Digits base ds m)
    (hn : Digits base ds n) : m = n :=
  Option.some.inj ((natOfDigits?_eq_some_iff.mpr hm).symm.trans (natOfDigits?_eq_some_iff.mpr hn))

/-! ## Signs -/

/-- An optional sign, and whether it is a minus. -/
inductive Sign : List Char → Bool → Prop where
  | none : Sign [] false
  | plus : Sign ['+'] false
  | minus : Sign ['-'] true

def signed (negative : Bool) (n : Nat) : Int := if negative then -n else n

theorem Digit.notSign {base : Nat} {c : Char} {v : Nat} (h : Digit base c v) :
    c ≠ '-' ∧ c ≠ '+' := by
  obtain ⟨-, names, hn, hc⟩ := h
  have hall : ∀ names ∈ digitNames, ∀ c ∈ names, c ≠ '-' ∧ c ≠ '+' := by
    simp [digitNames]
  exact hall names hn c (List.mem_of_getElem? hc)

theorem Digits.forall_mem {base n : Nat} {cs : List Char} (h : Digits base cs n) :
    ∀ c ∈ cs, ∃ v, Digit base c v := by
  induction h with
  | one h => exact List.forall_mem_singleton.mpr ⟨_, h⟩
  | more _ h ih => exact List.forall_mem_append.mpr ⟨ih, List.forall_mem_singleton.mpr ⟨_, h⟩⟩

theorem Sign.read {base n : Nat} {sign cs : List Char} {negative : Bool} (hs : Sign sign negative)
    (h : Digits base cs n) :
    intOfDigits? base (sign ++ cs) = some (signed negative n) := by
  have hread := natOfDigits?_eq_some_iff.mpr h
  cases hs with
  | plus => simp [intOfDigits?, hread, signed]
  | minus => simp [intOfDigits?, hread, signed]
  | none =>
    rw [List.nil_append, intOfDigits?]
    · simp [hread, signed]
    all_goals
      rintro ds rfl
      obtain ⟨v, hv⟩ := h.forall_mem _ List.mem_cons_self
    · exact hv.notSign.1 rfl
    · exact hv.notSign.2 rfl

theorem intOfDigits?_eq_some_iff {base : Nat} {cs : List Char} {z : Int} :
    intOfDigits? base cs = some z ↔ ∃ sign negative ds n, Sign sign negative ∧ cs = sign ++ ds ∧
      Digits base ds n ∧ z = signed negative n := by
  constructor
  · intro h
    unfold intOfDigits? at h
    split at h
    all_goals
      obtain ⟨_, hcast, rfl⟩ := Option.map_eq_some_iff.mp h
      obtain ⟨n, hn, hcast⟩ := Option.bind_eq_some_iff.mp hcast
      cases hcast
      have hds := natOfDigits?_eq_some_iff.mp hn
    · exact ⟨['-'], true, _, n, .minus, rfl, hds, rfl⟩
    · exact ⟨['+'], false, _, n, .plus, rfl, hds, rfl⟩
    · exact ⟨[], false, _, n, .none, rfl, hds, rfl⟩
  · rintro ⟨sign, negative, ds, n, hs, rfl, hds, rfl⟩
    exact hs.read hds

/-- No sign begins the text. -/
def Unsigned (cs : List Char) : Prop := ∀ c ∈ cs.head?, c ≠ '-' ∧ c ≠ '+'

theorem Digits.unsigned {base n : Nat} {cs : List Char} (h : Digits base cs n) : Unsigned cs := by
  intro c hc
  obtain ⟨v, hv⟩ := h.forall_mem c (List.mem_of_mem_head? hc)
  exact hv.notSign

theorem Unsigned.append {cs : List Char} (h : Unsigned cs) (hne : cs ≠ []) (ds : List Char) :
    Unsigned (cs ++ ds) := by
  cases cs with
  | nil => exact absurd rfl hne
  | cons => exact h

/-- A text tells its sign. -/
theorem Sign.append_inj {sign sign' cs cs' : List Char} {negative negative' : Bool}
    (hs : Sign sign negative) (hs' : Sign sign' negative') (hcs : Unsigned cs)
    (hcs' : Unsigned cs') (h : sign ++ cs = sign' ++ cs') :
    sign = sign' ∧ negative = negative' ∧ cs = cs' := by
  cases hs <;> cases hs'
  case none.none | plus.plus | minus.minus => simpa using h
  case plus.minus | minus.plus => simp at h
  all_goals
    cases h
    simp [Unsigned] at hcs hcs'

/-! ## Blanks -/

def Blanks (cs : List Char) : Prop := ∀ c ∈ cs, isBlank c = true

theorem not_blank_of_digit {base v : Nat} {c : Char} (h : Digit base c v) : isBlank c = false := by
  obtain ⟨-, names, hn, hc⟩ := h
  have hall : (digitNames.all fun names => names.all fun c => !isBlank c) = true := by decide
  simp only [List.all_eq_true, Bool.not_eq_true'] at hall
  exact hall names hn c (List.mem_of_getElem? hc)

theorem toList_trimEnd (s : String) : (trimEnd s).toList = s.toList.rdropWhile isBlank :=
  String.toList_ofList

theorem exists_trimEnd (s : String) : ∃ bs, s.toList = (trimEnd s).toList ++ bs ∧ Blanks bs := by
  refine ⟨s.toList.rtakeWhile isBlank, ?_, fun c => List.mem_rtakeWhile_imp⟩
  rw [toList_trimEnd, List.rdropWhile_append_rtakeWhile]

theorem toList_trim (s : String) :
    (trim s).toList = (s.toList.dropWhile isBlank).rdropWhile isBlank :=
  String.toList_ofList

theorem exists_trim (s : String) :
    ∃ before after, s.toList = before ++ (trim s).toList ++ after ∧ Blanks before ∧ Blanks after := by
  refine ⟨s.toList.takeWhile isBlank, (s.toList.dropWhile isBlank).rtakeWhile isBlank, ?_,
    fun c => List.mem_takeWhile_imp, fun c => List.mem_rtakeWhile_imp⟩
  rw [toList_trim, List.append_assoc, List.rdropWhile_append_rtakeWhile,
    List.takeWhile_append_dropWhile]

theorem dropWhile_blanks {bs : List Char} (h : Blanks bs) (cs : List Char) :
    (bs ++ cs).dropWhile isBlank = cs.dropWhile isBlank :=
  List.dropWhile_append_of_pos h

theorem rdropWhile_blanks {bs : List Char} (h : Blanks bs) (cs : List Char) :
    (cs ++ bs).rdropWhile isBlank = cs.rdropWhile isBlank := by
  rw [List.rdropWhile, List.reverse_append, dropWhile_blanks fun c hc => h c (List.mem_reverse.mp hc)]
  rfl

theorem trim_eq {s : String} {before cs after : List Char} (hs : s.toList = before ++ cs ++ after)
    (hb : Blanks before) (ha : Blanks after) (hne : cs ≠ []) (hcs : ∀ c ∈ cs, isBlank c = false) :
    (trim s).toList = cs := by
  have hfirst : (cs ++ after).dropWhile isBlank = cs ++ after := by
    rw [List.dropWhile_eq_self_iff]
    intro hlen hblank
    rw [List.getElem_append_left (List.length_pos_of_ne_nil hne), hcs _ (List.getElem_mem _)] at hblank
    cases hblank
  have hlast : cs.rdropWhile isBlank = cs := by
    rw [List.rdropWhile_eq_self_iff]
    intro hl hblank
    rw [hcs _ (List.getLast_mem hl)] at hblank
    cases hblank
  rw [toList_trim, hs, List.append_assoc, dropWhile_blanks hb, hfirst, rdropWhile_blanks ha, hlast]

end TwinLisp.Text
