import Mathlib
import TwinLisp.Proofs.Text.Numerals
import TwinLisp.Proofs.Token.Atoms

/-! Literals of integers and ratios as a grammar.

* `Literal`: the literals with the integers that they denote; `Carries`: a token with these integers.
* `Reading`: what the scanner reads as an integer or a ratio (`unsigned?_iff`).
* `integer_literals`: the two agree but for two things. A second sign may stand behind the mark of
  a hexadecimal literal and behind a slash (`Astray`), and the least word is refused in hexadecimal
  digits (`Lowest`). -/

namespace TwinLisp.Token

open Text

/-! ## The grammar -/

/-- The text of an integer without its sign. -/
inductive Magnitude : List Char → Nat → Prop where
  | decimal {ds : List Char} {n : Nat} (h : Digits 10 ds n) : Magnitude ds n
  | suffixed {ds : List Char} {n : Nat} (h : Digits 10 ds n) : Magnitude (ds ++ ['N']) n
  | hexadecimal {x : Char} {ds : List Char} {n : Nat} (hx : x ∈ ['x', 'X']) (h : Digits 16 ds n) :
    Magnitude ('0' :: x :: ds) n

inductive Denoted where
  | int (n : Int)
  | ratio (num den : Int)

/-- The literals of integers and ratios. -/
inductive Literal : List Char → Denoted → Prop where
  | int {sign ms : List Char} {negative : Bool} {n : Nat} (hs : Sign sign negative)
    (h : Magnitude ms n) : Literal (sign ++ ms) (.int (signed negative n))
  | ratio {sign ns ds : List Char} {negative : Bool} {n d : Nat} (hs : Sign sign negative)
    (hn : Digits 10 ns n) (hd : Digits 10 ds d) (hne : d ≠ 0) :
    Literal (sign ++ (ns ++ '/' :: ds)) (.ratio (signed negative n) d)

/-- A token with just these integers. -/
inductive Carries : TokenKind → Denoted → Prop where
  | int (n : Int64) : Carries (.int n) (.int n.toInt)
  | ratio (n d : Int64) : Carries (.ratio n d) (.ratio n.toInt d.toInt)

/-- Whether a token is an integer or a ratio. -/
def isExact : TokenKind → Bool
  | .int _ | .ratio .. => true
  | _ => false

/-- Texts with a sign in a second place, and what they are read as. A negative integer under a minus
is negated as a word. -/
inductive Astray : List Char → TokenKind → Prop where
  | hexadecimal {sign inner ds : List Char} {negative minus : Bool} {x : Char} {m : Nat} {n : Int64}
    (hs : Sign sign negative) (hx : x ∈ ['x', 'X']) (hi : Sign inner minus) (hne : inner ≠ [])
    (h : Digits 16 ds m) (hn : n.toInt = signed minus m) :
    Astray (sign ++ '0' :: x :: (inner ++ ds)) (.int (if negative then -n else n))
  | ratio {sign ns inner ds : List Char} {negative minus : Bool} {a b : Nat} {n d : Int64}
    (hs : Sign sign negative) (ha : Digits 10 ns a) (hi : Sign inner minus) (hne : inner ≠ [])
    (hb : Digits 10 ds b) (hn : n.toInt = signed negative a) (hd : d.toInt = signed minus b)
    (hzero : d ≠ 0) : Astray (sign ++ (ns ++ '/' :: (inner ++ ds))) (.ratio n d)

/-- The least word in hexadecimal digits: its magnitude is no word. -/
def Lowest (text : List Char) : Prop :=
  ∃ x ∈ ['x', 'X'], ∃ ds, text = '-' :: '0' :: x :: ds ∧ Digits 16 ds (2 ^ 63)

/-! ## Words -/

theorem word?_eq_some_iff {base : Nat} {cs : List Char} {n : Int64} : word? base cs = some n ↔
    ∃ sign negative ds m, Sign sign negative ∧ cs = sign ++ ds ∧ Digits base ds m ∧
      n.toInt = signed negative m := by
  rw [word?, Option.bind_eq_some_iff]
  constructor
  · rintro ⟨z, hz, hn⟩
    obtain ⟨sign, negative, ds, m, hs, rfl, hds, rfl⟩ := intOfDigits?_eq_some_iff.mp hz
    exact ⟨sign, negative, ds, m, hs, rfl, hds, Word.ofInt?_eq_some_iff.mp hn⟩
  · rintro ⟨sign, negative, ds, m, hs, rfl, hds, hn⟩
    exact ⟨_, hs.read hds, Word.ofInt?_eq_some_iff.mpr hn⟩

theorem word?_signed {negative : Bool} {cs : List Char} {n : Int64} (h : Unsigned cs) :
    word? 10 (if negative then '-' :: cs else cs) = some n ↔
      ∃ m, Digits 10 cs m ∧ n.toInt = signed negative m := by
  have hsign : ∃ sign, Sign sign negative ∧ (if negative then '-' :: cs else cs) = sign ++ cs := by
    cases negative with
    | true => exact ⟨_, .minus, rfl⟩
    | false => exact ⟨_, .none, rfl⟩
  obtain ⟨sign, hs, hcs⟩ := hsign
  rw [hcs, word?_eq_some_iff]
  constructor
  · rintro ⟨sign', negative', ds, m, hs', hds, hd, hn⟩
    obtain ⟨-, rfl, rfl⟩ := hs.append_inj hs' h hd.unsigned hds
    exact ⟨m, hd, hn⟩
  · rintro ⟨m, hd, hn⟩
    exact ⟨sign, negative, cs, m, hs, rfl, hd, hn⟩

/-! ## Texts and their branches -/

theorem digit_ordinary {base v : Nat} {c : Char} (h : Digit base c v) : c ∉ ['M', 'N', '/'] := by
  obtain ⟨-, names, hn, hc⟩ := h
  have hall : ∀ names ∈ digitNames, ∀ c ∈ names, c ∉ ['M', 'N', '/'] := by simp [digitNames]
  exact hall names hn c (List.mem_of_getElem? hc)

theorem isDigit_of_digit {v : Nat} {c : Char} (h : Digit 10 c v) : c.isDigit = true := by
  obtain ⟨hv, names, hn, hc⟩ := h
  have hall : ∀ names ∈ digitNames, ∀ c ∈ names.take 10, c.isDigit = true := by simp [digitNames]
  rw [← List.getElem?_take_of_lt hv] at hc
  exact hall names hn c (List.mem_of_getElem? hc)

theorem isDigit_of_digits {ds : List Char} {n : Nat} (h : Digits 10 ds n) :
    ∀ c ∈ ds, c.isDigit = true := by
  intro c hc
  obtain ⟨v, hv⟩ := h.forall_mem c hc
  exact isDigit_of_digit hv

theorem dropLast?_digits {base n : Nat} {c : Char} (hc : c ∈ ['M', 'N']) (cs : List Char)
    {ds : List Char} (h : Digits base ds n) : dropLast? c (cs ++ ds) = none := by
  have hlast : ∃ d v, (cs ++ ds).getLast? = some d ∧ Digit base d v := by
    cases h with
    | one h => exact ⟨_, _, by simp, h⟩
    | more _ h => exact ⟨_, _, by simp [← List.append_assoc], h⟩
  obtain ⟨d, v, hd, hv⟩ := hlast
  refine dropLast?_eq_none hd ?_
  rintro rfl
  refine digit_ordinary hv ?_
  simp only [List.mem_cons, List.not_mem_nil, or_false] at hc ⊢
  tauto

theorem dropLast?_append (c : Char) (cs : List Char) : dropLast? c (cs ++ [c]) = some cs := by
  simp [dropLast?]

theorem eq_append_of_dropLast? {c : Char} {cs ds : List Char} (h : dropLast? c cs = some ds) :
    cs = ds ++ [c] := by
  simp only [dropLast?, Option.ite_none_right_eq_some, Option.some.injEq] at h
  obtain ⟨hlast, rfl⟩ := h
  exact (List.dropLast_append_getLast? c hlast).symm

theorem contains_digits {base n : Nat} {ds : List Char} (h : Digits base ds n) :
    ds.contains '/' = false := by
  rw [List.contains_eq_mem, decide_eq_false_iff_not]
  intro hmem
  obtain ⟨v, hv⟩ := h.forall_mem _ hmem
  exact digit_ordinary hv (by decide)

theorem contains_sign {sign : List Char} {negative : Bool} (h : Sign sign negative) :
    sign.contains '/' = false := by
  cases h <;> rfl

theorem hexDigits?_eq_some_iff {cs ds : List Char} :
    hexDigits? cs = some ds ↔ ∃ x ∈ ['x', 'X'], cs = '0' :: x :: ds := by
  constructor
  · intro h
    unfold hexDigits? at h
    split at h
    · cases h
      exact ⟨'x', by simp, rfl⟩
    · cases h
      exact ⟨'X', by simp, rfl⟩
    · cases h
  · rintro ⟨x, hx, rfl⟩
    simp only [List.mem_cons, List.not_mem_nil, or_false] at hx
    rcases hx with rfl | rfl <;> rfl

theorem hexDigits?_digits {ds : List Char} {n : Nat} (h : Digits 10 ds n) :
    hexDigits? ds = none := by
  rw [Option.eq_none_iff_forall_ne_some]
  intro rest hrest
  obtain ⟨x, hx, rfl⟩ := hexDigits?_eq_some_iff.mp hrest
  have hdigit := isDigit_of_digits h x (by simp)
  simp only [List.mem_cons, List.not_mem_nil, or_false] at hx
  rcases hx with rfl | rfl <;> cases hdigit

theorem no_point {ds : List Char} {n : Nat} (h : Digits 10 ds n) :
    (ds.any fun c => c == '.' || c == 'e' || c == 'E') = false := by
  rw [List.any_eq_false]
  intro c hc
  have hdigit := isDigit_of_digits h c hc
  simp [ne_of_isDigit hdigit (show '.'.isDigit = false by decide),
    ne_of_isDigit hdigit (show 'e'.isDigit = false by decide),
    ne_of_isDigit hdigit (show 'E'.isDigit = false by decide)]

/-! ## Readings -/

/-- What is read as an integer or a ratio behind the first sign. -/
inductive Reading (negative : Bool) : List Char → TokenKind → Prop where
  | decimal {ds : List Char} {m : Nat} {n : Int64} (h : Digits 10 ds m)
    (hn : n.toInt = signed negative m) : Reading negative ds (.int n)
  | suffixed {ds : List Char} {m : Nat} {n : Int64} (h : Digits 10 ds m)
    (hn : n.toInt = signed negative m) : Reading negative (ds ++ ['N']) (.int n)
  | hexadecimal {x : Char} {inner ds : List Char} {minus : Bool} {m : Nat} {n : Int64}
    (hx : x ∈ ['x', 'X']) (hi : Sign inner minus) (h : Digits 16 ds m)
    (hn : n.toInt = signed minus m) :
    Reading negative ('0' :: x :: (inner ++ ds)) (.int (if negative then -n else n))
  | ratio {ns inner ds : List Char} {minus : Bool} {a b : Nat} {n d : Int64}
    (ha : Digits 10 ns a) (hi : Sign inner minus) (hb : Digits 10 ds b)
    (hn : n.toInt = signed negative a) (hd : d.toInt = signed minus b) (hzero : d ≠ 0) :
    Reading negative (ns ++ '/' :: (inner ++ ds)) (.ratio n d)

theorem unsigned?_hexadecimal {negative minus : Bool} {x : Char} {inner ds : List Char} {m : Nat}
    (hx : x ∈ ['x', 'X']) (hi : Sign inner minus) (h : Digits 16 ds m) :
    unsigned? negative ('0' :: x :: (inner ++ ds)) =
      (word? 16 (inner ++ ds)).map fun n => .int (if negative then -n else n) := by
  have hM := dropLast?_digits (c := 'M') (by decide) ('0' :: x :: inner) h
  have hN := dropLast?_digits (c := 'N') (by decide) ('0' :: x :: inner) h
  have hslash : ('0' :: x :: (inner ++ ds)).contains '/' = false := by
    have hmark : ∀ x ∈ ['x', 'X'], x ≠ '/' := by simp
    have hsign := contains_sign hi
    have hdigits := contains_digits h
    simp only [List.contains_eq_mem, decide_eq_false_iff_not] at hsign hdigits ⊢
    simp [(hmark x hx).symm, hsign, hdigits]
  have hhex : hexDigits? ('0' :: x :: (inner ++ ds)) = some (inner ++ ds) :=
    hexDigits?_eq_some_iff.mpr ⟨x, hx, rfl⟩
  rw [List.cons_append, List.cons_append] at hM hN
  simp only [unsigned?, hM, hN, hslash, hhex, Bool.false_eq_true, if_false]

theorem Reading.exact {negative : Bool} {body : List Char} {kind : TokenKind}
    (h : Reading negative body kind) : isExact kind = true := by
  cases h <;> rfl

theorem Reading.read {negative : Bool} {body : List Char} {kind : TokenKind}
    (h : Reading negative body kind) : unsigned? negative body = some kind := by
  cases h with
  | @decimal _ m n h hn =>
    have hM := dropLast?_digits (c := 'M') (by decide) [] h
    have hN := dropLast?_digits (c := 'N') (by decide) [] h
    have hword := (word?_signed h.unsigned).mpr ⟨m, h, hn⟩
    rw [List.nil_append] at hM hN
    simp only [unsigned?, hM, hN, contains_digits h, hexDigits?_digits h, no_point h, hword,
      Bool.false_eq_true, if_false, Option.map_some]
  | @suffixed ds m n h hn =>
    have hM : dropLast? 'M' (ds ++ ['N']) = none := dropLast?_eq_none (d := 'N') (by simp) (by decide)
    have hword := (word?_signed h.unsigned).mpr ⟨m, h, hn⟩
    simp only [unsigned?, hM, dropLast?_append, hword, Option.map_some]
  | @hexadecimal x inner ds minus m n hx hi h hn =>
    have hword := word?_eq_some_iff.mpr ⟨inner, minus, ds, m, hi, rfl, h, hn⟩
    rw [unsigned?_hexadecimal hx hi h, hword]
    rfl
  | @ratio ns inner ds minus a b n d ha hi hb hn hd hzero =>
    have htail : ns ++ '/' :: (inner ++ ds) = (ns ++ '/' :: inner) ++ ds := by simp
    have hM := dropLast?_digits (c := 'M') (by decide) (ns ++ '/' :: inner) hb
    have hN := dropLast?_digits (c := 'N') (by decide) (ns ++ '/' :: inner) hb
    have hslash : (ns ++ '/' :: (inner ++ ds)).contains '/' = true := by simp
    have hbefore : ∀ c ∈ ns, (c != '/') = true := fun c hc => by
      simpa using ne_of_isDigit (isDigit_of_digits ha c hc) (by decide)
    have hnum := (word?_signed ha.unsigned).mpr ⟨a, ha, hn⟩
    have hden := word?_eq_some_iff.mpr ⟨inner, minus, ds, b, hi, rfl, hb, hd⟩
    rw [← htail] at hM hN
    simp only [unsigned?, hM, hN, hslash, if_true, List.takeWhile_append_of_pos hbefore,
      List.dropWhile_append_of_pos hbefore]
    simp [ratio?, hnum, hden, hzero]

theorem unsigned_of_isDigit {c : Char} (h : c.isDigit = true) (cs : List Char) :
    Unsigned (c :: cs) := by
  rintro _ ⟨⟩
  exact ⟨ne_of_isDigit h (by decide), ne_of_isDigit h (by decide)⟩

theorem reading_of_suffixed {negative : Bool} {first : Char} {more digits : List Char}
    {kind : TokenKind} (hf : first.isDigit = true) (hdrop : dropLast? 'N' (first :: more) = some digits)
    (h : (word? 10 (if negative then '-' :: digits else digits)).map .int = some kind) :
    Reading negative (first :: more) kind := by
  have hbody := eq_append_of_dropLast? hdrop
  have hsign : Unsigned digits := by
    cases digits with
    | nil =>
      cases hbody
      cases hf
    | cons d ds =>
      cases hbody
      exact unsigned_of_isDigit hf ds
  obtain ⟨n, hn, rfl⟩ := Option.map_eq_some_iff.mp h
  obtain ⟨m, hm, hn⟩ := (word?_signed hsign).mp hn
  rw [hbody]
  exact .suffixed hm hn

theorem reading_of_ratio {negative : Bool} {first : Char} {more : List Char} {kind : TokenKind}
    (hf : first.isDigit = true) (hslash : (first :: more).contains '/' = true)
    (h : ratio? (if negative then '-' :: (first :: more).takeWhile (· != '/')
        else (first :: more).takeWhile (· != '/')) (((first :: more).dropWhile (· != '/')).drop 1) =
      some kind) : Reading negative (first :: more) kind := by
  have htake : (first :: more).takeWhile (· != '/') = first :: more.takeWhile (· != '/') := by
    refine List.takeWhile_cons_of_pos ?_
    simpa using ne_of_isDigit hf (show '/'.isDigit = false by decide)
  obtain ⟨den, hden⟩ : ∃ den, (first :: more).dropWhile (· != '/') = '/' :: den := by
    cases hdrop : (first :: more).dropWhile (· != '/') with
    | nil =>
      have hall := List.dropWhile_eq_nil_iff.mp hdrop
      simp only [List.contains_eq_mem, decide_eq_true_eq] at hslash
      simpa using hall _ hslash
    | cons c den =>
      have hc := List.head?_dropWhile_not (· != '/') (first :: more)
      rw [hdrop] at hc
      simp only [List.head?_cons, bne, Bool.not_eq_false', beq_iff_eq] at hc
      exact ⟨den, by rw [hc]⟩
  have hsplit := (List.takeWhile_append_dropWhile (p := (· != '/')) (l := first :: more)).symm
  obtain ⟨n, hn, h⟩ := Option.bind_eq_some_iff.mp h
  obtain ⟨d, hd, h⟩ := Option.bind_eq_some_iff.mp h
  split at h
  · cases h
  rename_i hzero
  cases h
  rw [htake] at hn hsplit
  obtain ⟨a, ha, hn⟩ := (word?_signed (unsigned_of_isDigit hf _)).mp hn
  rw [hden, List.drop_one, List.tail_cons] at hd
  obtain ⟨inner, minus, ds, b, hi, rfl, hb, hd⟩ := word?_eq_some_iff.mp hd
  rw [hsplit, hden]
  exact .ratio ha hi hb hn hd hzero

/-- The texts that are read as integers and ratios, and as which. -/
theorem unsigned?_iff {negative : Bool} {first : Char} {more : List Char} {kind : TokenKind}
    (hf : first.isDigit = true) :
    unsigned? negative (first :: more) = some kind ∧ isExact kind = true ↔
      Reading negative (first :: more) kind := by
  constructor
  · rintro ⟨h, hexact⟩
    unfold unsigned? at h
    dsimp only at h
    split at h
    · obtain ⟨_, -, rfl⟩ := Option.map_eq_some_iff.mp h
      cases hexact
    split at h
    · rename_i hdrop
      exact reading_of_suffixed hf hdrop h
    split at h
    · rename_i hslash
      exact reading_of_ratio hf hslash h
    split at h
    · rename_i hhex
      obtain ⟨x, hx, hbody⟩ := hexDigits?_eq_some_iff.mp hhex
      obtain ⟨n, hn, rfl⟩ := Option.map_eq_some_iff.mp h
      obtain ⟨inner, minus, ds, m, hi, rfl, hm, hn⟩ := word?_eq_some_iff.mp hn
      rw [hbody]
      exact .hexadecimal hx hi hm hn
    split at h
    · obtain ⟨_, -, rfl⟩ := Option.map_eq_some_iff.mp h
      cases hexact
    · obtain ⟨n, hn, rfl⟩ := Option.map_eq_some_iff.mp h
      obtain ⟨m, hm, hn⟩ := (word?_signed (unsigned_of_isDigit hf more)).mp hn
      exact .decimal hm hn
  · exact fun h => ⟨h.read, h.exact⟩

/-! ## Signs and the whole text -/

theorem number?_signed {sign more : List Char} {negative : Bool} {first : Char}
    (hs : Sign sign negative) (hf : first.isDigit = true) :
    number? (sign ++ first :: more) = unsigned? negative (first :: more) := by
  cases hs with
  | none => exact number?_of_isDigit hf
  | plus => rfl
  | minus => rfl

theorem numeric_split {first : Char} {more : List Char} (h : startsNumber first more = true) :
    ∃ sign negative d ds, Sign sign negative ∧ first :: more = sign ++ d :: ds ∧
      d.isDigit = true := by
  simp only [startsNumber, Bool.or_eq_true, Bool.and_eq_true, decide_eq_true_eq] at h
  rcases h with hd | ⟨hsign, hd⟩
  · exact ⟨[], false, first, more, .none, rfl, hd⟩
  · cases more with
    | nil => cases hd
    | cons d ds =>
      rcases hsign with rfl | rfl
      · exact ⟨['+'], false, d, ds, .plus, rfl, hd⟩
      · exact ⟨['-'], true, d, ds, .minus, rfl, hd⟩

theorem toInt_neg_of_ne {n : Int64} (h : n.toInt ≠ -2 ^ 63) : (-n).toInt = -n.toInt := by
  obtain ⟨hlow, hhigh⟩ := Word.fits_toInt n
  rw [Int64.toInt_neg, Int.bmod_def]
  omega

/-- The least word is not read in hexadecimal digits. -/
theorem Lowest.unread {text : List Char} (h : Lowest text) : number? text = none := by
  obtain ⟨x, hx, ds, rfl, hds⟩ := h
  have hword : word? 16 ds = none := by
    rw [Option.eq_none_iff_forall_ne_some]
    intro n hn
    obtain ⟨sign, negative, ds', m, hs, hsplit, hds', hn⟩ := word?_eq_some_iff.mp hn
    obtain ⟨rfl, rfl, rfl⟩ := Sign.none.append_inj hs hds.unsigned hds'.unsigned hsplit
    have hfits := (Word.fits_toInt n).2
    rw [hn, ← Digits.unique hds hds', signed, if_neg (by decide)] at hfits
    exact absurd hfits (by decide)
  have hbody := @unsigned?_hexadecimal true _ _ _ _ _ hx .none hds
  rw [List.nil_append, hword] at hbody
  exact hbody

theorem toInt_signed {negative : Bool} {n : Int64} {m : Nat} (hn : n.toInt = m) :
    (if negative then -n else n).toInt = signed negative m := by
  cases negative with
  | true =>
    change (-n).toInt = -(m : Int)
    rw [← hn]
    exact toInt_neg_of_ne (by omega)
  | false => exact hn

theorem Magnitude.unsigned {ms : List Char} {n : Nat} (h : Magnitude ms n) : Unsigned ms := by
  cases h with
  | decimal h => exact h.unsigned
  | suffixed h => exact h.unsigned.append h.ne_nil _
  | hexadecimal => exact unsigned_of_isDigit (by decide) _

/-- What is read as an exact number is a literal, or has a second sign. -/
theorem Reading.literal {sign body : List Char} {negative : Bool} {kind : TokenKind}
    (hs : Sign sign negative) (h : Reading negative body kind) :
    (∃ x, Literal (sign ++ body) x ∧ Carries kind x) ∨ Astray (sign ++ body) kind := by
  cases h with
  | @decimal _ m n h hn => exact .inl ⟨_, .int hs (.decimal h), hn ▸ .int n⟩
  | @suffixed _ m n h hn => exact .inl ⟨_, .int hs (.suffixed h), hn ▸ .int n⟩
  | @hexadecimal x inner ds minus m n hx hi h hn =>
    by_cases hne : inner = []
    · subst hne
      cases hi
      exact .inl ⟨_, .int hs (.hexadecimal hx h), toInt_signed hn ▸ .int _⟩
    · exact .inr (.hexadecimal hs hx hi hne h hn)
  | @ratio ns inner ds minus a b n d ha hi hb hn hd hzero =>
    by_cases hne : inner = []
    · subst hne
      cases hi
      have hd' : d.toInt = b := hd
      have hb' : b ≠ 0 := by
        rintro rfl
        exact hzero (Int64.toInt_inj.mp hd)
      exact .inl ⟨_, .ratio hs ha hb hb', hn ▸ hd' ▸ .ratio n d⟩
    · exact .inr (.ratio hs ha hi hne hb hn hd hzero)

theorem Literal.reading {text sign body : List Char} {negative : Bool} {kind : TokenKind}
    {x : Denoted} (hx : Literal text x) (hc : Carries kind x) (hlow : ¬ Lowest text)
    (hs : Sign sign negative) (hb : Unsigned body) (htext : text = sign ++ body) :
    Reading negative body kind := by
  cases hx with
  | @int _ ms _ m hs' hm =>
    obtain ⟨rfl, rfl, rfl⟩ := hs'.append_inj hs hm.unsigned hb htext
    generalize hz : signed _ m = z at hc
    cases hc with
    | int n =>
      cases hm with
      | decimal h => exact .decimal h hz.symm
      | suffixed h => exact .suffixed h hz.symm
      | @hexadecimal x ds _ hx h =>
        cases hs with
        | none => exact .hexadecimal hx .none h hz.symm
        | plus => exact .hexadecimal hx .none h hz.symm
        | minus =>
          have hn : (-n).toInt = m := by
            rw [toInt_neg_of_ne, ← hz]
            · simp [signed]
            · intro hleast
              have hm : m = 2 ^ 63 := by
                have : -(m : Int) = -2 ^ 63 := hz.trans hleast
                omega
              exact hlow ⟨x, hx, ds, rfl, hm ▸ h⟩
          have hread := @Reading.hexadecimal true _ [] _ _ _ _ hx .none h hn
          rw [if_pos rfl, Int64.neg_neg] at hread
          exact hread
  | @ratio _ ns ds _ a b hs' ha hb' hne =>
    obtain ⟨rfl, rfl, rfl⟩ := hs'.append_inj hs (ha.unsigned.append ha.ne_nil _) hb htext
    generalize hz : signed _ a = z at hc
    generalize hw : (b : Int) = w at hc
    cases hc with
    | ratio n d =>
      refine @Reading.ratio _ _ [] _ _ _ _ _ _ ha .none hb' hz.symm hw.symm ?_
      rintro rfl
      exact hne (Int.ofNat_eq_zero.mp hw)

theorem Astray.reading {text sign body : List Char} {negative : Bool} {kind : TokenKind}
    (h : Astray text kind) (hs : Sign sign negative) (hb : Unsigned body)
    (htext : text = sign ++ body) : Reading negative body kind := by
  cases h with
  | hexadecimal hs' hx hi _ h hn =>
    obtain ⟨rfl, rfl, rfl⟩ := hs'.append_inj hs (unsigned_of_isDigit (by decide) _) hb htext
    exact .hexadecimal hx hi h hn
  | ratio hs' ha hi _ hb' hn hd hzero =>
    obtain ⟨rfl, rfl, rfl⟩ := hs'.append_inj hs (ha.unsigned.append ha.ne_nil _) hb htext
    exact .ratio ha hi hb' hn hd hzero

/-- A sign behind the mark of a hexadecimal literal is read, though no literal has one there, and is
lost if the word under it is the least one. The least word itself is refused. -/
theorem second_sign_is_read :
    (number? "0x-5".toList = some (.int (-5)) ∧ ¬ ∃ x, Literal "0x-5".toList x) ∧
      number? "-0x-8000000000000000".toList = some (.int (-9223372036854775808)) ∧
      number? "-0x8000000000000000".toList = none ∧
      Literal "-0x8000000000000000".toList (.int (-9223372036854775808)) := by
  have hdigits : Digits 16 "8000000000000000".toList 9223372036854775808 :=
    natOfDigits?_eq_some_iff.mp (by cbv)
  have hliteral : Literal "-0x8000000000000000".toList (.int (signed true 9223372036854775808)) :=
    .int .minus (.hexadecimal (by decide) hdigits)
  refine ⟨⟨by cbv, ?_⟩, by cbv, by cbv, hliteral⟩
  rintro ⟨x, hx⟩
  generalize htext : "0x-5".toList = text at hx
  have hzero : Unsigned "0x-5".toList := unsigned_of_isDigit (by decide) _
  cases hx with
  | int hs hm =>
    obtain ⟨rfl, -, rfl⟩ := hs.append_inj .none hm.unsigned hzero htext.symm
    generalize hbody : "0x-5".toList = ms at hm
    cases hm with
    | decimal h =>
      obtain ⟨v, hv⟩ := h.forall_mem '-' (by simp [← hbody])
      exact hv.notSign.1 rfl
    | suffixed h =>
      have hlast := congrArg List.getLast? hbody
      rw [List.getLast?_append] at hlast
      cases hlast
    | hexadecimal hx h =>
      cases hbody
      exact (h.unsigned _ rfl).1 rfl
  | @ratio sign ns ds =>
    have hslash : '/' ∈ "0x-5".toList := by
      rw [htext]
      simp
    exact absurd hslash (by decide)

/-- The texts that begin like a number are read as integers and ratios exactly if they are literals
of such, with the integers that these denote. Exceptions are the least word in hexadecimal digits,
which is refused, and the texts with a second sign, which are read. -/
theorem integer_literals {first : Char} {more : List Char} (h : startsNumber first more = true)
    (kind : TokenKind) : number? (first :: more) = some kind ∧ isExact kind = true ↔
      (∃ x, Literal (first :: more) x ∧ Carries kind x ∧ ¬ Lowest (first :: more)) ∨
        Astray (first :: more) kind := by
  obtain ⟨sign, negative, d, ds, hs, htext, hd⟩ := numeric_split h
  rw [htext]
  constructor
  · rintro ⟨hread, hexact⟩
    have hlow : ¬ Lowest (sign ++ d :: ds) := by
      intro hlow
      rw [hlow.unread] at hread
      cases hread
    rw [number?_signed hs hd] at hread
    rcases ((unsigned?_iff hd).mp ⟨hread, hexact⟩).literal hs with ⟨x, hx, hc⟩ | hastray
    · exact .inl ⟨x, hx, hc, hlow⟩
    · exact .inr hastray
  · intro h
    rw [number?_signed hs hd, unsigned?_iff hd]
    have hsign := unsigned_of_isDigit hd ds
    rcases h with ⟨x, hx, hc, hlow⟩ | hastray
    · exact hx.reading hc hlow hs hsign rfl
    · exact hastray.reading hs hsign rfl

/-- The least word in decimal digits. -/
theorem least_word_is_read : startsNumber '-' "9223372036854775808N".toList = true ∧
    number? ('-' :: "9223372036854775808N".toList) = some (.int (-9223372036854775808)) := by
  have hdigits : Digits 10 "9223372036854775808".toList 9223372036854775808 :=
    natOfDigits?_eq_some_iff.mp (by cbv)
  have hlow : ¬ Lowest ('-' :: "9223372036854775808N".toList) := by
    rintro ⟨x, -, ds, hds, -⟩
    cases hds
  have hvalue : (-9223372036854775808 : Int64).toInt = signed true 9223372036854775808 := by decide
  have hliteral : Literal ('-' :: "9223372036854775808N".toList)
      (.int (signed true 9223372036854775808)) := .int .minus (.suffixed hdigits)
  exact ⟨rfl, ((integer_literals rfl _).mpr (.inl ⟨_, hliteral, hvalue ▸ .int _, hlow⟩)).1⟩

end TwinLisp.Token
