import TwinLisp.Proofs.Text.Digits
import TwinLisp.Proofs.Token.Scanned
import TwinLisp.Value.Printing
import Mathlib.Data.Bool.AllAny
import Mathlib.Data.List.TakeWhile
import Mathlib.Tactic.Tauto

/-! The scanner on the texts of atoms. An atom that is followed by a delimiter or by nothing is
scanned as one token, whatever place it has.

* `Reads`: a text is scanned as a token of one kind.
* `SymbolName`, `KeywordName`: the names that are read back (`reads_symbol`, `reads_keyword`), which
  are those that the scanner can produce (`scanned_symbol_iff`, `scanned_keyword_iff`).
* `reads_int`, `reads_ratio`, `reads_char`, `reads_str`: the other atoms. -/

namespace TwinLisp.Token

open Text

/-! ## Places -/

/-- Whether a character only stands between tokens, or begins a comment. -/
def separates (ch : Char) : Bool := isBlank ch || ch == ',' || ch == ';'

/-- What may follow an atom. -/
def Ended (rest : List Char) : Prop := ∀ ch ∈ rest.head?, isDelimiter ch = true

theorem ended_nil : Ended [] := nofun

theorem ended_cons {ch : Char} {rest : List Char} (h : isDelimiter ch = true) :
    Ended (ch :: rest) := by
  rintro _ ⟨⟩
  exact h

theorem separates_of_plain {ch : Char} (h : isDelimiter ch = false) : separates ch = false := by
  simp only [isDelimiter, separates, Bool.or_eq_false_iff] at h ⊢
  tauto

theorem skip_eq {c : Cursor} {ch : Char} {rest : List Char} (hc : c.rest = ch :: rest)
    (hs : separates ch = false) : skip c = c := by
  simp only [separates, Bool.or_eq_false_iff, beq_eq_false_iff_ne] at hs
  obtain ⟨⟨hb, hcomma⟩, hsemi⟩ := hs
  have hn : ch ≠ '\n' := by
    rintro rfl
    exact absurd hb (by decide)
  rw [skip, hc, skipFrom]
  simp [hn, hb, hcomma, hsemi, ← hc]

theorem next_eq {c d : Cursor} {ch : Char} {rest : List Char} {kind : TokenKind}
    (hc : c.rest = ch :: rest) (hs : separates ch = false)
    (hk : kindAt c ch rest = .ok (kind, d)) : next c = .ok (⟨kind, c.spanTo d⟩, d) := by
  rw [next, skip_eq hc hs]
  simp only [hc, hk]

theorem atom_eq {c : Cursor} {cs rest : List Char} (hc : c.rest = cs ++ rest)
    (hcs : ∀ ch ∈ cs, isDelimiter ch = false) (hr : Ended rest) :
    atom c = (cs, c.passAll cs rest) := by
  have hp : ∀ ch ∈ cs, (!isDelimiter ch) = true := fun ch hm => by rw [hcs ch hm]; rfl
  have hstop : rest.takeWhile (fun ch => !isDelimiter ch) = [] ∧
      rest.dropWhile (fun ch => !isDelimiter ch) = rest := by
    cases rest with
    | nil => exact ⟨rfl, rfl⟩
    | cons ch more => simp [hr ch rfl]
  simp only [atom, hc, List.takeWhile_append_of_pos hp, List.dropWhile_append_of_pos hp, hstop.1,
    hstop.2, List.append_nil]

/-! ## One atom -/

/-- A text before a delimiter or the end is scanned as one token. -/
def Reads (cs : List Char) (kind : TokenKind) : Prop :=
  ∀ (c : Cursor) (rest : List Char), c.rest = cs ++ rest → Ended rest →
    ∃ t d, next c = .ok (t, d) ∧ t.kind = kind ∧ d.rest = rest

theorem reads_of_kindAt {ch : Char} {more : List Char} {kind : TokenKind}
    (hs : separates ch = false)
    (h : ∀ (c : Cursor) (rest : List Char), Ended rest →
      ∃ d, kindAt c ch (more ++ rest) = .ok (kind, d) ∧ d.rest = rest) :
    Reads (ch :: more) kind := by
  intro c rest hc hr
  obtain ⟨d, hk, hd⟩ := h c rest hr
  exact ⟨⟨kind, c.spanTo d⟩, d, next_eq hc hs hk, rfl, hd⟩

/-! ## Names -/

/-- The names of symbols, by their first character and the others. -/
structure SymbolName (first : Char) (more : List Char) : Prop where
  plain : ∀ ch ∈ first :: more, isDelimiter ch = false
  unmarked : mark? first = none
  ordinary : first ≠ '#' ∧ first ≠ '\\' ∧ first ≠ ':'
  noNumber : startsNumber first more = false
  noLiteral : String.ofList (first :: more) ∉ ["nil", "true", "false"]

/-- The names of keywords. -/
structure KeywordName (first : Char) (more : List Char) : Prop where
  plain : ∀ ch ∈ first :: more, isDelimiter ch = false
  noColon : first ≠ ':'

theorem isDelimiter_of_isDigit {ch : Char} (h : ch.isDigit = true) : isDelimiter ch = false := by
  have hall : ∀ ch ∈ ['0', '1', '2', '3', '4', '5', '6', '7', '8', '9'], isDelimiter ch = false :=
    List.all_iff_forall_prop.mp (by decide)
  exact hall ch (mem_of_isDigit h)

theorem startsNumber_append {first : Char} {more rest : List Char} (hr : Ended rest) :
    startsNumber first (more ++ rest) = startsNumber first more := by
  cases more with
  | cons ch more => rfl
  | nil =>
    cases rest with
    | nil => rfl
    | cons ch rest =>
      have hd : ch.isDigit = false := by
        by_contra h
        have := isDelimiter_of_isDigit (Bool.not_eq_false _ ▸ h)
        rw [hr ch rfl] at this
        cases this
      simp [startsNumber, hd]

theorem kindAt_word {first : Char} {more rest : List Char} {c : Cursor}
    (hp : ∀ ch ∈ first :: more, isDelimiter ch = false) (hm : mark? first = none)
    (ho : first ≠ '#' ∧ first ≠ '\\' ∧ first ≠ ':') (hn : startsNumber first more = false)
    (hr : Ended rest) :
    kindAt c first (more ++ rest) =
      let behind := (c.pass first (more ++ rest)).passAll more rest
      let name := String.ofList (first :: more)
      .ok (if name = "nil" then (.nil, behind) else if name = "true" then (.true, behind)
        else if name = "false" then (.false, behind) else (.symbol name, behind)) := by
  have hq : first ≠ '"' := by
    rintro rfl
    exact absurd (hp _ List.mem_cons_self) (by decide)
  have ha : atom (c.pass first (more ++ rest)) = (more, _) :=
    atom_eq rfl (fun ch hch => hp ch (List.mem_cons_of_mem _ hch)) hr
  simp only [kindAt, hm, if_neg ho.1, if_neg hq, if_neg ho.2.1, if_neg ho.2.2,
    startsNumber_append hr, hn, Bool.false_eq_true, if_false, symbol, ha]

theorem reads_symbol {first : Char} {more : List Char} (h : SymbolName first more) :
    Reads (first :: more) (.symbol (String.ofList (first :: more))) := by
  obtain ⟨hp, hm, ho, hn, hl⟩ := h
  simp only [List.mem_cons, List.not_mem_nil, or_false, not_or] at hl
  refine reads_of_kindAt (separates_of_plain (hp _ List.mem_cons_self)) fun c rest hr =>
    ⟨(c.pass first (more ++ rest)).passAll more rest, ?_, rfl⟩
  rw [kindAt_word hp hm ho hn hr]
  simp only [if_neg hl.1, if_neg hl.2.1, if_neg hl.2.2]

theorem reads_nil : Reads "nil".toList .nil :=
  reads_of_kindAt (by decide) fun c _ hr =>
    ⟨_, kindAt_word (List.all_iff_forall_prop.mp (by decide)) rfl (by decide) rfl hr, rfl⟩

theorem reads_true : Reads "true".toList .true :=
  reads_of_kindAt (by decide) fun c _ hr =>
    ⟨_, kindAt_word (List.all_iff_forall_prop.mp (by decide)) rfl (by decide) rfl hr, rfl⟩

theorem reads_false : Reads "false".toList .false :=
  reads_of_kindAt (by decide) fun c _ hr =>
    ⟨_, kindAt_word (List.all_iff_forall_prop.mp (by decide)) rfl (by decide) rfl hr, rfl⟩

theorem reads_keyword {first : Char} {more : List Char} (h : KeywordName first more) :
    Reads (':' :: first :: more) (.keyword (String.ofList (first :: more))) := by
  refine reads_of_kindAt (by decide) fun c rest hr =>
    ⟨(c.pass ':' (first :: more ++ rest)).passAll (first :: more) rest, ?_, rfl⟩
  have ha : atom (c.pass ':' (first :: more ++ rest)) = (first :: more, _) :=
    atom_eq rfl h.plain hr
  have hdrop : (first :: more).dropWhile (· == ':') = first :: more := by
    rw [List.dropWhile_cons_of_neg]
    simpa using h.noColon
  change keyword c (c.pass ':' (first :: more ++ rest)) = _
  rw [keyword, ha]
  simp only [hdrop]

/-! ## Numbers -/

theorem plain_of_digits {ds : List Char} (h : ∀ c ∈ ds, c.isDigit = true) :
    ∀ c ∈ ds, isDelimiter c = false :=
  fun c hc => isDelimiter_of_isDigit (h c hc)

theorem ne_of_isDigit {ch other : Char} (h : ch.isDigit = true) (ho : other.isDigit = false) :
    ch ≠ other := by
  rintro rfl
  rw [h] at ho
  cases ho

theorem dropLast?_eq_none {c : Char} {cs : List Char} {d : Char} (h : cs.getLast? = some d)
    (hd : d ≠ c) : dropLast? c cs = none := by
  rw [dropLast?, h, if_neg]
  simpa using hd

theorem getLast?_digits (cs : List Char) (n : Nat) :
    ∃ d, (cs ++ Nat.toDigits 10 n).getLast? = some d ∧ d.isDigit = true := by
  have hne : cs ++ Nat.toDigits 10 n ≠ [] := by
    simp [Nat.toDigits_ne_nil]
  refine ⟨_, List.getLast?_eq_some_getLast hne, ?_⟩
  rw [List.getLast_append_of_ne_nil _ Nat.toDigits_ne_nil]
  exact isDigit_of_mem_digits (List.getLast_mem _)

theorem unsigned?_digits (negative : Bool) (n : Nat) :
    unsigned? negative (Nat.toDigits 10 n) =
      (word? 10 (if negative then '-' :: Nat.toDigits 10 n else Nat.toDigits 10 n)).map .int := by
  obtain ⟨d, hd, hdigit⟩ := getLast?_digits [] n
  rw [List.nil_append] at hd
  have hM := dropLast?_eq_none hd (ne_of_isDigit hdigit (show 'M'.isDigit = false by decide))
  have hN := dropLast?_eq_none hd (ne_of_isDigit hdigit (show 'N'.isDigit = false by decide))
  have hall : ∀ c ∈ Nat.toDigits 10 n, c.isDigit = true := fun c => isDigit_of_mem_digits
  have hslash : (Nat.toDigits 10 n).contains '/' = false := by
    rw [List.contains_eq_mem, decide_eq_false_iff_not]
    exact fun h => absurd (hall _ h) (by decide)
  have hhex : hexDigits? (Nat.toDigits 10 n) = none := by
    unfold hexDigits?
    split
    · exact absurd (hall 'x' (by simp [*])) (by decide)
    · exact absurd (hall 'X' (by simp [*])) (by decide)
    · rfl
  have hpoint : ((Nat.toDigits 10 n).any fun c => c == '.' || c == 'e' || c == 'E') = false := by
    rw [List.any_eq_false]
    intro c hc
    simp [ne_of_isDigit (hall c hc) (show '.'.isDigit = false by decide),
      ne_of_isDigit (hall c hc) (show 'e'.isDigit = false by decide),
      ne_of_isDigit (hall c hc) (show 'E'.isDigit = false by decide)]
  simp only [unsigned?, hM, hN, hslash, hhex, hpoint, Bool.false_eq_true, if_false]

theorem unsigned?_ratio (negative : Bool) (n d : Nat) :
    unsigned? negative (Nat.toDigits 10 n ++ '/' :: Nat.toDigits 10 d) =
      ratio? (if negative then '-' :: Nat.toDigits 10 n else Nat.toDigits 10 n)
        (Nat.toDigits 10 d) := by
  obtain ⟨l, hl, hdigit⟩ := getLast?_digits (Nat.toDigits 10 n ++ ['/']) d
  rw [List.append_assoc, List.singleton_append] at hl
  have hM := dropLast?_eq_none hl (ne_of_isDigit hdigit (show 'M'.isDigit = false by decide))
  have hN := dropLast?_eq_none hl (ne_of_isDigit hdigit (show 'N'.isDigit = false by decide))
  have hslash : (Nat.toDigits 10 n ++ '/' :: Nat.toDigits 10 d).contains '/' = true := by
    simp
  have hp : ∀ c ∈ Nat.toDigits 10 n, (c != '/') = true := fun c hc => by
    simpa using ne_of_isDigit (isDigit_of_mem_digits hc) (by decide)
  simp only [unsigned?, hM, hN, hslash, if_true,
    List.takeWhile_append_of_pos hp, List.dropWhile_append_of_pos hp]
  simp

theorem word?_text (n : Int64) : word? 10 (toString n.toInt).toList = some n := by
  rw [word?, intOfDigits?_text]
  exact Word.ofInt?_eq_some_iff.mpr rfl

theorem number?_of_isDigit {c : Char} {cs : List Char} (hc : c.isDigit = true) :
    number? (c :: cs) = unsigned? false (c :: cs) := by
  rw [number?]
  · intro _ he
    cases he
    exact absurd hc (by decide)
  · intro _ he
    cases he
    exact absurd hc (by decide)

theorem number?_int (n : Int64) : number? (toString n.toInt).toList = some (.int n) := by
  have hword := word?_text n
  rcases int_text_cases n.toInt with ⟨m, -, h⟩ | ⟨m, -, h⟩
  · obtain ⟨c, cs, hcs, hc⟩ := digits_eq_cons m
    rw [h] at hword ⊢
    rw [hcs, number?_of_isDigit hc, ← hcs, unsigned?_digits]
    simp [hword]
  · rw [h] at hword ⊢
    rw [number?, unsigned?_digits]
    simp [hword]

theorem number?_ratio (n d : Int64) (hd : 0 < d.toInt) :
    number? ((toString n.toInt).toList ++ '/' :: (toString d.toInt).toList) =
      some (.ratio n d) := by
  have hnum := word?_text n
  have hden := word?_text d
  have hzero : d ≠ 0 := by
    rintro rfl
    exact absurd hd (by decide)
  obtain ⟨k, hk, hdk⟩ : ∃ k : Nat, d.toInt = k ∧ (toString d.toInt).toList = Nat.toDigits 10 k := by
    rcases int_text_cases d.toInt with ⟨k, hk, h⟩ | ⟨k, hk, -⟩
    · exact ⟨k, hk, h⟩
    · omega
  rw [hdk] at hden ⊢
  rcases int_text_cases n.toInt with ⟨m, -, h⟩ | ⟨m, -, h⟩
  · obtain ⟨c, cs, hcs, hc⟩ := digits_eq_cons m
    rw [h] at hnum ⊢
    rw [hcs, List.cons_append, number?_of_isDigit hc, ← List.cons_append, ← hcs, unsigned?_ratio]
    simp [ratio?, hnum, hden, hzero]
  · rw [h] at hnum ⊢
    rw [List.cons_append, number?, unsigned?_ratio]
    simp [ratio?, hnum, hden, hzero]

theorem reads_number {first : Char} {more : List Char} {kind : TokenKind}
    (hn : startsNumber first more = true) (hp : ∀ ch ∈ more, isDelimiter ch = false)
    (h : number? (first :: more) = some kind) : Reads (first :: more) kind := by
  have hfirst : first ∈ ['+', '-', '0', '1', '2', '3', '4', '5', '6', '7', '8', '9'] := by
    simp only [startsNumber, Bool.or_eq_true, Bool.and_eq_true, decide_eq_true_eq] at hn
    rcases hn with hd | ⟨rfl | rfl, -⟩
    · exact List.mem_cons_of_mem _ (List.mem_cons_of_mem _ (mem_of_isDigit hd))
    · decide
    · decide
  have hall : ∀ ch ∈ ['+', '-', '0', '1', '2', '3', '4', '5', '6', '7', '8', '9'],
      separates ch = false ∧ mark? ch = none ∧ ch ≠ '#' ∧ ch ≠ '"' ∧ ch ≠ '\\' ∧ ch ≠ ':' :=
    List.all_iff_forall_prop.mp (by decide)
  obtain ⟨hs, hm, h₁, h₂, h₃, h₄⟩ := hall first hfirst
  refine reads_of_kindAt hs fun c rest hr =>
    ⟨(c.pass first (more ++ rest)).passAll more rest, ?_, rfl⟩
  have ha : atom (c.pass first (more ++ rest)) = (more, _) := atom_eq rfl hp hr
  simp only [kindAt, hm, if_neg h₁, if_neg h₂, if_neg h₃, if_neg h₄, startsNumber_append hr, hn,
    if_true, number, ha, h]

theorem reads_int (n : Int64) : Reads (toString n.toInt).toList (.int n) := by
  have hnumber := number?_int n
  rcases int_text_cases n.toInt with ⟨m, -, h⟩ | ⟨m, -, h⟩
  · obtain ⟨c, cs, hcs, hc⟩ := digits_eq_cons m
    have hall : ∀ ch ∈ c :: cs, ch.isDigit = true := fun ch hch =>
      isDigit_of_mem_digits (hcs ▸ hch)
    rw [h, hcs] at hnumber ⊢
    refine reads_number (by simp [startsNumber, hc]) ?_ hnumber
    exact fun ch hch => plain_of_digits hall ch (List.mem_cons_of_mem _ hch)
  · obtain ⟨c, cs, hcs, hc⟩ := digits_eq_cons m
    rw [h] at hnumber ⊢
    refine reads_number (by simp [startsNumber, hcs, hc]) ?_ hnumber
    exact plain_of_digits fun ch => isDigit_of_mem_digits

theorem reads_ratio (n d : Int64) (hd : 0 < d.toInt) :
    Reads ((toString n.toInt).toList ++ '/' :: (toString d.toInt).toList) (.ratio n d) := by
  have hnumber := number?_ratio n d hd
  have hden : ∀ ch ∈ '/' :: (toString d.toInt).toList, isDelimiter ch = false := by
    rcases int_text_cases d.toInt with ⟨k, -, h⟩ | ⟨k, hk, -⟩
    · rw [h]
      exact List.forall_mem_cons.mpr ⟨by decide, plain_of_digits fun ch => isDigit_of_mem_digits⟩
    · omega
  rcases int_text_cases n.toInt with ⟨m, -, h⟩ | ⟨m, -, h⟩
  · obtain ⟨c, cs, hcs, hc⟩ := digits_eq_cons m
    have hall : ∀ ch ∈ c :: cs, ch.isDigit = true := fun ch hch =>
      isDigit_of_mem_digits (hcs ▸ hch)
    rw [h, hcs, List.cons_append] at hnumber ⊢
    refine reads_number (by simp [startsNumber, hc]) ?_ hnumber
    refine List.forall_mem_append.mpr ⟨fun ch hch => ?_, hden⟩
    exact plain_of_digits hall ch (List.mem_cons_of_mem _ hch)
  · obtain ⟨c, cs, hcs, hc⟩ := digits_eq_cons m
    rw [h, List.cons_append] at hnumber ⊢
    refine reads_number (by simp [startsNumber, hcs, hc]) ?_ hnumber
    exact List.forall_mem_append.mpr ⟨plain_of_digits fun ch => isDigit_of_mem_digits, hden⟩

/-! ## Characters and strings -/

/-- The first character of a literal may be a delimiter. -/
theorem reads_named (first : Char) (more : List Char) {value : Char}
    (hp : ∀ ch ∈ more, isDelimiter ch = false) (h : namedChar? (first :: more) = some value) :
    Reads ('\\' :: first :: more) (.char value) := by
  refine reads_of_kindAt (by decide) fun c rest hr =>
    ⟨((c.pass '\\' (first :: more ++ rest)).pass first (more ++ rest)).passAll more rest, ?_, rfl⟩
  have ha : atom ((c.pass '\\' (first :: more ++ rest)).pass first (more ++ rest)) = (more, _) :=
    atom_eq rfl hp hr
  change character c (c.pass '\\' (first :: (more ++ rest))) = _
  simp only [List.cons_append] at ha
  simp only [character, Cursor.pass, List.cons_append] at ha ⊢
  simp only [ha, h]

theorem reads_char (c : Char) : Reads (Value.charLiteral c).toList (.char c) := by
  unfold Value.charLiteral
  split
  · subst c
    exact reads_named 'n' "ewline".toList (List.all_iff_forall_prop.mp (by decide)) rfl
  split
  · subst c
    exact reads_named 's' "pace".toList (List.all_iff_forall_prop.mp (by decide)) rfl
  split
  · subst c
    exact reads_named 't' "ab".toList (List.all_iff_forall_prop.mp (by decide)) rfl
  split
  · subst c
    exact reads_named 'r' "eturn".toList (List.all_iff_forall_prop.mp (by decide)) rfl
  split
  · subst c
    exact reads_named 'b' "ackspace".toList (List.all_iff_forall_prop.mp (by decide)) rfl
  split
  · subst c
    exact reads_named 'f' "ormfeed".toList (List.all_iff_forall_prop.mp (by decide)) rfl
  · rw [String.toList_append, String.toList_singleton]
    exact reads_named c [] nofun rfl

/-- Characters that stand in a quoted text as themselves or behind a backslash. -/
def Shown (c : Char) : Prop :=
  escapeChar c = [c] ∨ c ∈ ['"', '\\', '\n', '\t', '\r', '\x00']

instance (c : Char) : Decidable (Shown c) := inferInstanceAs (Decidable (_ ∨ _))

theorem shown_cases {c : Char} (h : Shown c) :
    (∃ e, escapeChar c = ['\\', e] ∧ escape? e = some c) ∨
      (escapeChar c = [c] ∧ c ∉ ['"', '\n', '\\']) := by
  by_cases hc : c ∈ ['"', '\\', '\n', '\t', '\r', '\x00']
  · simp only [List.mem_cons, List.not_mem_nil, or_false] at hc
    rcases hc with rfl | rfl | rfl | rfl | rfl | rfl
    · exact .inl ⟨'"', rfl, rfl⟩
    · exact .inl ⟨'\\', rfl, rfl⟩
    · exact .inl ⟨'n', rfl, rfl⟩
    · exact .inl ⟨'t', rfl, rfl⟩
    · exact .inl ⟨'r', rfl, rfl⟩
    · exact .inl ⟨'0', rfl, rfl⟩
  · refine .inr ⟨h.resolve_right hc, fun hmem => hc ?_⟩
    revert hmem
    simp only [List.mem_cons, List.not_mem_nil, or_false]
    tauto

theorem stringFrom_escape {start c : Cursor} {acc rest : List Char} {e value : Char}
    (he : escape? e = some value) : stringFrom start c acc ('\\' :: e :: rest) =
      stringFrom start (c.passAll ['\\', e] rest) (value :: acc) rest := by
  have hu : e ≠ 'u' := by
    rintro rfl
    cases he
  rw [stringFrom]
  · simp only [he]
  · intro _ _ _ _ _ h
    exact absurd h hu
  · exact hu

theorem stringFrom_raw {start c : Cursor} {acc rest : List Char} {ch : Char}
    (h : ch ∉ ['"', '\n', '\\']) : stringFrom start c acc (ch :: rest) =
      stringFrom start (c.pass ch rest) (ch :: acc) rest := by
  simp only [List.mem_cons, List.not_mem_nil, or_false, not_or] at h
  rw [stringFrom]
  all_goals intros; simp_all

theorem stringFrom_shown {cs : List Char} (h : ∀ c ∈ cs, Shown c) (start c : Cursor)
    (acc rest : List Char) : ∃ d, stringFrom start c acc (cs.flatMap escapeChar ++ '"' :: rest) =
      .ok (String.ofList (acc.reverse ++ cs), d) ∧ d.rest = rest := by
  induction cs generalizing c acc with
  | nil =>
    refine ⟨c.pass '"' rest, ?_, rfl⟩
    simp [stringFrom]
  | cons ch cs ih =>
    obtain ⟨hch, hcs⟩ := List.forall_mem_cons.mp h
    have hacc : acc.reverse ++ ch :: cs = (ch :: acc).reverse ++ cs := by simp
    rw [List.flatMap_cons, List.append_assoc, hacc]
    rcases shown_cases hch with ⟨e, hesc, he⟩ | ⟨hesc, hraw⟩
    · rw [hesc, List.cons_append, List.singleton_append, stringFrom_escape he]
      exact ih hcs _ _
    · rw [hesc, List.singleton_append, stringFrom_raw hraw]
      exact ih hcs _ _

theorem toList_quoted (s : String) :
    (quoted s).toList = '"' :: (s.toList.flatMap escapeChar ++ ['"']) := by
  have hfold : ∀ (cs : List Char) (out : String),
      (cs.foldl (fun out c => String.append out (String.ofList (escapeChar c))) out).toList =
        out.toList ++ cs.flatMap escapeChar := by
    intro cs
    induction cs with
    | nil => simp
    | cons c cs ih =>
      intro out
      rw [List.foldl_cons, ih]
      change (out ++ String.ofList (escapeChar c)).toList ++ _ = _
      simp
  rw [quoted, String.toList_append, String.foldl_eq_foldl_toList, hfold]
  simp

theorem reads_str {s : String} (h : ∀ c ∈ s.toList, Shown c) :
    Reads (quoted s).toList (.str s) := by
  rw [toList_quoted]
  refine reads_of_kindAt (by decide) fun c rest hr => ?_
  obtain ⟨d, hd, hrest⟩ := stringFrom_shown h c
    (c.pass '"' (s.toList.flatMap escapeChar ++ '"' :: rest)) [] rest
  refine ⟨d, ?_, hrest⟩
  rw [List.append_assoc, List.singleton_append]
  change (stringFrom c _ [] _).map _ = _
  rw [hd]
  simp [Except.map]

/-! ## The names that the scanner produces -/

/-- The scanner produces a token of this kind from some source. -/
def Scanned (kind : TokenKind) : Prop :=
  ∃ source t, t ∈ (scan source).1 ∧ t.kind = kind

theorem next_of_mem_scanFrom {c : Cursor} {acc : List Token} {t : Token}
    (h : t ∈ (scanFrom c acc).1) : t ∈ acc ∨ ∃ c d, next c = .ok (t, d) := by
  fun_induction scanFrom c acc with
  | case1 => exact .inl (List.mem_reverse.mp h)
  | case2 c acc u d hn he =>
    rcases List.mem_cons.mp (List.mem_reverse.mp h) with rfl | h
    · exact .inr ⟨c, d, hn⟩
    · exact .inl h
  | case3 c acc u d hn he _ ih =>
    rcases ih h with h | h
    · rcases List.mem_cons.mp h with rfl | h
      · exact .inr ⟨c, d, hn⟩
      · exact .inl h
    · exact .inr h

theorem mem_scanFrom {c : Cursor} {acc : List Token} {t : Token} (h : t ∈ acc) :
    t ∈ (scanFrom c acc).1 := by
  fun_induction scanFrom c acc with
  | case1 => exact List.mem_reverse.mpr h
  | case2 => exact List.mem_reverse.mpr (List.mem_cons_of_mem _ h)
  | case3 _ _ _ _ _ _ _ ih => exact ih (List.mem_cons_of_mem _ h)

theorem scanned_of_reads {cs : List Char} {kind : TokenKind} (h : Reads cs kind)
    (he : kind.isEof = false) : Scanned kind := by
  obtain ⟨t, d, hn, rfl, -⟩ := h (.start (String.ofList cs)) [] (by simp [Cursor.start]) ended_nil
  refine ⟨String.ofList cs, t, ?_, rfl⟩
  rw [scan, scanFrom_token hn he]
  exact mem_scanFrom List.mem_cons_self

theorem separates_of_skipFrom {b : Bool} {c : Cursor} {cs rest : List Char} {ch : Char}
    (h : (skipFrom b c cs).rest = ch :: rest) : separates ch = false := by
  induction cs generalizing b c with
  | nil => cases h
  | cons x xs ih =>
    unfold skipFrom at h
    split at h
    · exact ih h
    split at h
    · exact ih h
    split at h
    · exact ih h
    split at h
    · exact ih h
    · cases h
      simp_all [separates]

theorem kindAt_of_scanned {kind : TokenKind} (hk : kind.isEof = false) (h : Scanned kind) :
    ∃ c ch rest d, separates ch = false ∧ kindAt c ch rest = .ok (kind, d) := by
  obtain ⟨source, t, ht, rfl⟩ := h
  obtain ⟨c, d, hn⟩ := (next_of_mem_scanFrom ht).resolve_left List.not_mem_nil
  unfold next at hn
  dsimp only at hn
  split at hn
  · cases hn
    cases hk
  · rename_i ch rest hrest
    split at hn
    · rename_i kind d' hkind
      cases hn
      exact ⟨skip c, ch, rest, d, separates_of_skipFrom hrest, hkind⟩
    · cases hn

/-- Whether a token is a numeric literal. -/
def isNumeric : TokenKind → Bool
  | .int _ | .ratio .. | .double _ | .decimal _ => true
  | _ => false

theorem unsigned?_numeric {negative : Bool} {cs : List Char} {kind : TokenKind}
    (h : unsigned? negative cs = some kind) : isNumeric kind = true := by
  unfold unsigned? at h
  dsimp only at h
  split at h
  · obtain ⟨_, -, rfl⟩ := Option.map_eq_some_iff.mp h
    rfl
  split at h
  · obtain ⟨_, -, rfl⟩ := Option.map_eq_some_iff.mp h
    rfl
  split at h
  · obtain ⟨_, -, h⟩ := Option.bind_eq_some_iff.mp h
    obtain ⟨_, -, h⟩ := Option.bind_eq_some_iff.mp h
    split at h
    · cases h
    · cases h
      rfl
  split at h
  · obtain ⟨_, -, rfl⟩ := Option.map_eq_some_iff.mp h
    rfl
  split at h
  · obtain ⟨_, -, rfl⟩ := Option.map_eq_some_iff.mp h
    rfl
  · obtain ⟨_, -, rfl⟩ := Option.map_eq_some_iff.mp h
    rfl

theorem number?_numeric {text : List Char} {kind : TokenKind} (h : number? text = some kind) :
    isNumeric kind = true := by
  unfold number? at h
  split at h <;> exact unsigned?_numeric h

theorem number_isName {start c d : Cursor} {first : Char} {kind : TokenKind}
    (h : number start c first = .ok (kind, d)) :
    (∀ name, kind ≠ .symbol name) ∧ ∀ name, kind ≠ .keyword name := by
  unfold number at h
  dsimp only at h
  split at h
  · rename_i hn
    cases h
    have hnum := number?_numeric hn
    constructor <;> (rintro name rfl; cases hnum)
  · cases h

theorem plain_of_takeWhile {ch : Char} {cs : List Char}
    (h : ch ∈ cs.takeWhile fun ch => !isDelimiter ch) : isDelimiter ch = false := by
  simpa using List.mem_takeWhile_imp h

theorem startsNumber_takeWhile {first : Char} {cs : List Char} (h : startsNumber first cs = false) :
    startsNumber first (cs.takeWhile fun ch => !isDelimiter ch) = false := by
  have hr : Ended (cs.dropWhile fun ch => !isDelimiter ch) := by
    intro ch hch
    have := List.head?_dropWhile_not (fun ch => !isDelimiter ch) cs
    rw [hch] at this
    simpa using this
  rwa [← startsNumber_append hr, List.takeWhile_append_dropWhile]

theorem mark?_isName {ch : Char} {kind : TokenKind} (h : mark? ch = some kind) :
    (∀ name, kind ≠ .symbol name) ∧ ∀ name, kind ≠ .keyword name := by
  unfold mark? at h
  split at h <;> cases h <;> exact ⟨nofun, nofun⟩

theorem character_isName {start c d : Cursor} {kind : TokenKind}
    (h : character start c = .ok (kind, d)) :
    (∀ name, kind ≠ .symbol name) ∧ ∀ name, kind ≠ .keyword name := by
  unfold character at h
  split at h
  · cases h
  · dsimp only at h
    split at h
    · cases h
      exact ⟨nofun, nofun⟩
    · cases h

/-- A name is scanned as a keyword behind a colon, or as a symbol. -/
theorem kindAt_cases {c d : Cursor} {ch : Char} {rest : List Char} {kind : TokenKind}
    (h : kindAt c ch rest = .ok (kind, d)) :
    ((∀ name, kind ≠ .symbol name) ∧ ∀ name, kind ≠ .keyword name) ∨
      keyword c (c.pass ch rest) = .ok (kind, d) ∨
      (mark? ch = none ∧ (ch ≠ '#' ∧ ch ≠ '\\' ∧ ch ≠ ':') ∧ ch ≠ '"' ∧
        startsNumber ch rest = false ∧ symbol (c.pass ch rest) ch = (kind, d)) := by
  unfold kindAt at h
  dsimp only at h
  split at h
  · rename_i hm
    cases h
    exact .inl (mark?_isName hm)
  rename_i hm
  split at h
  · split at h
    · cases h
      exact .inl ⟨nofun, nofun⟩
    · cases h
      exact .inl ⟨nofun, nofun⟩
    · cases h
  rename_i hhash
  split at h
  · cases hs : stringFrom c (c.pass ch rest) [] rest with
    | error e => rw [hs] at h; cases h
    | ok p =>
      rw [hs] at h
      cases h
      exact .inl ⟨nofun, nofun⟩
  rename_i hquote
  split at h
  · exact .inl (character_isName h)
  rename_i hback
  split at h
  · exact .inr (.inl h)
  rename_i hcolon
  split at h
  · exact .inl (number_isName h)
  · rename_i hn
    have hsym := Except.ok.inj h
    exact .inr (.inr ⟨hm, ⟨hhash, hback, hcolon⟩, hquote, Bool.not_eq_true _ ▸ hn, hsym⟩)

theorem plain_of_separates {ch : Char} (hs : separates ch = false) (hm : mark? ch = none)
    (hq : ch ≠ '"') : isDelimiter ch = false := by
  simp only [separates, Bool.or_eq_false_iff, beq_eq_false_iff_ne] at hs
  have hmarks : ∀ other, mark? other ≠ none → ch ≠ other := by
    rintro other ho rfl
    exact ho hm
  simp [isDelimiter, hs.1.1, hs.1.2, hs.2, hq, hmarks '(' (by decide), hmarks ')' (by decide),
    hmarks '[' (by decide), hmarks ']' (by decide), hmarks '{' (by decide),
    hmarks '}' (by decide)]

theorem symbol_cases {c d : Cursor} {first : Char} {kind : TokenKind}
    (h : symbol c first = (kind, d)) : kind ∈ [TokenKind.nil, .true, .false] ∨
      String.ofList (first :: (atom c).1) ∉ ["nil", "true", "false"] ∧
        kind = .symbol (String.ofList (first :: (atom c).1)) := by
  have hkind := congrArg Prod.fst h
  simp only [symbol] at hkind
  simp only [List.mem_cons, List.not_mem_nil, or_false, not_or]
  split at hkind
  · exact .inl (.inl hkind.symm)
  split at hkind
  · exact .inl (.inr (.inl hkind.symm))
  split at hkind
  · exact .inl (.inr (.inr hkind.symm))
  · exact .inr ⟨⟨‹_›, ‹_›, ‹_›⟩, hkind.symm⟩

theorem keyword_cases {start c d : Cursor} {kind : TokenKind}
    (h : keyword start c = .ok (kind, d)) :
    ∃ first more, (atom c).1.dropWhile (· == ':') = first :: more ∧
      kind = .keyword (String.ofList (first :: more)) := by
  unfold keyword at h
  dsimp only at h
  split at h
  · cases h
  · rename_i hne
    cases hdrop : (atom c).1.dropWhile (· == ':') with
    | nil => exact absurd hdrop hne
    | cons first more =>
      cases h
      exact ⟨first, more, rfl, by rw [hdrop]⟩

theorem symbolName_of_scanned {name : String} (h : Scanned (.symbol name)) :
    ∃ first more, name = String.ofList (first :: more) ∧ SymbolName first more := by
  obtain ⟨c, ch, rest, d, hs, hk⟩ := kindAt_of_scanned rfl h
  rcases kindAt_cases hk with ⟨hno, -⟩ | hkey | ⟨hm, ho, hq, hn, hsym⟩
  · exact absurd rfl (hno name)
  · obtain ⟨_, _, -, hkind⟩ := keyword_cases hkey
    cases hkind
  · rcases symbol_cases hsym with hlit | ⟨hl, hkind⟩
    · simp at hlit
    · cases hkind
      refine ⟨ch, _, rfl, ⟨?_, hm, ho, startsNumber_takeWhile hn, hl⟩⟩
      exact List.forall_mem_cons.mpr ⟨plain_of_separates hs hm hq, fun _ => plain_of_takeWhile⟩

theorem scanned_symbol_iff {name : String} : Scanned (.symbol name) ↔
    ∃ first more, name = String.ofList (first :: more) ∧ SymbolName first more := by
  refine ⟨symbolName_of_scanned, ?_⟩
  rintro ⟨first, more, rfl, h⟩
  exact scanned_of_reads (reads_symbol h) rfl

theorem keywordName_of_scanned {name : String} (h : Scanned (.keyword name)) :
    ∃ first more, name = String.ofList (first :: more) ∧ KeywordName first more := by
  obtain ⟨c, ch, rest, d, -, hk⟩ := kindAt_of_scanned rfl h
  rcases kindAt_cases hk with ⟨-, hno⟩ | hkey | ⟨-, -, -, -, hsym⟩
  · exact absurd rfl (hno name)
  · obtain ⟨first, more, hdrop, hkind⟩ := keyword_cases hkey
    cases hkind
    refine ⟨first, more, rfl, ⟨fun x hx => ?_, ?_⟩⟩
    · rw [← hdrop] at hx
      exact plain_of_takeWhile ((List.dropWhile_sublist _).subset hx)
    · have := List.head?_dropWhile_not (· == ':') (atom (c.pass ch rest)).1
      rw [hdrop] at this
      simpa using this
  · rcases symbol_cases hsym with hlit | ⟨-, hkind⟩
    · simp at hlit
    · cases hkind

theorem scanned_keyword_iff {name : String} : Scanned (.keyword name) ↔
    ∃ first more, name = String.ofList (first :: more) ∧ KeywordName first more := by
  refine ⟨keywordName_of_scanned, ?_⟩
  rintro ⟨first, more, rfl, h⟩
  exact scanned_of_reads (reads_keyword h) rfl

end TwinLisp.Token
