import TwinLisp.Proofs.Text.Numerals
import TwinLisp.Proofs.Token.Escapes

/-! Sources that go on, and sources that begin later. What is scanned before a blank does not depend
on what follows the blank, and a place that has another offset makes no difference but to offsets.

* `Cursor.onto`: a place with another offset and more text behind the rest.
* `next_onto`, `next_onto_fault`, `skip_onto`: one token, a fault, and the end of the source there.
* `Passing`: the tokens between two places; `Passing.onto`: they are the same there. -/

namespace TwinLisp

/-! ## Places -/

/-- A span whose bytes stand further behind. -/
def Span.shift (k : Nat) (s : Span) : Span := ⟨s.start + k, s.stop + k, s.line, s.column⟩

/-- A place whose offset is greater by `k`, with `more` behind the rest. -/
def Cursor.onto (k : Nat) (more : List Char) (c : Cursor) : Cursor :=
  ⟨c.rest ++ more, c.offset + k, c.line, c.column⟩

namespace Cursor

variable (k : Nat) (more : List Char)

@[simp] theorem onto_rest (c : Cursor) : (c.onto k more).rest = c.rest ++ more := rfl

@[simp] theorem onto_pass (c : Cursor) (ch : Char) (rest : List Char) :
    (c.pass ch rest).onto k more = (c.onto k more).pass ch (rest ++ more) := by
  simp [pass, onto, Nat.add_right_comm]

@[simp] theorem onto_passAll (c : Cursor) (taken rest : List Char) :
    (c.passAll taken rest).onto k more = (c.onto k more).passAll taken (rest ++ more) := by
  simp [passAll, onto, Nat.add_right_comm]

@[simp] theorem onto_passNewline (c : Cursor) (rest : List Char) :
    (c.passNewline rest).onto k more = (c.onto k more).passNewline (rest ++ more) := by
  simp [passNewline, onto, Nat.add_right_comm]

@[simp] theorem onto_spanTo (a b : Cursor) :
    (a.onto k more).spanTo (b.onto k more) = (a.spanTo b).shift k := rfl

end Cursor

/-- The source ends inside a string, or behind the backslash of a character. -/
def LexFault.Cut (f : LexFault) : Prop := f = .unterminatedString ∨ f = .invalidCharacter ""

namespace Token

open Text Cursor

def shift (k : Nat) (t : Token) : Token := ⟨t.kind, t.span.shift k⟩

/-! ## Between tokens -/

theorem skipFrom_rest (b : Bool) (c : Cursor) (rest cs : List Char) :
    skipFrom b { c with rest := rest } cs = skipFrom b c cs := by
  cases cs <;> rfl

/-- The scanner does not look beyond the first character of a token. -/
theorem skipFrom_onto {b : Bool} {c : Cursor} {cs rest : List Char} {ch : Char}
    (h : (skipFrom b c cs).rest = ch :: rest) (k : Nat) (more : List Char) :
    skipFrom b (c.onto k more) (cs ++ more) = (skipFrom b c cs).onto k more := by
  fun_induction skipFrom b c cs with
  | case1 => cases h
  | case2 _ _ _ ih =>
    rw [List.cons_append, skipFrom, if_pos rfl, ← onto_passNewline]
    exact ih h
  | case3 _ _ _ hn ih =>
    rw [List.cons_append, skipFrom, if_neg hn, if_pos rfl, ← onto_pass]
    exact ih h
  | case4 _ _ _ _ hn hb hblank ih =>
    rw [List.cons_append, skipFrom, if_neg hn, if_neg hb, if_pos hblank, ← onto_pass]
    exact ih h
  | case5 _ _ _ hn hb hblank ih =>
    rw [List.cons_append, skipFrom, if_neg hn, if_neg hb, if_neg hblank, if_pos rfl, ← onto_pass]
    exact ih h
  | case6 _ _ _ _ hn hb hblank hsemi =>
    rw [List.cons_append, skipFrom, if_neg hn, if_neg hb, if_neg hblank, if_neg hsemi]
    rfl

/-- Behind the end of a source the scanner goes on, in a comment if one is open. -/
theorem skipFrom_onto_end {b : Bool} {c : Cursor} {cs : List Char}
    (h : (skipFrom b c cs).rest = []) : ∃ inComment, ∀ (k : Nat) (more : List Char),
      skipFrom b (c.onto k more) (cs ++ more) =
        skipFrom inComment ((skipFrom b c cs).onto k more) more := by
  fun_induction skipFrom b c cs with
  | case1 b c =>
    refine ⟨b, fun k more => ?_⟩
    rw [List.nil_append, ← skipFrom_rest b (c.onto k more) ([] ++ more)]
    rfl
  | case2 _ _ _ ih =>
    obtain ⟨d, hd⟩ := ih h
    refine ⟨d, fun k more => ?_⟩
    rw [List.cons_append, skipFrom, if_pos rfl, ← onto_passNewline]
    exact hd k more
  | case3 _ _ _ hn ih =>
    obtain ⟨d, hd⟩ := ih h
    refine ⟨d, fun k more => ?_⟩
    rw [List.cons_append, skipFrom, if_neg hn, if_pos rfl, ← onto_pass]
    exact hd k more
  | case4 _ _ _ _ hn hb hblank ih =>
    obtain ⟨d, hd⟩ := ih h
    refine ⟨d, fun k more => ?_⟩
    rw [List.cons_append, skipFrom, if_neg hn, if_neg hb, if_pos hblank, ← onto_pass]
    exact hd k more
  | case5 _ _ _ hn hb hblank ih =>
    obtain ⟨d, hd⟩ := ih h
    refine ⟨d, fun k more => ?_⟩
    rw [List.cons_append, skipFrom, if_neg hn, if_neg hb, if_neg hblank, if_pos rfl, ← onto_pass]
    exact hd k more
  | case6 => cases h

/-! ## Atoms -/

variable {k : Nat} {more : List Char}

theorem Ended.append {xs ys : List Char} (hx : Ended xs) (hy : Ended ys) : Ended (xs ++ ys) := by
  cases xs with
  | nil => exact hy
  | cons x xs => exact ended_cons (hx x rfl)

theorem atom_onto (hm : Ended more) (c : Cursor) :
    atom (c.onto k more) = ((atom c).1, (atom c).2.onto k more) := by
  have hrest : (c.onto k more).rest = (atom c).1 ++ ((atom c).2.rest ++ more) := by
    rw [← List.append_assoc, ← (atom_moves c).rest]
    rfl
  rw [atom_eq hrest atom_plain ((atom_ended c).append hm)]
  exact congrArg (Prod.mk _) (onto_passAll k more c _ _).symm

/-- The outcome of scanning a token in a source that goes on. -/
def Outcome (k : Nat) (more : List Char) (a b : Except LexError (TokenKind × Cursor)) : Prop :=
  match a with
  | .ok (kind, d) => b = .ok (kind, d.onto k more)
  | .error e => ∃ e', b = .error e' ∧ e'.cause = e.cause

theorem keyword_onto (hm : Ended more) (start c : Cursor) :
    Outcome k more (keyword start c) (keyword (start.onto k more) (c.onto k more)) := by
  unfold keyword
  rw [atom_onto hm]
  dsimp only
  cases (atom c).1.dropWhile (· == ':') with
  | nil => exact ⟨_, rfl, rfl⟩
  | cons _ _ => rfl

theorem number_onto (hm : Ended more) (start c : Cursor) (first : Char) :
    Outcome k more (number start c first) (number (start.onto k more) (c.onto k more) first) := by
  unfold number
  rw [atom_onto hm]
  dsimp only
  cases number? (first :: (atom c).1) with
  | none => exact ⟨_, rfl, rfl⟩
  | some _ => rfl

theorem symbol_onto (hm : Ended more) (c : Cursor) (first : Char) :
    symbol (c.onto k more) first = ((symbol c first).1, (symbol c first).2.onto k more) := by
  rw [symbol_eq, symbol_eq, atom_onto hm]

theorem character_onto (hm : Ended more) (start : Cursor) {c : Cursor}
    (hc : more ≠ [] → c.rest ≠ []) :
    Outcome k more (character start c) (character (start.onto k more) (c.onto k more)) := by
  unfold character
  rw [onto_rest]
  cases hr : c.rest with
  | nil =>
    by_cases hmore : more = []
    · subst hmore
      exact ⟨_, rfl, rfl⟩
    · exact absurd hr (hc hmore)
  | cons ch rest =>
    rw [List.cons_append]
    dsimp only
    rw [← onto_pass, atom_onto hm]
    dsimp only
    cases namedChar? (ch :: (atom (c.pass ch rest)).1) with
    | none => exact ⟨_, rfl, rfl⟩
    | some _ => rfl

/-! ## Strings -/

theorem raw_of_cases {ch : Char} {rest : List Char} (hq : ch ≠ '"') (hn : ch ≠ '\n')
    (hnil : ch = '\\' → rest = [] → False)
    (hcons : ∀ e more, ch = '\\' → rest = e :: more → False) :
    ch ∉ ['"', '\n', '\\'] := by
  have hback : ch ≠ '\\' := by
    intro hb
    cases rest with
    | nil => exact hnil hb rfl
    | cons e more => exact hcons e more hb rfl
  simp only [List.mem_cons, List.not_mem_nil, or_false, not_or]
  exact ⟨hq, hn, hback⟩

theorem stringFrom_onto {start c d : Cursor} {acc cs : List Char} {s : String}
    (h : stringFrom start c acc cs = .ok (s, d)) (start' : Cursor) (k : Nat) (more : List Char) :
    stringFrom start' (c.onto k more) acc (cs ++ more) = .ok (s, d.onto k more) := by
  fun_induction stringFrom start c acc cs with
  | case1 => cases h
  | case2 c acc rest =>
    cases h
    simp [stringFrom]
  | case3 c acc rest ih =>
    rw [List.cons_append, stringFrom, ← onto_passNewline]
    exact ih h
  | case4 c acc h₁ h₂ h₃ h₄ rest behind ch hcode ih =>
    simp only [List.cons_append, stringFrom, hcode, ← onto_passAll]
    exact ih h
  | case5 => cases h
  | case6 => cases h
  | case7 => cases h
  | case8 => cases h
  | case9 c acc e rest hu hnu behind value hesc ih =>
    rw [List.cons_append, List.cons_append, stringFrom_escape hesc, ← onto_passAll]
    exact ih h
  | case10 => cases h
  | case11 c acc ch rest hq hn _ _ hnil hcons ih =>
    rw [List.cons_append, stringFrom_raw (raw_of_cases hq hn hnil hcons), ← onto_pass]
    exact ih h

theorem not_blank_of_codePoint {cs : List Char} {ch : Char} (h : codePoint? cs = some ch) :
    ∀ c ∈ cs, isBlank c = false := by
  have hdigits : ∀ {ds : List Char} {n : Nat}, Digits 16 ds n → ∀ c ∈ ds, isBlank c = false :=
    fun hds c hc => not_blank_of_digit (hds.forall_mem c hc).choose_spec
  rcases codePoint?_eq_some_iff.mp h with hds | ⟨ds, rfl, hds⟩
  · exact hdigits hds
  · exact List.forall_mem_cons.mpr ⟨by decide, hdigits hds⟩

theorem stringFrom_unnamed {after : List Char} (h : codePoint? (after.take 4) = none)
    (start c : Cursor) (acc : List Char) : ∃ d, stringFrom start c acc ('\\' :: 'u' :: after) =
      fail (.invalidEscape 'u') start d := by
  by_cases hlen : 4 ≤ after.length
  · exact stringFrom_misnamed hlen (not_names h)
  · have hshort : after.length < 4 := Nat.lt_of_not_le hlen
    rw [List.take_of_length_le hshort.le] at h
    have hfour : ∀ h₁ h₂ h₃ h₄ rest, after = h₁ :: h₂ :: h₃ :: h₄ :: rest → False := by
      rintro h₁ h₂ h₃ h₄ rest rfl
      simp only [List.length_cons] at hshort
      omega
    rw [stringFrom]
    · rw [h]
      exact ⟨_, rfl⟩
    · exact hfour

/-- An escape by code point does not go on behind a blank. -/
theorem codePoint?_onto {cs : List Char} (hlen : cs.length < 4) (h : codePoint? cs = none)
    (hm : ∀ ch ∈ more.head?, isBlank ch = true) : codePoint? ((cs ++ more).take 4) = none := by
  cases more with
  | nil => rwa [List.append_nil, List.take_of_length_le hlen.le]
  | cons ch more =>
    rw [Option.eq_none_iff_forall_ne_some]
    intro value hv
    have hmem : ch ∈ (cs ++ ch :: more).take 4 := by
      rw [List.take_append, List.take_cons (by omega)]
      exact List.mem_append_right _ List.mem_cons_self
    have := not_blank_of_codePoint hv ch hmem
    rw [hm ch rfl] at this
    cases this

/-- A fault inside a string stays if a blank follows, unless the string is still open. -/
theorem stringFrom_onto_fault {start c : Cursor} {acc cs : List Char} {e : LexError}
    (h : stringFrom start c acc cs = .error e) (hm : ∀ ch ∈ more.head?, isBlank ch = true)
    (he : more ≠ [] → e.cause ≠ .unterminatedString) (start' : Cursor) (k : Nat) :
    ∃ e', stringFrom start' (c.onto k more) acc (cs ++ more) = .error e' ∧ e'.cause = e.cause := by
  have hopen : e.cause = .unterminatedString → more = [] := fun hc => not_not.mp fun hn => he hn hc
  fun_induction stringFrom start c acc cs with
  | case1 =>
    cases h
    rw [hopen rfl]
    exact ⟨_, rfl, rfl⟩
  | case2 => cases h
  | case3 c acc rest ih =>
    rw [List.cons_append, stringFrom, ← onto_passNewline]
    exact ih h
  | case4 c acc h₁ h₂ h₃ h₄ rest behind ch hcode ih =>
    simp only [List.cons_append, stringFrom, hcode, ← onto_passAll]
    exact ih h
  | case5 c acc h₁ h₂ h₃ h₄ rest behind hcode =>
    cases h
    simp only [List.cons_append, stringFrom, hcode]
    exact ⟨_, rfl, rfl⟩
  | case6 c acc rest hfour behind ch hcode =>
    cases h
    rw [hopen rfl, List.append_nil, stringFrom]
    · rw [hcode]
      exact ⟨_, rfl, rfl⟩
    · exact hfour
  | case7 c acc rest hfour behind hcode =>
    cases h
    have hlen : rest.length < 4 := by
      by_contra hlen
      rcases rest with _ | ⟨h₁, _ | ⟨h₂, _ | ⟨h₃, _ | ⟨h₄, rest⟩⟩⟩⟩
      · exact hlen (by simp)
      · exact hlen (by simp)
      · exact hlen (by simp)
      · exact hlen (by simp)
      · exact hfour h₁ h₂ h₃ h₄ rest rfl
    obtain ⟨d, hd⟩ := stringFrom_unnamed (codePoint?_onto hlen hcode hm) start' (c.onto k more) acc
    rw [List.cons_append, List.cons_append, hd]
    exact ⟨_, rfl, rfl⟩
  | case8 c acc =>
    cases h
    rw [hopen rfl]
    exact ⟨_, rfl, rfl⟩
  | case9 c acc e rest hu hnu behind value hesc ih =>
    rw [List.cons_append, List.cons_append, stringFrom_escape hesc, ← onto_passAll]
    exact ih h
  | case10 c acc e rest hu hnu behind hesc =>
    cases h
    rw [List.cons_append, List.cons_append, stringFrom]
    · simp only [hesc]
      exact ⟨_, rfl, rfl⟩
    · intro _ _ _ _ _ hu'
      exact absurd hu' hnu
    · exact hnu
  | case11 c acc ch rest hq hn _ _ hnil hcons ih =>
    rw [List.cons_append, stringFrom_raw (raw_of_cases hq hn hnil hcons), ← onto_pass]
    exact ih h

/-! ## Any token -/

theorem ended_of_blank (hm : ∀ ch ∈ more.head?, isBlank ch = true) : Ended more :=
  fun ch hch => isDelimiter_of_isBlank (hm ch hch)

/-- What a hash begins. -/
def hashed (start c : Cursor) : List Char → Except LexError (TokenKind × Cursor)
  | '{' :: rest => .ok (.hashBrace, c.pass '{' rest)
  | '_' :: rest => .ok (.discard, c.pass '_' rest)
  | _ => fail (.unexpectedChar '#') start c

theorem hashed_of_ne {cs : List Char} (h : ∀ ch ∈ cs.head?, ch ∉ ['{', '_']) (start c : Cursor) :
    hashed start c cs = fail (.unexpectedChar '#') start c := by
  unfold hashed
  split
  · exact absurd (by decide) (h _ rfl)
  · exact absurd (by decide) (h _ rfl)
  · rfl

theorem hashed_onto (hm : ∀ ch ∈ more.head?, isBlank ch = true) (start c : Cursor)
    (rest : List Char) :
    Outcome k more (hashed start c rest)
      (hashed (start.onto k more) (c.onto k more) (rest ++ more)) := by
  have hplain : ∀ ch ∈ ['{', '_'], isBlank ch = false := List.all_iff_forall_prop.mp (by decide)
  by_cases hrest : ∀ ch ∈ rest.head?, ch ∉ ['{', '_']
  · have hall : ∀ ch ∈ (rest ++ more).head?, ch ∉ ['{', '_'] := by
      cases rest with
      | nil =>
        intro ch hch hmem
        have := hm ch hch
        rw [hplain ch hmem] at this
        cases this
      | cons ch rest => exact hrest
    rw [hashed_of_ne hrest, hashed_of_ne hall]
    exact ⟨_, rfl, rfl⟩
  · simp only [not_forall, not_not] at hrest
    obtain ⟨ch, hch, hmem⟩ := hrest
    obtain ⟨rest, rfl⟩ := List.head?_eq_some_iff.mp hch
    simp only [List.mem_cons, List.not_mem_nil, or_false] at hmem
    rcases hmem with rfl | rfl
    · simp [hashed, Outcome]
    · simp [hashed, Outcome]

theorem kindAt_onto (hm : ∀ ch ∈ more.head?, isBlank ch = true) {start : Cursor} {ch : Char}
    {rest : List Char} (he : ∀ e, kindAt start ch rest = .error e → more ≠ [] → ¬ e.cause.Cut) :
    Outcome k more (kindAt start ch rest) (kindAt (start.onto k more) ch (rest ++ more)) := by
  have hended := ended_of_blank hm
  unfold kindAt at he ⊢
  dsimp only at he ⊢
  rw [← onto_pass]
  cases hmark : mark? ch with
  | some kind => rfl
  | none =>
    rw [hmark] at he
    dsimp only at he ⊢
    by_cases hhash : ch = '#'
    · rw [if_pos hhash, if_pos hhash]
      exact hashed_onto hm start _ rest
    rw [if_neg hhash, if_neg hhash]
    rw [if_neg hhash] at he
    by_cases hquote : ch = '"'
    · rw [if_pos hquote] at he ⊢
      rw [if_pos hquote]
      cases hs : stringFrom start (start.pass ch rest) [] rest with
      | ok p =>
        rw [stringFrom_onto hs]
        rfl
      | error e =>
        rw [hs] at he
        obtain ⟨e', he', hcause⟩ := stringFrom_onto_fault hs hm
          (fun hne hc => he e rfl hne (.inl hc)) (start.onto k more) k
        rw [he']
        exact ⟨e', rfl, hcause⟩
    rw [if_neg hquote, if_neg hquote]
    rw [if_neg hquote] at he
    by_cases hback : ch = '\\'
    · rw [if_pos hback] at he ⊢
      rw [if_pos hback]
      refine character_onto hended start fun hne hrest => ?_
      have hrest : rest = [] := hrest
      subst hrest
      exact he _ rfl hne (.inr rfl)
    rw [if_neg hback, if_neg hback]
    by_cases hcolon : ch = ':'
    · rw [if_pos hcolon, if_pos hcolon]
      exact keyword_onto hended start _
    rw [if_neg hcolon, if_neg hcolon, startsNumber_append hended]
    by_cases hnumber : startsNumber ch rest = true
    · rw [if_pos hnumber, if_pos hnumber]
      exact number_onto hended start _ ch
    · rw [if_neg hnumber, if_neg hnumber, symbol_onto hended]
      rfl

/-! ## The next token -/

theorem next_onto (hm : ∀ ch ∈ more.head?, isBlank ch = true) {c d : Cursor} {t : Token}
    (h : next c = .ok (t, d)) (ht : t.kind.isEof = false) (k : Nat) :
    next (c.onto k more) = .ok (t.shift k, d.onto k more) := by
  unfold next at h
  dsimp only at h
  split at h
  · cases h
    cases ht
  · rename_i ch rest hrest
    split at h
    · rename_i kind behind hkind
      cases h
      have hskip : skip (c.onto k more) = (skip c).onto k more := skipFrom_onto hrest k more
      have hk := kindAt_onto (k := k) hm (fun e he => by rw [hkind] at he; cases he)
      rw [hkind] at hk
      unfold next
      simp only [hskip, onto_rest, hrest, List.cons_append]
      rw [hk]
      rfl
    · cases h

/-- A fault, up to where its place ends. -/
theorem next_onto_fault (hm : ∀ ch ∈ more.head?, isBlank ch = true) {c : Cursor} {e : LexError}
    (h : next c = .error e) (he : more ≠ [] → ¬ e.cause.Cut) (k : Nat) :
    ∃ e', next (c.onto k more) = .error e' ∧ e'.cause = e.cause ∧
      e'.span.line = e.span.line ∧ e'.span.column = e.span.column := by
  have hplace : ∀ {c' : Cursor} {e' : LexError}, next c' = .error e' →
      e'.span.line = (skip c').line ∧ e'.span.column = (skip c').column := by
    intro c' e' h'
    obtain ⟨d, hd⟩ := next_begins h'
    rw [hd]
    exact ⟨rfl, rfl⟩
  have hhere := hplace h
  unfold next at h
  dsimp only at h
  split at h
  · cases h
  · rename_i ch rest hrest
    split at h
    · cases h
    · rename_i e₀ hkind
      cases h
      have hskip : skip (c.onto k more) = (skip c).onto k more := skipFrom_onto hrest k more
      have hk := kindAt_onto (k := k) hm (fun e' he' => by rw [hkind] at he'; cases he'; exact he)
      rw [hkind] at hk
      obtain ⟨e', hk, hcause⟩ := hk
      have hnext : next (c.onto k more) = .error e' := by
        unfold next
        simp only [hskip, onto_rest, hrest, List.cons_append]
        rw [hk]
      have hthere := hplace hnext
      rw [hskip] at hthere
      exact ⟨e', hnext, hcause, hthere.1.trans hhere.1.symm, hthere.2.trans hhere.2.symm⟩

theorem next_of_end {c : Cursor} (h : (skip c).rest = []) :
    next c = .ok (⟨.eof, (skip c).spanTo (skip c)⟩, skip c) := by
  unfold next
  dsimp only
  rw [h]

theorem end_of_next {c d : Cursor} {t : Token} (h : next c = .ok (t, d))
    (ht : t.kind.isEof = true) :
    (skip c).rest = [] ∧ t = ⟨.eof, (skip c).spanTo (skip c)⟩ := by
  obtain ⟨-, ⟨-, hrest, -⟩ | ⟨text, -, hsteps⟩⟩ := next_steps h
  · rw [next_of_end hrest] at h
    cases h
    exact ⟨hrest, rfl⟩
  · rw [hsteps.proper] at ht
    cases ht

theorem skip_onto {c : Cursor} (h : (skip c).rest = []) :
    ∃ inComment, ∀ (k : Nat) (more : List Char),
      skip (c.onto k more) = skipFrom inComment ((skip c).onto k more) more := skipFrom_onto_end h

theorem skipFrom_newline {bs : List Char} (hb : Blanks bs) (hn : '\n' ∉ bs) (b : Bool) (c : Cursor)
    (rest : List Char) : skipFrom b c (bs ++ '\n' :: rest) =
      skipFrom false ⟨rest, c.offset + utf8Length bs + 1, c.line + 1, 1⟩ rest := by
  induction bs generalizing b c with
  | nil =>
    rw [List.nil_append, skipFrom, if_pos rfl]
    rfl
  | cons ch bs ih =>
    obtain ⟨hch, hbs⟩ := List.forall_mem_cons.mp hb
    rw [List.mem_cons, not_or] at hn
    have hne : ch ≠ '\n' := Ne.symm hn.1
    rw [List.cons_append, skipFrom, if_neg hne, utf8Length_cons, ← Nat.add_assoc]
    cases b with
    | true => exact ih hbs hn.2 true (c.pass ch _)
    | false =>
      rw [if_neg Bool.false_ne_true, hch, Bool.true_or, if_pos rfl]
      exact ih hbs hn.2 false (c.pass ch _)

theorem skipFrom_blanks {bs : List Char} (hb : Blanks bs) (b : Bool) (c : Cursor) :
    (skipFrom b c bs).rest = [] := by
  induction bs generalizing b c with
  | nil => rfl
  | cons ch bs ih =>
    obtain ⟨hch, hbs⟩ := List.forall_mem_cons.mp hb
    rw [skipFrom]
    split
    · exact ih hbs _ _
    split
    · exact ih hbs _ _
    · rw [hch, Bool.true_or, if_pos rfl]
      exact ih hbs _ _

theorem next_of_skip_eq {c d : Cursor} (h : skip c = skip d) : next c = next d := by
  unfold next
  rw [h]

/-! ## Tokens one after the other -/

/-- The tokens between two places. -/
inductive Passing : Cursor → List Token → Cursor → Prop where
  | here (c : Cursor) : Passing c [] c
  | token {c d e : Cursor} {t : Token} {ts : List Token} (h : next c = .ok (t, d))
    (ht : t.kind.isEof = false) (rest : Passing d ts e) : Passing c (t :: ts) e

theorem Passing.onto (hm : ∀ ch ∈ more.head?, isBlank ch = true) {c d : Cursor} {ts : List Token}
    (h : Passing c ts d) (k : Nat) :
    Passing (c.onto k more) (ts.map (shift k)) (d.onto k more) := by
  induction h with
  | here c => exact .here _
  | token h ht _ ih => exact .token (next_onto hm h ht k) ht ih

theorem Passing.scanning {c d : Cursor} {ts us : List Token} {e : Option LexError}
    (h : Passing c ts d) (hd : Scanning d us e) : Scanning c (ts ++ us) e := by
  induction h with
  | here => exact hd
  | token h ht _ ih => exact .more h ht (ih hd)

/-- Where a scan ends: with a fault or with the end of the source. -/
inductive Ending : Cursor → List Token → Option LexError → Prop where
  | fault {c : Cursor} {e : LexError} (h : next c = .error e) : Ending c [] (some e)
  | fin {c d : Cursor} {t : Token} (h : next c = .ok (t, d)) (ht : t.kind.isEof = true) :
    Ending c [t] none

theorem Scanning.passing {c : Cursor} {ts : List Token} {e : Option LexError}
    (h : Scanning c ts e) : ∃ us fin d, ts = us ++ fin ∧ Passing c us d ∧ Ending d fin e := by
  induction h with
  | stop h => exact ⟨[], [], _, rfl, .here _, .fault h⟩
  | last h ht => exact ⟨[], _, _, rfl, .here _, .fin h ht⟩
  | more h ht _ ih =>
    obtain ⟨us, fin, d, rfl, hus, hfin⟩ := ih
    exact ⟨_ :: us, fin, d, rfl, .token h ht hus, hfin⟩

theorem Scanning.unique {c : Cursor} {ts us : List Token} {e f : Option LexError}
    (h : Scanning c ts e) (h' : Scanning c us f) : us = ts ∧ f = e := by
  induction h generalizing us with
  | stop h => cases h' <;> rename_i h' <;> simp_all
  | last h ht => cases h' <;> simp_all
  | @more c d t ts e h ht _ ih =>
    cases h' with
    | stop h' => simp_all
    | last h' ht' => simp_all
    | more h' _ rest =>
      rw [h] at h'
      cases h'
      obtain ⟨rfl, rfl⟩ := ih rest
      exact ⟨rfl, rfl⟩

theorem Scanning.congr {c d : Cursor} {ts : List Token} {e : Option LexError} (hn : next c = next d)
    (h : Scanning d ts e) : Scanning c ts e := by
  cases h with
  | stop h => exact .stop (hn.trans h)
  | last h ht => exact .last (hn.trans h) ht
  | more h ht rest => exact .more (hn.trans h) ht rest

theorem scan_eq {source : String} {ts : List Token} {e : Option LexError}
    (h : Scanning (.start source) ts e) : scan source = (ts, e) :=
  Prod.ext ((scan_scanning source).unique h).1.symm ((scan_scanning source).unique h).2.symm

end Token

end TwinLisp
