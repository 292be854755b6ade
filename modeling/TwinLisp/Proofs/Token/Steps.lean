import TwinLisp.Proofs.Source.Moves
import TwinLisp.Proofs.Token.Atoms

/-! One token of a scan, and the scan as a whole.

* `Spacing`: what may stand between tokens; `skip_moves`: the scanner passes it and nothing else.
* `Steps`: a text is scanned as one token, and would be wherever it stood before a delimiter.
* `kindAt_steps`: the scanner makes such steps only. A newline is missed in one place, behind the
  backslash of a character literal.
* `Scanning`: the tokens of a scan one after the other. -/

namespace TwinLisp.Token

open Text Cursor

/-! ## Between tokens -/

/-- What may stand between tokens: blanks, commas, and comments that run to the end of their line.
What follows is `after`. -/
inductive Spacing (after : List Char) : List Char → Prop where
  | none : Spacing after []
  | blank {ch : Char} {cs : List Char} (h : isBlank ch = true ∨ ch = ',') (more : Spacing after cs) :
    Spacing after (ch :: cs)
  | comment {text cs : List Char} (hn : '\n' ∉ text) (hend : ∀ ch ∈ (cs ++ after).head?, ch = '\n')
    (more : Spacing after cs) : Spacing after (';' :: (text ++ cs))

/-- The rest of a comment, and what may stand behind it. -/
def Commented (after gap : List Char) : Prop :=
  ∃ text cs, gap = text ++ cs ∧ '\n' ∉ text ∧ (∀ ch ∈ (cs ++ after).head?, ch = '\n') ∧
    Spacing after cs

theorem Commented.cons {after gap : List Char} {ch : Char} (h : Commented after gap)
    (hn : ch ≠ '\n') : Commented after (ch :: gap) := by
  obtain ⟨text, cs, rfl, htext, hend, hcs⟩ := h
  refine ⟨ch :: text, cs, rfl, ?_, hend, hcs⟩
  simp [htext, Ne.symm hn]

theorem Commented.newline {after gap : List Char} (h : Spacing after gap) :
    Commented after ('\n' :: gap) := by
  refine ⟨[], '\n' :: gap, rfl, by simp, ?_, .blank (.inl (by decide)) h⟩
  rintro _ ⟨⟩
  rfl

/-- Passing over what stands between tokens. A comment may be open at first. -/
theorem skipFrom_moves (inComment : Bool) {c : Cursor} {cs : List Char} (hc : c.rest = cs) :
    ∃ gap, Moves 0 c gap (skipFrom inComment c cs) ∧
      if inComment then Commented (skipFrom inComment c cs).rest gap
      else Spacing (skipFrom inComment c cs).rest gap := by
  induction cs generalizing inComment c with
  | nil =>
    have hsame : skipFrom inComment c [] = c := by
      rw [skipFrom, ← hc]
    rw [hsame, hc]
    refine ⟨[], Moves.refl c, ?_⟩
    split
    · exact ⟨[], [], rfl, List.not_mem_nil, by simp, .none⟩
    · exact .none
  | cons ch rest ih =>
    unfold skipFrom
    split
    · rename_i hn
      subst hn
      obtain ⟨gap, hmoves, hgap⟩ := ih false (c := c.passNewline rest) rfl
      refine ⟨'\n' :: gap, (moves_passNewline hc).trans hmoves, ?_⟩
      cases inComment with
      | true => exact .newline hgap
      | false => exact .blank (.inl (by decide)) hgap
    rename_i hn
    have hpass := moves_pass hc hn
    split
    · rename_i hcomment
      subst hcomment
      obtain ⟨gap, hmoves, hgap⟩ := ih true (c := c.pass ch rest) rfl
      exact ⟨ch :: gap, hpass.trans hmoves, hgap.cons hn⟩
    split
    · rename_i hblank
      obtain ⟨gap, hmoves, hgap⟩ := ih false (c := c.pass ch rest) rfl
      refine ⟨ch :: gap, hpass.trans hmoves, .blank ?_ hgap⟩
      simpa using hblank
    split
    · rename_i hsemi
      subst hsemi
      obtain ⟨gap, hmoves, text, cs, rfl, htext, hend, hcs⟩ := ih true (c := c.pass ';' rest) rfl
      exact ⟨';' :: (text ++ cs), hpass.trans hmoves, .comment htext hend hcs⟩
    · refine ⟨[], ?_, .none⟩
      rw [← hc]
      exact Moves.refl c

theorem skip_moves (c : Cursor) : ∃ gap, Moves 0 c gap (skip c) ∧ Spacing (skip c).rest gap := by
  obtain ⟨gap, hmoves, hgap⟩ := skipFrom_moves false (c := c) rfl
  exact ⟨gap, hmoves, hgap⟩

/-! ## One token -/

/-- The literal of a newline that stands there as it is. -/
def rawNewline : List Char := ['\\', '\n']

/-- The newlines in the text of a token that the line does not count. -/
def missed (text : List Char) : Nat := if text = rawNewline then 1 else 0

theorem missed_of_notMem {text : List Char} (h : '\n' ∉ text) : missed text = 0 := by
  rw [missed, if_neg]
  rintro rfl
  exact h (by decide)

/-- From `c` to `d` a text is scanned as one token. -/
structure Steps (c : Cursor) (text : List Char) (kind : TokenKind) (d : Cursor) : Prop where
  moves : Moves (missed text) c text d
  reads : Reads text kind
  proper : kind.isEof = false

theorem atom_moves (c : Cursor) : Moves 0 c (atom c).1 (atom c).2 := by
  have hsplit : c.rest = (atom c).1 ++ (atom c).2.rest := List.takeWhile_append_dropWhile.symm
  refine moves_passAll hsplit fun hn => ?_
  have := plain_of_takeWhile hn
  rw [isDelimiter_of_isBlank (by decide)] at this
  cases this

theorem atom_plain {c : Cursor} : ∀ ch ∈ (atom c).1, isDelimiter ch = false :=
  fun _ => plain_of_takeWhile

theorem atom_ended (c : Cursor) : Ended (atom c).2.rest := by
  intro ch hch
  have := List.head?_dropWhile_not (fun ch => !isDelimiter ch) c.rest
  change ch ∈ (c.rest.dropWhile _).head? at hch
  rw [hch] at this
  simpa using this

theorem newline_notMem {text : List Char} (h : ∀ ch ∈ text, isDelimiter ch = false) :
    '\n' ∉ text := by
  intro hn
  have := h _ hn
  rw [isDelimiter_of_isBlank (by decide)] at this
  cases this

theorem steps_atom {c : Cursor} {ch : Char} {rest : List Char} {kind : TokenKind}
    (hc : c.rest = ch :: rest) (hn : ch ≠ '\n')
    (hr : Reads (ch :: (atom (c.pass ch rest)).1) kind) (hk : kind.isEof = false) :
    Steps c (ch :: (atom (c.pass ch rest)).1) kind (atom (c.pass ch rest)).2 where
  moves := by
    have hmem : '\n' ∉ ch :: (atom (c.pass ch rest)).1 := by
      rw [List.mem_cons, not_or]
      exact ⟨Ne.symm hn, newline_notMem atom_plain⟩
    rw [missed_of_notMem hmem]
    exact (moves_pass hc hn).trans (atom_moves _)
  reads := hr
  proper := hk

theorem mark_steps {c : Cursor} {ch : Char} {rest : List Char} {kind : TokenKind}
    (hc : c.rest = ch :: rest) (hs : separates ch = false) (hm : mark? ch = some kind) :
    Steps c [ch] kind (c.pass ch rest) where
  moves := by
    have hn : ch ≠ '\n' := by
      rintro rfl
      cases hm
    rw [missed_of_notMem (by simp [Ne.symm hn])]
    exact moves_pass hc hn
  reads := by
    refine reads_of_kindAt hs fun d after _ => ⟨d.pass ch after, ?_, rfl⟩
    simp only [List.nil_append, kindAt, hm]
  proper := by
    unfold mark? at hm
    split at hm <;> cases hm <;> rfl

theorem pair_steps {c : Cursor} {second : Char} {rest : List Char} {kind : TokenKind}
    (hc : c.rest = '#' :: second :: rest) (hn : second ≠ '\n') (hk : kind.isEof = false)
    (h : ∀ (d : Cursor) (after : List Char), kindAt d '#' (second :: after) =
      .ok (kind, (d.pass '#' (second :: after)).pass second after)) :
    Steps c ['#', second] kind ((c.pass '#' (second :: rest)).pass second rest) where
  moves := by
    rw [missed_of_notMem (by simp [Ne.symm hn])]
    exact (moves_pass hc (by decide)).trans (moves_pass rfl hn)
  reads := reads_of_kindAt (by decide) fun d after _ => ⟨_, h d after, rfl⟩
  proper := hk

/-! ## Strings -/

theorem newline_notMem_digits {base n : Nat} {acc : Nat} {cs : List Char}
    (h : natOfDigitsFrom? base acc cs = some n) : '\n' ∉ cs := by
  induction cs generalizing acc with
  | nil => simp
  | cons ch cs ih =>
    unfold natOfDigitsFrom? at h
    split at h
    · rename_i hd
      rw [List.mem_cons, not_or]
      refine ⟨?_, ih h⟩
      rintro rfl
      simp [digitValue?] at hd
    · cases h

theorem newline_notMem_codePoint {cs : List Char} {ch : Char} (h : codePoint? cs = some ch) :
    '\n' ∉ cs := by
  have hdigits : ∀ {ds : List Char} {n : Nat}, natOfDigits? 16 ds = some n → '\n' ∉ ds := by
    intro ds n hd
    unfold natOfDigits? at hd
    split at hd
    · cases hd
    · exact newline_notMem_digits hd
  unfold codePoint? at h
  obtain ⟨n, hn, -⟩ := Option.bind_eq_some_iff.mp h
  split at hn
  · rw [List.mem_cons, not_or]
    exact ⟨by decide, hdigits hn⟩
  · exact hdigits hn

theorem newline_of_escape {e value : Char} (h : escape? e = some value) : e ≠ '\n' := by
  rintro rfl
  cases h

/-- The rest of a string, up to its closing quote, is read in the same way whatever follows. -/
theorem stringFrom_moves {start c d : Cursor} {acc cs : List Char} {s : String}
    (hc : c.rest = cs) (h : stringFrom start c acc cs = .ok (s, d)) :
    ∃ text, Moves 0 c text d ∧ ∀ (start c : Cursor) (after : List Char),
      ∃ e, stringFrom start c acc (text ++ after) = .ok (s, e) ∧ e.rest = after := by
  fun_induction stringFrom start c acc cs with
  | case1 => cases h
  | case2 c acc rest =>
    cases h
    refine ⟨['"'], moves_pass hc (by decide), fun start c after => ⟨c.pass '"' after, ?_, rfl⟩⟩
    simp [stringFrom]
  | case3 c acc rest ih =>
    obtain ⟨text, hmoves, hread⟩ := ih rfl h
    refine ⟨'\n' :: text, (moves_passNewline hc).trans hmoves, fun start c after => ?_⟩
    obtain ⟨e, he, hrest⟩ := hread start (c.passNewline (text ++ after)) after
    refine ⟨e, ?_, hrest⟩
    rw [List.cons_append, stringFrom]
    exact he
  | case4 c acc h₁ h₂ h₃ h₄ rest behind ch hcode ih =>
    obtain ⟨text, hmoves, hread⟩ := ih rfl h
    have hn : '\n' ∉ ['\\', 'u', h₁, h₂, h₃, h₄] := by
      have := newline_notMem_codePoint hcode
      simp only [List.mem_cons, not_or] at this ⊢
      exact ⟨by decide, by decide, this⟩
    refine ⟨'\\' :: 'u' :: h₁ :: h₂ :: h₃ :: h₄ :: text, (moves_passAll hc hn).trans hmoves,
      fun start c after => ?_⟩
    obtain ⟨e, he, hrest⟩ :=
      hread start (c.passAll ['\\', 'u', h₁, h₂, h₃, h₄] (text ++ after)) after
    refine ⟨e, ?_, hrest⟩
    simp only [List.cons_append, stringFrom, hcode]
    exact he
  | case5 => cases h
  | case6 => cases h
  | case7 => cases h
  | case8 => cases h
  | case9 c acc e rest hu hnu behind value hesc ih =>
    obtain ⟨text, hmoves, hread⟩ := ih rfl h
    have hn : '\n' ∉ ['\\', e] := by
      simp [Ne.symm (newline_of_escape hesc)]
    refine ⟨'\\' :: e :: text, (moves_passAll hc hn).trans hmoves, fun start c after => ?_⟩
    obtain ⟨d', hd, hrest⟩ := hread start (c.passAll ['\\', e] (text ++ after)) after
    refine ⟨d', ?_, hrest⟩
    rw [List.cons_append, List.cons_append, stringFrom_escape hesc]
    exact hd
  | case10 => cases h
  | case11 c acc ch rest hq hn _ _ hnil hcons ih =>
    have hback : ch ≠ '\\' := by
      intro hb
      cases rest with
      | nil => exact hnil hb rfl
      | cons e more => exact hcons e more hb rfl
    obtain ⟨text, hmoves, hread⟩ := ih rfl h
    refine ⟨ch :: text, (moves_pass hc hn).trans hmoves, fun start c after => ?_⟩
    obtain ⟨d', hd, hrest⟩ := hread start (c.pass ch (text ++ after)) after
    refine ⟨d', ?_, hrest⟩
    have hraw : ch ∉ ['"', '\n', '\\'] := by
      simp only [List.mem_cons, List.not_mem_nil, or_false, not_or]
      exact ⟨hq, hn, hback⟩
    rw [List.cons_append, stringFrom_raw hraw]
    exact hd

theorem string_steps {c d : Cursor} {rest : List Char} {s : String} (hc : c.rest = '"' :: rest)
    (h : stringFrom c (c.pass '"' rest) [] rest = .ok (s, d)) :
    ∃ more, Steps c ('"' :: more) (.str s) d := by
  obtain ⟨text, hmoves, hread⟩ := stringFrom_moves rfl h
  refine ⟨text, ?_, ?_, rfl⟩
  · rw [missed, if_neg (by rintro ⟨⟩)]
    exact (moves_pass hc (by decide)).trans hmoves
  · refine reads_of_kindAt (by decide) fun e after _ => ?_
    obtain ⟨e', he, hrest⟩ := hread e (e.pass '"' (text ++ after)) after
    refine ⟨e', ?_, hrest⟩
    change (stringFrom e _ [] _).map _ = _
    rw [he]
    rfl

/-! ## Atoms -/

/-- A newline behind the backslash is a literal of its own. -/
theorem namedChar?_newline {more : List Char} {value : Char}
    (h : namedChar? ('\n' :: more) = some value) : more = [] := by
  cases more with
  | nil => rfl
  | cons ch more => simp [namedChar?] at h

theorem character_steps {c d : Cursor} {rest : List Char} {kind : TokenKind}
    (hc : c.rest = '\\' :: rest) (h : character c (c.pass '\\' rest) = .ok (kind, d)) :
    ∃ more, Steps c ('\\' :: more) kind d := by
  cases rest with
  | nil => cases h
  | cons ch rest =>
    rw [character] at h
    dsimp only [Cursor.pass] at h
    split at h
    · rename_i value hvalue
      cases h
      let behind := (c.pass '\\' (ch :: rest)).pass ch rest
      refine ⟨ch :: (atom behind).1, ?_, reads_named ch _ atom_plain hvalue, rfl⟩
      have hback := moves_pass hc (by decide)
      by_cases hn : ch = '\n'
      · subst hn
        have hmore := namedChar?_newline hvalue
        have hmoves := (hback.trans (moves_pass_newline rfl)).trans (atom_moves behind)
        change (atom behind).1 = [] at hmore
        rw [hmore] at hmoves ⊢
        exact hmoves
      · have hmem : '\n' ∉ '\\' :: ch :: (atom behind).1 := by
          simp only [List.mem_cons, not_or]
          exact ⟨by decide, Ne.symm hn, newline_notMem atom_plain⟩
        rw [missed_of_notMem hmem]
        exact (hback.trans (moves_pass rfl hn)).trans (atom_moves behind)
    · cases h

theorem keyword_steps {c d : Cursor} {rest : List Char} {kind : TokenKind}
    (hc : c.rest = ':' :: rest) (h : keyword c (c.pass ':' rest) = .ok (kind, d)) :
    ∃ more, Steps c (':' :: more) kind d := by
  have hd : d = (atom (c.pass ':' rest)).2 := by
    unfold keyword at h
    dsimp only at h
    split at h
    · cases h
    · cases h
      rfl
  obtain ⟨first, more, hdrop, rfl⟩ := keyword_cases h
  rw [hd]
  refine ⟨_, steps_atom hc (by decide) ?_ rfl⟩
  generalize hname : (atom (c.pass ':' rest)).1 = name at hdrop
  refine reads_of_kindAt (by decide) fun e after hr =>
    ⟨(e.pass ':' (name ++ after)).passAll name after, ?_, rfl⟩
  have ha : atom (e.pass ':' (name ++ after)) = (name, _) :=
    atom_eq rfl (hname ▸ atom_plain) hr
  change keyword e (e.pass ':' (name ++ after)) = _
  rw [keyword, ha]
  simp only [hdrop]

theorem ne_newline_of_separates {ch : Char} (h : separates ch = false) : ch ≠ '\n' := by
  rintro rfl
  cases h

theorem startsNumber_atom (c : Cursor) (ch : Char) (rest : List Char) :
    startsNumber ch rest = startsNumber ch (atom (c.pass ch rest)).1 := by
  have hsplit : rest = (atom (c.pass ch rest)).1 ++ (atom (c.pass ch rest)).2.rest :=
    (atom_moves (c.pass ch rest)).rest
  conv_lhs => rw [hsplit]
  exact startsNumber_append (atom_ended _)

theorem number_steps {c d : Cursor} {ch : Char} {rest : List Char} {kind : TokenKind}
    (hc : c.rest = ch :: rest) (hs : separates ch = false) (hn : startsNumber ch rest = true)
    (h : number c (c.pass ch rest) ch = .ok (kind, d)) : ∃ more, Steps c (ch :: more) kind d := by
  unfold number at h
  dsimp only at h
  split at h
  · rename_i hnum
    cases h
    rw [startsNumber_atom c] at hn
    have hkind := number?_numeric hnum
    refine ⟨_, steps_atom hc (ne_newline_of_separates hs) (reads_number hn atom_plain hnum) ?_⟩
    cases kind with
    | eof => cases hkind
    | _ => rfl
  · cases h

def word (name : String) : TokenKind :=
  if name = "nil" then .nil else if name = "true" then .true
  else if name = "false" then .false else .symbol name

theorem symbol_eq (c : Cursor) (first : Char) :
    symbol c first = (word (String.ofList (first :: (atom c).1)), (atom c).2) := by
  unfold symbol word
  dsimp only
  split_ifs <;> rfl

theorem reads_word {first : Char} {more : List Char}
    (hp : ∀ ch ∈ first :: more, isDelimiter ch = false) (hm : mark? first = none)
    (ho : first ≠ '#' ∧ first ≠ '\\' ∧ first ≠ ':') (hn : startsNumber first more = false) :
    Reads (first :: more) (word (String.ofList (first :: more))) := by
  refine reads_of_kindAt (separates_of_plain (hp _ List.mem_cons_self)) fun c rest hr =>
    ⟨(c.pass first (more ++ rest)).passAll more rest, ?_, rfl⟩
  rw [kindAt_word hp hm ho hn hr]
  unfold word
  dsimp only
  split_ifs <;> rfl

theorem symbol_steps {c d : Cursor} {ch : Char} {rest : List Char} {kind : TokenKind}
    (hc : c.rest = ch :: rest) (hs : separates ch = false) (hm : mark? ch = none)
    (ho : ch ≠ '#' ∧ ch ≠ '\\' ∧ ch ≠ ':') (hq : ch ≠ '"') (hn : startsNumber ch rest = false)
    (h : symbol (c.pass ch rest) ch = (kind, d)) : ∃ more, Steps c (ch :: more) kind d := by
  have hplain : ∀ x ∈ ch :: (atom (c.pass ch rest)).1, isDelimiter x = false :=
    List.forall_mem_cons.mpr ⟨plain_of_separates hs hm hq, fun _ => plain_of_takeWhile⟩
  rw [startsNumber_atom c] at hn
  rw [symbol_eq] at h
  cases h
  refine ⟨_, steps_atom hc (ne_newline_of_separates hs) (reads_word hplain hm ho hn) ?_⟩
  unfold word
  split_ifs <;> rfl

/-! ## Any token -/

theorem kindAt_steps {c d : Cursor} {ch : Char} {rest : List Char} {kind : TokenKind}
    (hc : c.rest = ch :: rest) (hs : separates ch = false)
    (h : kindAt c ch rest = .ok (kind, d)) : ∃ more, Steps c (ch :: more) kind d := by
  unfold kindAt at h
  dsimp only at h
  split at h
  · rename_i hm
    cases h
    exact ⟨[], mark_steps hc hs hm⟩
  rename_i hm
  split at h
  · rename_i hhash
    subst hhash
    split at h
    · cases h
      exact ⟨_, pair_steps hc (by decide) rfl fun _ _ => rfl⟩
    · cases h
      exact ⟨_, pair_steps hc (by decide) rfl fun _ _ => rfl⟩
    · cases h
  rename_i hhash
  split at h
  · rename_i hquote
    subst hquote
    cases hs : stringFrom c (c.pass '"' rest) [] rest with
    | error e =>
      rw [hs] at h
      cases h
    | ok p =>
      rw [hs] at h
      cases h
      exact string_steps hc hs
  rename_i hquote
  split at h
  · rename_i hback
    subst hback
    exact character_steps hc h
  rename_i hback
  split at h
  · rename_i hcolon
    subst hcolon
    exact keyword_steps hc h
  rename_i hcolon
  split at h
  · rename_i hn
    exact number_steps hc hs hn h
  · rename_i hn
    exact symbol_steps hc hs hm ⟨hhash, hback, hcolon⟩ hquote (Bool.not_eq_true _ ▸ hn)
      (Except.ok.inj h)

/-! ## Faults -/

/-- The fault is reported at a place. -/
def Begins (c : Cursor) (e : LexError) : Prop := ∃ d, e.span = c.spanTo d

theorem fail_begins {α : Type} {fault : LexFault} {c d : Cursor} {e : LexError}
    (h : fail (α := α) fault c d = .error e) : Begins c e := by
  cases h
  exact ⟨d, rfl⟩

theorem stringFrom_begins {start c : Cursor} {acc cs : List Char} {e : LexError}
    (h : stringFrom start c acc cs = .error e) : Begins start e := by
  fun_induction stringFrom start c acc cs with
  | case1 => exact fail_begins h
  | case2 => cases h
  | case3 _ _ _ ih => exact ih h
  | case4 _ _ _ _ _ _ _ _ _ _ ih => exact ih h
  | case5 => exact fail_begins h
  | case6 => exact fail_begins h
  | case7 => exact fail_begins h
  | case8 => exact fail_begins h
  | case9 _ _ _ _ _ _ _ _ _ ih => exact ih h
  | case10 => exact fail_begins h
  | case11 _ _ _ _ _ _ _ _ _ _ ih => exact ih h

theorem character_begins {start c : Cursor} {e : LexError} (h : character start c = .error e) :
    Begins start e := by
  unfold character at h
  split at h
  · exact fail_begins h
  · dsimp only at h
    split at h
    · cases h
    · exact fail_begins h

theorem keyword_begins {start c : Cursor} {e : LexError} (h : keyword start c = .error e) :
    Begins start e := by
  unfold keyword at h
  dsimp only at h
  split at h
  · exact fail_begins h
  · cases h

theorem number_begins {start c : Cursor} {first : Char} {e : LexError}
    (h : number start c first = .error e) : Begins start e := by
  unfold number at h
  dsimp only at h
  split at h
  · cases h
  · exact fail_begins h

theorem kindAt_begins {c : Cursor} {ch : Char} {rest : List Char} {e : LexError}
    (h : kindAt c ch rest = .error e) : Begins c e := by
  unfold kindAt at h
  dsimp only at h
  split at h
  · cases h
  split at h
  · split at h
    · cases h
    · cases h
    · exact fail_begins h
  split at h
  · cases hs : stringFrom c (c.pass ch rest) [] rest with
    | error fault =>
      rw [hs] at h
      cases h
      exact stringFrom_begins hs
    | ok p =>
      rw [hs] at h
      cases h
  split at h
  · exact character_begins h
  split at h
  · exact keyword_begins h
  split at h
  · exact number_begins h
  · cases h

/-! ## The scan -/

theorem next_steps {c d : Cursor} {t : Token} (h : next c = .ok (t, d)) :
    t.span = (skip c).spanTo d ∧
      ((t.kind = .eof ∧ (skip c).rest = [] ∧ d = skip c) ∨
        ∃ text, text ≠ [] ∧ Steps (skip c) text t.kind d) := by
  unfold next at h
  dsimp only at h
  split at h
  · rename_i hrest
    cases h
    exact ⟨rfl, .inl ⟨rfl, hrest, rfl⟩⟩
  · rename_i ch rest hrest
    split at h
    · rename_i kind behind hk
      cases h
      obtain ⟨more, hsteps⟩ := kindAt_steps hrest (separates_of_skipFrom hrest) hk
      exact ⟨rfl, .inr ⟨ch :: more, List.cons_ne_nil _ _, hsteps⟩⟩
    · cases h

theorem next_begins {c : Cursor} {e : LexError} (h : next c = .error e) : Begins (skip c) e := by
  unfold next at h
  dsimp only at h
  split at h
  · cases h
  · split at h
    · cases h
    · rename_i hk
      cases h
      exact kindAt_begins hk

/-- The tokens from a place on, and the fault behind them. -/
inductive Scanning : Cursor → List Token → Option LexError → Prop where
  | stop {c : Cursor} {e : LexError} (h : next c = .error e) : Scanning c [] (some e)
  | last {c d : Cursor} {t : Token} (h : next c = .ok (t, d)) (he : t.kind.isEof = true) :
    Scanning c [t] none
  | more {c d : Cursor} {t : Token} {ts : List Token} {e : Option LexError}
    (h : next c = .ok (t, d)) (he : t.kind.isEof = false) (rest : Scanning d ts e) :
    Scanning c (t :: ts) e

theorem scanFrom_scanning (c : Cursor) (acc : List Token) :
    ∃ ts, (scanFrom c acc).1 = acc.reverse ++ ts ∧ Scanning c ts (scanFrom c acc).2 := by
  fun_induction scanFrom c acc with
  | case1 c acc e h => exact ⟨[], by simp, .stop h⟩
  | case2 c acc t d h he => exact ⟨[t], by simp, .last h he⟩
  | case3 c acc t d h he _ ih =>
    obtain ⟨ts, hts, hrest⟩ := ih
    refine ⟨t :: ts, ?_, .more h (Bool.not_eq_true _ ▸ he) hrest⟩
    rw [hts, List.reverse_cons, List.append_assoc, List.singleton_append]

theorem scan_scanning (source : String) :
    Scanning (.start source) (scan source).1 (scan source).2 := by
  obtain ⟨ts, hts, h⟩ := scanFrom_scanning (.start source) []
  rw [List.reverse_nil, List.nil_append] at hts
  exact hts ▸ h

end TwinLisp.Token
