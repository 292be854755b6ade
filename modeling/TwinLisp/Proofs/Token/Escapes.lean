import Mathlib
import TwinLisp.Proofs.Text.Numerals
import TwinLisp.Proofs.Token.Tiling

/-! Escapes of strings and characters.

* `Names`: the four characters of an escape that names its character by the code point.
* `Body`: what stands between the quotes of a string, with the characters it stands for. The scanner
  takes these texts and no others (`string_iff`), and stops at an escape that names nothing
  (`string_refused`).
* `unicode_escapes`: both for escapes by code point, with the literals of characters.
* `tokens_readable_str`: the strings whose readable text is read back. -/

namespace TwinLisp.Token

open Text Cursor

/-! ## Code points -/

/-- Four characters that name another one by its code point: hexadecimal digits, or a plus sign and
three of them. -/
inductive Names : List Char → Char → Prop where
  | digits {ds : List Char} {ch : Char} (h : Digits 16 ds ch.toNat) (hlen : ds.length = 4) :
    Names ds ch
  | plus {ds : List Char} {ch : Char} (h : Digits 16 ds ch.toNat) (hlen : ds.length = 3) :
    Names ('+' :: ds) ch

theorem Names.length {ds : List Char} {ch : Char} (h : Names ds ch) : ds.length = 4 := by
  cases h with
  | digits _ hlen => exact hlen
  | plus _ hlen => rw [List.length_cons, hlen]

theorem ofValid_eq_some_iff {n : Nat} {ch : Char} :
    (if h : n.isValidChar then some (Char.ofNatAux n h) else none) = some ch ↔ n = ch.toNat := by
  constructor
  · intro h
    split at h
    · cases h
      rfl
    · cases h
  · rintro rfl
    exact dif_pos (show ch.toNat.isValidChar from ch.valid)

theorem codePoint?_eq_some_iff {cs : List Char} {ch : Char} : codePoint? cs = some ch ↔
    Digits 16 cs ch.toNat ∨ ∃ ds, cs = '+' :: ds ∧ Digits 16 ds ch.toNat := by
  have hread : ∀ ds : List Char, (natOfDigits? 16 ds).bind (fun n =>
      if h : n.isValidChar then some (Char.ofNatAux n h) else none) = some ch ↔
        Digits 16 ds ch.toNat := by
    intro ds
    rw [Option.bind_eq_some_iff, ← natOfDigits?_eq_some_iff]
    constructor
    · rintro ⟨n, hn, hch⟩
      rwa [← ofValid_eq_some_iff.mp hch]
    · exact fun h => ⟨_, h, ofValid_eq_some_iff.mpr rfl⟩
  unfold codePoint?
  split
  · rename_i ds
    rw [hread]
    constructor
    · exact fun h => .inr ⟨ds, rfl, h⟩
    · rintro (h | ⟨_, ⟨⟩, h⟩)
      · obtain ⟨v, hv⟩ := h.forall_mem _ List.mem_cons_self
        exact absurd rfl hv.notSign.2
      · exact h
  · rename_i hplus
    rw [hread]
    refine ⟨.inl, fun h => h.resolve_right ?_⟩
    rintro ⟨ds, rfl, -⟩
    exact hplus ds rfl

theorem codePoint?_four {cs : List Char} {ch : Char} (hlen : cs.length = 4) :
    codePoint? cs = some ch ↔ Names cs ch := by
  rw [codePoint?_eq_some_iff]
  constructor
  · rintro (h | ⟨ds, rfl, h⟩)
    · exact .digits h hlen
    · exact .plus h (Nat.succ.inj hlen)
  · rintro (⟨h, -⟩ | ⟨h, -⟩)
    · exact .inl h
    · exact .inr ⟨_, rfl, h⟩

/-- The next four characters decide whether an escape names a character. -/
theorem not_names {after : List Char} (h : codePoint? (after.take 4) = none) :
    ∀ ds rest ch, after = ds ++ rest → ¬ Names ds ch := by
  rintro ds rest ch rfl hds
  rw [← hds.length, List.take_left, (codePoint?_four hds.length).mpr hds] at h
  cases h

/-! ## Strings -/

/-- What stands between the quotes of a string, and the characters that it stands for. -/
inductive Body : List Char → List Char → Prop where
  | nil : Body [] []
  | plain {ch : Char} {cs vs : List Char} (h : ch ∉ ['"', '\\']) (more : Body cs vs) :
    Body (ch :: cs) (ch :: vs)
  | escape {e v : Char} {cs vs : List Char} (h : escape? e = some v) (more : Body cs vs) :
    Body ('\\' :: e :: cs) (v :: vs)
  | code {ds cs vs : List Char} {ch : Char} (h : Names ds ch) (more : Body cs vs) :
    Body ('\\' :: 'u' :: (ds ++ cs)) (ch :: vs)

theorem stringFrom_code {start c : Cursor} {acc ds rest : List Char} {ch : Char}
    (h : Names ds ch) : stringFrom start c acc ('\\' :: 'u' :: (ds ++ rest)) =
      stringFrom start (c.passAll ('\\' :: 'u' :: ds) rest) (ch :: acc) rest := by
  obtain ⟨h₁, h₂, h₃, h₄, rfl⟩ := List.length_eq_four.mp h.length
  simp only [List.cons_append, List.nil_append, stringFrom, (codePoint?_four rfl).mpr h]

theorem Body.passed {cs vs : List Char} (h : Body cs vs) (start c : Cursor) (acc rest : List Char) :
    ∃ d, stringFrom start c acc (cs ++ rest) = stringFrom start d (vs.reverse ++ acc) rest := by
  induction h generalizing c acc with
  | nil => exact ⟨c, rfl⟩
  | @plain ch cs vs h _ ih =>
    simp only [List.mem_cons, List.not_mem_nil, or_false, not_or] at h
    rw [List.reverse_cons, List.append_assoc, List.singleton_append, List.cons_append]
    by_cases hn : ch = '\n'
    · subst hn
      rw [stringFrom]
      exact ih _ _
    · rw [stringFrom_raw (by simp [h.1, h.2, hn])]
      exact ih _ _
  | escape h _ ih =>
    rw [List.reverse_cons, List.append_assoc, List.singleton_append, List.cons_append,
      List.cons_append, stringFrom_escape h]
    exact ih _ _
  | code h _ ih =>
    rw [List.reverse_cons, List.append_assoc, List.singleton_append, List.cons_append,
      List.cons_append, List.append_assoc, stringFrom_code h]
    exact ih _ _

/-- What is read as a string ends behind a body. -/
theorem body_of_stringFrom {start c d : Cursor} {acc cs : List Char} {s : String}
    (h : stringFrom start c acc cs = .ok (s, d)) :
    ∃ body vs, cs = body ++ '"' :: d.rest ∧ Body body vs ∧ s = String.ofList (acc.reverse ++ vs) := by
  fun_induction stringFrom start c acc cs with
  | case1 => cases h
  | case2 c acc rest =>
    cases h
    exact ⟨[], [], rfl, .nil, by rw [List.append_nil]⟩
  | case3 c acc rest ih =>
    obtain ⟨body, vs, rfl, hbody, rfl⟩ := ih h
    exact ⟨_, _, rfl, .plain (by decide) hbody, by simp⟩
  | case4 c acc h₁ h₂ h₃ h₄ rest behind ch hcode ih =>
    obtain ⟨body, vs, rfl, hbody, rfl⟩ := ih h
    exact ⟨_, _, rfl, .code ((codePoint?_four rfl).mp hcode) hbody, by simp⟩
  | case5 => cases h
  | case6 => cases h
  | case7 => cases h
  | case8 => cases h
  | case9 c acc e rest hu hnu behind value hesc ih =>
    obtain ⟨body, vs, rfl, hbody, rfl⟩ := ih h
    exact ⟨_, _, rfl, .escape hesc hbody, by simp⟩
  | case10 => cases h
  | case11 c acc ch rest hq hn _ _ hnil hcons ih =>
    have hback : ch ≠ '\\' := by
      intro hb
      cases rest with
      | nil => exact hnil hb rfl
      | cons e more => exact hcons e more hb rfl
    obtain ⟨body, vs, rfl, hbody, rfl⟩ := ih h
    exact ⟨_, _, rfl, .plain (by simpa using ⟨hq, hback⟩) hbody, by simp⟩

theorem stringFrom_iff {start c : Cursor} {cs rest : List Char} {s : String} :
    (∃ d, stringFrom start c [] cs = .ok (s, d) ∧ d.rest = rest) ↔
      ∃ body, cs = body ++ '"' :: rest ∧ Body body s.toList := by
  constructor
  · rintro ⟨d, h, rfl⟩
    obtain ⟨body, vs, hcs, hbody, rfl⟩ := body_of_stringFrom h
    exact ⟨body, hcs, by simpa using hbody⟩
  · rintro ⟨body, rfl, hbody⟩
    obtain ⟨d, hd⟩ := hbody.passed start c [] ('"' :: rest)
    rw [hd]
    exact ⟨d.pass '"' rest, by simp [stringFrom], rfl⟩

theorem stringFrom_misnamed {start c : Cursor} {acc after : List Char} (hlen : 4 ≤ after.length)
    (h : ∀ ds rest ch, after = ds ++ rest → ¬ Names ds ch) :
    ∃ d, stringFrom start c acc ('\\' :: 'u' :: after) = fail (.invalidEscape 'u') start d := by
  match after, hlen with
  | h₁ :: h₂ :: h₃ :: h₄ :: rest, _ =>
    have hnone : codePoint? [h₁, h₂, h₃, h₄] = none := by
      rw [Option.eq_none_iff_forall_ne_some]
      exact fun ch hch => h _ rest ch rfl ((codePoint?_four rfl).mp hch)
    refine ⟨c.passAll ['\\', 'u', h₁, h₂, h₃, h₄] rest, ?_⟩
    simp only [stringFrom, hnone]

theorem stringFrom_cut {start c : Cursor} {acc after : List Char} (hlen : after.length < 4) :
    ∃ fault d, stringFrom start c acc ('\\' :: 'u' :: after) = fail fault start d := by
  have hfour : ∀ h₁ h₂ h₃ h₄ rest, after = h₁ :: h₂ :: h₃ :: h₄ :: rest → False := by
    rintro h₁ h₂ h₃ h₄ rest rfl
    simp only [List.length_cons] at hlen
    omega
  rw [stringFrom]
  · split
    · exact ⟨_, _, rfl⟩
    · exact ⟨_, _, rfl⟩
  · exact hfour

/-! ## Literals of strings -/

theorem next_quote {c : Cursor} {text : List Char} (hc : c.rest = '"' :: text) :
    next c = (stringFrom c (c.pass '"' text) [] text).map fun p =>
      (⟨.str p.1, c.spanTo p.2⟩, p.2) := by
  have hk : kindAt c '"' text =
      (stringFrom c (c.pass '"' text) [] text).map fun p => (.str p.1, p.2) := rfl
  rw [next, skip_eq hc (by decide)]
  simp only [hc, hk]
  cases stringFrom c (c.pass '"' text) [] text with
  | error e => rfl
  | ok p => rfl

theorem string_iff {c : Cursor} {text rest : List Char} {s : String} (hc : c.rest = '"' :: text) :
    (∃ t d, next c = .ok (t, d) ∧ t.kind = .str s ∧ d.rest = rest) ↔
      ∃ body, text = body ++ '"' :: rest ∧ Body body s.toList := by
  rw [← @stringFrom_iff c (c.pass '"' text), next_quote hc]
  cases stringFrom c (c.pass '"' text) [] text with
  | error e => simp [Except.map]
  | ok p => simp [Except.map, Prod.ext_iff]

/-- No string goes on behind an escape by code point that names nothing. -/
theorem string_refused {c : Cursor} {body vs after : List Char}
    (hc : c.rest = '"' :: (body ++ '\\' :: 'u' :: after)) (hb : Body body vs)
    (hno : ∀ ds rest ch, after = ds ++ rest → ¬ Names ds ch) :
    ∃ e, next c = .error e ∧ (4 ≤ after.length → e.cause = .invalidEscape 'u') := by
  obtain ⟨d, hd⟩ := hb.passed c (c.pass '"' (body ++ '\\' :: 'u' :: after)) []
    ('\\' :: 'u' :: after)
  rw [next_quote hc, hd]
  by_cases hlen : 4 ≤ after.length
  · obtain ⟨d', hfail⟩ := @stringFrom_misnamed c d (vs.reverse ++ []) _ hlen hno
    rw [hfail]
    exact ⟨_, rfl, fun _ => rfl⟩
  · obtain ⟨fault, d', hfail⟩ := @stringFrom_cut c d (vs.reverse ++ []) _ (Nat.lt_of_not_le hlen)
    rw [hfail]
    exact ⟨_, rfl, fun h => absurd h hlen⟩

/-! ## Literals of characters -/

theorem utf8Length_digits {ds : List Char} {n : Nat} (h : Digits 16 ds n) :
    utf8Length ds = ds.length := by
  have hsize : ∀ c ∈ ds, c.utf8Size = 1 := by
    intro c hc
    have hall : ∀ names ∈ digitNames, ∀ c ∈ names, c.utf8Size = 1 := by
      simp [digitNames, Char.utf8Size_eq_one_iff]
    obtain ⟨v, -, names, hn, hv⟩ := h.forall_mem c hc
    exact hall names hn c (List.mem_of_getElem? hv)
  clear h
  induction ds with
  | nil => rfl
  | cons c ds ih =>
    obtain ⟨hc, hds⟩ := List.forall_mem_cons.mp hsize
    rw [utf8Length_cons, hc, ih hds, List.length_cons, Nat.add_comm]

theorem utf8Length_codePoint {cs : List Char} {ch : Char} (h : codePoint? cs = some ch) :
    utf8Length cs = cs.length := by
  rcases codePoint?_eq_some_iff.mp h with hds | ⟨ds, rfl, hds⟩
  · exact utf8Length_digits hds
  · rw [utf8Length_cons, utf8Length_digits hds, List.length_cons, Nat.add_comm]
    rfl

theorem namedChar?_code {more : List Char} {ch : Char} (hne : more ≠ []) :
    namedChar? ('u' :: more) = some ch ↔ Names more ch := by
  have hname : namedChar? ('u' :: more) =
      if utf8Length ('u' :: more) = 5 then codePoint? more else none := by
    cases more with
    | nil => exact absurd rfl hne
    | cons d ds => simp [namedChar?]
  have hsize : utf8Length ('u' :: more) = 5 ↔ utf8Length more = 4 := by
    rw [utf8Length_cons]
    change 1 + _ = 5 ↔ _
    omega
  rw [hname, Option.ite_none_right_eq_some, hsize]
  constructor
  · rintro ⟨hlen, h⟩
    rw [utf8Length_codePoint h] at hlen
    exact (codePoint?_four hlen).mp h
  · intro h
    have hch := (codePoint?_four h.length).mpr h
    rw [utf8Length_codePoint hch]
    exact ⟨h.length, hch⟩

theorem next_character {c : Cursor} {first : Char} {more rest : List Char}
    (hc : c.rest = '\\' :: first :: (more ++ rest)) (hp : ∀ ch ∈ more, isDelimiter ch = false)
    (hr : Ended rest) (hno : namedChar? (first :: more) = none) :
    ∃ e, next c = .error e ∧ e.cause = .invalidCharacter (String.ofList (first :: more)) := by
  have ha : atom ((c.pass '\\' (first :: (more ++ rest))).pass first (more ++ rest)) = (more, _) :=
    atom_eq rfl hp hr
  have hk : kindAt c '\\' (first :: (more ++ rest)) =
      character c (c.pass '\\' (first :: (more ++ rest))) := rfl
  simp only [character, Cursor.pass] at hk ha
  rw [next, skip_eq hc (by decide)]
  simp only [hc, hk, ha, hno]
  exact ⟨_, rfl, rfl⟩

/-! ## Escapes by code point -/

/-- Strings and characters take an escape by code point exactly if four characters follow that name
a character, and then as this character. -/
theorem unicode_escapes (c : Cursor) :
    (∀ (text rest : List Char) (s : String), c.rest = '"' :: text →
      ((∃ t d, next c = .ok (t, d) ∧ t.kind = .str s ∧ d.rest = rest) ↔
        ∃ body, text = body ++ '"' :: rest ∧ Body body s.toList)) ∧
    (∀ body vs after : List Char, c.rest = '"' :: (body ++ '\\' :: 'u' :: after) → Body body vs →
      (∀ ds rest ch, after = ds ++ rest → ¬ Names ds ch) →
      ∃ e, next c = .error e ∧ (4 ≤ after.length → e.cause = .invalidEscape 'u')) ∧
    ∀ more rest : List Char, c.rest = '\\' :: 'u' :: (more ++ rest) → more ≠ [] →
      (∀ ch ∈ more, isDelimiter ch = false) → Ended rest →
      (∀ ch, Names more ch → ∃ t d, next c = .ok (t, d) ∧ t.kind = .char ch ∧ d.rest = rest) ∧
      ((∀ ch, ¬ Names more ch) → ∃ e, next c = .error e ∧
        e.cause = .invalidCharacter (String.ofList ('u' :: more))) := by
  refine ⟨fun text rest s hc => string_iff hc, fun body vs after hc hb hno =>
    string_refused hc hb hno, fun more rest hc hne hp hr => ⟨fun ch hch => ?_, fun hno => ?_⟩⟩
  · exact reads_named 'u' more hp ((namedChar?_code hne).mpr hch) c rest hc hr
  · refine next_character hc hp hr ?_
    rw [Option.eq_none_iff_forall_ne_some]
    exact fun ch hch => hno ch ((namedChar?_code hne).mp hch)

/-- Escapes by code point of a letter with an accent and of a surrogate. -/
theorem accent_and_surrogate :
    (∃ t d, next (.start "\"\\u00E9\"") = .ok (t, d) ∧ t.kind = .str "é" ∧ d.rest = []) ∧
    (∃ e, next (.start "\"\\ud800\"") = .error e ∧ e.cause = .invalidEscape 'u') ∧
    (∃ t d, next (.start "\\u00E9") = .ok (t, d) ∧ t.kind = .char 'é' ∧ d.rest = []) ∧
    ∃ e, next (.start "\\ud800") = .error e ∧ e.cause = .invalidCharacter "ud800" := by
  have haccent : Names "00E9".toList 'é' := .digits (natOfDigits?_eq_some_iff.mp rfl) rfl
  have hstrange := not_names (show codePoint? ("d800\"".toList.take 4) = none by decide)
  have hsurrogate := not_names (show codePoint? ("d800".toList.take 4) = none by decide)
  have hstring := (unicode_escapes (.start "\"\\u00E9\"")).1
  obtain ⟨e, he, hcause⟩ := (unicode_escapes (.start "\"\\ud800\"")).2.1 [] [] "d800\"".toList rfl
    .nil hstrange
  refine ⟨?_, ⟨e, he, hcause (by decide)⟩, ?_, ?_⟩
  · exact (hstring "\\u00E9\"".toList [] "é" rfl).mpr ⟨"\\u00E9".toList, rfl, .code haccent .nil⟩
  · refine ((unicode_escapes (.start "\\u00E9")).2.2 "00E9".toList [] rfl (by decide) ?_
      ended_nil).1 'é' haccent
    exact List.all_iff_forall_prop.mp (by decide)
  · refine ((unicode_escapes (.start "\\ud800")).2.2 "d800".toList [] rfl (by decide) ?_
      ended_nil).2 fun ch hch => ?_
    · exact List.all_iff_forall_prop.mp (by decide)
    · exact hsurrogate _ [] ch (List.append_nil _).symm hch

/-- A plus sign stands for a digit. -/
theorem plus_is_read : (tokens "\"\\u+041\"").map (·.map Token.kind) = .ok [.str "A", .eof] ∧
    ¬ ∃ ds rest n, "+041\"".toList = ds ++ rest ∧ ds.length = 4 ∧ Digits 16 ds n := by
  refine ⟨by cbv, ?_⟩
  rintro ⟨ds, rest, n, hds, hlen, h⟩
  have hread : natOfDigits? 16 ("+041\"".toList.take 4) = none := by decide
  rw [hds, ← hlen, List.take_left, natOfDigits?_eq_some_iff.mpr h] at hread
  cases hread

/-! ## Quoted strings -/

theorem body_shown {cs : List Char} (h : ∀ c ∈ cs, Shown c) : Body (cs.flatMap escapeChar) cs := by
  induction cs with
  | nil => exact .nil
  | cons c cs ih =>
    obtain ⟨hc, hcs⟩ := List.forall_mem_cons.mp h
    rw [List.flatMap_cons]
    rcases shown_cases hc with ⟨e, hesc, he⟩ | ⟨hesc, hraw⟩
    · rw [hesc]
      exact .escape he (ih hcs)
    · rw [hesc]
      refine .plain ?_ (ih hcs)
      simp only [List.mem_cons, List.not_mem_nil, or_false, not_or] at hraw ⊢
      exact ⟨hraw.1, hraw.2.2⟩

theorem escapeChar_of_not_shown {c : Char} (h : ¬ Shown c) : escapeChar c = codePointEscape c := by
  simp only [Shown, List.mem_cons, List.not_mem_nil, or_false, not_or] at h
  obtain ⟨hself, h₁, h₂, h₃, h₄, h₅, h₆⟩ := h
  simp only [escapeChar, if_neg h₁, if_neg h₂, if_neg h₃, if_neg h₄, if_neg h₅, if_neg h₆] at hself ⊢
  split
  · rename_i hp
    exact absurd (if_pos hp) hself
  · rfl

theorem first_not_shown {cs : List Char} (h : ¬ ∀ c ∈ cs, Shown c) :
    ∃ before c after, cs = before ++ c :: after ∧ (∀ b ∈ before, Shown b) ∧ ¬ Shown c := by
  induction cs with
  | nil => exact absurd nofun h
  | cons c cs ih =>
    by_cases hc : Shown c
    · have hcs : ¬ ∀ c ∈ cs, Shown c := fun hcs => h (List.forall_mem_cons.mpr ⟨hc, hcs⟩)
      obtain ⟨before, d, after, rfl, hbefore, hd⟩ := ih hcs
      exact ⟨c :: before, d, after, rfl, List.forall_mem_cons.mpr ⟨hc, hbefore⟩, hd⟩
    · exact ⟨[], c, cs, rfl, by simp, hc⟩

/-- A text with another character than those shown is refused at the first of them: what stands
behind its `u` begins with a brace. -/
theorem quoted_refused {s : String} (h : ¬ ∀ c ∈ s.toList, Shown c) {c : Cursor}
    (hc : c.rest = (quoted s).toList) : ∃ e, next c = .error e ∧ e.cause = .invalidEscape 'u' := by
  obtain ⟨before, ch, after, hs, hbefore, hch⟩ := first_not_shown h
  let behind := '{' :: (digitsOf 16 ch.toNat ++ '}' :: (after.flatMap escapeChar ++ ['"']))
  have hrest : c.rest = '"' :: (before.flatMap escapeChar ++ '\\' :: 'u' :: behind) := by
    rw [hc, toList_quoted, hs, List.flatMap_append, List.flatMap_cons,
      escapeChar_of_not_shown hch]
    simp [behind, codePointEscape]
  have hlen : 4 ≤ behind.length := by
    have := digitsOf_pos 16 ch.toNat
    simp only [behind, List.length_cons, List.length_append, List.length_nil]
    omega
  obtain ⟨e, he, hcause⟩ := string_refused hrest (body_shown hbefore) (not_names rfl)
  exact ⟨e, he, hcause hlen⟩

theorem readable_str (s : String) : (Value.str s).readable = quoted s := by
  simp [Value.readable, Value.write, Value.atomText]

/-- The readable text of a string is scanned as this string if its characters are shown, and refused
otherwise. -/
theorem tokens_readable_str (s : String) :
    ((tokens (Value.str s).readable).map (·.map Token.kind)).mapError (·.cause) =
      if ∀ c ∈ s.toList, Shown c then .ok [.str s, .eof] else .error (.invalidEscape 'u') := by
  rw [readable_str]
  split
  · rename_i h
    have halone := tokens_alone (reads_str h) rfl
    rw [String.ofList_toList] at halone
    rw [halone]
    rfl
  · rename_i h
    obtain ⟨e, he, hcause⟩ := quoted_refused h (c := .start (quoted s)) rfl
    rw [tokens, scan, scanFrom_error he, ← hcause]
    rfl

/-- A combining accent is not printable, since it joins the character before it. -/
theorem not_shown_accent : ¬ Shown '\u0301' := by
  have hjoins : inRanges extending '\u0301'.toNat = true := by
    rw [inRanges, ← Array.any_toList]
    exact List.any_eq_true.mpr ⟨(0x300, 0x36F), List.mem_cons_self, rfl⟩
  have hprint : isPrintable '\u0301' = false := by
    rw [isPrintable, hjoins]
    rfl
  have hescape : escapeChar '\u0301' = codePointEscape '\u0301' := by
    simp [escapeChar, hprint]
  simp [Shown, hescape, codePointEscape]

/-- A string with a combining accent is not read back. -/
theorem accent_is_lost : ¬ (tokens (Value.str "e\u0301").readable).map (·.map Token.kind) =
    .ok [.str "e\u0301", .eof] := by
  have hhidden : ¬ ∀ c ∈ "e\u0301".toList, Shown c :=
    fun h => not_shown_accent (h _ (by decide))
  obtain ⟨e, he, -⟩ := quoted_refused hhidden (c := .start (quoted "e\u0301")) rfl
  rw [readable_str, tokens, scan, scanFrom_error he]
  intro h
  cases h

end TwinLisp.Token
