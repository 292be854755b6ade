import Mathlib
import TwinLisp.Proofs.Token.Steps

/-! Lines and columns of tokens and of faults of the scanner.

* `spans`: the places that a scan reports.
* `placeAfter`: the line and column behind a text, counted from its newlines.
* `places_right_iff`: a reported place is right exactly if no literal of a newline stands before it
  as it is, because this one newline is not counted. -/

namespace TwinLisp

/-! ## Places -/

/-- The line and column behind a text: both count from one, the line counts the newlines and the
column the characters since the last of them. -/
def placeAfter (text : List Char) : Nat × Nat :=
  (1 + text.count '\n', 1 + (text.reverse.takeWhile (· ≠ '\n')).length)

/-- The span begins behind a text of the source and has the line and column there. -/
def Placed (source : String) (s : Span) : Prop :=
  ∃ before after, source.toList = before ++ after ∧ utf8Length before = s.start ∧
    (s.line, s.column) = placeAfter before

/-- The place behind a text is right exactly if no newline of the text was missed. -/
theorem Cursor.Moves.placed_iff {source : String} {m : Nat} {text : List Char} {c d : Cursor}
    (h : Moves m (.start source) text c) :
    Placed source (c.spanTo d) ↔ m = 0 := by
  have hline : c.line + m = 1 + text.count '\n' := h.line
  have hoffset : c.offset = utf8Length text := by
    rw [h.offset]
    exact Nat.zero_add _
  constructor
  · rintro ⟨before, after, hsource, hbefore, hplace⟩
    have hsplit : before ++ after = text ++ c.rest := hsource.symm.trans h.rest
    have hsame : before = text := eq_of_utf8Length hsplit (hbefore.trans hoffset)
    have hright : c.line = 1 + before.count '\n' := congrArg Prod.fst hplace
    rw [hsame] at hright
    omega
  · intro hm
    have hcolumn : c.column = columnFrom 1 text := h.column hm
    refine ⟨text, c.rest, h.rest, hoffset.symm, Prod.ext ?_ ?_⟩
    · change c.line = 1 + text.count '\n'
      omega
    · change c.column = _
      rw [hcolumn, columnFrom_one]
      rfl

namespace Token

open Cursor

/-- The places of some tokens and of a fault behind them. -/
def spansOf (ts : List Token) (e : Option LexError) : List Span :=
  ts.map (·.span) ++ e.toList.map (·.span)

theorem spansOf_cons (t : Token) (ts : List Token) (e : Option LexError) :
    spansOf (t :: ts) e = t.span :: spansOf ts e := rfl

/-- The places of the tokens of a source, and that of the fault that ends its scan. -/
def spans (source : String) : List Span := spansOf (scan source).1 (scan source).2

/-- The span of a literal of a newline that stands there as it is. -/
def Raw (source : String) (s : Span) : Prop := Spells source s.start s.stop rawNewline

/-- A step misses a newline exactly if its text is the literal of one. -/
theorem raw_iff {source : String} {m : Nat} {before text : List Char} {c d : Cursor}
    {kind : TokenKind} (hc : Moves m (.start source) before c) (hs : Steps c text kind d) :
    Raw source (c.spanTo d) ↔ missed text ≠ 0 := by
  have hspells : Spells source (c.spanTo d).start (c.spanTo d).stop text := by
    have hoffset : c.offset = utf8Length before := by
      rw [hc.offset]
      exact Nat.zero_add _
    have hsource : source.toList = before ++ c.rest := hc.rest
    refine ⟨before, d.rest, ?_, hoffset.symm, ?_⟩
    · rw [hsource, hs.moves.rest, List.append_assoc]
    · change _ = d.offset
      rw [hs.moves.offset, hoffset]
  constructor
  · intro hraw
    rw [hspells.unique hraw]
    decide
  · intro hm
    have htext : text = rawNewline := by
      by_contra hne
      exact hm (if_neg hne)
    rw [Raw, ← htext]
    exact hspells

theorem Scanning.first_span {c : Cursor} {ts : List Token} {e : Option LexError}
    (h : Scanning c ts e) : ∃ d rest, spansOf ts e = (skip c).spanTo d :: rest := by
  cases h with
  | stop hn =>
    obtain ⟨d, hspan⟩ := next_begins hn
    exact ⟨d, [], by simp [spansOf, hspan]⟩
  | @last c d t hn =>
    exact ⟨d, [], by simp [spansOf, (next_steps hn).1]⟩
  | more hn =>
    exact ⟨_, _, by rw [spansOf_cons, (next_steps hn).1]⟩

theorem Scanning.first_placed_iff {source : String} {c : Cursor} {ts : List Token}
    {e : Option LexError} (h : Scanning c ts e) {m : Nat} {text : List Char}
    (hc : Moves m (.start source) text c) {after : List Span} {s : Span}
    (hs : spansOf ts e = s :: after) : Placed source s ↔ m = 0 := by
  obtain ⟨gap, hmoves, -⟩ := skip_moves c
  obtain ⟨d, rest, hfirst⟩ := h.first_span
  rw [hs] at hfirst
  rw [(List.cons.inj hfirst).1, (hc.trans hmoves).placed_iff, Nat.add_zero]

/-- The places of a scan that goes on behind some spans, among which the newlines missed so far
are. -/
theorem Scanning.placed_iff {source : String} {c : Cursor} {ts : List Token} {e : Option LexError}
    (h : Scanning c ts e) {m : Nat} {text : List Char} (hc : Moves m (.start source) text c)
    (seen : List Span) (hm : m = 0 ↔ ∀ b ∈ seen, ¬ Raw source b) {before after : List Span}
    {s : Span} (hs : spansOf ts e = before ++ s :: after) :
    Placed source s ↔ ∀ b ∈ seen ++ before, ¬ Raw source b := by
  induction before generalizing c ts m text seen with
  | nil =>
    rw [List.append_nil, ← hm]
    exact h.first_placed_iff hc hs
  | cons b before ih =>
    cases h with
    | stop => simp [spansOf] at hs
    | last => simp [spansOf] at hs
    | @more _ d t ts _ hn heof hrest =>
      obtain ⟨gap, hmoves, -⟩ := skip_moves c
      obtain ⟨hspan, ⟨hkind, -, -⟩ | ⟨own, -, hsteps⟩⟩ := next_steps hn
      · rw [hkind] at heof
        cases heof
      have hskip := hc.trans hmoves
      have hraw := raw_iff hskip hsteps
      rw [← hspan] at hraw
      rw [spansOf_cons] at hs
      obtain ⟨hb, hs⟩ := List.cons.inj hs
      have hseen : m + 0 + missed own = 0 ↔ ∀ s ∈ seen ++ [b], ¬ Raw source s := by
        rw [List.forall_mem_append, ← hm, List.forall_mem_singleton, ← hb, hraw]
        omega
      rw [List.append_cons]
      exact ih hrest (hskip.trans hsteps.moves) _ hseen hs

/-- The place behind a newline that stands as a character literal is on the line of the literal. -/
theorem place_behind_newline : spans "\\\n a" = [⟨0, 2, 1, 1⟩, ⟨3, 4, 1, 4⟩, ⟨4, 4, 1, 5⟩] ∧
    ¬ ∀ s ∈ spans "\\\n a", Placed "\\\n a" s := by
  have hspans : spans "\\\n a" = [⟨0, 2, 1, 1⟩, ⟨3, 4, 1, 4⟩, ⟨4, 4, 1, 5⟩] := by cbv
  refine ⟨hspans, fun hall => ?_⟩
  obtain ⟨before, after, hsource, hstart, hplace⟩ := hall ⟨3, 4, 1, 4⟩ (by simp [hspans])
  have hsplit : before ++ after = ['\\', '\n', ' '] ++ ['a'] := hsource.symm
  have hbefore : before = ['\\', '\n', ' '] := eq_of_utf8Length hsplit hstart
  rw [hbefore] at hplace
  exact absurd hplace (by decide)

/-- A place that the scanner reports is right exactly if no newline stands before it as a character
literal. -/
theorem places_right_iff {source : String} {before after : List Span} {s : Span}
    (h : spans source = before ++ s :: after) :
    Placed source s ↔ ∀ b ∈ before, ¬ Raw source b :=
  (scan_scanning source).placed_iff (Moves.refl _) [] (by simp) h

/-- The newlines in space, behind a comment and in a string are counted. -/
theorem place_behind_newlines :
    spans "\n;\n\"\n\"\\( #" = [⟨3, 6, 3, 1⟩, ⟨6, 8, 4, 2⟩] ++ ⟨9, 10, 4, 5⟩ :: [] ∧
      (Placed "\n;\n\"\n\"\\( #" ⟨9, 10, 4, 5⟩ ↔
        ∀ b ∈ [⟨3, 6, 3, 1⟩, ⟨6, 8, 4, 2⟩], ¬ Raw "\n;\n\"\n\"\\( #" b) :=
  have hspans : spans "\n;\n\"\n\"\\( #" =
      [⟨3, 6, 3, 1⟩, ⟨6, 8, 4, 2⟩] ++ ⟨9, 10, 4, 5⟩ :: [] := by cbv
  ⟨hspans, places_right_iff hspans⟩

end Token

end TwinLisp
