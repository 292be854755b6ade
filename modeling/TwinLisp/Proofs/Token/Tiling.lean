import Mathlib
import TwinLisp.Proofs.Token.Steps

/-! The tokens of a source tile it.

* `Spaced`: what stands between two tokens is space.
* `Token.Stands`: a token covers a text that is scanned as this token when it stands alone.
* `Tiles`: the tokens from an offset on, one behind the other.
* `tokens_tile`: the tokens of every source that can be scanned. -/

namespace TwinLisp.Token

open Cursor

/-! ## A token alone -/

theorem next_eof {c : Cursor} (hc : c.rest = []) : ∃ t d, next c = .ok (t, d) ∧ t.kind = .eof := by
  have hskip : (skip c).rest = [] := by
    rw [skip, hc]
    rfl
  refine ⟨⟨.eof, (skip c).spanTo (skip c)⟩, skip c, ?_, rfl⟩
  rw [next, hskip]

theorem tokens_alone {text : List Char} {kind : TokenKind} (h : Reads text kind)
    (hk : kind.isEof = false) :
    (tokens (String.ofList text)).map (·.map Token.kind) = .ok [kind, .eof] := by
  obtain ⟨t, d, hn, rfl, hd⟩ := h (.start (String.ofList text)) [] (by simp [Cursor.start])
    ended_nil
  obtain ⟨fin, d', hfin, hkind⟩ := next_eof hd
  rw [tokens, scan, scanFrom_token hn hk, scanFrom_eof hfin (by rw [hkind]; rfl)]
  simp [Except.map, hkind]

/-! ## Tiles -/

/-- Between two bytes of a source stands only what may stand between tokens. -/
def Spaced (source : String) (start stop : Nat) : Prop :=
  ∃ before gap after, source.toList = before ++ gap ++ after ∧ utf8Length before = start ∧
    utf8Length before + utf8Length gap = stop ∧ Spacing after gap

theorem Spaced.le {source : String} {start stop : Nat} (h : Spaced source start stop) :
    start ≤ stop := by
  obtain ⟨before, gap, after, -, rfl, rfl, -⟩ := h
  exact Nat.le_add_right _ _

/-- The token covers characters of the source, and these alone are scanned as the token. -/
structure Stands (source : String) (t : Token) : Prop where
  proper : t.kind ≠ .eof
  nonempty : t.span.start < t.span.stop
  alone : ∃ text, Spells source t.span.start t.span.stop text ∧
    (tokens (String.ofList text)).map (·.map Token.kind) = .ok [t.kind, .eof]

/-- The tokens of a source from an offset on, with space between them. -/
inductive Tiles (source : String) : Nat → List Token → Prop where
  | fin {start : Nat} {t : Token} (space : Spaced source start t.span.start)
    (hk : t.kind = .eof) (hstart : t.span.start = source.utf8ByteSize)
    (hstop : t.span.stop = source.utf8ByteSize) : Tiles source start [t]
  | cons {start : Nat} {t : Token} {ts : List Token} (space : Spaced source start t.span.start)
    (ht : Stands source t) (rest : Tiles source t.span.stop ts) : Tiles source start (t :: ts)

/-- A step that the scanner makes behind a prefix of the source. -/
theorem stands_of_steps {source : String} {before text : List Char} {c d : Cursor} {t : Token}
    (hsource : source.toList = before ++ c.rest) (hc : c.offset = utf8Length before)
    (hspan : t.span = c.spanTo d) (hne : text ≠ []) (hs : Steps c text t.kind d) :
    Stands source t := by
  have hstart : t.span.start = utf8Length before := by
    rw [hspan, ← hc]
    rfl
  have hstop : t.span.stop = utf8Length before + utf8Length text := by
    rw [hspan, ← hc, ← hs.moves.offset]
    rfl
  have hspells : Spells source t.span.start t.span.stop text := by
    refine ⟨before, d.rest, ?_, hstart.symm, hstop.symm⟩
    rw [hsource, hs.moves.rest, List.append_assoc]
  refine ⟨?_, hspells.lt hne, text, hspells, tokens_alone hs.reads hs.proper⟩
  intro he
  have := hs.proper
  rw [he] at this
  cases this

/-- What is scanned behind a prefix of the source tiles the rest. -/
theorem Scanning.tiles {source : String} {c : Cursor} {ts : List Token} {e : Option LexError}
    (h : Scanning c ts e) (he : e = none) (before : List Char)
    (hsource : source.toList = before ++ c.rest) (hc : c.offset = utf8Length before) :
    Tiles source c.offset ts := by
  induction h generalizing before with
  | stop => cases he
  | @last c d t hn heof =>
    obtain ⟨gap, hmoves, hgap⟩ := skip_moves c
    obtain ⟨hspan, ⟨hkind, hrest, rfl⟩ | ⟨text, -, hsteps⟩⟩ := next_steps hn
    · have hsize : (skip c).offset = source.utf8ByteSize := by
        rw [hmoves.offset, hc, ← utf8Length_toList, hsource, hmoves.rest, hrest, List.append_nil,
          utf8Length_append]
      rw [hrest] at hgap
      refine .fin ⟨before, gap, [], ?_, hc.symm, ?_, hgap⟩ hkind ?_ ?_
      · rw [hsource, hmoves.rest, hrest, List.append_assoc]
      · rw [hspan, ← hc, ← hmoves.offset]
        rfl
      · rw [hspan]
        exact hsize
      · rw [hspan]
        exact hsize
    · rw [hsteps.proper] at heof
      cases heof
  | @more c d t ts e hn heof _ ih =>
    obtain ⟨gap, hmoves, hgap⟩ := skip_moves c
    obtain ⟨hspan, ⟨hkind, -, -⟩ | ⟨text, hne, hsteps⟩⟩ := next_steps hn
    · rw [hkind] at heof
      cases heof
    · have hstart : source.toList = (before ++ gap) ++ (skip c).rest := by
        rw [hsource, hmoves.rest, List.append_assoc]
      have hoffset : (skip c).offset = utf8Length (before ++ gap) := by
        rw [hmoves.offset, hc, utf8Length_append]
      have hspace : Spaced source c.offset t.span.start := by
        refine ⟨before, gap, (skip c).rest, hstart, hc.symm, ?_, hgap⟩
        rw [hspan, ← utf8Length_append, ← hoffset]
        rfl
      have hrest : Tiles source d.offset ts := by
        refine ih he (before ++ gap ++ text) ?_ ?_
        · simp only [hstart, hsteps.moves.rest, List.append_assoc]
        · rw [hsteps.moves.offset, hoffset, ← utf8Length_append]
      refine .cons hspace (stands_of_steps hstart hoffset hspan hne hsteps) ?_
      rw [hspan]
      exact hrest

/-! ## What tiles are -/

def stopOf (start : Nat) (ts : List Token) : Nat :=
  (ts.getLast?.map (·.span.stop)).getD start

theorem Tiles.split {source : String} {start : Nat} {ts : List Token} (h : Tiles source start ts) :
    ∃ us fin, ts = us ++ [fin] ∧ fin.kind = .eof ∧ fin.span.start = source.utf8ByteSize ∧
      fin.span.stop = source.utf8ByteSize ∧ ∀ t ∈ us, Stands source t := by
  induction h with
  | fin _ hk hstart hstop => exact ⟨[], _, rfl, hk, hstart, hstop, by simp⟩
  | cons _ ht _ ih =>
    obtain ⟨us, fin, rfl, hk, hstart, hstop, hus⟩ := ih
    exact ⟨_ :: us, fin, rfl, hk, hstart, hstop, List.forall_mem_cons.mpr ⟨ht, hus⟩⟩

theorem Tiles.start_le {source : String} {start : Nat} {ts : List Token}
    (h : Tiles source start ts) : ∀ t ∈ ts, start ≤ t.span.start := by
  induction h with
  | fin space => simpa using space.le
  | cons space ht _ ih =>
    refine List.forall_mem_cons.mpr ⟨space.le, fun u hu => ?_⟩
    have h₁ := space.le
    have h₂ := ht.nonempty
    have h₃ := ih u hu
    omega

theorem Tiles.pairwise {source : String} {start : Nat} {ts : List Token}
    (h : Tiles source start ts) : ts.Pairwise fun t u => t.span.stop ≤ u.span.start := by
  induction h with
  | fin => exact List.pairwise_singleton _ _
  | cons _ _ rest ih => exact List.pairwise_cons.mpr ⟨rest.start_le, ih⟩

theorem Tiles.spaced {source : String} {start : Nat} {ts before after : List Token} {t : Token}
    (h : Tiles source start ts) (hts : ts = before ++ t :: after) :
    Spaced source (stopOf start before) t.span.start := by
  induction h generalizing before with
  | fin space =>
    cases before with
    | nil =>
      cases hts
      exact space
    | cons u before => simp at hts
  | @cons start u us space _ _ ih =>
    cases before with
    | nil =>
      cases hts
      exact space
    | cons v before =>
      cases hts
      have := ih rfl
      cases before with
      | nil => exact this
      | cons w before => simpa [stopOf, List.getLast?_cons] using this

/-- Tokens that cover a source up to its end, with nothing but space before and between them. -/
structure Tiled (source : String) (ts : List Token) (fin : Token) : Prop where
  stands : ∀ t ∈ ts, Stands source t
  ordered : ts.Pairwise fun t u => t.span.stop ≤ u.span.start
  atEnd : fin.kind = .eof ∧ fin.span.start = source.utf8ByteSize ∧
    fin.span.stop = source.utf8ByteSize
  spaced : ∀ before t after, ts ++ [fin] = before ++ t :: after →
    Spaced source (stopOf 0 before) t.span.start

/-- The tokens of a source that can be scanned tile it. -/
theorem tokens_tile {source : String} {ts : List Token} (h : tokens source = .ok ts) :
    ∃ us fin, ts = us ++ [fin] ∧ Tiled source us fin := by
  have htiles : Tiles source 0 ts := by
    have hscan := scan_scanning source
    unfold tokens at h
    split at h
    · rename_i hs
      cases h
      rw [hs] at hscan
      exact hscan.tiles rfl [] rfl rfl
    · cases h
  obtain ⟨us, fin, rfl, hk, hstart, hstop, hus⟩ := htiles.split
  exact ⟨us, fin, rfl, {
    stands := hus
    ordered := (List.pairwise_append.mp htiles.pairwise).1
    atEnd := ⟨hk, hstart, hstop⟩
    spaced := fun _ _ _ => htiles.spaced }⟩

/-- A delimiter as a character, escapes, marks inside names, and a comment that nothing ends. -/
theorem mixture_tiles :
    ∃ ts, tokens "; é\n(\\( #_-1,\"\n\\u0041\")'x#;z" = .ok ts ∧ ts.length = 9 ∧
      ∃ us fin, ts = us ++ [fin] ∧ Tiled "; é\n(\\( #_-1,\"\n\\u0041\")'x#;z" us fin := by
  refine ⟨_, by cbv, rfl, tokens_tile (by cbv)⟩

end TwinLisp.Token
