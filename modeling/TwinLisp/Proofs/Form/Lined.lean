import TwinLisp.Macro.Builtin
import TwinLisp.Proofs.Form.Grammar
import TwinLisp.Proofs.Token.Steps

/-! Lines of forms. All that is read from a source has a line, and so has what the macros of the language
make of such forms; data that are read as code have the line of the call that yields them.

* `Form.Lined`: a form that has lines throughout.
* `Form.lined_of_read`, `lined_of_ofValue`: where it comes from.
* `Macro.lined_of_expandBuiltin`: the macros of the language keep to it. -/

namespace TwinLisp

/-- Whether the line of a place is known. -/
def Span.known (s : Span) : Bool := s.line != 0

theorem Span.known_iff {s : Span} : s.known = true ↔ s.line ≠ 0 := bne_iff_ne

theorem Span.known_merge {a b : Span} (ha : a.known = true) (hb : b.known = true) :
    (a.merge b).known = true := by
  rw [known_iff] at *
  unfold merge
  dsimp only
  split
  · exact ha
  · exact hb

/-- A form that has lines throughout. -/
inductive Form.Lined : Form → Prop
  | atom {v span} (hs : span.known = true) : Lined (.atom v span)
  | symbol {name span} (hs : span.known = true) : Lined (.symbol name span)
  | list {items span} (hs : span.known = true) (h : ∀ f ∈ items, Lined f) : Lined (.list items span)
  | vector {items span} (hs : span.known = true) (h : ∀ f ∈ items, Lined f) : Lined (.vector items span)
  | set {items span} (hs : span.known = true) (h : ∀ f ∈ items, Lined f) : Lined (.set items span)
  | map {items span} (hs : span.known = true) (h : ∀ f ∈ items, Lined f) : Lined (.map items span)

namespace Token

theorem missed_le (text : List Char) : missed text ≤ text.count '\n' := by
  unfold missed
  split
  · next h =>
    subst h
    decide
  · exact Nat.zero_le _

/-- The scanner begins in the first line and never goes back. -/
theorem Scanning.lined {c : Cursor} {ts : List Token} {e : Option LexError} (h : Scanning c ts e)
    (hc : c.line ≠ 0) : ∀ t ∈ ts, t.span.known = true := by
  have hnext : ∀ {c d : Cursor} {t : Token}, c.line ≠ 0 → next c = .ok (t, d) →
      t.span.known = true ∧ d.line ≠ 0 := by
    intro c d t hc hn
    obtain ⟨gap, hgap, -⟩ := skip_moves c
    have hskip : (skip c).line = c.line + gap.count '\n' := hgap.line
    obtain ⟨hspan, ⟨-, -, rfl⟩ | ⟨text, -, hsteps⟩⟩ := next_steps hn
    · rw [hspan, Span.known_iff]
      exact ⟨by change (skip c).line ≠ 0; omega, by omega⟩
    · have hline := hsteps.moves.line
      have hmissed := missed_le text
      rw [hspan, Span.known_iff]
      exact ⟨by change (skip c).line ≠ 0; omega, by omega⟩
  induction h with
  | stop => exact fun _ h => absurd h List.not_mem_nil
  | last hn =>
    intro t ht
    rw [List.mem_singleton.mp ht]
    exact (hnext hc hn).1
  | more hn _ _ ih =>
    intro t ht
    rcases List.mem_cons.mp ht with rfl | ht
    · exact (hnext hc hn).1
    · exact ih (hnext hc hn).2 t ht

end Token

namespace Form

abbrev AllLined (fs : List Form) : Prop := ∀ f ∈ fs, f.Lined

theorem Lined.known {f : Form} (h : f.Lined) : f.span.known = true := by
  cases h <;> assumption

theorem AllLined.nil : AllLined [] := fun _ h => absurd h List.not_mem_nil

theorem AllLined.cons {f : Form} {fs : List Form} (h : f.Lined) (hs : AllLined fs) :
    AllLined (f :: fs) := List.forall_mem_cons.mpr ⟨h, hs⟩

theorem AllLined.head {f : Form} {fs : List Form} (h : AllLined (f :: fs)) : f.Lined :=
  h f List.mem_cons_self

theorem AllLined.tail {f : Form} {fs : List Form} (h : AllLined (f :: fs)) : AllLined fs :=
  fun g hg => h g (List.mem_cons_of_mem f hg)

theorem AllLined.reverse {fs : List Form} (h : AllLined fs) : AllLined fs.reverse :=
  fun g hg => h g (List.mem_reverse.mp hg)

theorem Lined.listOf {fs : List Form} {span : Span} (h : (Form.list fs span).Lined) : AllLined fs := by
  cases h with
  | list _ h => exact h

theorem Lined.vectorOf {fs : List Form} {span : Span} (h : (Form.vector fs span).Lined) : AllLined fs := by
  cases h with
  | vector _ h => exact h

/-! ## Reading -/

mutual

theorem Datum.lined {ts : List Token} {f : Form} (h : Datum ts f)
    (ht : ∀ t ∈ ts, t.span.known = true) : f.Lined := by
  match h with
  | .atom (t := t) h =>
    have hs := ht t List.mem_cons_self
    obtain ⟨kind, span⟩ := t
    cases h with
    | symbol => exact .symbol hs
    | _ => exact .atom hs
  | .sequence (o := o) (c := c) hs h =>
    have ho := ht o List.mem_cons_self
    have hi := hs.lined fun t hm => ht t (List.mem_cons_of_mem o (List.mem_append_left _ hm))
    generalize o.kind = opening, c.kind = closing, o.span = span at h ho
    cases h with
    | list => exact .list ho hi
    | vector => exact .vector ho hi
    | set => exact .set ho hi
    | map => exact .map ho hi
  | .marked (t := t) _ h =>
    have hs := ht t List.mem_cons_self
    have hf := h.lined fun u hm => ht u (List.mem_cons_of_mem t hm)
    exact .list (Span.known_merge hs hf.known) (AllLined.cons (.symbol hs) (AllLined.cons hf AllLined.nil))
  | .described (t := t) _ _ h =>
    exact h.lined fun u hm => ht u (List.mem_cons_of_mem t (List.mem_append_right _ hm))

theorem Operand.lined {ts : List Token} {f : Form} (h : Operand ts f)
    (ht : ∀ t ∈ ts, t.span.known = true) : f.Lined := by
  match h with
  | .datum h => exact h.lined ht
  | .discarded _ h => exact h.lined fun t hm => ht t (List.mem_append_right _ hm)

theorem Series.lined {ts : List Token} {fs : List Form} (h : Series ts fs)
    (ht : ∀ t ∈ ts, t.span.known = true) : AllLined fs := by
  match h with
  | .nil => exact AllLined.nil
  | .datum h hs =>
    exact AllLined.cons (h.lined fun t hm => ht t (List.mem_append_left _ hm))
      (hs.lined fun t hm => ht t (List.mem_append_right _ hm))
  | .discarded _ hs => exact hs.lined fun t hm => ht t (List.mem_append_right _ hm)

end

theorem lined_of_read {source : String} {fs : List Form} (h : read source = .ok fs) : AllLined fs := by
  unfold read at h
  split at h
  · next us hus =>
    obtain ⟨ts, fin, rfl, hfin, hts⟩ := Token.tokens_ends hus
    have hlined : ∀ t ∈ ts ++ [fin], t.span.known = true := by
      unfold Token.tokens at hus
      split at hus
      · next hscan =>
        cases hus
        have hs := Token.scan_scanning source
        rw [hscan] at hs
        exact hs.lined Nat.one_ne_zero
      · cases hus
    exact ((tokens_eq_ok_iff hts hfin [] fs).mp h).lined fun t ht => hlined t (List.mem_append_left _ ht)
  · cases h

/-! ## Data as code -/

mutual

theorem lined_of_ofValue {span : Span} (hs : span.known = true) {v : Value} {f : Form}
    (h : ofValue span v = .ok f) : f.Lined := by
  cases v with
  | list xs =>
    rw [ofValue] at h
    cases hx : ofValuesOnto span [] xs with
    | error e => rw [hx] at h; cases h
    | ok fs => rw [hx] at h; cases h; exact .list hs (lined_of_ofValuesOnto hs AllLined.nil hx)
  | vector xs =>
    rw [ofValue] at h
    cases hx : ofValuesOnto span [] xs with
    | error e => rw [hx] at h; cases h
    | ok fs => rw [hx] at h; cases h; exact .vector hs (lined_of_ofValuesOnto hs AllLined.nil hx)
  | set xs =>
    rw [ofValue] at h
    cases hx : ofValuesOnto span [] xs with
    | error e => rw [hx] at h; cases h
    | ok fs => rw [hx] at h; cases h; exact .set hs (lined_of_ofValuesOnto hs AllLined.nil hx)
  | map es =>
    rw [ofValue] at h
    cases hx : ofEntriesOnto span [] es with
    | error e => rw [hx] at h; cases h
    | ok fs => rw [hx] at h; cases h; exact .map hs (lined_of_ofEntriesOnto hs AllLined.nil hx)
  | symbol name => cases h; exact .symbol hs
  | nil | bool | int | ratio | double | decimal | str | char | keyword =>
    cases h
    exact .atom hs
  | _ => cases h

theorem lined_of_ofValuesOnto {span : Span} (hs : span.known = true) {acc : List Form}
    {vs : List Value} {fs : List Form} (ha : AllLined acc) (h : ofValuesOnto span acc vs = .ok fs) :
    AllLined fs := by
  cases vs with
  | nil =>
    cases h
    exact ha.reverse
  | cons v rest =>
    rw [ofValuesOnto] at h
    cases hv : ofValue span v with
    | error e => rw [hv] at h; cases h
    | ok f =>
      rw [hv] at h
      exact lined_of_ofValuesOnto hs (AllLined.cons (lined_of_ofValue hs hv) ha) h

theorem lined_of_ofEntriesOnto {span : Span} (hs : span.known = true) {acc : List Form}
    {es : List (Value × Value)} {fs : List Form} (ha : AllLined acc)
    (h : ofEntriesOnto span acc es = .ok fs) : AllLined fs := by
  cases es with
  | nil =>
    cases h
    exact ha.reverse
  | cons e rest =>
    obtain ⟨k, v⟩ := e
    rw [ofEntriesOnto] at h
    cases hk : ofValue span k with
    | error e => rw [hk] at h; cases h
    | ok fk =>
      cases hv : ofValue span v with
      | error e => rw [hk, hv] at h; cases h
      | ok fv =>
        rw [hk, hv] at h
        exact lined_of_ofEntriesOnto hs (AllLined.cons (lined_of_ofValue hs hv)
          (AllLined.cons (lined_of_ofValue hs hk) ha)) h

end

end Form

/-! ## The macros of the language -/

namespace Macro

open Form

theorem lined_dropText {fs : List Form} (h : AllLined fs) : AllLined (dropText fs) := by
  unfold dropText
  split
  · exact h.tail
  · exact h

theorem lined_dropMap {fs : List Form} (h : AllLined fs) : AllLined (dropMap fs) := by
  unfold dropMap
  split
  · exact h.tail
  · exact h

theorem lined_threadStep (last : Bool) {acc step : Form} (ha : acc.Lined) (hs : step.Lined) :
    (threadStep last acc step).Lined := by
  unfold threadStep
  split
  · refine .list hs.known ?_
    split
    · exact List.forall_mem_append.mpr ⟨hs.listOf, AllLined.cons ha AllLined.nil⟩
    · exact AllLined.cons hs.listOf.head (AllLined.cons ha hs.listOf.tail)
  · exact .list hs.known (AllLined.cons hs (AllLined.cons ha AllLined.nil))

section Placed

variable {span : Span} (hs : span.known = true) {args : List Form} (h : AllLined args)

include hs h

theorem lined_headedBy (name : String) : (headedBy name args span).Lined :=
  .list hs (AllLined.cons (.symbol hs) h)

theorem lined_defn {f : Form} (hf : defn args span = .ok f) : f.Lined := by
  unfold defn at hf
  split at hf
  · split at hf
    · cases hf
      refine lined_headedBy hs (AllLined.cons h.head (AllLined.cons ?_ AllLined.nil)) _
      exact lined_headedBy hs (AllLined.cons h.head (lined_dropMap (lined_dropText h.tail))) _
    · cases hf
  · cases hf

theorem lined_ifNot {f : Form} (hf : ifNot args span = .ok f) : f.Lined := by
  unfold ifNot at hf
  split at hf
  · cases hf
    exact lined_headedBy hs (AllLined.cons h.head (AllLined.cons (.atom hs)
      (AllLined.cons h.tail.head AllLined.nil))) _
  · cases hf
    exact lined_headedBy hs (AllLined.cons h.head (AllLined.cons h.tail.tail.head
      (AllLined.cons h.tail.head AllLined.nil))) _
  · cases hf

theorem lined_cond {f : Form} (hf : Macro.cond args span = .ok f) : f.Lined := by
  unfold Macro.cond at hf
  split at hf
  · cases hf
  · split at hf
    · cases hf
      exact lined_headedBy hs (AllLined.cons h.head (AllLined.cons h.tail.head
        (AllLined.cons (lined_headedBy hs h.tail.tail _) AllLined.nil))) _
    · cases hf
      exact .atom hs

omit hs in
theorem lined_threaded (last : Bool) {f : Form} (hf : threaded last args span = .ok f) : f.Lined := by
  cases args with
  | nil => cases hf
  | cons first steps =>
    cases hf
    induction steps generalizing first with
    | nil => exact h.head
    | cons s rest ih => exact ih _ (AllLined.cons (lined_threadStep last h.head h.tail.head) h.tail.tail)

theorem lined_logicalStep (conjunction : Bool) (fresh : String) {first : Form} (hf : first.Lined) :
    (logicalStep conjunction fresh first args span).Lined := by
  have hheld : (Form.symbol fresh span).Lined := .symbol hs
  refine lined_headedBy hs (AllLined.cons (.vector hs (AllLined.cons hheld
    (AllLined.cons hf AllLined.nil))) (AllLined.cons ?_ AllLined.nil)) _
  refine lined_headedBy hs (AllLined.cons hheld ?_) _
  cases conjunction
  · exact AllLined.cons hheld (AllLined.cons (lined_headedBy hs h _) AllLined.nil)
  · exact AllLined.cons (lined_headedBy hs h _) (AllLined.cons hheld AllLined.nil)

theorem lined_logical (conjunction : Bool) {f : Form} {s s' : State}
    (hf : (logical conjunction args span : Parse Form) s = .ok f s') : f.Lined := by
  match args with
  | [] =>
    cases hf
    cases conjunction <;> exact .atom hs
  | [only] =>
    cases hf
    exact h.head
  | first :: next :: rest =>
    cases hf
    exact lined_logicalStep hs h.tail conjunction _ h.head

end Placed

theorem lined_of_expandBuiltin {form f : Form} {s s' : State} (h : form.Lined)
    (hf : expandBuiltin form s = .ok (some f) s') : f.Lined := by
  have hexcept : ∀ {r : Except ParseError Form}, (some <$> Act.ofExcept r : Parse (Option Form)) s =
      .ok (some f) s' → r = .ok f := by
    intro r hr
    cases r with
    | ok g => cases hr; rfl
    | error e => cases hr
  have hlogical : ∀ {conjunction args span},
      (some <$> logical conjunction args span : Parse (Option Form)) s = .ok (some f) s' →
        (logical conjunction args span : Parse Form) s = .ok f s' := by
    intro conjunction args span hr
    rw [map_eq_pure_bind, Act.bind_apply] at hr
    cases hl : (logical conjunction args span : Parse Form) s with
    | ok g t => rw [hl] at hr; cases hr; rfl
    | error e t => rw [hl] at hr; cases e <;> cases hr
  unfold expandBuiltin at hf
  split at hf
  · next name place args span =>
    have hs := h.known
    have ha := h.listOf.tail
    split at hf
    · exact lined_defn hs ha (hexcept hf)
    · split at hf
      · cases hf
        exact lined_headedBy hs (AllLined.cons ha.head (AllLined.cons (lined_headedBy hs ha.tail _)
          AllLined.nil)) _
      · cases hf
    · split at hf
      · cases hf
        exact lined_headedBy hs (AllLined.cons ha.head (AllLined.cons (.atom hs)
          (AllLined.cons (lined_headedBy hs ha.tail _) AllLined.nil))) _
      · cases hf
    · exact lined_ifNot hs ha (hexcept hf)
    · exact lined_cond hs ha (hexcept hf)
    · exact lined_logical hs ha true (hlogical hf)
    · exact lined_logical hs ha false (hlogical hf)
    · exact lined_threaded ha false (hexcept hf)
    · exact lined_threaded ha true (hexcept hf)
    · cases hf
      exact .atom hs
    · cases hf
  · cases hf

theorem lined_of_expandUser {call : Value → List Value → Run Value} {u : Value} {args : List Form}
    {span : Span} {f : Form}
    {s s' : State} (hs : span.known = true) (hf : expandUser call u args span s = .ok f s') :
    f.Lined := by
  unfold expandUser at hf
  rw [Act.bind_apply] at hf
  cases hv : Act.within span (call u (Form.toValues args)) s with
  | ok v s₁ =>
    rw [hv] at hf
    dsimp only at hf
    cases hr : Form.ofValue span v with
    | ok g => rw [hr] at hf; cases hf; exact lined_of_ofValue hs hr
    | error e => rw [hr] at hf; cases hf
  | error e s₁ => rw [hv] at hf; cases e <;> cases hf

end Macro

end TwinLisp
