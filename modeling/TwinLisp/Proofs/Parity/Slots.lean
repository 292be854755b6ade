import TwinLisp.Proofs.Parity.Machine

/-! Runs of the machine whose slots are cells, beside a tree walker. How many instructions a run may take
and how much fuel calls have that leave the machine is left open: with less of either a run may have no
value, but it has no other value. Every slot of a running function has a cell, which is that of a
variable of the first or holds a value that does not change.

* `Leads`, `Ends`: a run goes from one state to another, or ends.
* `Comes`: what a run comes to where the first has come to something; `Comes.bind` and so on, a rule for
  each way to make actions.
* `Inside`: compiled code finds each variable that the first finds.
* `Inside.bind`, `cells_link`: values become variables.
* `Inside.read`, `Inside.write`: variables in both. -/

namespace TwinLisp.Parity

open Machine Machine.Ideal

/-- The engines of the second. -/
def second (m : Nat) : Engine := .built (.named .framed) Run.assign Ideal.step m

/-- What a run yields that began above some frames, with some fuel for calls, some number of instructions
and ample limits. -/
def going (entry m N L : Nat) (t : State) : EStateM.Result (Stop RuntimeError) State Value :=
  Machine.run (second m).cycle entry N (ample L t)

def Stuck (entry m N L : Nat) (t : State) : Prop := ∃ u, going entry m N L t = .error .exhausted u

theorem stuck_zero (entry m L : Nat) (t : State) : Stuck entry m 0 L t := ⟨_, rfl⟩

theorem going_succ (entry m N L : Nat) (t : State) : going entry m (N + 1) L t =
    match Ideal.step (second m).call entry (ample L t) with
    | .ok (some v) u => .ok v u
    | .ok none u => Machine.run (second m).cycle entry N u
    | .error e u => .error e u := by
  have hcycle : (second m).cycle = Ideal.step (second m).call := Engine.cycle_built ..
  simp only [going, Machine.run, Act.bind_apply, hcycle]
  cases Ideal.step (second m).call entry (ample L t) with
  | ok o u => cases o <;> rfl
  | error e u => rfl

/-! ## Leading from one state to another -/

/-- A run goes on to another state, with `j` instructions. -/
structure Goes (entry m L j : Nat) (t t' : State) : Prop where
  on : ∀ N, going entry m (N + 1 + j) L t = going entry m (N + 1) L t'
  off : ∀ N ≤ j, Stuck entry m N L t

/-- A run goes on to another state, with `q` instructions at least, if there is enough fuel for calls. -/
def Leads (entry q : Nat) (t t' : State) : Prop :=
  ∃ j ≥ q, ∃ K, ∀ L ≥ K, ∀ m, Goes entry m L j t t' ∨ m < K ∧ ∀ N, Stuck entry m N L t

section Leads

variable {entry q m L j : Nat} {t t' t'' : State}

theorem Goes.trans {i : Nat} (h : Goes entry m L i t t') (h' : Goes entry m L j t' t'') :
    Goes entry m L (i + j) t t'' where
  on N := by
    rw [show N + 1 + (i + j) = N + j + 1 + i by omega, h.on, show N + j + 1 = N + 1 + j by omega, h'.on]
  off N hN := by
    by_cases hi : N ≤ i
    · exact h.off N hi
    · obtain ⟨N, rfl⟩ : ∃ N', N = N' + 1 + i := ⟨N - 1 - i, by omega⟩
      rw [Stuck, h.on]
      exact h'.off _ (by omega)

theorem Goes.stuck (h : Goes entry m L j t t') (hs : ∀ N, Stuck entry m N L t') (N : Nat) :
    Stuck entry m N L t := by
  by_cases hj : N ≤ j
  · exact h.off N hj
  · obtain ⟨N, rfl⟩ : ∃ N', N = N' + 1 + j := ⟨N - 1 - j, by omega⟩
    rw [Stuck, h.on]
    exact hs _

/-- One instruction, after which the slots get their cells. -/
theorem Goes.of_step {u : State} (h : Ideal.step (second m).call entry (ample L t) = .ok none u)
    (hu : settle u = ample L t') (hs : settle (ample L t') = ample L t') : Goes entry m L 1 t t' := by
  have hnext : ∀ N, Machine.run (second m).cycle entry (N + 1) u = going entry m (N + 1) L t' := by
    intro N
    have hcycle : (second m).cycle entry u = (second m).cycle entry (ample L t') := by
      rw [second, Engine.cycle_built]
      simp only [Ideal.step, Act.bind_apply, Act.update, hu, hs]
    simp only [going, Machine.run, Act.bind_apply, hcycle]
  refine ⟨fun N => ?_, fun N hN => ?_⟩
  · rw [going_succ, h]
    exact hnext N
  · cases N with
    | zero => exact stuck_zero ..
    | succ N =>
      obtain rfl : N = 0 := by omega
      refine ⟨u, ?_⟩
      rw [going_succ, h]
      rfl

theorem Leads.refl (entry : Nat) (t : State) : Leads entry 0 t t :=
  ⟨0, Nat.le_refl 0, 0, fun _ _ _ => .inl ⟨fun _ => rfl, fun N hN => by
    rw [Nat.le_zero.mp hN]
    exact stuck_zero ..⟩⟩

theorem Leads.trans {q' : Nat} (h : Leads entry q t t') (h' : Leads entry q' t' t'') :
    Leads entry (q + q') t t'' := by
  obtain ⟨i, hi, K, hK⟩ := h
  obtain ⟨j, hj, K', hK'⟩ := h'
  refine ⟨i + j, by omega, max K K', fun L hL m => ?_⟩
  rcases hK L (by omega) m with hg | ⟨hm, hs⟩
  · rcases hK' L (by omega) m with hg' | ⟨hm, hs⟩
    · exact .inl (hg.trans hg')
    · exact .inr ⟨by omega, hg.stuck hs⟩
  · exact .inr ⟨by omega, hs⟩

theorem Leads.weaken (h : Leads entry q t t') {q' : Nat} (hq : q' ≤ q) : Leads entry q' t t' :=
  let ⟨j, hj, hK⟩ := h
  ⟨j, Nat.le_trans hq hj, hK⟩

theorem Leads.of_step (h : ∃ K, ∀ L ≥ K, ∀ m,
      (∃ u, Ideal.step (second m).call entry (ample L t) = .ok none u ∧ settle u = ample L t' ∧
        settle (ample L t') = ample L t') ∨
      m < K ∧ ∃ u, Ideal.step (second m).call entry (ample L t) = .error .exhausted u) :
    Leads entry 1 t t' := by
  obtain ⟨K, hK⟩ := h
  refine ⟨1, Nat.le_refl 1, K, fun L hL m => ?_⟩
  rcases hK L hL m with ⟨u, hu, hs, hs'⟩ | ⟨hm, u, hu⟩
  · exact .inl (.of_step hu hs hs')
  · refine .inr ⟨hm, fun N => ?_⟩
    cases N with
    | zero => exact stuck_zero ..
    | succ N => exact ⟨u, by rw [going_succ, hu]⟩

theorem Steps.leads (h : Steps entry t t') : Leads entry 1 t t' :=
  let ⟨K, hK⟩ := h
  .of_step ⟨K, fun L hL _ => .inl (hK L hL _)⟩

end Leads

/-! ## How runs end -/

/-- How a run ends with enough fuel and instructions; with less of either it may have no value. -/
def Ends (entry : Nat) (t : State) (r : Nat → EStateM.Result (Stop RuntimeError) State Value) : Prop :=
  ∃ K, ∀ L ≥ K, ∀ m N, going entry m N L t = r L ∨ (m < K ∨ N < K) ∧ Stuck entry m N L t

/-- A run does not get far enough with little of both. -/
def Short (short : Nat → Nat → Prop) (entry : Nat) (t : State) : Prop :=
  ∀ m N, short m N → ∃ K, ∀ L ≥ K, Stuck entry m N L t

section Ends

variable {entry q : Nat} {t t' u : State} {r : Nat → EStateM.Result (Stop RuntimeError) State Value}

theorem Leads.ends (h : Leads entry q t t') (hr : Ends entry t' r) : Ends entry t r := by
  obtain ⟨j, -, K, hK⟩ := h
  obtain ⟨K', hK'⟩ := hr
  refine ⟨K + K' + j + 1, fun L hL m N => ?_⟩
  rcases hK L (by omega) m with hg | ⟨hm, hs⟩
  · by_cases hN : N ≤ j
    · exact .inr ⟨.inr (by omega), hg.off N hN⟩
    · obtain ⟨N, rfl⟩ : ∃ N', N = N' + 1 + j := ⟨N - 1 - j, by omega⟩
      rw [Stuck, hg.on]
      exact (hK' L (by omega) m (N + 1)).imp_right fun ⟨hlt, hs⟩ => ⟨by omega, hs⟩
  · exact .inr ⟨.inl (by omega), hs N⟩

theorem Leads.short (h : Leads entry q t t') {short short' : Nat → Nat → Prop}
    (hshort : ∀ m N N', short m N → N' + q ≤ N → short' m N') (hs : Short short' entry t') :
    Short short entry t := by
  obtain ⟨j, hj, K, hK⟩ := h
  intro m N hmN
  by_cases hN : N ≤ j
  · refine ⟨K, fun L hL => ?_⟩
    rcases hK L hL m with hg | ⟨hm, hs⟩
    · exact hg.off N hN
    · exact hs N
  · obtain ⟨N, rfl⟩ : ∃ N', N = N' + 1 + j := ⟨N - 1 - j, by omega⟩
    obtain ⟨K', hK'⟩ := hs m (N + 1) (hshort m _ _ hmN (by omega))
    refine ⟨max K K', fun L hL => ?_⟩
    rcases hK L (by omega) m with hg | ⟨hm, hs⟩
    · rw [Stuck, hg.on]
      exact hK' L (by omega)
    · exact hs _

theorem Ends.of_step {e : RuntimeError} (h : ∃ K, ∀ L ≥ K, ∀ m,
      Ideal.step (second m).call entry (ample L t) = .error (.raised e) (ample L u) ∨
      m < K ∧ ∃ u, Ideal.step (second m).call entry (ample L t) = .error .exhausted u) :
    Ends entry t fun L => .error (.raised e) (ample L u) := by
  obtain ⟨K, hK⟩ := h
  refine ⟨K + 1, fun L hL m N => ?_⟩
  cases N with
  | zero => exact .inr ⟨.inr (by omega), stuck_zero ..⟩
  | succ N =>
    rw [Stuck, going_succ]
    rcases hK L (by omega) m with hu | ⟨hm, u, hu⟩
    · exact .inl (by rw [hu])
    · exact .inr ⟨.inl (by omega), u, by rw [hu]⟩

theorem Posture.Fails.ends {e : RuntimeError} (h : Posture.Fails t e u) :
    Ends entry t fun L => .error (.raised e) (ample L u) :=
  let ⟨K, hK⟩ := h
  .of_step ⟨K, fun L hL _ => .inl (hK L hL _ entry)⟩

theorem Posture.Finishes.ends {y : Value} (h : Posture.Finishes entry t y u) :
    Ends entry t fun L => .ok y (ample L u) := by
  refine ⟨1, fun L hL m N => ?_⟩
  cases N with
  | zero => exact .inr ⟨.inr (by omega), stuck_zero ..⟩
  | succ N =>
    rw [going_succ, h L]
    exact .inl rfl

end Ends

/-! ## Faults -/

/-- Faults that correspond and have lines, and the same ones. -/
structure Blames (w : Ties) (e e' : RuntimeError) : Prop where
  cause : ∀ ρ, w.Ext ρ → e'.cause = e.cause.rename ρ
  line : e.cause = .stackOverflow ∨ e'.span.line = e.span.line ∧ e.span.line ≠ 0

section Faults

variable {text : String} {w w' : Ties} {e e' : RuntimeError}

theorem Blames.fault {w : World} (h : Blames w.ties e e') :
    (coupling text).fault w e e' :=
  ⟨trivial, h.cause, h.line.imp_right And.left⟩

theorem Blames.of_fault {w : World} {span : Span} (hs : span.known = true)
    (h : (coupling text).fault w e e') :
    Blames w.ties (e.within span) (e'.within (.ofLine span.line)) := by
  refine ⟨fun ρ hρ => ?_, ?_⟩
  · rw [Located.within_cause, Located.within_cause, h.2.1 ρ hρ]
  · rw [Located.within_cause, Located.span_within, Located.span_within]
    refine h.2.2.imp_right fun hline => ?_
    have hne := Span.known_iff.mp hs
    rw [hline]
    split
    · exact ⟨rfl, hne⟩
    · next hne' => exact ⟨hline, hne'⟩

theorem Blames.of_plain {f : RuntimeFault} (hf : f.Plain) {span : Span} (hs : span.known = true)
    (w : Ties) : Blames w ⟨f, span⟩ ⟨f, .ofLine span.line⟩ :=
  ⟨fun ρ _ => (hf.rename ρ).symm, .inr ⟨rfl, Span.known_iff.mp hs⟩⟩

theorem Blames.within (h : Blames w e e') (span : Span) : Blames w (e.within span) e' := by
  refine ⟨fun ρ hρ => by rw [Located.within_cause]; exact h.cause ρ hρ, ?_⟩
  rw [Located.within_cause, Located.span_within]
  refine h.line.imp_right fun ⟨hline, hne⟩ => ?_
  rw [if_neg hne]
  exact ⟨hline, hne⟩

end Faults

/-! ## Coming to something -/

section Comes

variable (text : String) (short : Nat → Nat → Prop) (entry : Nat) (P : Posture)
  (d : Nat)

/-- What a run comes to where the first has come to something: both are at a depth `d` of calls. -/
inductive Comes {α : Type} (V : Ties → α → State → Prop) (w : Ties) :
    EStateM.Result (Stop RuntimeError) State α → State → Prop
  | ok {w' x s t t'} (hw : w.Le w') (hl : Leads entry 0 t t') (hx : V w' x t')
    (hb : Bonds w' s t') (hd : s.depth = d) (hd' : t'.depth = d) : Comes V w (.ok x s) t
  | raised {w' e e' s t u} (hw : w.Le w') (he : Blames w' e e')
    (hr : Ends entry t fun L => .error (.raised e') (ample L u)) (hb : Bonds w' s u)
    (hd : s.depth = d) (hu : P.Under u) : Comes V w (.error (.raised e) s) t
  | exhausted {s t} (h : s.output = text ∨ Short short entry t) : Comes V w (.error .exhausted s) t

end Comes

variable {text : String} {short : Nat → Nat → Prop} {entry : Nat} {P : Posture}
  {d : Nat} {α β : Type} {V : Ties → α → State → Prop} {U : Ties → β → State → Prop} {w w' : Ties}
  {s t t' : State}

namespace Comes

theorem after {r : EStateM.Result (Stop RuntimeError) State α} {short' : Nat → Nat → Prop} {q : Nat}
    (hshort : ∀ m N N', short m N → N' + q ≤ N → short' m N') (hl : Leads entry q t t')
    (h : Comes text short' entry P d V w r t') : Comes text short entry P d V w r t := by
  cases h with
  | ok hw hl' hx hb hd hd' => exact .ok hw ((hl.trans hl').weaken (Nat.zero_le _)) hx hb hd hd'
  | raised hw he hr hb hd hu => exact .raised hw he (hl.ends hr) hb hd hu
  | exhausted h => exact .exhausted (h.imp_right (hl.short hshort))

/-- What the machine does afterwards, which the first takes no notice of. -/
theorem andThen {r : EStateM.Result (Stop RuntimeError) State α} {V' : Ties → α → State → Prop}
    (h : Comes text short entry P d V w r t)
    (hV : ∀ {w' x s' t'}, w.Le w' → V w' x t' → Bonds w' s' t' → ∃ t'', Leads entry 0 t' t'' ∧
      Enlarged t' t'' ∧ t''.depth = t'.depth ∧ V' w' x t'') :
    Comes text short entry P d V' w r t := by
  cases h with
  | ok hw hl hx hb hd hd' =>
    obtain ⟨t'', hl', ht, hdt, hx'⟩ := hV hw hx hb
    exact .ok hw (hl.trans hl') hx' (hb.enlarge ht) hd (hdt.trans hd')
  | raised hw he hr hb hd hu => exact .raised hw he hr hb hd hu
  | exhausted h => exact .exhausted h

theorem fewer {r : EStateM.Result (Stop RuntimeError) State α} {short' : Nat → Nat → Prop}
    (hshort : ∀ m N, short m N → short' m N) (h : Comes text short' entry P d V w r t) :
    Comes text short entry P d V w r t := by
  cases h with
  | ok hw hl hx hb hd hd' => exact .ok hw hl hx hb hd hd'
  | raised hw he hr hb hd hu => exact .raised hw he hr hb hd hu
  | exhausted h => exact .exhausted (h.imp_right fun hs m N hmN => hs m N (hshort m N hmN))

theorem mono {r : EStateM.Result (Stop RuntimeError) State α} (hw : w.Le w')
    (h : Comes text short entry P d V w' r t) : Comes text short entry P d V w r t := by
  cases h with
  | ok hw' hl hx hb hd hd' => exact .ok (hw.trans hw') hl hx hb hd hd'
  | raised hw' he hr hb hd hu => exact .raised (hw.trans hw') he hr hb hd hu
  | exhausted h => exact .exhausted h

theorem bind (hshort : ∀ m N N', short m N → N' ≤ N → short m N') {a : Run α}
    {f : α → Run β} (h : Comes text short entry P d V w (a s) t)
    (hf : ∀ {w' x s' t'}, w.Le w' → V w' x t' → Bonds w' s' t' → s'.depth = d → t'.depth = d →
      Comes text short entry P d U w' (f x s') t') :
    Comes text short entry P d U w ((a >>= f) s) t := by
  rw [Act.bind_apply]
  generalize a s = r at h
  cases h with
  | ok hw hl hx hb hd hd' => exact ((hf hw hx hb hd hd').mono hw).after hshort hl
  | raised hw he hr hb hd hu => exact .raised hw he hr hb hd hu
  | exhausted h => exact .exhausted h

theorem imp {r : EStateM.Result (Stop RuntimeError) State α} {V' : Ties → α → State → Prop}
    (h : Comes text short entry P d V w r t)
    (hV : ∀ {w' x t'}, w.Le w' → V w' x t' → V' w' x t') :
    Comes text short entry P d V' w r t := by
  cases h with
  | ok hw hl hx hb hd hd' => exact .ok hw hl (hV hw hx) hb hd hd'
  | raised hw he hr hb hd hu => exact .raised hw he hr hb hd hu
  | exhausted h => exact .exhausted h

/-- What the first comes to without the second doing anything. -/
theorem pure {x : α} (hx : V w x t) (hb : Bonds w s t) (hd : s.depth = d) (hd' : t.depth = d) :
    Comes text short entry P d V w ((Pure.pure x : Run α) s) t :=
  .ok (.refl w) (.refl entry t) hx hb hd hd'

theorem within {a : Run α} (h : Comes text short entry P d V w (a s) t) (span : Span) :
    Comes text short entry P d V w (Act.within span a s) t := by
  simp only [Act.within, Act.mapFault]
  generalize a s = r at h
  cases h with
  | ok hw hl hx hb hd hd' => exact .ok hw hl hx hb hd hd'
  | raised hw he hr hb hd hu => exact .raised hw (he.within span) hr hb hd hu
  | exhausted h => exact .exhausted h

theorem leaving : Comes text short entry P d V w ((Act.leaving text : Run α) s) t :=
  .exhausted (.inl rfl)

end Comes

/-! ## Variables of compiled code -/

variable {v w w' : Ties} {s t : State} {P : Posture} {i : Option Nat}
  {sc : Scopes} {ks : Owned} {outer : List Scene} {locals : List LocalVar} {cs : List Nat}

/-! ## Cells that are known -/

namespace Ties

/-- A cell of a variable, or one whose value does not change. -/
def Held (w : Ties) (c : Nat) : Prop :=
  (∃ x, (c, x) ∈ w.pins) ∨ ∃ l ∈ w.links, l.place.key = (true, c)

theorem Held.mono (hle : v.Le w) {c : Nat} (h : v.Held c) : w.Held c :=
  h.imp (fun ⟨x, hx⟩ => ⟨x, hle.pins _ hx⟩) fun ⟨l, hl, hk⟩ => ⟨l, hle.links.subset hl, hk⟩

theorem held_pin (w : Ties) (c : Nat) (x : Value) : (w.pin c x).Held c :=
  .inl ⟨x, List.mem_cons_self⟩

def SendsAll (w : Ties) (xs ys : List Value) : Prop := ∀ ρ, w.Ext ρ → ρ.SendsAll xs ys

theorem SendsAll.mono (hle : v.Le w) {xs ys : List Value} (h : v.SendsAll xs ys) : w.SendsAll xs ys :=
  fun ρ hρ => h ρ (hρ.anti hle)

theorem SendsAll.append {xs ys us vs : List Value} (h : w.SendsAll xs ys) (h' : w.SendsAll us vs) :
    w.SendsAll (xs ++ us) (ys ++ vs) := fun ρ hρ => by
  rw [Renaming.SendsAll, h ρ hρ, h' ρ hρ, List.map_append]

theorem SendsAll.singleton {x y : Value} (h : w.Sends x y) : w.SendsAll [x] [y] := fun ρ hρ => by
  rw [Renaming.SendsAll, h ρ hρ, List.map_singleton]

theorem SendsAll.nil (w : Ties) : w.SendsAll [] [] := fun _ _ => rfl

theorem SendsAll.length {xs ys : List Value} (h : w.SendsAll xs ys) : ys.length = xs.length := by
  obtain ⟨ρ, hρ, -⟩ := w.exists_plain
  rw [h ρ hρ, List.length_map]

theorem SendsAll.uncons {x : Value} {xs ys : List Value} (h : w.SendsAll (x :: xs) ys) :
    ∃ y ys', ys = y :: ys' ∧ w.Sends x y ∧ w.SendsAll xs ys' := by
  obtain ⟨ρ, hρ, -⟩ := w.exists_plain
  have e : ys = x.rename ρ :: xs.map (·.rename ρ) := h ρ hρ
  refine ⟨x.rename ρ, xs.map (·.rename ρ), e, fun σ hσ => ?_, fun σ hσ => ?_⟩
  · exact (List.cons.inj (e.symm.trans (h σ hσ))).1
  · exact (List.cons.inj (e.symm.trans (h σ hσ))).2

theorem Sends.constant {x : Value} (h : ∀ ρ : Renaming, x.rename ρ = x) : w.Sends x x :=
  fun ρ _ => (h ρ).symm

end Ties

namespace Bonds

theorem content_of_held (h : Bonds w s t) {c : Nat} (hc : w.Held c) :
    ∃ x, t.store.content? c = some x := by
  rcases hc with ⟨x, hx⟩ | ⟨l, hl, hk⟩
  · exact ⟨x, (h.pinned hx).1⟩
  · obtain ⟨k, hk'⟩ := List.mem_iff_getElem?.mp hl
    obtain ⟨x, y, -, hp, -⟩ := h.linked hk'
    obtain ⟨name, above, place⟩ := l
    cases place with
    | scope => cases hk
    | cell d | self d =>
      cases hk
      exact ⟨y, hp⟩

theorem varValue (h : Bonds w s t) (x : Var) :
    (s.store.varValue? x = none ∧ t.store.varValue? x = none) ∨
      ∃ u y, s.store.varValue? x = some u ∧ t.store.varValue? x = some y ∧ w.Sends u y := by
  have hv := fun ρ hρ => Store.varValue?_of_vars (h.vars ρ hρ) x
  obtain ⟨ρ, hρ, -⟩ := w.exists_plain
  cases hs : s.store.varValue? x with
  | none => exact .inl ⟨rfl, by rw [hv ρ hρ, hs]; rfl⟩
  | some u =>
    refine .inr ⟨u, u.rename ρ, rfl, by rw [hv ρ hρ, hs]; rfl, fun σ hσ => ?_⟩
    have := (hv ρ hρ).symm.trans (hv σ hσ)
    rw [hs] at this
    exact Option.some.inj this

theorem setVar (h : Bonds w s t) {x : Var} {u y : Value} (hu : w.Sends u y)
    (ha : x.admits u = true) :
    Bonds w { s with store := s.store.setVar x u } { t with store := t.store.setVar x y } :=
  h.change rfl (fun v hv => isNative_setVar (h.genuine v hv) ha) rfl h.names h.gensyms h.output h.raised
    fun ρ hρ => by
      rw [hu ρ hρ]
      exact Store.setVar_vars_of_vars (h.vars ρ hρ) x u

end Bonds

theorem exists_contents {σ : Store} (h : ∀ c ∈ cs, ∃ x, σ.content? c = some x) :
    ∃ xs : List Value, cs.map σ.content? = xs.map some := by
  induction cs with
  | nil => exact ⟨[], rfl⟩
  | cons c cs ih =>
    obtain ⟨x, hx⟩ := h c List.mem_cons_self
    obtain ⟨xs, hxs⟩ := ih fun d hd => h d (List.mem_cons_of_mem c hd)
    exact ⟨x :: xs, by rw [List.map_cons, List.map_cons, hx, hxs]⟩

/-! ## What compiled code finds -/

/-- Compiled code finds each variable that the first finds, in a cell of its own or in one it has
captured. All cells of its slots are known. -/
structure Inside (w : Ties) (P : Posture) (outer : List Scene) (i : Option Nat) (sc : Scopes)
    (ks : Owned) (locals : List LocalVar) (cs : List Nat) : Prop where
  near : ∀ {name : String} {b : Binding} {v : LocalVar}, sc.find? name = some b →
    LocalVar.latest? name locals = some v → ∃ c, cs[v.slot]? = some c ∧ w.Finds i ks name c
  far : ∀ {name : String} {b : Binding}, sc.find? name = some b →
    LocalVar.latest? name locals = none → ∀ {k : Nat} {cap : Capture},
      P.proto.captures[k]? = some cap → Captured name outer cap →
        ∃ c, P.captured[k]? = some c ∧ w.Finds i ks name c
  slots : ∀ v ∈ locals, v.slot < cs.length
  held : ∀ c ∈ cs, w.Held c

namespace Inside

theorem mono (hle : v.Le w) (h : Inside v P outer i sc ks locals cs) :
    Inside w P outer i sc ks locals cs where
  near hb hv := let ⟨c, hc, hf⟩ := h.near hb hv; ⟨c, hc, hf.mono hle⟩
  far hb hv _ _ hk hn := let ⟨c, hc, hf⟩ := h.far hb hv hk hn; ⟨c, hc, hf.mono hle⟩
  slots := h.slots
  held c hc := (h.held c hc).mono hle

theorem scope (h : Inside w P outer i sc ks locals cs) : Inside w P outer i ([] :: sc) ks locals cs where
  near hb hv := h.near hb hv
  far hb hv _ _ hk hn := h.far hb hv hk hn
  slots := h.slots
  held := h.held

theorem push (h : Inside w P outer i sc ks locals cs) {c : Nat} (hc : w.Held c) :
    Inside w P outer i sc ks locals (cs ++ [c]) where
  near hb hv :=
    let ⟨d, hd, hf⟩ := h.near hb hv
    ⟨d, (List.getElem?_append_left (List.getElem?_eq_some_iff.mp hd).1).trans hd, hf⟩
  far hb hv _ _ hk hn := h.far hb hv hk hn
  slots v hv := Nat.lt_of_lt_of_le (h.slots v hv) (by simp)
  held d hd := by
    rcases List.mem_append.mp hd with hd | hd
    · exact h.held d hd
    · rw [List.mem_singleton.mp hd]
      exact hc

end Inside

/-! ## Values that become variables -/

theorem Owned.owns_cons {name other : String} (hn : name ≠ other) (b : Bool) (ks : Owned) :
    Owned.owns other ((name, b) :: ks) = Owned.owns other ks := by
  unfold Owned.owns
  rw [List.lookup_cons, beq_false_of_ne (Ne.symm hn)]

section Bind

variable {name : String} {p : Place} {b : Bool}

theorem Ties.Finds.above {other : String} {c : Nat} (h : w.Finds i ks other c) (hn : name ≠ other) :
    (w.link ⟨name, i, p⟩).Finds (some w.links.length) ((name, b) :: ks) other c := by
  obtain ⟨d, l, hs, hl, hp⟩ := h
  have hle := w.le_link ⟨name, i, p⟩
  have hat : (w.link ⟨name, i, p⟩).links[w.links.length]? = some ⟨name, i, p⟩ := by simp [Ties.link]
  obtain ⟨j, rfl⟩ : ∃ j, i = some j := by
    cases hs with
    | here | above => exact ⟨_, rfl⟩
  refine ⟨d, l, .above hat hn rfl hs.lt (hs.mono hle.links), hle.getLink hl, ?_⟩
  rwa [Owned.owns_cons hn]

theorem Ties.finds_link {c : Nat} (hp : p = .cell c ∨ p = .self c ∧ b = true) :
    (w.link ⟨name, i, p⟩).Finds (some w.links.length) ((name, b) :: ks) name c := by
  have hat : (w.link ⟨name, i, p⟩).links[w.links.length]? = some ⟨name, i, p⟩ := by simp [Ties.link]
  refine ⟨_, _, .here hat rfl, hat, hp.imp_right fun h => ⟨h.1, ?_⟩⟩
  simp [Owned.owns, h.2]

theorem Inside.bind {names : List String} (h : Inside w P outer i (names :: sc) ks locals cs) {c : Nat}
    {v : LocalVar} (hv : v.slot = cs.length) (hp : p = .cell c ∨ p = .self c ∧ b = true) :
    Inside (w.link ⟨v.name, i, p⟩) P outer (some w.links.length) ((v.name :: names) :: sc)
      ((v.name, b) :: ks) (v :: locals) (cs ++ [c]) := by
  have hlatest : ∀ other, LocalVar.latest? other (v :: locals) =
      if v.name = other then some v else LocalVar.latest? other locals := fun other => by
    rw [LocalVar.latest?, List.find?_cons, LocalVar.latest?]
    by_cases hn : v.name = other
    · rw [if_pos hn, beq_iff_eq.mpr hn]
    · rw [if_neg hn, beq_false_of_ne hn]
  refine ⟨fun {other _ u} hb hu => ?_, fun {other _} hb hu {k cap} hk hn => ?_, fun u hu => ?_,
    fun d hd => ?_⟩
  · rw [hlatest] at hu
    rw [Scopes.find?_cons_cons] at hb
    by_cases hn : v.name = other
    · rw [if_pos hn] at hu
      cases hu
      subst hn
      exact ⟨c, by rw [hv]; simp, w.finds_link hp⟩
    · rw [if_neg hn] at hu
      rw [if_neg (by simpa using hn)] at hb
      obtain ⟨d, hd, hf⟩ := h.near hb hu
      exact ⟨d, (List.getElem?_append_left (List.getElem?_eq_some_iff.mp hd).1).trans hd, hf.above hn⟩
  · rw [hlatest] at hu
    rw [Scopes.find?_cons_cons] at hb
    by_cases hn' : v.name = other
    · rw [if_pos hn'] at hu
      cases hu
    · rw [if_neg hn'] at hu
      rw [if_neg (by simpa using hn')] at hb
      obtain ⟨d, hd, hf⟩ := h.far hb hu hk hn
      exact ⟨d, hd, hf.above hn'⟩
  · rw [List.length_append, List.length_singleton]
    rcases List.mem_cons.mp hu with rfl | hu
    · omega
    · exact Nat.lt_succ_of_lt (h.slots u hu)
  · rcases List.mem_append.mp hd with hd | hd
    · exact (h.held d hd).mono (w.le_link _)
    · rw [List.mem_singleton.mp hd]
      refine .inr ⟨⟨v.name, i, p⟩, by simp [Ties.link], ?_⟩
      rcases hp with rfl | ⟨rfl, -⟩ <;> rfl

end Bind

/-- Both have a variable for a value, which the second has in a new cell. -/
theorem Bonds.cell_link (h : Bonds w s t) (name : String) (i : Option Nat) {c : Nat}
    (hc : w.Free c) {x y : Value} (hy : t.store.content? c = some y) (hx : w.Sends x y) :
    ∃ s', Locals.cell i name x s = .ok (some w.links.length) s' ∧
      Bonds (w.link ⟨name, i, .cell c⟩) s' t ∧ s'.depth = s.depth := by
  refine ⟨_, ?_, h.link _ _ (.refl t) (p := .cell c) hy hx (fun l hl e => absurd e (hc.1 l hl))
    fun q hq e => hc.2 q hq (by cases e; rfl), rfl⟩
  rw [← h.frames]
  rfl

theorem Ties.Free.link {c d : Nat} (h : w.Free c) (hd : d ≠ c) (name : String) (i : Option Nat) :
    (w.link ⟨name, i, .cell d⟩).Free c := by
  refine ⟨fun l hl e => ?_, h.2⟩
  rcases List.mem_append.mp hl with hl | hl
  · exact h.1 l hl e
  · rw [List.mem_singleton.mp hl] at e
    exact hd (congrArg Prod.snd e)

theorem Ties.Free.pin {c d : Nat} (h : w.Free c) (hd : d ≠ c) (x : Value) : (w.pin d x).Free c := by
  refine ⟨h.1, fun p hp e => ?_⟩
  rcases List.mem_cons.mp hp with rfl | hp
  · exact hd e
  · exact h.2 p hp e

theorem Owned.locals_cons (name : String) (names : List String) (ks : Owned) :
    Owned.locals (name :: names) ks = Owned.locals names ((name, false) :: ks) := by
  simp [Owned.locals]

/-- Names and the values in new cells become variables. -/
theorem cells_link {names : List String} {σ τ : Shape} (hd : Declares names σ τ) {ds : List Nat}
    {xs ys : List Value} {earlier : List String} (hb : Bonds w s t)
    (h : Inside w P outer i (earlier :: sc) ks σ.locals cs) (hσ : cs.length = σ.height)
    (hfree : ∀ c ∈ ds, w.Free c) (hnodup : ds.Nodup) (hn : xs.length = names.length)
    (hshown : ds.map t.store.content? = ys.map some) (hx : w.SendsAll xs ys) :
    ∃ w' i' s', Locals.cells i (names.zip xs) s = .ok i' s' ∧ w.Le w' ∧ Bonds w' s' t ∧
      s'.depth = s.depth ∧
      Inside w' P outer i' ((names.reverse ++ earlier) :: sc) (ks.locals names) τ.locals (cs ++ ds) ∧
      (cs ++ ds).length = τ.height := by
  induction hd generalizing w i s cs ks earlier ds xs ys with
  | nil =>
    obtain rfl := List.length_eq_zero_iff.mp hn
    obtain rfl : ys = [] := List.length_eq_zero_iff.mp hx.length
    obtain rfl : ds = [] := List.map_eq_nil_iff.mp hshown
    exact ⟨w, i, s, rfl, .refl w, hb, rfl, by simpa [Owned.locals] using h, by simpa using hσ⟩
  | @cons names σ τ v hs hd ih =>
    match xs, hn with
    | x :: xs, hn =>
    obtain ⟨y, ys, rfl, hxy, hxs⟩ := hx.uncons
    match ds, hshown with
    | c :: ds, hshown =>
    rw [List.map_cons, List.map_cons, List.cons.injEq] at hshown
    obtain ⟨hc, hnotin⟩ : w.Free c ∧ c ∉ ds :=
      ⟨hfree c List.mem_cons_self, (List.nodup_cons.mp hnodup).1⟩
    obtain ⟨s₁, hrun, hb₁, hd₁⟩ := hb.cell_link v.name i hc hshown.1 hxy
    have hle := w.le_link ⟨v.name, i, .cell c⟩
    have hin := h.bind (v := v) (b := false) (p := .cell c) (by rw [hs, hσ]) (.inl rfl)
    obtain ⟨w', i', s', hcells, hw', hb', hd', hin', hlen⟩ := ih hb₁ hin
      (by simpa [Shape.bind] using hσ)
      (fun d hd => (hfree d (List.mem_cons_of_mem c hd)).link (by rintro rfl; exact hnotin hd) _ _)
      (List.nodup_cons.mp hnodup).2 (by simpa using hn) hshown.2 (hxs.mono hle)
    refine ⟨w', i', s', ?_, hle.trans hw', hb', hd'.trans hd₁, ?_, ?_⟩
    · rw [List.zip_cons_cons]
      show (Locals.cell i v.name x >>= fun j => Locals.cells j (names.zip xs)) s = _
      rw [Act.bind_apply, hrun]
      exact hcells
    · rw [Owned.locals_cons, List.reverse_cons, List.append_assoc]
      rwa [List.append_assoc] at hin'
    · rwa [List.append_assoc] at hlen

/-! ## Variables of both -/

section Access

variable {name : String} {b : Binding} {k : Nat} (entry : Nat) {near far : Opcode} {vs : List Value}

theorem Inside.find (h : Inside w P outer i sc ks locals cs) (hb : sc.find? name = some b)
    (ha : Accesses P.proto outer locals name near far k) : ∃ c n, w.Finds i ks name c ∧
      (P.proto.Has k near n ∧ cs[n]? = some c ∨ P.proto.Has k far n ∧ P.captured[n]? = some c) := by
  cases ha with
  | slot hf hi =>
    obtain ⟨c, hc, hfind⟩ := h.near hb hf
    exact ⟨c, _, hfind, .inl ⟨hi, hc⟩⟩
  | capture hf hc hn hi =>
    obtain ⟨c, hc', hfind⟩ := h.far hb hf hc hn
    exact ⟨c, _, hfind, .inr ⟨hi, hc'⟩⟩

theorem named?_of_seek (h : Bonds w s t) {d : Nat} (hs : Seek w.links name i d) {x : Value}
    (hx : s.store.slot? d 1 = some x) : s.store.named? name i = some x := by
  rw [Store.named?, hs.found h, Option.bind_some, hx]

theorem Inside.read (h : Inside w P outer i sc ks locals cs) (hb : sc.find? name = some b)
    (ha : Accesses P.proto outer locals name .getLocal .getUpvalue k) (hat : P.At k cs vs t)
    (hbonds : Bonds w s t) :
    ∃ x y t', s.store.named? name i = some x ∧ w.Sends x y ∧ P.Lands entry (k + 2) cs vs [y] t t t' := by
  obtain ⟨c, n, ⟨d, l, hs, hl, hp⟩, hi⟩ := h.find hb ha
  obtain ⟨x, y, hx, hy, hxy⟩ := hbonds.slot_of_link hl
  have hc : t.store.content? c = some y := by
    rcases hp with hp | ⟨hp, -⟩ <;> rw [hp] at hy <;> exact hy
  have hx := named?_of_seek hbonds hs hx
  rcases hi with ⟨hi, hcell⟩ | ⟨hi, hcell⟩
  · obtain ⟨t', ht⟩ := hat.getLocal entry hi hcell hc
    exact ⟨x, y, t', hx, hxy, ht⟩
  · obtain ⟨t', ht⟩ := hat.getUpvalue entry hi hcell hc
    exact ⟨x, y, t', hx, hxy, ht⟩

/-- The value on top is given to a variable, which is not that of a function itself. -/
theorem Inside.write (h : Inside w P outer i sc ks locals cs) (hb : sc.find? name = some b)
    (hk : ks.owns name = false) (ha : Accesses P.proto outer locals name .setLocal .setUpvalue k)
    {c : Nat} {x y : Value} (hat : P.At k (cs ++ [c]) (vs ++ [y]) t) (hfree : w.Free c)
    (hbonds : Bonds w s t) (hx : w.Sends x y) :
    ∃ d vs' t', s.store.cellOf? name i = some d ∧ P.At (k + 2) (cs ++ [c]) (vs' ++ [y]) t' ∧
      Leads entry 0 t t' ∧ Bonds w { s with store := s.store.setSlot d 1 x } t' ∧
      t'.depth = t.depth := by
  obtain ⟨e, n, ⟨d, l, hs, hl, hp⟩, hi⟩ := h.find hb ha
  have hp : l.place = .cell e := hp.resolve_right fun hown => by rw [hk] at hown; cases hown.2
  obtain ⟨-, u, -, hu, -⟩ := hbonds.slot_of_link hl
  rw [hp] at hu
  have hne : e ≠ c := by
    rintro rfl
    exact hfree.1 l (List.mem_of_getElem? hl) (by rw [hp]; rfl)
  let σ := t.store.setCell e (.closed y)
  -- All cells still have something in them, and that of the value on top has the value.
  have hcontent : ∀ {c' : Nat} {z : Value}, t.store.content? c' = some z →
      σ.content? c' = some (if e = c' then y else z) := fun hz => content?_setCell hz
  have hlen : cs.length = vs.length := by simpa using hat.length
  have hparts := hat.parts hlen
  have htop : t.store.content? c = some y := by simpa using hparts.2
  obtain ⟨vs', hvs'⟩ : ∃ vs' : List Value, cs.map σ.content? = vs'.map some := by
    refine exists_contents fun c' hc' => ?_
    obtain ⟨j, hj⟩ := List.mem_iff_getElem?.mp hc'
    have hat := congrArg (·[j]?) hparts.1
    simp only [List.getElem?_map, hj, Option.map_some] at hat
    cases hz : vs[j]? with
    | none => simp [hz] at hat
    | some z =>
      rw [hz, Option.map_some, Option.some.injEq] at hat
      exact ⟨_, hcontent hat⟩
  have hshown : (cs ++ [c]).map σ.content? = (vs' ++ [y]).map some := by
    rw [List.map_append, List.map_append, hvs', List.map_singleton, hcontent htop, if_neg hne]
    rfl
  obtain ⟨t', ht⟩ : ∃ t', P.Lands entry (k + 2) (cs ++ [c]) (vs' ++ [y]) []
      t { t with store := σ } t' := by
    have hat' : P.At k ((cs ++ [c]) ++ []) ((vs ++ [y]) ++ []) t := by
      rwa [List.append_nil, List.append_nil]
    rcases hi with ⟨hi, hcell⟩ | ⟨hi, hcell⟩
    · have hcell' : (cs ++ [c])[n]? = some e :=
        (List.getElem?_append_left (List.getElem?_eq_some_iff.mp hcell).1).trans hcell
      exact hat'.write entry (by simpa using hlen) rfl rfl hi rfl (.inl ⟨rfl, hcell'⟩) hu hshown
    · exact hat'.write entry (by simpa using hlen) rfl rfl hi rfl (.inr ⟨rfl, hcell⟩) hu hshown
  have hset := hbonds.set hl (fun c' e' => by rw [hp] at e'; cases e') hx
  rw [hp] at hset
  refine ⟨d, vs', t', hs.found hbonds, ?_, ht.steps.leads.weaken (Nat.zero_le _),
    hset.enlarge ht.enlarged, ht.depth⟩
  have := ht.at_
  rwa [Posture.fresh, List.length_nil, List.range'_zero, List.append_nil, List.append_nil] at this

end Access

end TwinLisp.Parity
