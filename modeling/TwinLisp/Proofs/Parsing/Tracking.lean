import TwinLisp.Proofs.Parsing.Desk
import TwinLisp.Proofs.Parsing.Kept

/-! Actions at a desk beside actions of the parser, which is given the scopes and a number of further
expansions. They have the same outcome; the stack is left as it was found, also by a fault, and so is the
count of expansions, which never passes the limit.

* `Desk.Progress`: from one point of a parse to a later one.
* `Desk.Stuck`: the macro of the program that was called last does not return.
* `Desk.Tracks`, `Desk.Follows`: the relation of actions; `Follows.inside`, `Follows.expanding` and so on
  are its rules. -/

namespace TwinLisp.Desk

variable {α β γ δ : Type}

/-! ## Progress -/

/-- From one point of a parse to a later one at which as many expansions are under way. As long as no macro
of the program is called, the Vars are kept. -/
structure Progress (q r : Desk × State) : Prop where
  nested : r.1.nested = q.1.nested
  deepest : q.1.deepest ≤ maxExpansions → r.1.deepest ≤ maxExpansions
  called : q.1.called <:+ r.1.called
  marked : q.1.marked <:+ r.1.marked
  kept : r.1.called = q.1.called → q.2.Kept r.1.marked r.2

/-- The last macro that was called, after the desk was as it was before, does not return. -/
def Stuck (c : Caller) (before after : Desk) : Prop :=
  ∃ m older s, after.called = m :: older ∧ before.called <:+ older ∧
    c m.f m.args m.state = .error .exhausted s

variable {c : Caller} {q r : Desk × State} {d d' : Desk} {s t : State}

namespace Progress

theorem of_kept (h : s.Kept [] t) : Progress (d, s) (d, t) :=
  ⟨rfl, id, List.suffix_rfl, List.suffix_rfl, fun _ => h.mono (List.nil_subset _)⟩

theorem trans {u : Desk × State} (h : Progress q r) (h' : Progress r u) : Progress q u where
  nested := h'.nested.trans h.nested
  deepest hd := h'.deepest (h.deepest hd)
  called := h.called.trans h'.called
  marked := h.marked.trans h'.marked
  kept he := by
    -- Nothing was called on the way either.
    have hr : r.1.called = q.1.called :=
      (h'.called.eq_of_length_le (by rw [he]; exact h.called.length_le)).trans he
    exact ((h.kept hr).mono h'.marked.subset).trans (h'.kept (he.trans hr.symm))

end Progress

theorem Stuck.after (h : Stuck c r.1 d) (hp : Progress q r) : Stuck c q.1 d := by
  obtain ⟨m, older, s, hd, hr, hm⟩ := h
  exact ⟨m, older, s, hd, hp.called.trans hr, hm⟩

/-! ## Actions side by side -/

/-- Outcomes of the two actions: the same, with related values or the same fault. -/
inductive Agrees (c : Caller) (q : Desk × State) (R : α → β → Scopes → Prop) (E : Scopes → Prop) :
    EStateM.Result (Stop ParseError) (Desk × State) α → EStateM.Result (Stop ParseError) State β → Prop
  | ok {x : α} {y : β} {d : Desk} {t : State} (hp : Progress q (d, t)) (hR : R x y d.scopes) :
    Agrees c q R E (.ok x (d, t)) (.ok y t)
  | raised {e : ParseError} {d : Desk} {t : State} (hp : Progress q (d, t)) (hE : E d.scopes) :
    Agrees c q R E (.error (.raised e) (d, t)) (.error (.raised e) t)
  | exhausted {d : Desk} {t : State} (hp : Progress q (d, t)) (hE : E d.scopes) (hs : Stuck c q.1 d) :
    Agrees c q R E (.error .exhausted (d, t)) (.error .exhausted t)

/-- An action at a desk does what the parser does in certain scopes, with a number of expansions left. Of a
fault it is said what scopes it leaves. -/
def Tracks (c : Caller) (n : Nat) (sc : Scopes) (R : α → β → Scopes → Prop) (E : Scopes → Prop)
    (a : Act α) (b : Parse β) : Prop :=
  ∀ d s, d.scopes = sc → d.nested + n = maxExpansions → Agrees c (d, s) R E (a (d, s)) (b s)

/-- The same value, in the same scopes as before. -/
def same (sc : Scopes) (x y : α) (k : Scopes) : Prop := y = x ∧ k = sc

/-- Both do the same, and the stack is left as it was found. -/
def Follows (c : Caller) (n : Nat) (sc : Scopes) (a : Act α) (b : Parse α) : Prop :=
  Tracks c n sc (same sc) (· = sc) a b

variable {n : Nat} {sc : Scopes} {R : α → β → Scopes → Prop} {E E' : Scopes → Prop} {a : Act α}
  {b : Parse β}

theorem Agrees.after {R' : γ → δ → Scopes → Prop} {ra rb} (hp : Progress q r)
    (h : Agrees c r R' E ra rb) : Agrees c q R' E ra rb := by
  cases h with
  | ok h hR => exact .ok (hp.trans h) hR
  | raised h hE => exact .raised (hp.trans h) hE
  | exhausted h hE hs => exact .exhausted (hp.trans h) hE (hs.after hp)

theorem Act.bind_apply (a : Act α) (f : α → Act γ) (q : Desk × State) :
    (a >>= f) q = match a q with
      | .ok x q => f x q
      | .error e q => .error e q := by
  simp only [bind, EStateM.bind]
  cases a q <;> rfl

namespace Tracks

theorem imp {R' : α → β → Scopes → Prop} (h : Tracks c n sc R E a b) (hR : ∀ x y k, R x y k → R' x y k)
    (hE : ∀ k, E k → E' k) : Tracks c n sc R' E' a b := by
  intro d s hd hn
  have ha := h d s hd hn
  generalize a (d, s) = ra at ha ⊢
  generalize b s = rb at ha ⊢
  cases ha with
  | ok h hk => exact .ok h (hR _ _ _ hk)
  | raised h hk => exact .raised h (hE _ hk)
  | exhausted h hk hs => exact .exhausted h (hE _ hk) hs

theorem pure {x : α} {y : β} (h : R x y sc) :
    Tracks c n sc R E (Pure.pure x : Act α) (Pure.pure y : Parse β) := by
  intro d s hd _
  subst hd
  exact .ok (.of_kept (.refl s)) h

theorem bind {R' : γ → δ → Scopes → Prop} {f : α → Act γ} {g : β → Parse δ}
    (h : Tracks c n sc R E a b) (hf : ∀ x y k, R x y k → Tracks c n k R' E (f x) (g y)) :
    Tracks c n sc R' E (a >>= f) (b >>= g) := by
  intro d s hd hn
  have ha := h d s hd hn
  rw [Act.bind_apply, TwinLisp.Act.bind_apply]
  generalize a (d, s) = ra at ha ⊢
  generalize b s = rb at ha ⊢
  cases ha with
  | ok hp hR => exact (hf _ _ _ hR _ _ rfl (by rw [hp.nested]; exact hn)).after hp
  | raised hp hE => exact .raised hp hE
  | exhausted hp hE hs => exact .exhausted hp hE hs

theorem ask {f : Scopes → Act α} (h : Tracks c n sc R E (f sc) b) :
    Tracks c n sc R E (Act.ask Desk.scopes >>= f) b := by
  intro d s hd hn
  subst hd
  exact h d s rfl hn

theorem declare {name : String} (h : Tracks c n (sc.declare name) R E a b) :
    Tracks c n sc R E (do Act.declare name; a) b := by
  intro d s hd hn
  subst hd
  have hp : Progress (d, s) ({ d with scopes := d.scopes.declare name }, s) :=
    ⟨rfl, id, List.suffix_rfl, List.suffix_rfl, fun _ => .refl s⟩
  exact (h { d with scopes := d.scopes.declare name } s rfl hn).after hp

/-- What is done inside a further scope may change that scope, which is then popped. -/
theorem inside {names : List String} {Q : α → β → Scopes → Prop}
    (h : Tracks c n (names :: sc) Q (fun k => k.tail = sc) a b)
    (hR : ∀ x y k, Q x y k → k.tail = sc ∧ R x y sc) :
    Tracks c n sc R (· = sc) (Act.inside names a) b := by
  intro d s hd hn
  subst hd
  have ha := h { d with scopes := names :: d.scopes } s rfl hn
  have happly : Act.inside names a (d, s) =
      Act.ending a (fun d => { d with scopes := d.scopes.tail })
        ({ d with scopes := names :: d.scopes }, s) := rfl
  rw [happly, Act.ending]
  generalize a ({ d with scopes := names :: d.scopes }, s) = ra at ha ⊢
  generalize b s = rb at ha ⊢
  cases ha with
  | @ok x y d' t hp hk =>
    obtain ⟨htail, hr⟩ := hR x y _ hk
    exact .ok ⟨hp.nested, hp.deepest, hp.called, hp.marked, hp.kept⟩ (htail ▸ hr)
  | raised hp hk => exact .raised ⟨hp.nested, hp.deepest, hp.called, hp.marked, hp.kept⟩ hk
  | exhausted hp hk hs =>
    exact .exhausted ⟨hp.nested, hp.deepest, hp.called, hp.marked, hp.kept⟩ hk hs

end Tracks

/-! ## Rules -/

namespace Follows

theorem pure (x : α) : Follows c n sc (Pure.pure x : Act α) (Pure.pure x : Parse α) :=
  Tracks.pure ⟨rfl, rfl⟩

theorem ask {b : Parse α} {f : Scopes → Act α} (h : Follows c n sc (f sc) b) :
    Follows c n sc (Act.ask Desk.scopes >>= f) b := Tracks.ask h

theorem lift {b : Parse α} (h : Act.Gentle b) : Follows c n sc (Act.lift b) b := by
  intro d s hd _
  have hb := h s
  unfold Act.lift
  dsimp only
  generalize b s = rb at hb ⊢
  cases hb with
  | ok ht => exact .ok (.of_kept ht) ⟨rfl, hd⟩
  | raised ht => exact .raised (.of_kept ht) hd

variable {b : Parse α}

theorem next {R : γ → δ → Scopes → Prop} {f : α → Act γ} {g : α → Parse δ} (h : Follows c n sc a b)
    (hE : E sc) (hf : ∀ x, Tracks c n sc R E (f x) (g x)) :
    Tracks c n sc R E (a >>= f) (b >>= g) := by
  refine Tracks.bind (Tracks.imp h (fun _ _ _ => id) fun k hk => hk ▸ hE) ?_
  intro x y k hk
  obtain ⟨rfl, rfl⟩ := hk
  exact hf y

theorem bind {f : α → Act γ} {g : α → Parse γ} (h : Follows c n sc a b)
    (hf : ∀ x, Follows c n sc (f x) (g x)) : Follows c n sc (a >>= f) (b >>= g) :=
  h.next rfl hf

theorem bind_pure (h : Follows c n sc a b) (f : α → γ) :
    Follows c n sc (do return f (← a)) (do return f (← b)) := h.bind fun x => .pure (f x)

theorem raise_bind (e : ParseError) (f : α → Act γ) (g : α → Parse γ) :
    Follows c n sc (Act.lift (TwinLisp.Act.raise e) >>= f) (TwinLisp.Act.raise e >>= g) :=
  fun _ s hd _ => .raised (.of_kept (.refl s)) hd

theorem guard {p : Prop} [Decidable p] {text : String} {span : Span} {f : Unit → Act α}
    {g : Unit → Parse α} (h : Follows c n sc (f ()) (g ())) :
    Follows c n sc (if p then Act.lift (Parse.fail text span) >>= f else f ())
      (if p then Parse.fail text span >>= g else g ()) := by
  split
  · exact raise_bind _ f g
  · exact h

theorem inside {names : List String} (h : Follows c n (names :: sc) a b) :
    Follows c n sc (Act.inside names a) b := by
  refine Tracks.inside (Tracks.imp h (fun _ _ _ => id) fun k hk => by rw [hk]; rfl) ?_
  intro x y k hk
  exact ⟨by rw [hk.2]; rfl, hk.1, rfl⟩

theorem binding {ba : Act γ} {bb : Parse (γ × Scopes)} {f : γ → Act δ} {g : γ → Scopes → Parse δ}
    (h : Tracks c n ([] :: sc) (fun x r k => r = (x, k) ∧ k.tail = sc) (fun k => k.tail = sc) ba bb)
    (hf : ∀ x k, Follows c n k (f x) (g x k)) (make : γ → δ → α) :
    Follows c n sc (Act.inside [] do
      let x ← ba
      return make x (← f x)) (do
        let r ← bb
        return make r.1 (← g r.1 r.2)) := by
  refine Tracks.inside (Q := fun x y k => y = x ∧ k.tail = sc) (h.bind fun x r k hr => ?_)
    fun x y k hk => ⟨hk.2, hk.1, rfl⟩
  obtain ⟨rfl, htail⟩ := hr
  refine Tracks.imp ((hf x k).bind_pure (make x)) (fun x y k' hk => ?_) fun k' hk => ?_
  · exact ⟨hk.1, by rw [hk.2, htail]⟩
  · rw [hk, htail]

theorem mark (v : Var) :
    Follows c n sc (Act.mark v) (TwinLisp.Act.updateStore (Store.setMacro v true)) := by
  intro d s hd _
  have hp : Progress (d, s)
      ({ d with marked := v :: d.marked }, { s with store := s.store.setMacro v true }) :=
    ⟨rfl, id, List.suffix_rfl, List.suffix_cons v d.marked, fun _ => .setMacro v List.mem_cons_self s⟩
  exact .ok hp ⟨rfl, hd⟩

theorem expanding_none (place : Span) (a : Act α) :
    Follows c 0 sc (Act.expanding place a) (Parse.fail "Macro expansion too deep" place) := by
  intro d s hd hn
  have hlim : maxExpansions ≤ d.nested := Nat.le_of_eq hn.symm
  have happly : Act.expanding place a (d, s) =
      .error (.raised ⟨.general "Macro expansion too deep", place⟩) (d, s) := by
    unfold Act.expanding
    rw [Act.bind_apply]
    simp only [Act.ask, if_pos hlim]
    rfl
  rw [happly]
  exact .raised (.of_kept (.refl s)) hd

/-- An expansion leaves one less for those within it. -/
theorem expanding (h : Follows c n sc a b) (place : Span) :
    Follows c (n + 1) sc (Act.expanding place a) b := by
  intro d s hd hn
  have hlim : ¬ maxExpansions ≤ d.nested := by omega
  have happly : Act.expanding place a (d, s) =
      Act.ending a (fun d => { d with nested := d.nested - 1 })
        ({ d with nested := d.nested + 1, deepest := max d.deepest (d.nested + 1) }, s) := by
    unfold Act.expanding
    rw [Act.bind_apply]
    simp only [Act.ask, if_neg hlim]
    rfl
  have ha := h { d with nested := d.nested + 1, deepest := max d.deepest (d.nested + 1) } s hd
    (by dsimp only; omega)
  rw [happly, Act.ending]
  generalize a ({ d with nested := d.nested + 1, deepest := max d.deepest (d.nested + 1) }, s) = ra
    at ha ⊢
  generalize b s = rb at ha ⊢
  have hback : ∀ {d' t}, Progress
      ({ d with nested := d.nested + 1, deepest := max d.deepest (d.nested + 1) }, s) (d', t) →
      Progress (d, s) ({ d' with nested := d'.nested - 1 }, t) := by
    intro d' t hp
    have hnested : d'.nested = d.nested + 1 := hp.nested
    refine ⟨?_, fun hdeep => hp.deepest ?_, hp.called, hp.marked, hp.kept⟩
    · dsimp only
      omega
    · dsimp only at hdeep ⊢
      omega
  cases ha with
  | ok hp hk => exact .ok (hback hp) hk
  | raised hp hk => exact .raised (hback hp) hk
  | exhausted hp hk hs => exact .exhausted (hback hp) hk hs

/-- A macro of the program is called, and its call is recorded. -/
theorem expandUser (f : Value) (args : List Form) (span : Span) :
    Follows c n sc (Act.expandUser c f args span)
      (TwinLisp.Act.mapFault ParseError.ofExpansion (Macro.expandUser c f args span)) := by
  intro d s hd _
  let m : MacroCall := ⟨f, Form.toValues args, s⟩
  -- Whatever becomes of the Vars, a macro has been called.
  have hp : ∀ t, Progress (d, s) ({ d with called := m :: d.called }, t) := fun t =>
    ⟨rfl, id, List.suffix_cons m d.called, List.suffix_rfl, fun he => absurd he (List.cons_ne_self m _)⟩
  have happly : Act.expandUser c f args span (d, s) =
      Act.lift (TwinLisp.Act.mapFault ParseError.ofExpansion (Macro.expandUser c f args span))
        ({ d with called := m :: d.called }, s) := rfl
  have hlift : ∀ {b : Parse Form} {e d t}, b s = .error e t → Act.lift b (d, s) = .error e (d, t) := by
    intro b e d t hb
    rw [Act.lift, hb]
  rw [happly]
  cases hc : c f (Form.toValues args) s with
  | ok v t =>
    cases hv : Form.ofValue span v with
    | ok g =>
      have hb : TwinLisp.Act.mapFault ParseError.ofExpansion (Macro.expandUser c f args span) s =
          .ok g t := by
        simp only [TwinLisp.Act.mapFault, Macro.expandUser, TwinLisp.Act.bind_apply,
          TwinLisp.Act.within, hc, hv]
        rfl
      rw [Act.lift, hb]
      exact .ok (hp t) ⟨rfl, hd⟩
    | error e =>
      have hb : TwinLisp.Act.mapFault ParseError.ofExpansion (Macro.expandUser c f args span) s =
          .error (.raised (.ofExpansion e)) t := by
        simp only [TwinLisp.Act.mapFault, Macro.expandUser, TwinLisp.Act.bind_apply,
          TwinLisp.Act.within, hc, hv]
        rfl
      rw [hlift hb, hb]
      exact .raised (hp t) hd
  | error e t =>
    cases e with
    | raised e =>
      have hb : TwinLisp.Act.mapFault ParseError.ofExpansion (Macro.expandUser c f args span) s =
          .error (.raised (.ofExpansion (e.within span))) t := by
        simp only [TwinLisp.Act.mapFault, Macro.expandUser, TwinLisp.Act.bind_apply,
          TwinLisp.Act.within, hc]
      rw [hlift hb, hb]
      exact .raised (hp t) hd
    | exhausted =>
      have hb : TwinLisp.Act.mapFault ParseError.ofExpansion (Macro.expandUser c f args span) s =
          .error .exhausted t := by
        simp only [TwinLisp.Act.mapFault, Macro.expandUser, TwinLisp.Act.bind_apply,
          TwinLisp.Act.within, hc]
      rw [hlift hb, hb]
      exact .exhausted (hp t) hd ⟨m, d.called, t, rfl, List.suffix_rfl, hc⟩

end Follows

end TwinLisp.Desk
