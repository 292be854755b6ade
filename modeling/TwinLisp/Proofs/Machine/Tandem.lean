import TwinLisp.Proofs.Machine.Alike

/-! Two actions side by side, each on a state of its own. They end alike: both with values, both with
the same fault, or both without fuel.

* `Act.Joint`: what holds of two outcomes.
* `Act.Tandem`: two actions from related states.
* `Tandem.bind` and so on: a rule for each way to make actions. -/

namespace TwinLisp

namespace Act

variable {ε ζ α β γ δ : Type}

/-- What holds of two outcomes: `Q` of two values; faults are the same, and `R` holds of the states
they leave. -/
def Joint (Q : α → β → State → State → Prop) (R : State → State → Prop) :
    EStateM.Result (Stop ε) State α → EStateM.Result (Stop ε) State β → Prop
  | .ok x s, .ok y t => Q x y s t
  | .error (.raised e) s, .error (.raised e') t => e' = e ∧ R s t
  | .error .exhausted _, .error .exhausted _ => True
  | _, _ => False

/-- What two actions do from states with `P`. -/
def Tandem (P : State → State → Prop) (a : Act ε α) (b : Act ε β)
    (Q : α → β → State → State → Prop) (R : State → State → Prop) : Prop :=
  ∀ s t, P s t → Joint Q R (a s) (b t)

variable {P P' : State → State → Prop} {a : Act ε α} {b : Act ε β}
  {Q Q' : α → β → State → State → Prop} {R R' : State → State → Prop}

@[elab_as_elim]
theorem Joint.elim {C : EStateM.Result (Stop ε) State α → EStateM.Result (Stop ε) State β → Prop}
    {r : EStateM.Result (Stop ε) State α} {q : EStateM.Result (Stop ε) State β} (h : Joint Q R r q)
    (ok : ∀ x y s t, Q x y s t → C (.ok x s) (.ok y t))
    (raised : ∀ e s t, R s t → C (.error (.raised e) s) (.error (.raised e) t))
    (exhausted : ∀ s t, C (.error .exhausted s) (.error .exhausted t)) : C r q := by
  match r, q, h with
  | .ok x s, .ok y t, h => exact ok x y s t h
  | .error (.raised e) s, .error (.raised _) t, ⟨he, h⟩ => exact he ▸ raised e s t h
  | .error .exhausted s, .error .exhausted t, _ => exact exhausted s t

theorem Joint.imp {r : EStateM.Result (Stop ε) State α} {q : EStateM.Result (Stop ε) State β}
    (h : Joint Q R r q) (hQ : ∀ x y s t, Q x y s t → Q' x y s t) (hR : ∀ s t, R s t → R' s t) :
    Joint Q' R' r q :=
  h.elim (fun x y s t h => hQ x y s t h) (fun _ s t h => ⟨rfl, hR s t h⟩) fun _ _ => trivial

theorem Joint.and {r : EStateM.Result (Stop ε) State α} {q : EStateM.Result (Stop ε) State β}
    (h : Joint Q R r q) {Q' : α → State → Prop} {R' : ε → State → Prop} (h' : Post Q' R' r) :
    Joint (fun x y s t => Q' x s ∧ Q x y s t) (fun s t => (∃ e, R' e s) ∧ R s t) r q := by
  revert h'
  exact h.elim (fun _ _ _ _ h h' => ⟨h', h⟩) (fun e _ _ h h' => ⟨rfl, ⟨e, h'⟩, h⟩)
    fun _ _ _ => trivial

namespace Tandem

theorem imp (h : Tandem P a b Q R) (hP : ∀ s t, P' s t → P s t)
    (hQ : ∀ x y s t, Q x y s t → Q' x y s t) (hR : ∀ s t, R s t → R' s t) :
    Tandem P' a b Q' R' := fun s t hs => (h s t (hP s t hs)).imp hQ hR

theorem post (h : Tandem P a b Q R) (hQ : ∀ x y s t, Q x y s t → Q' x y s t) :
    Tandem P a b Q' R := h.imp (fun _ _ hs => hs) hQ fun _ _ hs => hs

theorem pre (h : Tandem P a b Q R) (hP : ∀ s t, P' s t → P s t) : Tandem P' a b Q R :=
  h.imp hP (fun _ _ _ _ hs => hs) fun _ _ hs => hs

theorem along (h : Tandem P a b Q R) {P₁ : State → Prop} {Q₁ : α → State → Prop}
    {R₁ : ε → State → Prop} (h₁ : Meets P₁ a Q₁ R₁) :
    Tandem (fun s t => P₁ s ∧ P s t) a b (fun x y s t => Q₁ x s ∧ Q x y s t)
      fun s t => (∃ e, R₁ e s) ∧ R s t := fun s t hs =>
  (h s t hs.2).and (h₁ s hs.1).2

theorem given {p : Prop} (h : p → Tandem P a b Q R) : Tandem (fun s t => p ∧ P s t) a b Q R :=
  fun s t hs => h hs.1 s t hs.2

theorem bind (h : Tandem P a b Q R) {f : α → Act ε γ} {g : β → Act ε δ}
    {Q' : γ → δ → State → State → Prop} (hf : ∀ x y, Tandem (Q x y) (f x) (g y) Q' R) :
    Tandem P (a >>= f) (b >>= g) Q' R := by
  intro s t hs
  rw [bind_apply, bind_apply]
  exact (h s t hs).elim (fun x y s t h => hf x y s t h) (fun _ _ _ h => ⟨rfl, h⟩) fun _ _ => trivial

theorem pure {x : α} {y : β} (h : ∀ s t, P s t → Q x y s t) :
    Tandem P (Pure.pure x : Act ε α) (Pure.pure y) Q R := h

theorem raise {e : ε} (h : ∀ s t, P s t → R s t) :
    Tandem P (Act.raise e : Act ε α) (Act.raise e : Act ε β) Q R := fun s t hs => ⟨rfl, h s t hs⟩

theorem exhausted : Tandem P (Act.exhausted : Act ε α) (Act.exhausted : Act ε β) Q R :=
  fun _ _ _ => trivial

/-- Both go on with the same value. -/
theorem bind_same {Q : α → State → State → Prop} {b : Act ε α}
    (h : Tandem P a b (fun x y s t => y = x ∧ Q x s t) R) {f : α → Act ε γ} {g : α → Act ε δ}
    {Q' : γ → δ → State → State → Prop} (hf : ∀ x, Tandem (Q x) (f x) (g x) Q' R) :
    Tandem P (a >>= f) (b >>= g) Q' R :=
  h.bind fun x y s t hs => by
    obtain ⟨rfl, hs⟩ := hs
    exact hf _ s t hs

theorem ask {f : State → α} {g : State → β} (h : ∀ s t, P s t → Q (f s) (g t) s t) :
    Tandem P (Act.ask f : Act ε α) (Act.ask g) Q R := h

theorem askStore {f : Store → α} {g : Store → β} (h : ∀ s t, P s t → Q (f s.store) (g t.store) s t) :
    Tandem P (Act.askStore f : Act ε α) (Act.askStore g) Q R := h

theorem update {f g : State → State} {Q : Unit → Unit → State → State → Prop}
    (h : ∀ s t, P s t → Q () () (f s) (g t)) :
    Tandem P (Act.update f : Act ε Unit) (Act.update g) Q R := h

theorem updateStore {f g : Store → Store} {Q : Unit → Unit → State → State → Prop}
    (h : ∀ s t, P s t → Q () () { s with store := f s.store } { t with store := g t.store }) :
    Tandem P (Act.updateStore f : Act ε Unit) (Act.updateStore g) Q R := h

theorem onStore {f : Store → α × Store} {g : Store → β × Store}
    (h : ∀ s t, P s t → Q (f s.store).1 (g t.store).1 { s with store := (f s.store).2 }
      { t with store := (g t.store).2 }) :
    Tandem P (Act.onStore f : Act ε α) (Act.onStore g) Q R := h

theorem mapFault {f : ε → ζ} (h : Tandem P a b Q R) :
    Tandem P (Act.mapFault f a) (Act.mapFault f b) Q R := by
  intro s t hs
  simp only [Act.mapFault]
  exact (h s t hs).elim (fun _ _ _ _ h => h) (fun _ _ _ h => ⟨rfl, h⟩) fun _ _ => trivial

theorem onStop {f g : State → State} (h : Tandem P a b Q fun s t => R (f s) (g t)) :
    Tandem P (Act.onStop a f) (Act.onStop b g) Q R := by
  intro s t hs
  simp only [Act.onStop]
  exact (h s t hs).elim (fun _ _ _ _ h => h) (fun _ _ _ h => ⟨rfl, h⟩) fun _ _ => trivial

theorem ite {c : Prop} [Decidable c] {a' : Act ε α} {b' : Act ε β} (h : c → Tandem P a b Q R)
    (h' : ¬c → Tandem P a' b' Q R) :
    Tandem P (if c then a else a') (if c then b else b') Q R := by
  by_cases hc : c
  · simpa only [if_pos hc] using h hc
  · simpa only [if_neg hc] using h' hc

end Tandem

end Act

namespace Run

open Act

variable {α β : Type} {P : State → State → Prop} {Q : α → β → State → State → Prop}
  {R : State → State → Prop}

theorem fail_tandem {f : RuntimeFault} (h : ∀ s t, P s t → R s t) :
    Tandem P (fail f : Run α) (fail f : Run β) Q R := .raise h

theorem guard_tandem {c : Prop} [Decidable c] {f : RuntimeFault} {k : Unit → Run α}
    {l : Unit → Run β} (h : c → ∀ s t, P s t → R s t)
    (hk : ¬c → Tandem P (k ()) (l ()) Q R) :
    Tandem P (if c then fail f >>= k else k ()) (if c then fail f >>= l else l ()) Q R := by
  by_cases hc : c
  · simp only [if_pos hc]
    have hf : Tandem P (fail f : Run Unit) (fail f : Run Unit) (fun _ _ _ _ => False) R :=
      fail_tandem (h hc)
    exact hf.bind fun _ _ _ _ hs => hs.elim
  · simp only [if_neg hc]
    exact hk hc

theorem ofFault_tandem {r : Except RuntimeFault α} {Q : α → α → State → State → Prop}
    (h : ∀ x s t, P s t → Q x x s t) (hR : ∀ s t, P s t → R s t) :
    Tandem P (ofFault r) (ofFault r) Q R := by
  cases r with
  | ok x => exact .pure (h x)
  | error f => exact .raise hR

end Run

end TwinLisp
