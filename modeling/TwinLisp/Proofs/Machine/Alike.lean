import TwinLisp.Proofs.Coupling.Basic

/-! Two actions that do the same from certain states, and what holds afterwards. The first may stand
for an interpreter that runs by itself, the second for one whose calls or instructions were replaced
by others that do the same there.

* `Act.Post`: what holds of an outcome.
* `Act.Alike`: two actions with the same outcome; `Act.Meets` is the case of a single action.
* `Alike.bind` and so on: a rule for each way to make actions. -/

namespace TwinLisp

namespace Act

variable {ε ζ α β : Type}

/-- What holds of an outcome: `Q` of a value, `R` of a fault. -/
def Post (Q : α → State → Prop) (R : ε → State → Prop) : EStateM.Result (Stop ε) State α → Prop
  | .ok x s => Q x s
  | .error (.raised e) s => R e s
  | .error .exhausted _ => True

theorem Post.imp {Q Q' : α → State → Prop} {R R' : ε → State → Prop}
    {r : EStateM.Result (Stop ε) State α} (h : Post Q R r) (hQ : ∀ x s, Q x s → Q' x s)
    (hR : ∀ e s, R e s → R' e s) : Post Q' R' r := by
  match r, h with
  | .ok x s, h => exact hQ x s h
  | .error (.raised e) s, h => exact hR e s h
  | .error .exhausted s, _ => trivial

theorem Post.and {Q Q' : α → State → Prop} {R R' : ε → State → Prop}
    {r : EStateM.Result (Stop ε) State α} (h : Post Q R r) (h' : Post Q' R' r) :
    Post (fun x s => Q x s ∧ Q' x s) (fun e s => R e s ∧ R' e s) r := by
  cases r with
  | ok x s => exact ⟨h, h'⟩
  | error e s =>
    cases e with
    | raised e => exact ⟨h, h'⟩
    | exhausted => trivial

/-- Both actions do the same from states with `P`. -/
def Alike (P : State → Prop) (a b : Act ε α) (Q : α → State → Prop) (R : ε → State → Prop) :
    Prop := ∀ s, P s → b s = a s ∧ Post Q R (a s)

/-- What an action does from states with `P`. -/
abbrev Meets (P : State → Prop) (a : Act ε α) (Q : α → State → Prop) (R : ε → State → Prop) :
    Prop := Alike P a a Q R

variable {P P' : State → Prop} {a b : Act ε α} {Q Q' : α → State → Prop} {R R' : ε → State → Prop}

theorem Alike.imp (h : Alike P a b Q R) (hP : ∀ s, P' s → P s) (hQ : ∀ x s, Q x s → Q' x s)
    (hR : ∀ e s, R e s → R' e s) : Alike P' a b Q' R' := fun s hs =>
  ⟨(h s (hP s hs)).1, (h s (hP s hs)).2.imp hQ hR⟩

theorem Alike.post (h : Alike P a b Q R) (hQ : ∀ x s, Q x s → Q' x s) : Alike P a b Q' R :=
  h.imp (fun _ hs => hs) hQ fun _ _ hs => hs

theorem Alike.pre (h : Alike P a b Q R) (hP : ∀ s, P' s → P s) : Alike P' a b Q R :=
  h.imp hP (fun _ _ hs => hs) fun _ _ hs => hs

theorem Meets.and (h : Meets P a Q R) (h' : Meets P' a Q' R') :
    Meets (fun s => P s ∧ P' s) a (fun x s => Q x s ∧ Q' x s) (fun e s => R e s ∧ R' e s) :=
  fun s hs => ⟨rfl, (h s hs.1).2.and (h' s hs.2).2⟩

theorem Alike.given {p : Prop} (h : p → Alike P a b Q R) : Alike (fun s => p ∧ P s) a b Q R :=
  fun s hs => h hs.1 s hs.2

theorem Alike.bind (h : Alike P a b Q R) {f g : α → Act ε β} {Q' : β → State → Prop}
    (hf : ∀ x, Alike (Q x) (f x) (g x) Q' R) : Alike P (a >>= f) (b >>= g) Q' R := by
  intro s hs
  obtain ⟨e, hr⟩ := h s hs
  rw [bind_apply, bind_apply, e]
  match ha : a s with
  | .ok x t =>
    rw [ha] at hr
    exact hf x t hr
  | .error (.raised e) t =>
    rw [ha] at hr
    exact ⟨rfl, hr⟩
  | .error .exhausted t => exact ⟨rfl, trivial⟩

theorem Alike.pure {x : α} (h : ∀ s, P s → Q x s) :
    Alike P (Pure.pure x : Act ε α) (Pure.pure x) Q R := fun s hs => ⟨rfl, h s hs⟩

theorem Alike.raise {e : ε} (h : ∀ s, P s → R e s) :
    Alike P (Act.raise e : Act ε α) (Act.raise e) Q R := fun s hs => ⟨rfl, h s hs⟩

theorem Alike.exhausted : Alike P (Act.exhausted : Act ε α) Act.exhausted Q R :=
  fun _ _ => ⟨rfl, trivial⟩

theorem Alike.ask {f : State → α} (h : ∀ s, P s → Q (f s) s) :
    Alike P (Act.ask f : Act ε α) (Act.ask f) Q R := fun s hs => ⟨rfl, h s hs⟩

theorem Alike.askStore {f : Store → α} (h : ∀ s, P s → Q (f s.store) s) :
    Alike P (Act.askStore f : Act ε α) (Act.askStore f) Q R := fun s hs => ⟨rfl, h s hs⟩

theorem Alike.update {f : State → State} {Q : Unit → State → Prop} (h : ∀ s, P s → Q () (f s)) :
    Alike P (Act.update f : Act ε Unit) (Act.update f) Q R := fun s hs => ⟨rfl, h s hs⟩

theorem Alike.onStore {f : Store → α × Store}
    (h : ∀ s, P s → Q (f s.store).1 { s with store := (f s.store).2 }) :
    Alike P (Act.onStore f : Act ε α) (Act.onStore f) Q R := fun s hs => ⟨rfl, h s hs⟩

theorem Alike.updateStore {f : Store → Store} {Q : Unit → State → Prop}
    (h : ∀ s, P s → Q () { s with store := f s.store }) :
    Alike P (Act.updateStore f : Act ε Unit) (Act.updateStore f) Q R := fun s hs => ⟨rfl, h s hs⟩

theorem Alike.ite {c : Prop} [Decidable c] {a' b' : Act ε α} (h : c → Alike P a b Q R)
    (h' : ¬c → Alike P a' b' Q R) :
    Alike P (if c then a else a') (if c then b else b') Q R := by
  by_cases hc : c
  · simpa only [if_pos hc] using h hc
  · simpa only [if_neg hc] using h' hc

theorem Alike.mapFault {f : ε → ζ} {R' : ζ → State → Prop}
    (h : Alike P a b Q fun e s => R' (f e) s) :
    Alike P (Act.mapFault f a) (Act.mapFault f b) Q R' := by
  intro s hs
  obtain ⟨e, hr⟩ := h s hs
  refine ⟨by simp only [Act.mapFault, e], ?_⟩
  simp only [Act.mapFault]
  generalize a s = r at hr
  cases r with
  | ok x t => exact hr
  | error e t =>
    cases e with
    | raised e => exact hr
    | exhausted => trivial

theorem Alike.onStop {change : State → State} (h : Alike P a b Q fun e s => R e (change s)) :
    Alike P (Act.onStop a change) (Act.onStop b change) Q R := by
  intro s hs
  obtain ⟨e, hr⟩ := h s hs
  refine ⟨by simp only [Act.onStop, e], ?_⟩
  simp only [Act.onStop]
  generalize a s = r at hr
  cases r with
  | ok x t => exact hr
  | error e t =>
    cases e with
    | raised e => exact hr
    | exhausted => trivial

end Act

namespace Run

open Act

variable {α : Type} {P : State → Prop} {Q : α → State → Prop} {R : RuntimeError → State → Prop}

theorem fail_meets {f : RuntimeFault} (h : ∀ s, P s → R f.bare s) : Meets P (fail f : Run α) Q R :=
  .raise h

theorem guard_alike {β : Type} {Q : β → State → Prop} {c : Prop} [Decidable c] {f : RuntimeFault}
    {k k' : Unit → Run β} (h : c → ∀ s, P s → R f.bare s)
    (hk : ¬c → Alike P (k ()) (k' ()) Q R) :
    Alike P (if c then fail f >>= k else k ()) (if c then fail f >>= k' else k' ()) Q R := by
  by_cases hc : c
  · simp only [if_pos hc]
    exact Alike.bind (fail_meets (Q := fun _ _ => False) (h hc)) fun _ _ hs => hs.elim
  · simp only [if_neg hc]
    exact hk hc

theorem ofFault_meets {r : Except RuntimeFault α} (h : ∀ s x, P s → r = .ok x → Q x s)
    (h' : ∀ s f, P s → r = .error f → R f.bare s) : Meets P (ofFault r) Q R := by
  cases r with
  | ok x => exact .pure fun s hs => h s x hs rfl
  | error f => exact .raise fun s hs => h' s f hs rfl

end Run

end TwinLisp
