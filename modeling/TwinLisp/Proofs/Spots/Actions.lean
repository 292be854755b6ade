import TwinLisp.Eval.Engine
import TwinLisp.Proofs.Machine.Blind
import TwinLisp.Proofs.Spots.Programs

/-! Actions up to byte offsets. An interpreter whose functions have lost the offsets of their places
does the same as the one that has them, and raises its faults at the same lines and columns.

* `View.spots`, `State.spots`: interpreted functions without offsets.
* `Located.SameSpot`: faults that differ in offsets at most.
* `Act.Spots`: what an action becomes without offsets, with a rule for each way to make actions. -/

namespace TwinLisp

/-! ## States and faults -/

/-- The function with lines and columns for the places in its literal. -/
def Function.spots (f : Function) : Function := ⟨f.literal.spots, f.frame⟩

/-- Interpreted functions without offsets. -/
def View.spots : View where
  functions fs := fs.map Function.spots

/-- The state whose interpreted functions have no offsets. -/
abbrev State.spots (s : State) : State := s.seen .spots

namespace Located

variable {κ : Type} {e e' : Located κ}

/-- The same fault at the same line and column. -/
def SameSpot (e e' : Located κ) : Prop := e'.spot = e.spot

theorem SameSpot.refl (e : Located κ) : e.SameSpot e := rfl

theorem SameSpot.of_spot (cause : κ) (span : Span) :
    SameSpot ⟨cause, span⟩ ⟨cause, span.spot⟩ := rfl

theorem SameSpot.cause (h : e.SameSpot e') : e'.cause = e.cause :=
  (congrArg Located.cause (h : e'.spot = e.spot) :)

theorem SameSpot.span (h : e.SameSpot e') : e'.span.spot = e.span.spot :=
  (congrArg Located.span (h : e'.spot = e.spot) :)

theorem SameSpot.within (h : e.SameSpot e') (place : Span) :
    (e.within place).SameSpot (e'.within place.spot) := by
  have hline : e'.span.line = e.span.line := (congrArg Span.line h.span :)
  rw [SameSpot, spot, spot, within_cause, within_cause, h.cause]
  unfold Located.within
  rw [hline]
  split
  · rfl
  · rw [h.span]

end Located

open Located (SameSpot)

/-! ## Actions -/

namespace Act

/-- A thing and what becomes of it. -/
def Becomes {α β : Type} (change : α → β) (x : α) (y : β) : Prop := y = change x

variable {ε ζ θ η α β γ δ : Type} {V : α → β → Prop} {U : γ → δ → Prop} {X : ε → ζ → Prop}

/-- Outcomes with related values or faults, the second in the state without offsets. -/
inductive Spotted (V : α → β → Prop) (X : ε → ζ → Prop) :
    EStateM.Result (Stop ε) State α → EStateM.Result (Stop ζ) State β → Prop
  | ok {x y s} (h : V x y) : Spotted V X (.ok x s) (.ok y s.spots)
  | raised {e e' s} (h : X e e') : Spotted V X (.error (.raised e) s) (.error (.raised e') s.spots)
  | exhausted {s} : Spotted V X (.error .exhausted s) (.error .exhausted s.spots)

/-- The second action does without offsets what the first one does. -/
def Spots (V : α → β → Prop) (X : ε → ζ → Prop) (a : Act ε α) (b : Act ζ β) : Prop :=
  ∀ s, Spotted V X (a s) (b s.spots)

variable {a : Act ε α} {b : Act ζ β}

namespace Spots

theorem pure {x : α} {y : β} (h : V x y) :
    Spots V X (Pure.pure x : Act ε α) (Pure.pure y) := fun _ => .ok h

theorem raise {e : ε} {e' : ζ} (h : X e e') :
    Spots V X (Act.raise e : Act ε α) (Act.raise e') := fun _ => .raised h

theorem exhausted : Spots V X (Act.exhausted : Act ε α) Act.exhausted := fun _ => .exhausted

theorem bind (h : Spots V X a b) {f : α → Act ε γ} {g : β → Act ζ δ}
    (hf : ∀ x y, V x y → Spots U X (f x) (g y)) : Spots U X (a >>= f) (b >>= g) := by
  intro s
  have hs := h s
  rw [bind_apply, bind_apply]
  generalize a s = r at hs
  generalize b s.spots = q at hs
  cases hs with
  | ok h => exact hf _ _ h _
  | raised h => exact .raised h
  | exhausted => exact .exhausted

/-- An action after whose value it is known what becomes of it. -/
theorem next {change : α → β} (h : Spots (Becomes change) X a b) {f : α → Act ε γ}
    {g : β → Act ζ δ} (hf : ∀ x, Spots U X (f x) (g (change x))) : Spots U X (a >>= f) (b >>= g) :=
  h.bind fun x _ e => e ▸ hf x

theorem bind_pure (h : Spots V X a b) {f : α → γ} {g : β → δ} (hf : ∀ x y, V x y → U (f x) (g y)) :
    Spots U X (a >>= fun x => Pure.pure (f x)) (b >>= fun y => Pure.pure (g y)) :=
  h.bind fun x y hx => .pure (hf x y hx)

theorem discard (h : Spots V X a b) :
    Spots (Becomes id) X (discard a) (discard b) := h.bind_pure fun _ _ _ => rfl

theorem of_blind {a : Act ε α} {V : α → α → Prop} {X : ε → ε → Prop} (h : Blind .spots a)
    (hV : ∀ x, V x x) (hX : ∀ e, X e e) : Spots V X a a := by
  intro s
  rw [h s]
  cases a s with
  | ok x t => exact .ok (hV x)
  | error e t =>
    cases e with
    | raised e => exact .raised (hX e)
    | exhausted => exact .exhausted

theorem blind {κ : Type} {a : Act (Located κ) α} (h : Blind .spots a) :
    Spots (Becomes id) SameSpot a a := of_blind h (fun _ => rfl) SameSpot.refl

theorem ask {f : State → α} {g : State → β} (h : ∀ s, V (f s) (g s.spots)) :
    Spots V X (Act.ask f : Act ε α) (Act.ask g) := fun s => .ok (h s)

theorem onStore {f : Store → α × Store} {g : Store → β × Store} {change : α → β}
    (h : ∀ s : Store, g (s.seen .spots) = (change (f s).1, (f s).2.seen .spots)) :
    Spots (Becomes change) X (Act.onStore f : Act ε α) (Act.onStore g) := by
  intro s
  have hg : (Act.onStore g : Act ζ β) s.spots =
      .ok (change (f s.store).1) (State.spots { s with store := (f s.store).2 }) := by
    show EStateM.Result.ok (g (s.store.seen .spots)).1
      { s.spots with store := (g (s.store.seen .spots)).2 } = _
    rw [h]
    rfl
  rw [hg]
  exact .ok (s := { s with store := (f s.store).2 }) rfl

theorem mapFault {f : ε → θ} {g : ζ → η} {Y : θ → η → Prop} (h : Spots V X a b)
    (hf : ∀ e e', X e e' → Y (f e) (g e')) : Spots V Y (Act.mapFault f a) (Act.mapFault g b) := by
  intro s
  have hs := h s
  simp only [Act.mapFault]
  generalize a s = r at hs
  generalize b s.spots = q at hs
  cases hs with
  | ok h => exact .ok h
  | raised h => exact .raised (hf _ _ h)
  | exhausted => exact .exhausted

theorem within {κ : Type} {a : Act (Located κ) α} {b : Act (Located κ) β} (h : Spots V SameSpot a b)
    (place : Span) : Spots V SameSpot (Act.within place a) (Act.within place.spot b) :=
  h.mapFault fun _ _ he => he.within place

inductive Outcome (V : α → β → Prop) (X : ε → ζ → Prop) : Except ε α → Except ζ β → Prop
  | ok {x y} (h : V x y) : Outcome V X (.ok x) (.ok y)
  | error {e e'} (h : X e e') : Outcome V X (.error e) (.error e')

theorem caught {Y : ε → ζ → Prop} (h : Spots V X a b) :
    Spots (Outcome V X) Y (Act.caught a) (Act.caught b) := by
  intro s
  have hs := h s
  simp only [Act.caught]
  generalize a s = r at hs
  generalize b s.spots = q at hs
  cases hs with
  | ok h => exact .ok (.ok h)
  | raised h => exact .ok (.error h)
  | exhausted => exact .exhausted

theorem ofExcept {r : Except ε α} {q : Except ζ β} (h : Outcome V X r q) :
    Spots V X (Act.ofExcept r) (Act.ofExcept q) := by
  cases h with
  | ok h => exact .pure h
  | error h => exact .raise h

theorem ending {f : State → State} (h : Spots V X a b) (hf : ∀ s, f s.spots = (f s).spots) :
    Spots V X (Act.ending a f) (Act.ending b f) := by
  intro s
  have hs := h s
  simp only [Act.ending]
  generalize a s = r at hs
  generalize b s.spots = q at hs
  cases hs with
  | ok h =>
    simp only [hf]
    exact .ok h
  | raised h =>
    simp only [hf]
    exact .raised h
  | exhausted =>
    simp only [hf]
    exact .exhausted

theorem onStop {f : State → State} (h : Spots V X a b) (hf : ∀ s, f s.spots = (f s).spots) :
    Spots V X (Act.onStop a f) (Act.onStop b f) := by
  intro s
  have hs := h s
  simp only [Act.onStop]
  generalize a s = r at hs
  generalize b s.spots = q at hs
  cases hs with
  | ok h => exact .ok h
  | raised h =>
    simp only [hf]
    exact .raised h
  | exhausted =>
    simp only [hf]
    exact .exhausted

end Spots

end Act

end TwinLisp
