import TwinLisp.Proofs.Variables.Instructions

/-! Calls in both machines. A call begins a function in either of them, or leaves both, which are
parked meanwhile and come back with the same value.

* `Mirrors`, `Reflects`: two interpreters whose machines are parked, and what they do alike.
* `Answers`: calls that leave the machines.
* `callOut_tandem`, `callValue_tandem`: a call that leaves both machines, and any call. -/

namespace TwinLisp

namespace Machine.Ideal

open Act Typed

variable {B : Origin} {ρ ρ' : List Nat} {lim even d n m : Nat} {fs fs' : Array Activation}
  {a a' b : Activation} {i : Instruction}

/-! ## Calls that leave the machine -/

/-- Interpreters side by side while nothing runs on their machines. Their states are the same, apart
from what the machines work on. -/
structure Mirrors (ρ : List Nat) (fs' : Array Activation) (s t : State) : Prop where
  rest : t = { s with store := t.store, parked := t.parked }
  there : t.parked.isSome = s.parked.isSome
  frames : (t.parked.getD .idle).frames = fs'
  stacked : Stacked ρ (s.parked.getD .idle).frames fs' (s.parked.getD .idle).stack.size
  doubles : Doubles ρ (Shown fs') (s.parked.getD .idle).stack.size s.store t.store
    (s.parked.getD .idle) (t.parked.getD .idle)

/-- What becomes of interpreters side by side. -/
def Mirrored (ρ : List Nat) (fs' : Array Activation) (s t : State) : Prop :=
  ∃ ρ', ρ <+: ρ' ∧ Mirrors ρ' fs' s t

/-- Actions of interpreters side by side that come to the same and keep what is watched. -/
abbrev Reflects {α : Type} (W : Watch) (calls : Nat) (w : State.Core × Nat) (ρ : List Nat)
    (fs' : Array Activation) (x y : Run α) : Prop :=
  Tandem (fun s t => W.Holds calls w s ∧ Mirrors ρ fs' s t) x y
    (fun u v s t => v = u ∧ W.Holds calls w s ∧ Mirrored ρ fs' s t)
    fun s t => W.Holds calls w s ∧ Mirrored ρ fs' s t

/-- Calls that come to the same. -/
def Answers (W : Watch) (calls : Nat) (c c' : Caller) : Prop :=
  ∀ w ρ fs' f args, Reflects W calls w ρ fs' (c f args) (c' f args)

/-- Both runs have failed somewhere, on the ground of the first. -/
abbrev Failed (B : Origin) (s t : State) : Prop := Typed.Broken B.ground s ∧ Torn B s t

theorem Paired.along {α β : Type} {P : State → State → Prop} {x : Run α} {y : Run β}
    {Q : α → β → State → State → Prop} (h : Paired B P x y Q) {P₁ : State → Prop}
    {Q₁ : α → State → Prop} (h₁ : Works B.ground P₁ x Q₁) :
    Tandem (fun s t => P₁ s ∧ P s t) x y (fun u v s t => Q₁ u s ∧ Q u v s t) (Failed B) :=
  (Tandem.along h h₁).imp (fun _ _ h => h) (fun _ _ _ _ h => h) fun _ _ h =>
    ⟨h.1.elim fun _ h => h.2, h.2⟩

/-- The state while the machine is parked. -/
def parking (s : State) : State := { s with machine := .idle, parked := some s.machine }

theorem callOut_eq (c : Caller) (f : Value) (args : List Value) (s : State) :
    callOut c f args s = match c f args (parking s) with
      | .ok v t =>
        if t.parked.isSome then .ok v (back s t) else .error (.raised lost.bare) (back s t)
      | .error (.raised e) t =>
        .error (.raised (if t.parked.isSome then e else lost.bare)) (back s t)
      | .error .exhausted t => .error .exhausted (back s t) := rfl

theorem Work.park {s t : State} (h : Work ρ (Shown fs') n even fs fs' n s t)
    (hst : Stacked ρ fs fs' n) : Mirrors ρ fs' (parking s) (parking t) where
  rest := congrArg (fun u : State => { u with
    store := t.store
    machine := .idle
    parked := some t.machine }) h.rest
  there := rfl
  frames := h.frames'
  stacked := by
    show Stacked ρ s.machine.frames fs' s.machine.stack.size
    rw [h.frames, h.size]
    exact hst
  doubles := by
    show Doubles ρ (Shown fs') s.machine.stack.size s.store t.store s.machine t.machine
    rw [h.size]
    exact h.doubles

theorem Mirrors.back {s t s₁ t₁ : State} (h : Mirrors ρ fs' s₁ t₁) (hp : t.parked = s.parked)
    (hf : (s₁.parked.getD .idle).frames = fs) (hn : (s₁.parked.getD .idle).stack.size = n) :
    Work ρ (Shown fs') n n fs fs' n (Machine.back s s₁) (Machine.back t t₁) := by
  have hd := h.doubles
  rw [hn] at hd
  exact {
    rest := by
      show { t₁ with machine := t₁.parked.getD .idle, parked := t.parked } = _
      rw [hp]
      exact congrArg (fun u : State => { u with
        store := t₁.store
        machine := t₁.parked.getD .idle
        parked := s.parked }) h.rest
    frames := hf
    frames' := h.frames
    size := hn
    even := fun x hx => (Array.getElem?_eq_none (hd.size.trans hn ▸ hx)).trans
      (Array.getElem?_eq_none (hn ▸ hx)).symm
    doubles := hd }

/-- A call that leaves both machines comes back to the frames that wait for its value. -/
theorem callOut_tandem {c c' : Caller} (hc : Answers B.ground.watch B.ground.calls c c') (f : Value)
    (args : List Value) {waiting : Array Activation} {base : Nat} {o : Outline}
    (hr : Rests B.ground fs) (ho : Over B ρ (Shown fs') lim fs') (hl : n ≤ lim)
    (hst : Stacked ρ fs fs' n)
    (hwait : ∀ s, Stands B.ground fs waiting base d o s →
      Layered s.machine.openCells fs (base + o.height)) :
    Tandem (fun s t => Stands B.ground fs waiting base d o s ∧
        Work ρ (Shown fs') lim even fs fs' n s t)
      (callOut c f args) (callOut c' f args)
      (fun u v s t => v = u ∧ Stands B.ground fs waiting base d o s ∧
        ∃ ρ', ρ <+: ρ' ∧ Work ρ' (Shown fs') n n fs fs' n s t) (Failed B) := by
  rintro s t ⟨hs, hw⟩
  have hsize : n = base + o.height := hw.size.symm.trans hs.height
  have hlow : B.ground.base ≤ n := by
    have := hs.above
    omega
  have hparked : t.parked = s.parked := by rw [hw.rest]
  have hmirror := (hw.relax (fun x j hx => Nat.lt_of_lt_of_le (hst.lt_of_shown hx) hl) n).park hst
  -- what holds when both come back
  have hback : ∀ {s₁ t₁}, B.ground.watch.Holds B.ground.calls ((parking s).core, d) s₁ →
      Mirrored ρ fs' s₁ t₁ → s₁.parked.isSome ∧ t₁.parked.isSome ∧
        Stands B.ground fs waiting base d o (back s s₁) ∧
        ∃ ρ', ρ <+: ρ' ∧ Work ρ' (Shown fs') n n fs fs' n (back s s₁) (back t t₁) := by
    rintro s₁ t₁ h₁ ⟨ρ', hρ, hm⟩
    obtain ⟨hsome, hstands⟩ := hs.back h₁
    exact ⟨hsome, hm.there.trans hsome, hstands, ρ', hρ,
      hm.back hparked hstands.frames (hstands.height.trans hsize.symm)⟩
  have hcall := hc ((parking s).core, d) ρ fs' f args (parking s) (parking t)
    ⟨hs.park (hwait s hs), hmirror⟩
  rw [callOut_eq, callOut_eq]
  generalize c f args (parking s) = r at hcall
  generalize c' f args (parking t) = q at hcall
  refine hcall.elim (fun u v s₁ t₁ ⟨hv, h₁, hm⟩ => ?_) (fun e s₁ t₁ ⟨h₁, hm⟩ => ?_) fun _ _ => trivial
  · obtain ⟨hsome, hsome', hstands, hwork⟩ := hback h₁ hm
    simp only [hsome, hsome', if_true]
    exact ⟨hv, hstands, hwork⟩
  · obtain ⟨hsome, hsome', hstands, ρ', hρ, hwork⟩ := hback h₁ hm
    simp only [hsome, hsome', if_true]
    exact ⟨rfl, hstands.broken hr, hwork.torn ((ho.mono hρ).ofLim hlow)⟩

/-! ## Functions that begin -/

theorem closureOf_tandem {W : Display} {R : State → State → Prop}
    (hR : ∀ s t, Work ρ W lim even fs fs' n s t → R s t) (id : Nat) :
    Tandem (Work ρ W lim even fs fs' n) (closureOf id) (closureOf id)
      (fun k k' s t => Copies ρ k k' ∧ Work ρ W lim even fs fs' n s t) R := by
  intro s t h
  simp only [closureOf, Act.bind_apply, Act.askStore]
  cases hk : s.store.closures[id]? with
  | none =>
    have hk' : t.store.closures[id]? = none := by
      rw [Array.getElem?_eq_none_iff] at hk ⊢
      rwa [h.doubles.functions]
    rw [hk']
    exact ⟨rfl, hR s t h⟩
  | some k =>
    obtain ⟨k', hk', hc⟩ := h.doubles.closures id k hk
    rw [hk']
    exact ⟨hc, h⟩

/-- No slot of a function that begins has a cell yet. -/
theorem abreast_start {k k' : Closure} {base : Nat} {counted : Bool} (hst : Stacked ρ fs fs' base)
    (ho : Over B ρ (Shown fs') lim fs') (hl : base ≤ lim) (hk : k.Sound) (hc : Copies ρ k k')
    (hn : base ≤ n) {s t : State}
    (hw : Work ρ (Shown fs') lim even (fs.push ⟨k, 0, base, counted⟩)
      (fs'.push ⟨k', 0, base, counted⟩) n s t) : Abreast B s t := by
  have hshown : ∀ x j, Showing fs' ⟨k', 0, base, counted⟩ x j ↔ Shown fs' x j := by
    refine fun x j => or_iff_left fun hx => ?_
    obtain ⟨-, hj⟩ := cell?_eq_some_iff.mp hx
    have hlt := (Array.getElem?_eq_some_iff.mp hj).1
    have hsize := hk.cells
    dsimp only at hlt
    rw [hc.size, hc.proto] at hlt
    omega
  exact ⟨ρ, lim, fs, fs', ⟨k, 0, base, counted⟩, ⟨k', 0, base, counted⟩, n, hst,
    ⟨hc.proto, rfl, rfl, rfl, hk.cells, hc.cells, .start⟩,
    ⟨ho.world, ho.low, exists_push ho.frames _, fun x hx j => (hshown x j).trans (ho.below x hx j)⟩,
    ho.frames, hn,
    .inl fun x j hx => Nat.lt_of_lt_of_le (hst.lt_of_shown ((hshown x j).mp hx)) hl,
    (hw.as hshown).odd⟩

/-- A call begins a function in both machines, or leaves both and comes back. -/
theorem callValue_tandem {c c' : Caller} (hc : Answers B.ground.watch B.ground.calls c c')
    {count next : Nat} (h : Facing B ρ lim fs fs' a a' b d n ⟨.call, count, next⟩) :
    Tandem (fun s t => Inside B.ground fs a d next a.outline s ∧ Free ρ lim fs fs' a b next n s t)
      (callValue c count) (callValue c' count)
      (fun _ _ s t => Running B.ground s ∧ Abreast B s t) (Failed B) := by
  have hr := h.due.rests next
  have ho := h.overFreed next
  have hheight := h.height
  have htakes : count + 1 ≤ a.outline.height := h.due.admits.fits.takes
  have hk : ∀ s ∈ a.outline.held, s < a.outline.height - (count + 1) := h.due.admits.fits.kept
  have hready : a.base + (n - a.base - (count + 1)) ≤ lim := h.ready
  have hnext : next ∈ a.closure.proto.targets ⟨.call, count, next⟩ := List.mem_singleton.mpr rfl
  have hwait : ∀ {s : State} {k : Nat}, Inside B.ground fs a d next ⟨k, a.outline.held⟩ s →
      Layered s.machine.openCells (fs.push { a with ip := next })
        (a.base + (a.outline.height - (count + 1))) := fun hs => h.due.layered hnext rfl hs
  have hlt : ∀ x j, Showing fs' b x j → x < n - (count + 1) := fun _ _ =>
    h.lt_of_takes (fun _ => rfl) htakes
  -- the frames of both, waiting for the value of the call
  have hst : Stacked ρ (fs.push { a with ip := next }) (fs'.push { b with ip := next })
      (n - (count + 1)) :=
    .push h.stacked (h.twinFreed (List.prefix_refl ρ) hnext) (fun x j hx => hlt x j (.inr hx))
      (show a.base ≤ _ by omega)
  have hshown : ∀ x j, Shown (fs'.push { b with ip := next }) x j ↔ Showing fs' b x j :=
    fun _ _ => shown_push
  have hover : Over B ρ (Shown (fs'.push { b with ip := next })) lim
      (fs'.push { b with ip := next }) :=
    { ho with below := fun x hx j => (hshown x j).trans (ho.below x hx j) }
  refine Tandem.bind_same (Q := fun size s t => size = n ∧
    Inside B.ground fs a d next a.outline s ∧ Free ρ lim fs fs' a b next n s t)
    (.ask fun s t hs => ⟨hs.2.doubles.size, hs.2.size, hs⟩) fun size => Tandem.given fun hsize => ?_
  have hbelow : size - (count + 1) = a.base + (a.outline.height - (count + 1)) := by omega
  refine Run.guard_tandem (fun hlt => by omega) fun _ => ?_
  rw [hbelow]
  refine ((slot_tandem ho (x := a.base + (a.outline.height - (count + 1))) fun j hx => ?_).along
    (slot_works (by omega))).bind fun f f' => ?_
  · have := hlt _ j hx
    omega
  have hout : Tandem
      (fun s t => Inside B.ground fs a d next a.outline s ∧ Free ρ lim fs fs' a b next n s t)
      (do let args ← popMany count; let callee ← pop; push (← callOut c callee args))
      (do let args ← popMany count; let callee ← pop; push (← callOut c' callee args))
      (fun _ _ s t => Running B.ground s ∧ Abreast B s t) (Failed B) := by
    have hpop : a.outline.height - count - 1 = a.outline.height - (count + 1) := by omega
    have hsub : n - count - 1 = n - (count + 1) := by omega
    refine ((popMany_tandem ho fun x j hx => ?_).along ((popMany_works (by omega) fun s hs =>
      ?_).post fun _ _ hs => hs.2)).bind fun args args' => ?_
    · have := hlt x j hx
      omega
    · have := hk s hs
      omega
    rintro s t ⟨hs, rfl, hw⟩
    refine ((pop_tandem ho fun x j hx => hsub ▸ hlt x j hx).along
      (pop_works (by dsimp only; omega) fun s hs => hpop ▸ hk s hs)).bind (fun f f' => ?_) s t
      ⟨hs, hw⟩
    rintro s t ⟨hs, rfl, hw⟩
    rw [hsub] at hw
    refine (callOut_tandem hc f' args' hr hover (by omega) hst fun s hs => hpop ▸ hwait hs).bind
      (fun v v' => ?_) s t ⟨hs, hw.as hshown⟩
    rintro s t ⟨rfl, hs, ρ', hρ, hw⟩
    have hlow : B.ground.base ≤ n - (count + 1) := Nat.le_trans h.low (by omega)
    refine (((push_tandem (((h.overFreed next).mono hρ).ofLim hlow) v').along
      (push_works hr v')).post fun _ _ s t hs =>
        ⟨h.due.arrive hnext (hs.1.as (congrArg (· + 1) hpop.symm) rfl),
          h.arrive hρ hnext hlt hlow (by omega) hs.2⟩) s t ⟨hs, hw.as fun x j => (hshown x j).symm⟩
  rintro s t ⟨hs, rfl, hw⟩
  cases f' with
  | closure id name =>
    have hknown : Paired B (Free ρ lim fs fs' a b next n) (closureOf id) (closureOf id)
        fun k k' s t => Copies ρ k k' ∧ Free ρ lim fs fs' a b next n s t :=
      closureOf_tandem (fun _ _ h => h.torn ho) id
    refine ((hknown.along (Typed.closureOf_meets id fun f s hf hs =>
      ⟨sane_of_plain hf, hs.broken hr⟩)).bind fun k k' => ?_) s t ⟨hs, hw⟩
    rintro s t ⟨⟨hsound, hs⟩, hcopies, hw⟩
    rw [hcopies.proto]
    refine (Run.guard_tandem (P := fun s t => Inside B.ground fs a d next a.outline s ∧
      Free ρ lim fs fs' a b next n s t) (fun _ s t hs => ⟨hs.1.broken hr, hs.2.torn ho⟩)
      fun harity => ?_) s t ⟨hs, hw⟩
    have harity : count = k.proto.arity := by simpa using harity
    have hlow : a.base + (a.outline.height - (count + 1)) = n - (count + 1) := by omega
    refine (((pushFrame_tandem ho (hst.size_eq) k k' _ true).along
      (pushFrame_works k (show true = false → _ from nofun) hr)).pre fun s t hs =>
        ⟨hs.1.ascend htakes hk (hwait hs.1), hs.2⟩).post fun _ _ s t hs => ⟨?_, ?_⟩
    · have hsite := h.due.site.moved (.goTo next)
      rw [modify_push] at hsite
      exact Running.start hsound (.next _ hsite) (harity ▸ hs.1)
    · exact abreast_start (hlow ▸ hst) hover (by omega) hsound hcopies (by omega) (hs.2.as hshown)
  | _ => exact hout s t ⟨hs, hw⟩

end Machine.Ideal

end TwinLisp
