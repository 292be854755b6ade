import TwinLisp.Eval.Engine
import TwinLisp.Proofs.Native.Collections

/-! Two interpreters side by side. A `Coupling` says how the states of one are related to the states
of the other, and an action of the second `Follows` an action of the first if it has a related
outcome. The second has resources, a number `m` of its fuel and a level `L` of the limits of its
machine: an outcome of the first is reached by the second with all sufficient resources, and
whatever fuel it has, it gives that outcome or none.

* `Coupling`: worlds, the renamings of functions each of them allows, and related states.
* `Coupling.Follows`: the relation of actions, at a world.
* `Follows.bind`, `Follows.caught` and so on: a rule for each way to make actions. -/

namespace TwinLisp

/-- The state with other limits of the machine. -/
def State.limited (f : Limits → Limits) (s : State) : State :=
  { s with config := { s.config with limits := f s.config.limits } }

/-- How the places are related at which two interpreters report a fault. -/
structure Nearness where
  near : RuntimeFault → Span → Span → Prop
  near_refl : ∀ f a, near f a a
  near_within : ∀ {f a b} place, near f a b →
    near f (if a.line = 0 then place else a) (if b.line = 0 then place else b)
  /-- Whether both report the same places. -/
  exact : Prop
  exact_of_near : ∀ {f a b}, exact → near f a b → b = a

def Nearness.same : Nearness where
  near _ a b := b = a
  near_refl _ _ := rfl
  near_within _ h := by rw [h]
  exact := True
  exact_of_near _ h := h

/-- A relation between the states of two interpreters. -/
structure Coupling extends Nearness where
  World : Type
  le : World → World → Prop
  refl : ∀ w, le w w
  trans : ∀ {u v w}, le u v → le v w → le u w
  /-- The renamings that turn values of the first into values of the second. -/
  ext : World → Renaming → Prop
  plain : ∀ w, ∃ ρ, ext w ρ ∧ ρ.Plain
  anti : ∀ {v w ρ}, le v w → ext w ρ → ext v ρ
  /-- The limits of the second at a level of resources. -/
  limits : Nat → Limits → Limits
  related : World → State → State → Prop
  /-- States in which both have run out of fuel. -/
  spent : World → State → State → Prop
  spent_anti : ∀ {v w s t}, le v w → spent w s t → spent v s t
  /-- Whether the second, with some fuel, may run out of it where the first comes to a world. -/
  lags : World → Nat → Prop
  lags_mono : ∀ {v w m}, le v w → lags v m → lags w m
  spent_of_related : ∀ {w s t}, related w s t → ∀ L, spent w s (t.limited (limits L))
  spent_of_lags : ∀ {v m}, lags v m → ∀ w s t, spent w s t
  /-- The faults that may be raised. -/
  allowed : RuntimeFault → Prop
  allowed_of_plain : ∀ {f : RuntimeFault}, f.Plain → allowed f
  allowed_thrown : ∀ text v, allowed (.thrown text v)
  /-- What has been printed where the first may run out of fuel while the second does not. -/
  excused : String → Prop := fun _ => False

namespace Coupling

variable (C : Coupling)

theorem inhabited (w : C.World) : ∃ ρ, C.ext w ρ :=
  let ⟨ρ, hρ, _⟩ := C.plain w
  ⟨ρ, hρ⟩

/-- The state of the second at a level of resources. -/
def at_ (L : Nat) (t : State) : State := t.limited (C.limits L)

section AtLevel

variable (L : Nat) (t : State)

@[simp] theorem at_store : (C.at_ L t).store = t.store := rfl
@[simp] theorem at_names : (C.at_ L t).names = t.names := rfl
@[simp] theorem at_mode : (C.at_ L t).mode = t.mode := rfl
@[simp] theorem at_machine : (C.at_ L t).machine = t.machine := rfl
@[simp] theorem at_parked : (C.at_ L t).parked = t.parked := rfl
@[simp] theorem at_depth : (C.at_ L t).depth = t.depth := rfl
@[simp] theorem at_gensyms : (C.at_ L t).gensyms = t.gensyms := rfl
@[simp] theorem at_output : (C.at_ L t).output = t.output := rfl
@[simp] theorem at_maxDepth : (C.at_ L t).config.maxDepth = t.config.maxDepth := rfl

end AtLevel

/-! ## Related values and faults -/

def value (w : C.World) (x y : Value) : Prop := ∀ ρ, C.ext w ρ → ρ.Sends x y

def values (w : C.World) (xs ys : List Value) : Prop := ∀ ρ, C.ext w ρ → ρ.SendsAll xs ys

def fault (w : C.World) (e e' : RuntimeError) : Prop :=
  C.allowed e.cause ∧ (∀ ρ, C.ext w ρ → e'.cause = e.cause.rename ρ) ∧
    C.near e.cause e.span e'.span

def parseFault (_ : C.World) (e e' : ParseError) : Prop :=
  e.cause.Plain ∧ e'.cause = e.cause ∧ (C.exact → e'.span = e.span)

/-- Equality, in every world. -/
def same {α : Type} (_ : C.World) (x y : α) : Prop := y = x

variable {C}

theorem value.mono {v w : C.World} (h : C.le v w) {x y : Value} (hx : C.value v x y) :
    C.value w x y := fun ρ hρ => hx ρ (C.anti h hρ)

theorem values.mono {v w : C.World} (h : C.le v w) {xs ys : List Value} (hx : C.values v xs ys) :
    C.values w xs ys := fun ρ hρ => hx ρ (C.anti h hρ)

theorem values.nil (w : C.World) : C.values w [] [] := fun _ _ => rfl

theorem values.cons {w : C.World} {x y : Value} {xs ys : List Value} (h : C.value w x y)
    (hs : C.values w xs ys) : C.values w (x :: xs) (y :: ys) := fun ρ hρ => by
  rw [Renaming.SendsAll, h ρ hρ, hs ρ hρ, List.map_cons]

theorem values.append {w : C.World} {xs ys us vs : List Value} (h : C.values w xs ys)
    (hs : C.values w us vs) : C.values w (xs ++ us) (ys ++ vs) := fun ρ hρ => by
  rw [Renaming.SendsAll, h ρ hρ, hs ρ hρ, List.map_append]

theorem values.reverse {w : C.World} {xs ys : List Value} (h : C.values w xs ys) :
    C.values w xs.reverse ys.reverse := fun ρ hρ => by
  rw [Renaming.SendsAll, h ρ hρ, List.map_reverse]

theorem values.length {w : C.World} {xs ys : List Value} (h : C.values w xs ys) :
    ys.length = xs.length := by
  obtain ⟨ρ, hρ⟩ := C.inhabited w
  rw [h ρ hρ, List.length_map]

theorem values.elim {w : C.World} {xs ys : List Value} (h : C.values w xs ys) :
    (xs = [] ∧ ys = []) ∨ ∃ x xs' y ys', xs = x :: xs' ∧ ys = y :: ys' ∧ C.value w x y ∧
      C.values w xs' ys' := by
  obtain ⟨ρ, hρ⟩ := C.inhabited w
  have e : ys = xs.map (·.rename ρ) := h ρ hρ
  cases xs with
  | nil => exact .inl ⟨rfl, e⟩
  | cons x xs =>
    refine .inr ⟨x, xs, x.rename ρ, xs.map (·.rename ρ), rfl, by rw [e]; rfl, fun σ hσ => ?_, fun σ hσ => ?_⟩
    · have e' : ys = (x :: xs).map (·.rename σ) := h σ hσ
      rw [e] at e'
      exact (List.cons.inj e').1
    · have e' : ys = (x :: xs).map (·.rename σ) := h σ hσ
      rw [e] at e'
      exact (List.cons.inj e').2

theorem value.steady (w : C.World) {x : Value} (h : ∀ ρ : Renaming, x.rename ρ = x) :
    C.value w x x := fun ρ _ => (h ρ).symm

theorem value.truthy {w : C.World} {x y : Value} (h : C.value w x y) : y.truthy = x.truthy := by
  obtain ⟨ρ, hρ⟩ := C.inhabited w
  rw [h ρ hρ, Value.truthy_rename]

theorem value.readable {w : C.World} {x y : Value} (h : C.value w x y) :
    y.readable = x.readable := by
  obtain ⟨ρ, hρ, hplain⟩ := C.plain w
  rw [h ρ hρ, Value.readable_rename hplain]

theorem fault.plain (w : C.World) {f : RuntimeFault} (h : f.Plain) (span : Span) :
    C.fault w ⟨f, span⟩ ⟨f, span⟩ :=
  ⟨C.allowed_of_plain h, fun ρ _ => (h.rename ρ).symm, C.near_refl f span⟩

theorem fault.mono {v w : C.World} (h : C.le v w) {e e' : RuntimeError} (he : C.fault v e e') :
    C.fault w e e' := ⟨he.1, fun ρ hρ => he.2.1 ρ (C.anti h hρ), he.2.2⟩

theorem fault.message {w : C.World} {e e' : RuntimeError} (h : C.fault w e e') :
    e'.message = e.message := by
  obtain ⟨ρ, hρ⟩ := C.inhabited w
  rw [RuntimeError.message, h.2.1 ρ hρ, RuntimeFault.text_rename, RuntimeError.message]

theorem fault.within {w : C.World} {e e' : RuntimeError} (h : C.fault w e e') (place : Span) :
    C.fault w (e.within place) (e'.within place) := by
  refine ⟨by rw [Located.within_cause]; exact h.1, fun ρ hρ => ?_, ?_⟩
  · rw [Located.within_cause, Located.within_cause, h.2.1 ρ hρ]
  · rw [Located.within_cause, Located.span_within, Located.span_within]
    exact C.near_within place h.2.2

/-! ## Couplings without renaming -/

/-- Values of both are the same. -/
def Literal (C : Coupling) : Prop := ∀ {w ρ}, C.ext w ρ → ρ = .id

namespace Literal

variable {w : C.World} (h : C.Literal)

include h

theorem ext_id (w : C.World) : C.ext w .id := by
  obtain ⟨ρ, hρ⟩ := C.inhabited w
  exact h hρ ▸ hρ

theorem value_iff {x y : Value} : C.value w x y ↔ y = x := by
  refine ⟨fun hx => ?_, fun hx ρ hρ => ?_⟩
  · rw [hx .id (h.ext_id w), Value.rename_id]
  · rw [h hρ, Renaming.Sends, Value.rename_id, hx]

theorem values_iff {xs ys : List Value} : C.values w xs ys ↔ ys = xs := by
  have hid : xs.map (·.rename .id) = xs := by simp
  refine ⟨fun hx => ?_, fun hx ρ hρ => ?_⟩
  · rw [hx .id (h.ext_id w), hid]
  · rw [h hρ, Renaming.SendsAll, hid, hx]

theorem fault_iff (hx : C.exact) {e e' : RuntimeError} :
    C.fault w e e' ↔ e' = e ∧ C.allowed e.cause := by
  constructor
  · rintro ⟨ha, hc, hs⟩
    have hcause : e'.cause = e.cause := by rw [hc .id (h.ext_id w), RuntimeFault.rename_id]
    have hspan : e'.span = e.span := C.exact_of_near hx hs
    cases e
    cases e'
    cases hcause
    cases hspan
    exact ⟨rfl, ha⟩
  · rintro ⟨rfl, ha⟩
    refine ⟨ha, fun ρ hρ => ?_, C.near_refl _ _⟩
    rw [h hρ, RuntimeFault.rename_id]

end Literal

/-! ## Outcomes -/

variable (C)

/-- What the second does with all resources: `r` from some resources on, and with less fuel `r` or,
if it may lag behind, nothing. -/
def Settles {ε β : Type} (w : C.World) (c : Nat → Nat → EStateM.Result (Stop ε) State β)
    (r : Nat → EStateM.Result (Stop ε) State β) : Prop :=
  ∃ K, ∀ L ≥ K, (∀ m, c m L = r L ∨ (C.lags w m ∧ ∃ t, c m L = .error .exhausted t)) ∧
    ∀ m ≥ K, c m L = r L

variable {ε α β : Type} (short : Nat → Prop) (V : C.World → α → β → Prop)
  (X : C.World → ε → ε → Prop)

/-- An outcome of the first and what the second does with all resources. With fuel `m` that is
`short` the second runs out wherever the first has run out and has no excuse. -/
inductive Match (w : C.World) :
    EStateM.Result (Stop ε) State α → (Nat → Nat → EStateM.Result (Stop ε) State β) → Prop
  | ok {w' x y s t c} (hw : C.le w w') (hx : V w' x y) (hs : C.related w' s t)
      (hc : C.Settles w' c fun L => .ok y (C.at_ L t)) : Match w (.ok x s) c
  | raised {w' e e' s t c} (hw : C.le w w') (he : X w' e e') (hs : C.related w' s t)
      (hc : C.Settles w' c fun L => .error (.raised e') (C.at_ L t)) : Match w (.error (.raised e) s) c
  | exhausted {s c} (hc : C.excused s.output ∨ ∀ m, short m → ∃ K, ∀ L ≥ K, ∃ t,
      c m L = .error .exhausted t ∧ C.spent w s t) : Match w (.error .exhausted s) c

/-- The actions `b`, one for each fuel, follow the action `a`. -/
def Follows (w : C.World) (a : Act ε α) (b : Nat → Act ε β) : Prop :=
  ∀ s t, C.related w s t → C.Match short V X w (a s) fun m L => b m (C.at_ L t)

variable {C short V X}

namespace Settles

variable {w w' : C.World} {c d : Nat → Nat → EStateM.Result (Stop ε) State β}
  {r q : Nat → EStateM.Result (Stop ε) State β}

theorem of_eq (h : ∀ m L, c m L = r L) : C.Settles w c r :=
  ⟨0, fun L _ => ⟨fun m => .inl (h m L), fun m _ => h m L⟩⟩

/-- Whatever keeps the running out of fuel can be done afterwards. The second may lag behind where it
could before. -/
theorem carry {D : Coupling} {v : D.World} (h : C.Settles w c r)
    (hlag : ∀ m, C.lags w m → D.lags v m) {γ ζ : Type}
    (k : Nat → EStateM.Result (Stop ε) State β → EStateM.Result (Stop ζ) State γ)
    {r' : Nat → EStateM.Result (Stop ζ) State γ} (hr : ∀ m L, k m (r L) = r' L)
    (hk : ∀ m t, ∃ t', k m (.error .exhausted t) = .error .exhausted t') :
    D.Settles v (fun m L => k m (c m L)) r' := by
  obtain ⟨K, hK⟩ := h
  refine ⟨K, fun L hL => ⟨fun m => ?_, fun m hm => ?_⟩⟩
  · rcases (hK L hL).1 m with e | ⟨hl, t, e⟩
    · exact .inl (by simp only [e, hr])
    · obtain ⟨t', e'⟩ := hk m t
      exact .inr ⟨hlag m hl, t', by simp only [e, e']⟩
  · simp only [(hK L hL).2 m hm, hr]

theorem map {γ ζ : Type} (h : C.Settles w c r)
    (k : Nat → EStateM.Result (Stop ε) State β → EStateM.Result (Stop ζ) State γ)
    {r' : Nat → EStateM.Result (Stop ζ) State γ} (hr : ∀ m L, k m (r L) = r' L)
    (hk : ∀ m t, ∃ t', k m (.error .exhausted t) = .error .exhausted t') :
    C.Settles w (fun m L => k m (c m L)) r' :=
  h.carry (fun _ h => h) k hr hk

/-- What one does after the other has settled. -/
theorem bind {γ : Type} {y : β} {t : State} (h : C.Settles w c fun L => .ok y (C.at_ L t))
    (hw : C.le w w') {g : Nat → β → Act ε γ} {r' : Nat → EStateM.Result (Stop ε) State γ}
    (hg : C.Settles w' (fun m L => g m y (C.at_ L t)) r') :
    C.Settles w' (fun m L => match c m L with
      | .ok y t => g m y t
      | .error e t => .error e t) r' := by
  obtain ⟨K, hK⟩ := h
  obtain ⟨K', hK'⟩ := hg
  refine ⟨max K K', fun L hL => ⟨fun m => ?_, fun m hm => ?_⟩⟩
  · rcases (hK L (by omega)).1 m with e | ⟨hl, t'', e⟩
    · simp only [e]
      exact (hK' L (by omega)).1 m
    · exact .inr ⟨C.lags_mono hw hl, t'', by simp only [e]⟩
  · simp only [(hK L (by omega)).2 m (by omega)]
    exact (hK' L (by omega)).2 m (by omega)

end Settles

theorem Match.imp {w : C.World} {r : EStateM.Result (Stop ε) State α}
    {c : Nat → Nat → EStateM.Result (Stop ε) State β} (hr : C.Match short V X w r c)
    {V' : C.World → α → β → Prop} {X' : C.World → ε → ε → Prop}
    (hV : ∀ w' x y, C.le w w' → V w' x y → V' w' x y)
    (hX : ∀ w' x y, C.le w w' → X w' x y → X' w' x y) : C.Match short V' X' w r c := by
  cases hr with
  | ok hw hx hs hc => exact .ok hw (hV _ _ _ hw hx) hs hc
  | raised hw he hs hc => exact .raised hw (hX _ _ _ hw he) hs hc
  | exhausted hc => exact .exhausted hc

theorem Follows.imp {w : C.World} {a : Act ε α} {b : Nat → Act ε β}
    (h : C.Follows short V X w a b) {V' : C.World → α → β → Prop} {X' : C.World → ε → ε → Prop}
    (hV : ∀ w' x y, C.le w w' → V w' x y → V' w' x y)
    (hX : ∀ w' x y, C.le w w' → X w' x y → X' w' x y) : C.Follows short V' X' w a b :=
  fun s t hs => (h s t hs).imp hV hX

/-! ## Rules -/

theorem Follows.of_step {w : C.World} {a : Act ε α} {b : Nat → Act ε β}
    (h : ∀ s t, C.related w s t → ∃ w' x y s' t', C.le w w' ∧ a s = .ok x s' ∧
      (∀ m L, b m (C.at_ L t) = .ok y (C.at_ L t')) ∧ V w' x y ∧ C.related w' s' t') :
    C.Follows short V X w a b := by
  intro s t hs
  obtain ⟨w', x, y, s', t', hw, ha, hb, hx, hs'⟩ := h s t hs
  rw [ha]
  exact .ok hw hx hs' (.of_eq hb)

theorem Follows.pure {w : C.World} {x : α} {y : β} (h : V w x y) :
    C.Follows short V X w (Pure.pure x) fun _ => Pure.pure y :=
  .of_step fun s t hs => ⟨w, x, y, s, t, C.refl w, rfl, fun _ _ => rfl, h, hs⟩

theorem Follows.raise {w : C.World} {e e' : ε} (h : X w e e') :
    C.Follows short V X w (Act.raise e) fun _ => Act.raise e' := by
  intro s t hs
  exact .raised (C.refl w) h hs (.of_eq fun _ _ => rfl)

theorem Follows.exhausted {w : C.World} {b : Nat → Act ε β}
    (h : ∀ m, short m → ∀ t, b m t = .error .exhausted t) :
    C.Follows short V X w Act.exhausted b := by
  intro s t hs
  refine .exhausted (.inr fun m hm => ⟨0, fun L _ => ⟨C.at_ L t, h m hm _, ?_⟩⟩)
  exact C.spent_of_related hs L

theorem Follows.ask {w : C.World} {f : State → α} {g : State → β}
    (h : ∀ s t, C.related w s t → V w (f s) (g t)) (hg : ∀ L t, g (C.at_ L t) = g t) :
    C.Follows short V X w (Act.ask f) fun _ => Act.ask g := by
  refine .of_step fun s t hs => ⟨w, f s, g t, s, t, C.refl w, rfl, fun _ L => ?_, h s t hs, hs⟩
  rw [Act.ask, hg]

theorem Follows.askStore {w : C.World} {f : Store → α} {g : Store → β}
    (h : ∀ s t, C.related w s t → V w (f s.store) (g t.store)) :
    C.Follows short V X w (Act.askStore f) fun _ => Act.askStore g :=
  .of_step fun s t hs => ⟨w, _, _, s, t, C.refl w, rfl, fun _ _ => rfl, h s t hs, hs⟩

theorem Follows.update {w : C.World} {f g : State → State} {V : C.World → Unit → Unit → Prop}
    (h : ∀ s t, C.related w s t → ∃ w', C.le w w' ∧ C.related w' (f s) (g t) ∧ V w' () ())
    (hg : ∀ L t, g (C.at_ L t) = C.at_ L (g t)) :
    C.Follows short V X w (Act.update f) fun _ => Act.update g := by
  refine .of_step fun s t hs => ?_
  obtain ⟨w', hw, hs', hv⟩ := h s t hs
  refine ⟨w', (), (), f s, g t, hw, rfl, fun _ L => ?_, hv, hs'⟩
  rw [Act.update, hg]

variable {γ δ : Type} {U : C.World → γ → δ → Prop}

theorem Match.bind {w : C.World} {a : Act ε α} {b : Nat → Act ε β} {s : State} {t : Nat → State}
    (h : C.Match short V X w (a s) fun m L => b m (t L)) {f : α → Act ε γ} {g : Nat → β → Act ε δ}
    (hf : ∀ w' x y s' t', C.le w w' → V w' x y → C.related w' s' t' → a s = .ok x s' →
      C.Match short U X w' (f x s') fun m L => g m y (C.at_ L t')) :
    C.Match short U X w ((a >>= f) s) fun m L => (b m >>= g m) (t L) := by
  simp only [Act.bind_apply]
  generalize a s = r at h hf
  cases h with
  | ok hw hx hs' hc =>
    rename_i w' x y s' t'
    have hf' := hf w' x y s' t' hw hx hs' rfl
    simp only
    generalize f x s' = r' at hf'
    cases hf' with
    | ok hw' hx' hs'' hc' => exact .ok (C.trans hw hw') hx' hs'' (hc.bind hw' hc')
    | raised hw' he hs'' hc' => exact .raised (C.trans hw hw') he hs'' (hc.bind hw' hc')
    | exhausted hc' =>
      refine .exhausted (hc'.imp_right fun hc' m hm => ?_)
      obtain ⟨K, hK⟩ := hc
      obtain ⟨K', hK'⟩ := hc' m hm
      refine ⟨max K K', fun L hL => ?_⟩
      rcases (hK L (by omega)).1 m with e | ⟨hl, t'', e⟩
      · obtain ⟨t'', e', hsp⟩ := hK' L (by omega)
        exact ⟨t'', by simp only [e, e'], C.spent_anti hw hsp⟩
      · exact ⟨t'', by simp only [e], C.spent_of_lags hl _ _ _⟩
  | raised hw he hs' hc =>
    exact .raised hw he hs' (hc.map (fun m r => match r with
      | .ok y t => g m y t
      | .error e t => .error e t) (fun _ _ => rfl) fun _ t => ⟨t, rfl⟩)
  | exhausted hc =>
    refine .exhausted (hc.imp_right fun hc m hm => ?_)
    obtain ⟨K, hK⟩ := hc m hm
    refine ⟨K, fun L hL => ?_⟩
    obtain ⟨t', e, hsp⟩ := hK L hL
    exact ⟨t', by simp only [e], hsp⟩

theorem Follows.bind {w : C.World} {a : Act ε α} {b : Nat → Act ε β}
    (h : C.Follows short V X w a b) {f : α → Act ε γ} {g : Nat → β → Act ε δ}
    (hf : ∀ w' x y, C.le w w' → V w' x y → C.Follows short U X w' (f x) fun m => g m y) :
    C.Follows short U X w (a >>= f) fun m => b m >>= g m :=
  fun s t hs => (h s t hs).bind fun w' x y s' t' hw hx hs' _ => hf w' x y hw hx s' t' hs'

theorem Follows.bind_pure {w : C.World} {a : Act ε α} {b : Nat → Act ε β}
    (h : C.Follows short V X w a b) {f : α → γ} {g : β → δ}
    (hf : ∀ w' x y, C.le w w' → V w' x y → U w' (f x) (g y)) :
    C.Follows short U X w (a >>= fun x => Pure.pure (f x)) fun m => b m >>= fun y =>
      Pure.pure (g y) :=
  h.bind fun w' x y hw hx => .pure (hf w' x y hw hx)

theorem Follows.discard {w : C.World} {a : Act ε α} {b : Nat → Act ε β}
    (h : C.Follows short V X w a b) {V' : C.World → Unit → Unit → Prop} (hV : ∀ w, V' w () ()) :
    C.Follows short V' X w (discard a) fun m => discard (b m) :=
  h.bind_pure fun w' _ _ _ _ => hV w'

theorem Match.mapFault {w : C.World} {a : Act ε α} {b : Nat → Act ε β} {s : State} {t : Nat → State}
    (h : C.Match short V X w (a s) fun m L => b m (t L)) {ζ : Type} {f : ε → ζ}
    {Y : C.World → ζ → ζ → Prop} (hf : ∀ w' e e', X w' e e' → Y w' (f e) (f e')) :
    C.Match short V Y w (Act.mapFault f a s) fun m L => Act.mapFault f (b m) (t L) := by
  simp only [Act.mapFault]
  generalize a s = r at h
  cases h with
  | ok hw hx hs' hc =>
    exact .ok hw hx hs' (hc.map (fun _ r => Act.mapFault f (fun _ => r) s) (fun _ _ => rfl)
      fun _ t => ⟨t, rfl⟩)
  | raised hw he hs' hc =>
    exact .raised hw (hf _ _ _ he) hs' (hc.map (fun _ r => Act.mapFault f (fun _ => r) s)
      (fun _ _ => rfl) fun _ t => ⟨t, rfl⟩)
  | exhausted hc =>
    refine .exhausted (hc.imp_right fun hc m hm => ?_)
    obtain ⟨K, hK⟩ := hc m hm
    refine ⟨K, fun L hL => ?_⟩
    obtain ⟨t', e, hsp⟩ := hK L hL
    exact ⟨t', by simp only [e], hsp⟩

theorem Follows.mapFault {w : C.World} {a : Act ε α} {b : Nat → Act ε β}
    (h : C.Follows short V X w a b) {ζ : Type} {f : ε → ζ} {Y : C.World → ζ → ζ → Prop}
    (hf : ∀ w' e e', X w' e e' → Y w' (f e) (f e')) :
    C.Follows short V Y w (Act.mapFault f a) fun m => Act.mapFault f (b m) :=
  fun s t hs => (h s t hs).mapFault hf

theorem Match.onStop {w : C.World} {a : Act ε α} {b : Nat → Act ε β} {s : State} {t : Nat → State}
    (h : C.Match short V X w (a s) fun m L => b m (t L)) {f g : State → State}
    (hf : ∀ w' s t, C.related w' s t → C.related w' (f s) (g t))
    (hg : ∀ L t, g (C.at_ L t) = C.at_ L (g t))
    (hspent : ∀ w' s t, C.spent w' s t → C.spent w' (f s) (g t))
    (hout : ∀ s, (f s).output = s.output) :
    C.Match short V X w (Act.onStop a f s) fun m L => Act.onStop (b m) g (t L) := by
  simp only [Act.onStop]
  generalize a s = r at h
  cases h with
  | ok hw hx hs' hc =>
    exact .ok hw hx hs' (hc.map (fun _ r => Act.onStop (fun _ => r) g s) (fun _ _ => rfl)
      fun _ t => ⟨g t, rfl⟩)
  | raised hw he hs' hc =>
    exact .raised hw he (hf _ _ _ hs') (hc.map (fun _ r => Act.onStop (fun _ => r) g s)
      (fun _ L => congrArg _ (hg L _)) fun _ t => ⟨g t, rfl⟩)
  | exhausted hc =>
    refine .exhausted (hc.imp (fun h => (hout _).symm ▸ h) fun hc m hm => ?_)
    obtain ⟨K, hK⟩ := hc m hm
    refine ⟨K, fun L hL => ?_⟩
    obtain ⟨t', e, hsp⟩ := hK L hL
    exact ⟨g t', by simp only [e], hspent _ _ _ hsp⟩

theorem Follows.onStop {w : C.World} {a : Act ε α} {b : Nat → Act ε β}
    (h : C.Follows short V X w a b) {f g : State → State}
    (hf : ∀ w' s t, C.related w' s t → C.related w' (f s) (g t))
    (hg : ∀ L t, g (C.at_ L t) = C.at_ L (g t))
    (hspent : ∀ w' s t, C.spent w' s t → C.spent w' (f s) (g t))
    (hout : ∀ s, (f s).output = s.output) :
    C.Follows short V X w (Act.onStop a f) fun m => Act.onStop (b m) g :=
  fun s t hs => (h s t hs).onStop hf hg hspent hout

theorem Follows.within {w : C.World} {a : Run α} {b : Nat → Run β}
    (h : C.Follows short V C.fault w a b) (span : Span) :
    C.Follows short V C.fault w (Act.within span a) fun m => Act.within span (b m) :=
  h.mapFault fun _ _ _ he => he.within span

/-- The relation of results that are values or faults. -/
def outcome (V : C.World → α → β → Prop) (X : C.World → ε → ε → Prop) (w : C.World) :
    Except ε α → Except ε β → Prop
  | .ok x, .ok y => V w x y
  | .error e, .error e' => X w e e'
  | _, _ => False

theorem Follows.caught {w : C.World} {a : Act ε α} {b : Nat → Act ε β}
    (h : C.Follows short V X w a b) {Y : C.World → ε → ε → Prop} :
    C.Follows short (outcome V X) Y w (Act.caught a) fun m => Act.caught (b m) := by
  intro s t hs
  simp only [Act.caught]
  have h' := h s t hs
  generalize a s = r at h'
  cases h' with
  | ok hw hx hs' hc =>
    refine .ok hw (show outcome V X _ (.ok _) (.ok _) from hx) hs' ?_
    exact hc.map (fun _ r => Act.caught (fun _ => r) s) (fun _ _ => rfl) fun _ t => ⟨t, rfl⟩
  | raised hw he hs' hc =>
    refine .ok hw (show outcome V X _ (.error _) (.error _) from he) hs' ?_
    exact hc.map (fun _ r => Act.caught (fun _ => r) s) (fun _ _ => rfl) fun _ t => ⟨t, rfl⟩
  | exhausted hc =>
    refine .exhausted (hc.imp_right fun hc m hm => ?_)
    obtain ⟨K, hK⟩ := hc m hm
    refine ⟨K, fun L hL => ?_⟩
    obtain ⟨t', e, hsp⟩ := hK L hL
    exact ⟨t', by simp only [e], hsp⟩

theorem Follows.ofExcept {w : C.World} {r : Except ε α} {q : Except ε β}
    (h : outcome V X w r q) : C.Follows short V X w (Act.ofExcept r) fun _ => Act.ofExcept q := by
  match r, q, h with
  | .ok _, .ok _, h => exact .pure h
  | .error _, .error _, h => exact .raise h

theorem Follows.ofFault {w : C.World} {r : Answer α} {q : Answer β}
    (h : Answer.Agree (V w) r q) :
    C.Follows short V C.fault w (Run.ofFault r) fun _ => Run.ofFault q := by
  cases h with
  | ok h => exact .pure h
  | error h => exact .raise (fault.plain w h _)

theorem Follows.fail {w : C.World} {f : RuntimeFault} (h : f.Plain) :
    C.Follows short V C.fault w (Run.fail f) fun _ => Run.fail f :=
  .raise (fault.plain w h _)

theorem Follows.failAt {w : C.World} {f : RuntimeFault} (h : f.Plain) (span : Span) :
    C.Follows short V C.fault w (Run.failAt f span) fun _ => Run.failAt f span :=
  .raise (fault.plain w h _)

end Coupling

end TwinLisp
