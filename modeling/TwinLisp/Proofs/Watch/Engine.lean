import TwinLisp.Proofs.Coupling.Programs
import TwinLisp.Proofs.Watch.Basic
import TwinLisp.Session

/-! What is watched is kept by whole programs as soon as the machine keeps it: everything else an
interpreter does leaves the parts alone that the machine works on.

A probe does in its own way what evaluation leaves to its surroundings, and may depend on how many
interpreted functions are being called. Where it does what is usual as long as a property holds, and a
program has the same outcome with it, the property has held throughout.

* `Probe`, `Engine.probed`: calls, late macro calls, assignments and instructions of an engine's own.
* `Watch.Runs`, `Watch.Sound`: what has to be shown of the machine and of a probe.
* `Watch.engines`, `Watch.call_keeps`: calls of values, by engines of the same level.
* `Watch.evalSource_follows`, `Watch.evalSource_keeps`: the text of a program. -/

namespace TwinLisp

/-- A macro that had no value when its form was parsed, called late. -/
abbrev LateCaller := Var → List Form → Span → Run Value

/-- Other ways to do what evaluation leaves to its surroundings, with a number of calls of interpreted
functions going on. -/
structure Probe where
  call : Nat → Caller → Caller
  late : Nat → LateCaller → LateCaller
  assign : Nat → Var → Value → Run Unit
  step : Nat → Caller → Nat → Run (Option Value)

namespace Probe

/-- A probe that changes nothing but how instructions are executed. -/
def steps (step : Caller → Nat → Run (Option Value)) : Probe :=
  ⟨fun _ c => c, fun _ c => c, fun _ => Run.assign, fun _ => step⟩

/-- A probe that changes nothing. -/
def idle : Probe := steps Machine.step

end Probe

namespace Engine

/-- The call of a value by engines that know how many interpreted functions are being called. -/
def applyWithin (E : Nat → Engine) (n : Nat) (f : Value) (args : List Value) : Run Value :=
  match f with
  | .fn id name => Eval.callFunction (E (n + 1)) id name args
  | _ => f.apply (E n) args

/-- The engine of a level with a probe, inside `n` calls of interpreted functions. -/
def probed (P : Probe) : (level n : Nat) → Engine
  | 0, n =>
    ⟨fun _ _ => Act.exhausted, fun _ _ _ => Act.exhausted, P.assign n, P.step n, 0, .framed⟩
  | level + 1, n =>
    ⟨P.call n fun f args s => applyWithin (probed P level) n f args s,
      P.late n fun v args span s => (probed P level n).lateCall v args span s, P.assign n, P.step n,
      level, .framed⟩

variable (P : Probe) (level n : Nat)

@[simp] theorem step_probed : (probed P level n).step = P.step n := by
  cases level <;> rfl

@[simp] theorem rounds_probed : (probed P level n).rounds = level - 1 := by
  cases level <;> rfl

@[simp] theorem cycle_probed : (probed P level n).cycle = P.step n (probed P level n).call := by
  rw [cycle, step_probed]

/-- A probe for instructions alone does not depend on the calls that are going on. -/
theorem probed_steps (step : Caller → Nat → Run (Option Value)) :
    probed (.steps step) level n = equipped Run.assign step level := by
  induction level generalizing n with
  | zero => rfl
  | succ level ih =>
    have happly : applyWithin (probed (.steps step) level) n =
        fun f args => f.apply (equipped Run.assign step level) args := by
      funext f args
      cases f with
      | fn id name =>
        rw [applyWithin, ih]
        rfl
      | _ => simp only [applyWithin, ih]
    unfold probed equipped
    simp only [happly, ih]
    rfl

theorem probed_idle : probed .idle level n = ofFuel level := probed_steps level n Machine.step

end Engine

namespace Watch

open Machine

variable {W : Watch} {n : Nat} {w : State.Core × Nat}

/-! ## What has to be shown of the machine -/

/-- Callers that do the same. -/
def Callers (W : Watch) (n : Nat) (c d : Caller) : Prop :=
  ∀ w f args, W.KeepsRun n w (c f args) (d f args)

/-- Probes, one for each fuel, with which the second does the same as the first if its calls do. -/
structure Runs (W : Watch) (P : Nat → Probe) : Prop where
  around : ∀ {n c} {d : Nat → Caller}, (W.coupling n).Calls (fun _ => True) c d →
    (W.coupling n).Calls (fun _ => True) c fun m => (P m).call n (d m)
  late : ∀ {n} {a : LateCaller} {b : Nat → LateCaller} {v args span}, (∀ w,
      (W.coupling n).Follows (fun _ => True) (W.coupling n).value (W.coupling n).fault w
        (a v args span) fun m => b m v args span) → ∀ w,
    (W.coupling n).Follows (fun _ => True) (W.coupling n).value (W.coupling n).fault w
      (a v args span) fun m => (P m).late n (b m) v args span
  assign : ∀ n w v x,
    (W.coupling n).Follows (fun _ => True) (W.coupling n).same (W.coupling n).fault w
      (Run.assign v x) fun m => (P m).assign n v x
  call : ∀ {n level} {d : Nat → Caller},
    (W.coupling n).Calls (fun _ => True) (Engine.ofFuel level).call d → ∀ w rounds id args,
      (W.coupling n).Follows (fun _ => True) (W.coupling n).value (W.coupling n).fault w
        (onParked (executeBy (step (Engine.ofFuel level).call) rounds id args)) fun m =>
          onParked (executeBy ((P m).step n (d m)) rounds id args)
  form : ∀ {level} {d : Nat → Caller},
    (W.coupling 0).Calls (fun _ => True) (Engine.ofFuel level).call d →
    ∀ w, W.Top w.1 → ∀ rounds {e p}, e.Parsed .bare [] .top → Proto.ofExpr "top-level" e = .ok p →
      (W.coupling 0).Follows (fun _ => True) (W.coupling 0).value (W.coupling 0).fault w
        (onParked (executeFormBy (step (Engine.ofFuel level).call) rounds p)) fun m =>
          onParked (executeFormBy ((P m).step 0 (d m)) rounds p)

/-- A way to execute an instruction that is the usual one in all states with a property. If nothing
changes when it takes the place of the usual one, then all instructions were executed in such
states. -/
def Faithful (P : State → Prop) (step' : Caller → Nat → Run (Option Value)) : Prop :=
  ∀ call entry s, P s → step' call entry s = step call entry s

theorem Callers.self {c d : Caller} (h : W.Callers n c d) : W.Callers n d d := fun w f args s hs =>
  ⟨rfl, by
    rw [(h w f args s hs).1]
    exact (h w f args s hs).2⟩

theorem Callers.calls (hW : W.Exact) {c : Caller} {d : Nat → Caller}
    (h : ∀ m, W.Callers n c (d m)) : (W.coupling n).Calls (fun _ => True) c d := by
  intro w f g xs ys hf hx
  cases value_iff.mp hf
  cases values_iff.mp hx
  exact KeepsRun.value hW fun m => h m w f xs

theorem callers_of_calls (hW : W.Exact) {c : Caller} {d : Nat → Caller}
    (h : (W.coupling n).Calls (fun _ => True) c d) (m : Nat) : W.Callers n c (d m) :=
  fun _ f args => KeepsRun.of_value hW
    (fun w' _ => h w' f f args args (value_iff.mpr rfl) (values_iff.mpr rfl)) m

/-- A call that leaves the machine, given what is watched while the machine is parked. -/
theorem callOut_alike {c d : Caller} (hc : W.Callers n c d) (f : Value) (args : List Value)
    {P Q : State → Prop} (hP : ∀ s, P s → ∃ w,
      W.Holds n w { s with machine := .idle, parked := some s.machine } ∧
        ∀ t, W.Holds n w t → t.parked.isSome ∧ Q (back s t)) :
    Act.Alike P (callOut c f args) (callOut d f args) (fun _ => Q)
      fun e s => W.allowed e.cause ∧ Q s := by
  intro s hs
  obtain ⟨w, hw, hback⟩ := hP s hs
  obtain ⟨e, hr⟩ := hc w f args _ hw
  unfold callOut
  refine ⟨by rw [e], ?_⟩
  generalize c f args { s with machine := .idle, parked := some s.machine } = r at hr
  match r, hr with
  | .ok v t, hr =>
    obtain ⟨hp, ht⟩ := hback t hr
    simp only [hp, if_true]
    exact ht
  | .error (.raised e) t, hr =>
    obtain ⟨hp, ht⟩ := hback t hr.2
    simp only [hp, if_true]
    exact ⟨hr.1, ht⟩
  | .error .exhausted t, _ => trivial

theorem onParked_keeps {α : Type} {a b : Run α}
    (h : ∀ s, W.Holds n w s → ∃ P : State → Prop,
      P { s with machine := s.parked.getD .idle, parked := none } ∧
        Act.Alike P a b
          (fun _ t => W.Holds n w { t with machine := s.machine, parked := some t.machine })
          fun e t => W.allowed e.cause ∧
            W.Holds n w { t with machine := s.machine, parked := some t.machine }) :
    W.KeepsRun n w (onParked a) (onParked b) := by
  intro s hs
  obtain ⟨P, hP, hab⟩ := h s hs
  obtain ⟨e, hr⟩ := hab _ hP
  unfold onParked
  refine ⟨by rw [e], ?_⟩
  generalize a { s with machine := s.parked.getD .idle, parked := none } = r at hr
  match r, hr with
  | .ok v t, hr => exact hr
  | .error (.raised e) t, hr => exact hr
  | .error .exhausted t, _ => trivial

/-- A probe with which an interpreter does the same and keeps what is watched, if its calls do. -/
structure Sound (W : Watch) (P : Probe) : Prop where
  around : ∀ {n c d}, W.Callers n c d → W.Callers n c (P.call n d)
  late : ∀ {n} {a b : LateCaller} {v args span},
    (∀ w, W.KeepsRun n w (a v args span) (b v args span)) →
      ∀ w, W.KeepsRun n w (a v args span) (P.late n b v args span)
  assign : ∀ n w v x, W.KeepsRun n w (Run.assign v x) (P.assign n v x)
  call : ∀ {n c d}, W.Callers n c d → ∀ w rounds id args,
    W.KeepsRun n w (onParked (executeBy (step c) rounds id args))
      (onParked (executeBy (P.step n d) rounds id args))
  form : ∀ {c d}, W.Callers 0 c d → ∀ w, W.Top w.1 → ∀ rounds {e p}, e.Parsed .bare [] .top →
    Proto.ofExpr "top-level" e = .ok p →
      W.KeepsRun 0 w (onParked (executeFormBy (step c) rounds p))
        (onParked (executeFormBy (P.step 0 d) rounds p))

theorem Sound.runs (hW : W.Exact) {P : Probe} (h : W.Sound P) : W.Runs fun _ => P where
  around hc := Callers.calls hW fun m => h.around (callers_of_calls hW hc m)
  late ha w := KeepsRun.value hW fun m =>
    h.late (fun _ => KeepsRun.of_value hW (fun w' _ => ha w') m) w
  assign n w v x := (Keeps.follows hW fun _ => h.assign n w v x).imp (fun _ _ _ _ e => e)
    fun _ _ _ _ e => fault_iff.mpr e
  call hc w rounds id args := KeepsRun.value hW fun m =>
    h.call (callers_of_calls hW hc m) w rounds id args
  form hc w ht rounds _ _ he hp := KeepsRun.value hW fun m =>
    h.form (callers_of_calls hW hc m) w ht rounds he hp

theorem assign_keeps (n : Nat) (w : State.Core × Nat) (v : Var) (x : Value) :
    W.KeepsRun n w (Run.assign v x) (Run.assign v x) := fun _ hs =>
  ⟨rfl, hs.inv, hs.literate, hs.rel, hs.depth⟩

/-- A probe that changes nothing but how instructions are executed. -/
theorem Sound.steps {step' : Caller → Nat → Run (Option Value)}
    (call : ∀ {n c d}, W.Callers n c d → ∀ w rounds id args,
      W.KeepsRun n w (onParked (executeBy (step c) rounds id args))
        (onParked (executeBy (step' d) rounds id args)))
    (form : ∀ {c d}, W.Callers 0 c d → ∀ w, W.Top w.1 → ∀ rounds {e p}, e.Parsed .bare [] .top →
      Proto.ofExpr "top-level" e = .ok p →
      W.KeepsRun 0 w (onParked (executeFormBy (step c) rounds p))
        (onParked (executeFormBy (step' d) rounds p))) : W.Sound (.steps step') where
  around h := h
  late h := h
  assign := assign_keeps
  call := call
  form := form

/-! ## Engines -/

theorem prepared_at {e : Expr} (he : e.Parsed .bare [] .top) {s : State} (hs : W.At n w s) :
    ∃ e' s', (State.prepared e : Run Expr) s = .ok e' s' ∧
      (∀ L, (State.prepared e : Run Expr) ((W.coupling n).at_ L (W.second s)) =
        .ok e' ((W.coupling n).at_ L (W.second s'))) ∧
      e'.Parsed (.storing W.good True) [] .top ∧ W.At n w s' := by
  have hprep : Traced.Yields e.annotate fun e' => e'.Parsed (.storing W.good True) [] .top := by
    refine (Expr.annotate_parsed (R := .bare) (T := .storing W.good True) (fun _ _ h => h.1)
      (fun sc f f' _ hc _ p hp => ?_) (fun h => h) (fun sc f p hf hc hp q hq => ?_)
      e he).imp fun _ h => h.1
    · rw [hc] at hp
      cases hp
    · cases hq
      exact W.stored sc f p hf hc hp
  unfold State.prepared
  by_cases hv : s.config.vmEnabled
  · have hv' : ∀ L, ((W.coupling n).at_ L (W.second s)).config.vmEnabled := fun _ => hv
    refine ⟨(e.annotate.run []).1, _, by rw [if_pos hv]; rfl, fun L => ?_, hprep [], ?_⟩
    · rw [if_pos (hv' L)]
      by_cases ht : s.config.traced
      · have ht' : ((W.coupling n).at_ L (W.second s)).config.traced := ht
        simp only [ht, ht', if_true]
        rfl
      · have ht' : ¬ ((W.coupling n).at_ L (W.second s)).config.traced := ht
        simp only [if_neg ht, if_neg ht']
        rfl
    · split
      · exact ⟨hs.inv, hs.literate, hs.core, hs.depth⟩
      · exact hs
  · have hv' : ∀ L, ¬ ((W.coupling n).at_ L (W.second s)).config.vmEnabled := fun _ => hv
    exact ⟨e, s, by rw [if_neg hv], fun L => by rw [if_neg (hv' L)], he.storing, hs⟩

theorem prepares : (W.coupling n).Prepares (W.lexical n) where
  mode := by
    rintro w s t ⟨rfl, _⟩
    rfl
  outermost _ := rfl
  bare he := ⟨(Expr.mapBytecode_id _).symm, he.storing⟩
  prepared := by
    intro short e he w
    refine .of_step fun s t hst => ?_
    obtain ⟨rfl, hs⟩ := hst
    obtain ⟨e', t', e₁, e₂, hp, ht'⟩ := prepared_at he hs
    exact ⟨w, e', e', t', _, (W.coupling n).refl w, e₁, fun _ L => e₂ L,
      ⟨(Expr.mapBytecode_id _).symm, hp⟩, rfl, ht'⟩

section Engines

variable {P : Nat → Probe} (hr : W.Runs P)

include hr

theorem apply_follows (level : Nat) (ih : ∀ n, (W.coupling n).Engines (W.lexical n) (fun _ => True)
      (Engine.ofFuel level) fun m => Engine.probed (P m) level n) (f : Value) (args : List Value) :
    (W.coupling n).Follows (fun _ => True) (W.coupling n).value (W.coupling n).fault w
      (f.apply (Engine.ofFuel level) args) fun m =>
        Engine.applyWithin (Engine.probed (P m) level) n f args := by
  have hargs : (W.coupling n).values w args args := values_iff.mpr rfl
  cases f with
  | fn i name =>
    refine Coupling.callFunction_follows (W.descent n) shared (ih (n + 1)) (value_iff.mpr rfl) ?_
      hargs
    rintro s t ⟨rfl, hs⟩
    cases hg : s.store.functions[i]? with
    | none => exact .inl ⟨rfl, hg, hg⟩
    | some g =>
      obtain ⟨sc, hp⟩ := hs.literate i g hg
      obtain ⟨f, k⟩ := g
      refine .inr ⟨f, k, k, sc, ?_, hg, hp, rfl⟩
      show _ = some (⟨f.mapBytecode id, k⟩ : Function)
      rw [FnLiteral.mapBytecode_id]
      exact hg
  | closure i name =>
    simp only [Engine.applyWithin, Value.apply, Engine.ofFuel, Engine.cycle_equipped,
      Engine.cycle_probed, Engine.rounds_equipped, Engine.rounds_probed]
    exact hr.call (ih n).call w _ i args
  | _ =>
    exact Coupling.apply_follows shared (ih n) (value_iff.mpr rfl) hargs fun hf =>
      absurd hf Bool.noConfusion

theorem engines (level n : Nat) :
    (W.coupling n).Engines (W.lexical n) (fun _ => True) (Engine.ofFuel level)
      fun m => Engine.probed (P m) level n := by
  induction level generalizing n with
  | zero =>
    exact {
      first := rfl
      second := fun _ => rfl
      call := fun w f g xs ys _ _ => .exhausted fun _ _ _ => rfl
      late := fun _ w v args span _ => .exhausted fun _ _ _ => rfl
      assign := fun w v x y h => by
        cases value_iff.mp h
        exact hr.assign n w v x
      enough := ⟨0, fun _ _ => Nat.le_refl 0⟩
      few := fun _ _ => Nat.le_refl 0
      prompt := fun _ => .inl (Nat.le_refl 0) }
  | succ level ih =>
    refine ⟨rfl, fun _ => rfl, ?_, fun _ w v args span ha => ?_, fun w v x y h => ?_, ⟨0, fun _ _ => Nat.le_refl level⟩,
      fun _ _ => Nat.le_refl level, fun _ => .inl (Nat.le_refl level)⟩
    · refine hr.around fun w f g xs ys hf hx => ?_
      cases value_iff.mp hf
      cases values_iff.mp hx
      exact apply_follows hr level ih f xs
    · exact hr.late (fun w => Coupling.lateCall_follows shared (ih n) prepares trivial v ha span w) w
    · cases value_iff.mp h
      exact hr.assign n w v x

/-! ## Whole forms -/

/-- Failures of a program text: what the machine raises is such as the watch admits. -/
def admitsFailure (W : Watch) (f : Failure) : Prop := ∀ e, f = .runtime e → W.allowed e.cause

omit hr in
theorem reportFallback_follows {short : Nat → Prop} (e : CompileError) :
    (W.coupling n).Follows short (W.same n) (W.coupling n).fault w (Session.reportFallback e)
      fun _ => Session.reportFallback e := by
  refine .update (fun s t hst => ?_) fun L t => ?_
  · obtain ⟨rfl, hs⟩ := hst
    refine ⟨w, (W.coupling n).refl w, ?_, rfl⟩
    by_cases ht : s.config.traced
    · have ht' : (W.second s).config.traced := ht
      simp only [if_pos ht, if_pos ht']
      exact ⟨rfl, hs.inv, hs.literate, hs.core, hs.depth⟩
    · have ht' : ¬ (W.second s).config.traced := ht
      simp only [if_neg ht, if_neg ht']
      exact ⟨rfl, hs⟩
  · by_cases ht : t.config.traced
    · have ht' : ((W.coupling n).at_ L t).config.traced := ht
      simp only [if_pos ht, if_pos ht']
      rfl
    · have ht' : ¬ ((W.coupling n).at_ L t).config.traced := ht
      simp only [if_neg ht, if_neg ht']

theorem texts (level : Nat) (ht : W.Top w.1) :
    (W.coupling 0).Texts (fun _ => True) (Engine.ofFuel level)
      (fun m => Engine.probed (P m) level 0) w where
  form {w'} _ _ hw he hp := by
    simp only [Engine.ofFuel, Engine.cycle_equipped, Engine.rounds_equipped, Engine.cycle_probed,
      Engine.rounds_probed]
    exact hr.form (engines hr level 0).call w' (W.top_mono hw.1 ht) _ he hp
  report _ := reportFallback_follows

theorem evalSource_follows (level : Nat) (source : String) (ht : W.Top w.1) :
    (W.coupling 0).Follows (fun _ => True) (W.same 0) (W.admits 0 W.admitsFailure) w
      (Session.evalSource level source) fun m =>
        Session.evalSourceBy (Engine.probed (P m) level 0) source :=
  (Coupling.evalSource_follows shared (engines hr level 0) prepares (texts hr level ht) source).imp
    (fun _ _ _ _ h => value_iff.mp h) fun _ _ _ _ h => literal.failure trivial h

end Engines

/-! ## Interpreters that do the same -/

section Exact

variable (hW : W.Exact) {P : Probe} (hP : W.Sound P)

include hW hP

theorem call_keeps (level n : Nat) :
    W.Callers n (Engine.ofFuel level).call (Engine.probed P level n).call :=
  callers_of_calls hW (engines (hP.runs hW) level n).call 0

theorem evalSource_keeps (level : Nat) (source : String) (ht : W.Top w.1) :
    W.Keeps 0 W.admitsFailure w (Session.evalSource level source)
      (Session.evalSourceBy (Engine.probed P level 0) source) :=
  Keeps.of_follows hW (fun _ hw => evalSource_follows (hP.runs hW) level source
    (W.top_mono hw.1 ht)) 0

end Exact

end Watch

end TwinLisp
