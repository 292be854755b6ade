import TwinLisp.Proofs.Variables.Coupled

/-! Whole programs on both machines. Interpreters side by side come to the same, text by text, and
whatever is observed between two instructions on the way is the same on both machines.

* `Observed.engines`: calls of values, by engines of the same level.
* `Beside`, `Resting`: interpreters side by side, inside calls and between two texts.
* `variables_are_cells`: what the slots and the cells of the machine have to do with variables. -/

namespace TwinLisp

namespace Machine.Ideal

open Act Typed

variable {limits : Limits} {maxDepth n : Nat} {w : Place} {s t : State}
  {step₁ step₂ : Caller → Nat → Run (Option Value)}

/-! ## Engines -/

section Engines

variable (hobs : Observed step₁ step₂) {L : Locals} (hL : OnFrames L)

include hobs

theorem Observed.apply_follows (level : Nat)
    (ih : ∀ n, (coupling limits maxDepth n).Engines (lexical hL limits maxDepth n) (fun _ => True)
      (Engine.built L Run.assign step₁ level) fun _ => Engine.built L Run.assign step₂ level)
    (f : Value) (args : List Value) :
    (coupling limits maxDepth n).Follows (fun _ => True) (coupling limits maxDepth n).value
      (coupling limits maxDepth n).fault w
      (f.apply (Engine.built L Run.assign step₁ level) args) fun _ =>
        f.apply (Engine.built L Run.assign step₂ level) args := by
  have hargs : (coupling limits maxDepth n).values w args args := values_iff.mpr rfl
  cases f with
  | fn i name =>
    refine Coupling.callFunction_follows (descent hL limits maxDepth n) shared (ih (n + 1))
      (value_iff.mpr rfl) ?_ hargs
    intro s t h
    have hfunctions : t.store.functions = s.store.functions := by rw [h.mirrors.store]
    cases hg : s.store.functions[i]? with
    | none => exact .inl ⟨rfl, hg, hfunctions ▸ hg⟩
    | some g =>
      obtain ⟨sc, hp⟩ := h.first.literate i g hg
      obtain ⟨f, k⟩ := g
      refine .inr ⟨f, k, k, sc, ?_, hfunctions ▸ hg, hp, rfl⟩
      show _ = some (⟨f.mapBytecode id, k⟩ : Function)
      rw [FnLiteral.mapBytecode_id]
      exact hg
  | closure i name =>
    simp only [Value.apply, Engine.cycle_built, Engine.rounds_built]
    exact follows_of_reflects (call_reflects hobs (answers_of_calls (ih n).call) _ i args)
  | _ =>
    exact Coupling.apply_follows shared (ih n) (value_iff.mpr rfl) hargs fun hf =>
      absurd hf Bool.noConfusion

theorem Observed.engines (level n : Nat) :
    (coupling limits maxDepth n).Engines (lexical hL limits maxDepth n) (fun _ => True)
      (Engine.built L Run.assign step₁ level) fun _ =>
        Engine.built L Run.assign step₂ level := by
  have hassign : ∀ (n : Nat) (w : Place) (v : Var) (x y : Value),
      (coupling limits maxDepth n).value w x y →
      (coupling limits maxDepth n).Follows (fun _ => True) (coupling limits maxDepth n).same
        (coupling limits maxDepth n).fault w (Run.assign v x) fun _ => Run.assign v y :=
    fun _ w v _ _ h => shared.assign w v h fun hst hc => related_of_common hst rfl rfl hc
  induction level generalizing n with
  | zero =>
    exact {
      first := rfl
      second := fun _ => rfl
      call := fun w f g xs ys _ _ => .exhausted fun _ _ _ => rfl
      late := fun _ w v args span _ => .exhausted fun _ _ _ => rfl
      assign := hassign n
      enough := ⟨0, fun _ _ => Nat.le_refl 0⟩
      few := fun _ _ => Nat.le_refl 0
      prompt := fun _ => .inl (Nat.le_refl 0) }
  | succ level ih =>
    refine ⟨rfl, fun _ => rfl, fun w f g xs ys hf hx => ?_, fun _ w v args span ha => ?_, hassign n,
      ⟨0, fun _ _ => Nat.le_refl level⟩, fun _ _ => Nat.le_refl level,
      fun _ => .inl (Nat.le_refl level)⟩
    · cases value_iff.mp hf
      cases values_iff.mp hx
      exact hobs.apply_follows hL level ih f xs
    · exact Coupling.lateCall_follows shared (ih n) (prepares hL) trivial v ha span w

include hL in
theorem Observed.texts (level : Nat) (ht : Restored idle (w.core.parked.getD idle)) :
    (coupling limits maxDepth 0).Texts (fun _ => True) (Engine.built L Run.assign step₁ level)
      (fun _ => Engine.built L Run.assign step₂ level) w where
  form {w'} _ _ hw he hp := by
    have htop : (intact limits maxDepth).Top w'.core := ht.trans hw.core.restored
    simp only [Engine.cycle_built, Engine.rounds_built]
    exact follows_of_reflects (form_reflects hobs (answers_of_calls (hobs.engines hL level 0).call)
      htop _ (.form he hp) (Proto.wellFormed_of_ofExpr he hp).2.1)
  report w' e := report_follows (w := w') e

include hL in
theorem Observed.call (h : Meeting limits maxDepth n w s t) (level : Nat) (f : Value)
    (args : List Value) :
    Joint (fun u v s t => v = u ∧ Met limits maxDepth n w s t) (Met limits maxDepth n w)
      ((Engine.built L Run.assign step₁ level).call f args s)
      ((Engine.built L Run.assign step₂ level).call f args t) :=
  joint_of_follows (fun _ _ _ => value_iff.mp) (fun _ _ _ => fault_iff.mp)
    ((hobs.engines hL level n).call w f f args args (value_iff.mpr rfl) (values_iff.mpr rfl)) h

include hL in
theorem Observed.source (h : Meeting limits maxDepth 0 w s t)
    (ht : Restored idle (w.core.parked.getD idle)) (level : Nat) (source : String) :
    Joint (fun u v s t => v = u ∧ Met limits maxDepth 0 w s t) (Met limits maxDepth 0 w)
      (Session.evalSourceBy (Engine.built L Run.assign step₁ level) source s)
      (Session.evalSourceBy (Engine.built L Run.assign step₂ level) source t) :=
  joint_of_follows (fun _ _ _ => value_iff.mp) (fun _ _ _ he => (literal.failure trivial he).1)
    (Coupling.evalSource_follows shared (hobs.engines hL level 0) (prepares hL)
      (hobs.texts hL level ht) source)
    h

end Engines

/-! ## Interpreters side by side -/

/-- Interpreters side by side, inside a number of calls of interpreted functions. The first is coherent,
and its machine holds the variables of that of the second. -/
def Beside (n : Nat) (s t : State) : Prop := Coherent n s ∧ ∃ ρ fs', Mirrors ρ fs' s t

/-- Interpreters side by side between two texts. -/
def Resting (s t : State) : Prop := Quiet s ∧ ∃ ρ, Mirrors ρ #[] s t

theorem Met.beside (h : Met limits maxDepth n w s t) : Beside n s t := by
  obtain ⟨w', -, hm⟩ := h
  exact ⟨coherent_of_holds hm.first.holds, w'.cells, w'.frames, hm.mirrors⟩

theorem Beside.meeting (h : Beside n s t) :
    ∃ w, Meeting s.config.limits s.config.maxDepth n w s t := by
  obtain ⟨hs, ρ, fs', hm⟩ := h
  exact ⟨⟨s.core, s.depth, ρ, fs'⟩, hs.holds.at, hm⟩

theorem Mirrors.idle {ρ : List Nat} (h : Mirrors ρ #[] s t) (hs : Restored idle (s.parked.getD idle)) :
    Doubles ρ (Shown #[]) 0 s.store t.store idle idle where
  store := h.doubles.store
  steps := rfl
  peak := rfl
  openCells := rfl
  linked := hs.openCells ▸ h.doubles.linked
  size := rfl
  stack := fun _ _ => rfl
  functions := h.doubles.functions
  closures := h.doubles.closures
  slots := { h.doubles.slots with
    shown := fun ⟨_, ha, _⟩ => absurd ha (Array.not_mem_empty _)
    closed := fun hi =>
      have ⟨j, hj, hv, _⟩ := h.doubles.slots.closed hi
      ⟨j, hj, hv, fun x hx => absurd hx (Nat.not_lt_zero x)⟩ }

theorem recast_define (owner : Nat) (C : Array Cell) (K : Array Closure) (P : Option Machine)
    (s : State) (ops : List Native) :
    State.define owner (s.recast C K P) ops = (State.define owner s ops).recast C K P := by
  induction ops generalizing s with
  | nil => rfl
  | cons op rest ih =>
    let new := s.store.newVar coreNamespace op.text
    exact ih { s with
      store := new.2.setVar new.1 (.native owner op)
      names := s.names.add new.1 }

theorem mirrors_fresh {ρ : List Nat} {k k' : Store}
    (h : Doubles ρ (Shown #[]) 0 k k' Machine.idle Machine.idle) (config : Config) :
    Mirrors ρ #[] (State.fresh k config) (State.fresh k' config) := by
  have howners : k'.owners = k.owners := by rw [h.store]
  have hstore : { k' with owners := k.owners + 1 } = { k with
      cells := k'.cells
      closures := k'.closures
      owners := k.owners + 1 } :=
    congrArg (fun l : Store => { l with owners := k.owners + 1 }) h.store
  have hbare : Mirrors ρ #[] (State.bare { k with owners := k.owners + 1 } config)
      (State.bare { k' with owners := k.owners + 1 } config) := {
    rest := rfl
    there := rfl
    frames := rfl
    stacked := .nil
    doubles := { h with store := hstore } }
  have hdefine := hbare.act (f := (State.define k.owners · Native.all)) fun C K P s =>
    recast_define k.owners C K P s Native.all
  unfold State.fresh
  rw [howners]
  exact hdefine

namespace Resting

theorem first (config : Config) : Resting (State.fresh .empty config) (State.fresh .empty config) := by
  refine ⟨(Reached.first config).quiet, [], mirrors_fresh ?_ config⟩
  exact {
    store := rfl
    steps := rfl
    peak := rfl
    openCells := rfl
    linked := ⟨Sound.nil, nofun⟩
    size := rfl
    stack := fun _ _ => rfl
    functions := rfl
    closures := nofun
    slots := {
      length := rfl
      nodup := List.nodup_nil
      unique := fun ⟨_, ha, _⟩ => absurd ha (Array.not_mem_empty _)
      apart := fun ⟨_, ha, _⟩ => absurd ha (Array.not_mem_empty _)
      shown := fun ⟨_, ha, _⟩ => absurd ha (Array.not_mem_empty _)
      live := nofun
      closed := nofun } }

variable (h : Resting s t)

include h

theorem another (config : Config) :
    Resting (State.fresh s.store config) (State.fresh t.store config) := by
  obtain ⟨hq, ρ, hm⟩ := h
  exact ⟨hq.another config, ρ, mirrors_fresh (hm.idle hq.rest) config⟩

theorem inMode (m : Mode) : Resting { s with mode := m } { t with mode := m } := by
  obtain ⟨hq, ρ, hm⟩ := h
  exact ⟨hq.inMode m, ρ, hm.act (f := fun s => { s with mode := m }) fun _ _ _ _ => rfl⟩

theorem source (hobs : Observed step₁ step₂) {L : Locals} (hL : OnFrames L) (level : Nat)
    (source : String) :
    Joint (fun u v s t => v = u ∧ Resting s t) Resting
      (Session.evalSourceBy (Engine.built L Run.assign step₁ level) source s)
      (Session.evalSourceBy (Engine.built L Run.assign step₂ level) source t) := by
  obtain ⟨hq, ρ, hm⟩ := h
  let w : Place := ⟨s.core, s.depth, ρ, #[]⟩
  have hst : Meeting s.config.limits s.config.maxDepth 0 w s t := ⟨hq.coherent.holds.at, hm⟩
  have hrest : ∀ s' t', Met s.config.limits s.config.maxDepth 0 w s' t' → Resting s' t' := by
    intro s' t' h
    obtain ⟨hs, ρ', -, hm'⟩ := h.holds
    exact ⟨⟨coherent_of_holds hs, hq.rest.trans hs.rel.restored⟩, ρ', hm'⟩
  exact (hobs.source hL hst hq.rest level source).imp (fun _ _ s' t' h => ⟨h.1, hrest s' t' h.2⟩) hrest

end Resting

/-- Variables of the machine are cells that functions share. An interpreter on the machine and one on the
ideal machine come to the same in all texts, whatever their modes are, and in all calls, at any depth
of calls; so they do if instructions are executed in other ways that are the usual ones, after some
text has been printed, wherever the machine is faithful. So whatever is executed on the way, in any
calls within calls, finds it faithful, and what is read from a slot or through a captured variable is
what was last stored to that variable. Both remain side by side however a call or a text ends. -/
theorem variables_are_cells (h : Observed step₁ step₂) (level : Nat) :
    (∀ config, Resting (State.fresh .empty config) (State.fresh .empty config)) ∧
    (∀ {s t}, Resting s t →
      (∀ config, Resting (State.fresh s.store config) (State.fresh t.store config)) ∧
      (∀ m, Resting { s with mode := m } { t with mode := m }) ∧
      ∀ source, Joint (fun u v s t => v = u ∧ Resting s t) Resting
        (Session.evalSourceBy (Engine.equipped Run.assign step₁ level) source s)
        (Session.evalSourceBy (Engine.equipped Run.assign step₂ level) source t)) ∧
    ∀ {n s t}, Beside n s t → ∀ f args,
      Joint (fun u v s t => v = u ∧ Beside n s t) (Beside n)
        ((Engine.equipped Run.assign step₁ level).call f args s)
        ((Engine.equipped Run.assign step₂ level).call f args t) := by
  refine ⟨.first, fun hr => ⟨hr.another, hr.inMode, hr.source h onFrames_framed level⟩, fun hb f args => ?_⟩
  obtain ⟨w, hst⟩ := hb.meeting
  exact (h.call onFrames_framed hst level f args).imp (fun _ _ _ _ hq => ⟨hq.1, hq.2.beside⟩)
    fun _ _ hq => hq.beside

theorem observed_usual : Observed Machine.step step := fun {_ s t} _ => by
  have hnone : ∀ s : State, s.printing "" = s := fun s => by
    rw [State.printing, String.append_empty]
  exact ⟨"", fun c c' => by rw [hnone, hnone]; exact ⟨rfl, rfl⟩⟩

/-- Two functions that share a variable, in bytecode mode. -/
theorem variables_of_counter_are_cells :
    Observed Machine.step step ∧
    Joint (fun u v s t => v = u ∧ Resting s t) Resting
      (Session.evalSourceBy (Engine.equipped Run.assign Machine.step 99)
        "((fn [n] (do (def up (fn [] (set! n (+ n 1)))) (def at (fn [] n)) (up) (at))) 1)"
        { State.fresh .empty .standard with mode := .bytecode })
      (Session.evalSourceBy (Engine.equipped Run.assign step 99)
        "((fn [n] (do (def up (fn [] (set! n (+ n 1)))) (def at (fn [] n)) (up) (at))) 1)"
        { State.fresh .empty .standard with mode := .bytecode }) := by
  have h := variables_are_cells observed_usual 99
  have hfresh := (h.2.1 (h.1 .standard)).2.1 .bytecode
  exact ⟨observed_usual, (h.2.1 hfresh).2.2 _⟩

end Machine.Ideal

end TwinLisp
