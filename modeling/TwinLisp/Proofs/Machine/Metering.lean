import TwinLisp.Proofs.Machine.Blind
import TwinLisp.Proofs.Machine.Survival

/-! An interpreter with a budget of instructions, or none, beside one with an allowance, from which
every instruction that takes effect takes one and to which nothing ever gives back. What is left of
the allowance is what the first has not yet spent. When nothing is left, the second does what the
first does, or it stops for good.

* `spend`, `spending`: instructions that are taken from the allowance.
* `allowance`, `Trails`: the machine at work, instruction by instruction.
* `metering`: the watch for calls that leave the machine and come back to it.
* `Execution.trails`, `onParked_follows`: whole runs, and runs inside such calls. -/

namespace TwinLisp

/-- The state with another budget of instructions. -/
def State.budgeted (b : Option Nat) (s : State) : State :=
  s.limited fun l => { l with stepBudget := b }

namespace Machine

open Act

/-! ## Executions -/

/-- A call of a compiled function, or a whole form. -/
inductive Execution
  | call (id : Nat) (args : List Value)
  | form (p : Proto)

namespace Execution

/-- The execution with some way to execute an instruction. -/
def perform (cycle : Nat → Run (Option Value)) (rounds : Nat) : Execution → Run Value
  | call id args => executeBy cycle rounds id args
  | form p => executeFormBy cycle rounds p

/-- The execution in an interpreter with some way to execute an instruction. -/
def run (step' : Caller → Nat → Run (Option Value)) (level rounds : Nat) (e : Execution) :
    Run Value :=
  e.perform (step' (Engine.equipped Run.assign step' level).call) rounds

end Execution

/-! ## Allowances -/

/-- Counts an instruction and takes it from the allowance. When nothing is left of it, `out` is what
happens. -/
def spend (out : Run Unit) : Run Unit := do
  Act.update fun s => s.mapMachine fun m => { m with steps := m.steps + 1 }
  match ← Act.ask fun s => s.config.limits.stepBudget with
  | some (left + 1) => Act.update (State.budgeted (some left))
  | _ => out

/-- One instruction, taken from the allowance. -/
def spending (out : Run Unit) (call : Caller) (entry : Nat) : Run (Option Value) := do
  let a ← running
  Act.within (.ofLine (line a)) do
    spend out
    let i ← Run.ofFault (a.closure.proto.chunk.fetch a.ip)
    goTo i.next
    exec call entry a i

/-- What happens at the end of a budget. -/
def atEnd : Option Nat → Run Unit
  | none => pure ()
  | some budget => Run.fail (.stepBudgetExhausted budget)

/-- What happens at the end of an allowance: without fuel everything stops. -/
def ending (b : Option Nat) : (fuel : Nat) → Run Unit
  | 0 => Act.exhausted
  | _ + 1 => atEnd b

/-! ## The machine at work -/

/-- An interpreter with a budget, or none, beside one with an allowance, the machine at work.
A world is a count of instructions; beyond the allowance the second may have stopped. -/
def allowance (b : Option Nat) (B : Nat) : Coupling where
  toNearness := .same
  World := Nat
  le v w := v ≤ w
  refl := Nat.le_refl
  trans := Nat.le_trans
  ext _ ρ := ρ = .id
  plain _ := ⟨_, rfl, Renaming.plain_id⟩
  anti _ h := h
  limits _ := id
  related w s t := s.machine.steps = w ∧ s.config.limits.stepBudget = b ∧
    t = s.budgeted (some (B - w))
  spent _ _ _ := True
  spent_anti _ h := h
  lags w m := m = 0 ∧ B < w
  lags_mono h hl := ⟨hl.1, Nat.lt_of_lt_of_le hl.2 h⟩
  spent_of_related _ _ := trivial
  spent_of_lags _ _ _ _ := trivial
  allowed _ := True
  allowed_of_plain _ := trivial
  allowed_thrown _ _ := trivial

variable {b : Option Nat} {B : Nat} {α β : Type} {P : State → Prop}

/-- From states with a property, an action has the outcome it has with the allowance. -/
def Trails (b : Option Nat) (B : Nat) (P : State → Prop) (a : Run α) (a' : Nat → Run α) : Prop :=
  ∀ w s t, (allowance b B).related w s t → P s →
    (allowance b B).Match (fun _ => True) (allowance b B).same (allowance b B).same w (a s)
      fun m _ => a' m t

namespace Trails

theorem pre {Q : State → Prop} {a : Run α} {a' : Nat → Run α} (h : Trails b B P a a')
    (hQ : ∀ s, Q s → P s) : Trails b B Q a a' := fun w s t hst hs => h w s t hst (hQ s hs)

theorem bind {a : Run α} {a' : Nat → Run α} (h : Trails b B P a a') {Q : α → State → Prop}
    {R : RuntimeError → State → Prop} (hQ : Meets P a Q R) {f : α → Run β} {f' : Nat → α → Run β}
    (hf : ∀ x, Trails b B (Q x) (f x) fun m => f' m x) :
    Trails b B P (a >>= f) fun m => a' m >>= f' m := by
  intro w s t hst hs
  refine (h w s t hst hs).bind fun w' x y s' t' _ hx hst' e => ?_
  cases hx
  have hpost := (hQ s hs).2
  rw [e] at hpost
  exact hf x w' s' t' hst' hpost

theorem before {a : Run α} {a' : Nat → Run α} (h : Trails b B P a a') {f : α → Run β}
    {f' : Nat → α → Run β} (hf : ∀ x, Trails b B (fun _ => True) (f x) fun m => f' m x) :
    Trails b B P (a >>= f) fun m => a' m >>= f' m :=
  fun w s t hst hs => (h w s t hst hs).bind fun w' x _ s' t' _ hx hst' _ => by
    cases hx
    exact hf x w' s' t' hst' trivial

theorem within {a : Run α} {a' : Nat → Run α} (h : Trails b B P a a') (span : Span) :
    Trails b B P (Act.within span a) fun m => Act.within span (a' m) := by
  intro w s t hst hs
  exact (h w s t hst hs).mapFault fun _ _ _ he => by rw [he]; rfl

theorem blind {a : Run α} (ha : ∀ ν, Blind ν a) : Trails b B P a fun _ => a := by
  rintro w s t ⟨rfl, rfl, rfl⟩ -
  have hsame := ha ⟨id, id, fun _ => s.config.limits.stepBudget, fun _ => s.machine.steps, id, id⟩ s
  have hthere := ha { budget := fun _ => some (B - s.machine.steps) } s
  change a s = _ at hsame
  change a (s.budgeted (some (B - s.machine.steps))) = _ at hthere
  simp only [hthere]
  generalize a s = r at hsame
  match r with
  | .ok x s' =>
    have hs' : s' = _ := (EStateM.Result.ok.inj hsame).2
    refine .ok (Nat.le_refl _) rfl (t := s'.budgeted (some (B - s.machine.steps)))
      ⟨by rw [hs']; rfl, by rw [hs']; rfl, rfl⟩ (.of_eq fun _ _ => rfl)
  | .error (.raised e) s' =>
    have hs' : s' = _ := (EStateM.Result.error.inj hsame).2
    refine .raised (Nat.le_refl _) rfl (t := s'.budgeted (some (B - s.machine.steps)))
      ⟨by rw [hs']; rfl, by rw [hs']; rfl, rfl⟩ (.of_eq fun _ _ => rfl)
  | .error .exhausted s' => exact .exhausted (.inr fun _ _ => ⟨0, fun _ _ => ⟨_, rfl, trivial⟩⟩)

end Trails

/-- The state with one more instruction counted. -/
def begun (s : State) : State := s.mapMachine fun m => { m with steps := m.steps + 1 }

theorem tick_within {s : State} (h : ∀ budget ∈ s.config.limits.stepBudget,
    s.machine.steps < budget) : tick s = .ok () (begun s) := by
  unfold tick
  simp only [Act.bind_apply, Act.update, Act.ask]
  change (match s.config.limits.stepBudget with
    | none => _
    | some budget => _ : Run Unit) (begun s) = _
  cases hb : s.config.limits.stepBudget with
  | none => rfl
  | some budget =>
    have hlt : ¬ (begun s).machine.steps > budget := Nat.not_lt.mpr (h budget hb)
    simp only [Act.bind_apply, Act.ask, if_neg hlt]
    rfl

theorem tick_beyond {s : State} {budget : Nat} (hb : s.config.limits.stepBudget = some budget)
    (h : budget ≤ s.machine.steps) :
    tick s = .error (.raised (RuntimeFault.bare (.stepBudgetExhausted budget))) (begun s) := by
  unfold tick
  simp only [Act.bind_apply, Act.update, Act.ask]
  change (match s.config.limits.stepBudget with
    | none => _
    | some budget => _ : Run Unit) (begun s) = _
  rw [hb]
  have hlt : (begun s).machine.steps > budget := Nat.lt_succ_of_le h
  simp only [Act.bind_apply, Act.ask, if_pos hlt]
  rfl

/-- What remains of an allowance for which there is nothing left. -/
theorem settles_spend {w : Nat} (hw : B ≤ w) {t : State}
    {r : Nat → EStateM.Result (Stop RuntimeError) State Unit}
    (hr : ∀ L, spend (atEnd b) t = r L) (hs : ∃ t', spend Act.exhausted t = .error .exhausted t') :
    (allowance b B).Settles (w + 1) (fun m _ => spend (ending b m) t) r := by
  refine ⟨1, fun L _ => ⟨fun m => ?_, fun m hm => ?_⟩⟩
  · cases m with
    | zero => exact .inr ⟨⟨rfl, Nat.lt_succ_of_le hw⟩, hs⟩
    | succ m => exact .inl (hr L)
  · cases m with
    | zero => exact absurd hm (by decide)
    | succ m => exact hr L

/-- An instruction is counted against the budget and taken from the allowance. -/
theorem tick_trails (hb : ∀ k ∈ b, k = B) : Trails b B P tick fun m => spend (ending b m) := by
  rintro w s t ⟨rfl, rfl, rfl⟩ -
  by_cases hlt : s.machine.steps < B
  · obtain ⟨left, hleft⟩ : ∃ left, B - s.machine.steps = left + 1 :=
      ⟨B - s.machine.steps - 1, by omega⟩
    have hleft' : B - (s.machine.steps + 1) = left := by omega
    rw [tick_within fun k hk => by rw [hb k hk]; exact hlt, hleft]
    refine .ok (Nat.le_succ _) rfl ⟨rfl, rfl, rfl⟩ (.of_eq fun _ _ => ?_)
    rw [hleft']
    rfl
  · have hnone : B - s.machine.steps = 0 := by omega
    have hnone' : B - (s.machine.steps + 1) = 0 := by omega
    have hle : B ≤ s.machine.steps := Nat.le_of_not_lt hlt
    rw [hnone]
    cases hbudget : s.config.limits.stepBudget with
    | none =>
      rw [tick_within fun k hk => by rw [hbudget] at hk; cases hk]
      refine .ok (Nat.le_succ _) rfl ⟨rfl, hbudget, rfl⟩ (settles_spend hle (fun _ => ?_) ⟨_, rfl⟩)
      rw [hnone']
      rfl
    | some k =>
      have hk := hb k hbudget
      rw [tick_beyond hbudget (by omega)]
      refine .raised (Nat.le_succ _) rfl ⟨rfl, hbudget, rfl⟩
        (settles_spend hle (fun _ => ?_) ⟨_, rfl⟩)
      rw [hnone']
      rfl

/-! ## What is watched -/

/-- A machine is parked in the middle of its work, with a budget or none. -/
structure Attended (b : Option Nat) (k : State.Core) : Prop where
  machine : k.machine = idle
  budget : k.limits.stepBudget = b
  parked : ∃ m, k.parked = some m ∧ m.Regular k.limits k.cells ∧ m.frames ≠ #[]

/-- How many instructions the parked machine has counted. -/
def counted (k : State.Core) : Nat := (k.parked.getD idle).steps

/-- The watch for a machine with a budget beside one with an allowance. -/
def metering (b : Option Nat) (B : Nat) : Watch where
  Inv _ k _ := Attended b k
  enter h _ := h
  leave h := h
  Rel k l := SameFrames k l ∧ counted k ≤ counted l
  refl _ := ⟨survival.refl _, Nat.le_refl _⟩
  trans h h' := ⟨survival.trans h.1 h'.1, Nat.le_trans h.2 h'.2⟩
  good _ _ _ := True
  stored _ _ _ _ _ _ := trivial
  make h _ := ⟨⟨h.machine, h.budget, h.parked⟩, ⟨rfl, rfl, fun hs => hs⟩, Nat.le_refl _⟩
  allowed _ := True
  allowed_of_plain _ := trivial
  allowed_thrown _ _ := trivial
  Top _ := False
  top_mono _ h := h
  limits l m := { l with stepBudget := some (B - (m.getD idle).steps) }
  lags k m := m = 0 ∧ B < counted k
  lags_mono h hl := ⟨hl.1, Nat.lt_of_lt_of_le hl.2 h.2⟩

theorem metering_spent {n : Nat} (w : State.Core × Nat) (s t : State) :
    ((metering b B).coupling n).spent w s t :=
  .inl ⟨⟨#[], #[], s.config.limits, 0, idle, some { idle with steps := B + 1 }⟩, 0, rfl,
    Nat.lt_succ_self B⟩

variable {n : Nat} {c : Caller} {d : Nat → Caller}
  {L : Limits} {fs pre : Array Activation} {base depth k : Nat}

/-- A call that leaves the machine comes back to it with what is left of the allowance. -/
theorem callOut_trails (hc : ((metering b B).coupling n).Calls (fun _ => True) c d) (hfs : fs ≠ #[])
    (f : Value) (args : List Value) :
    Trails b B (Steady L fs k) (callOut c f args) fun m => callOut (d m) f args := by
  rintro w s t ⟨rfl, hb, rfl⟩ h
  let s₀ : State := { s with machine := .idle, parked := some s.machine }
  have hat : (metering b B).At n (s₀.core, s₀.depth) s₀ := by
    refine ⟨⟨rfl, hb, s.machine, rfl, ?_, ?_⟩, h.literate, rfl, rfl⟩
    · show s.machine.Regular s.config.limits s.store.cells
      rw [h.limits]
      exact h.regular
    · rw [h.frames]
      exact hfs
  have hcall := hc (s₀.core, s₀.depth) f f args args (Watch.value_iff.mpr rfl)
    (Watch.values_iff.mpr rfl) s₀ _ ⟨rfl, hat⟩
  have hback : ∀ {w' : State.Core × Nat} {s' : State}, (metering b B).At n w' s' →
      s'.parked.isSome ∧ (allowance b B).related (counted w'.1) (back s s')
        (back (s.budgeted (some (B - s.machine.steps))) ((metering b B).second s')) := by
    intro w' s' hs'
    have hinv : Attended b s'.core := hs'.inv
    obtain ⟨m, hm, -, -⟩ := hinv.parked
    have hm : s'.parked = some m := hm
    rw [← hs'.core]
    exact ⟨by rw [hm]; rfl, rfl, hinv.budget, rfl⟩
  -- what the machine does with an outcome of the second
  let after : Nat → EStateM.Result (Stop RuntimeError) State Value →
      EStateM.Result (Stop RuntimeError) State Value := fun _ r =>
    callOut (fun _ _ _ => r) f args (s.budgeted (some (B - s.machine.steps)))
  unfold callOut
  generalize c f args s₀ = r at hcall
  cases hcall with
  | ok hw hx hs' hc' =>
    obtain ⟨rfl, hs'⟩ := hs'
    obtain ⟨hp, hr⟩ := hback hs'
    cases Watch.value_iff.mp hx
    simp only [hp, if_true]
    refine .ok hw.1.2 rfl hr (hc'.carry (fun _ hl => hl) after (fun _ L => ?_) fun _ t => ⟨_, rfl⟩)
    exact if_pos hp
  | raised hw he hs' hc' =>
    obtain ⟨rfl, hs'⟩ := hs'
    obtain ⟨hp, hr⟩ := hback hs'
    cases (Watch.fault_iff.mp he).1
    simp only [hp, if_true]
    refine .raised hw.1.2 rfl hr
      (hc'.carry (fun _ hl => hl) after (fun _ L => ?_) fun _ t => ⟨_, rfl⟩)
    exact congrArg (fun x => EStateM.Result.error (Stop.raised x) _) (if_pos hp)
  | exhausted hc' =>
    refine .exhausted (.inr fun m _ => ?_)
    obtain ⟨K, hK⟩ := hc'.resolve_left (fun h => h) m trivial
    refine ⟨K, fun L hL => ?_⟩
    obtain ⟨t, e, -⟩ := hK L hL
    exact ⟨_, congrArg (after m) e, trivial⟩

/-! ## Instructions -/

section Instructions

variable (hc : ((metering b B).coupling n).Calls (fun _ => True) c d) (hfs : fs ≠ #[])

include hc hfs

theorem callValue_trails (count : Nat) :
    Trails b B (Steady L fs k) (callValue c count) fun m => callValue (d m) count := by
  have hout : Trails b B (Steady L fs k)
      (do let args ← popMany count; let callee ← pop; push (← callOut c callee args))
      (fun m => do
        let args ← popMany count; let callee ← pop; push (← callOut (d m) callee args)) := by
    refine (Trails.blind fun _ => blind_popMany count).bind (popMany_kept count) fun args => ?_
    refine (Trails.blind fun _ => blind_pop).bind pop_kept fun callee => ?_
    exact (callOut_trails hc hfs callee args).before fun v => .blind fun _ => blind_push v
  refine (Trails.blind fun _ => .ask fun _ => rfl).bind (ask_kept _) fun size => ?_
  split
  · exact .blind fun _ _ => rfl
  · refine (Trails.blind fun _ => blind_slot _).bind (slot_kept _) fun f => ?_
    cases f with
    | closure id name =>
      refine .blind fun _ => (blind_closureOf id).bind fun k => ?_
      exact .demand (blind_pushFrame k _ true)
    | _ => exact hout

theorem exec_trails (entry : Nat) (a : Activation) (i : Instruction) :
    Trails b B (Steady L fs k) (exec c entry a i) fun m => exec (d m) entry a i := by
  by_cases hi : i.op = .call
  · obtain ⟨op, operand, next⟩ := i
    cases hi
    exact (callValue_trails hc hfs _).before fun _ => .blind fun _ => .pure none
  · have he : ∀ m, exec (d m) entry a i = exec c entry a i := fun m => by
      obtain ⟨op, operand, next⟩ := i
      cases op with
      | call => exact absurd rfl hi
      | _ => rfl
    simp only [he]
    exact .blind fun _ => blind_exec c entry a hi

end Instructions

/-! ## Runs -/

theorem unwind_related {w : Nat} {s t : State} (h : (allowance b B).related w s t) (entry : Nat) :
    (allowance b B).related w (unwind base entry depth s) (unwind base entry depth t) := by
  obtain ⟨rfl, rfl, rfl⟩ := h
  exact ⟨rfl, rfl, unwind_seen (ν := { budget := fun _ => some (B - s.machine.steps) }) ..⟩

/-- A machine on which a run may begin. If it is empty, then it has not been used. -/
def Ready (L : Limits) (pre : Array Activation) (depth : Nat) (s : State) : Prop :=
  Steady L pre depth s ∧ (pre = #[] → s.machine = idle)

theorem start_refuses {cycle : Nat → Run (Option Value)} {rounds id : Nat} {f : Closure}
    {args : List Value} {counted : Bool} (ha : args.length ≠ f.proto.arity) :
    start cycle rounds id f args counted = Run.fail (.wrongArity f.proto.name args.length) := by
  funext s
  unfold start
  rw [if_pos ha]
  rfl

/-- The beginning of a run with the right number of arguments. The counts of a machine that has not
been used need not be cleared. -/
theorem start_eq {cycle : Nat → Run (Option Value)} {rounds id : Nat} {f : Closure}
    {args : List Value} {counted : Bool} {s : State} (ha : args.length = f.proto.arity)
    (hs : s.machine.frames.size = 0 → s.machine = idle) :
    start cycle rounds id f args counted s =
      onStop (do
        begin id f args s.machine.stack.size counted
        run cycle s.machine.frames.size rounds)
        (unwind s.machine.stack.size s.machine.frames.size s.depth) s := by
  have hne : ¬ args.length ≠ f.proto.arity := fun h => h ha
  unfold start
  simp only [if_neg hne, Act.bind_apply, Act.ask]
  by_cases he : s.machine.frames.size = 0
  · have hreset : (s.mapMachine fun m => { m with steps := 0, peak := 0 }) = s := by
      show { s with machine := { s.machine with steps := 0, peak := 0 } } = s
      rw [hs he]
      exact (congrArg (fun m => { s with machine := m }) (hs he)).symm
    simp only [if_pos he, Act.bind_apply, Act.update, hreset]
  · simp only [if_neg he]

section Runs

variable {level : Nat} (hb : ∀ k ∈ b, k = B)
  (hc : ((metering b B).coupling n).Calls (fun _ => True) (Engine.ofFuel level).call d)

include hb hc

theorem step_trails : Trails b B (Working L pre base depth)
    (step (Engine.ofFuel level).call pre.size) fun m => spending (ending b m) (d m) pre.size := by
  intro w s t hst hs
  obtain ⟨fs, k, hsite, h⟩ := hs
  obtain ⟨gs, a, rfl, -⟩ := hsite.back
  refine Trails.bind (Trails.blind fun _ => blind_running)
    (running_meets (R := fun _ _ => True)) (fun x => ?_) w s t hst h
  rintro w s t hst ⟨rfl, h⟩
  refine Trails.within ?_ _ w s t hst h
  refine (tick_trails hb).bind tick_kept fun _ => ?_
  refine (Trails.blind fun _ => .ofFault _).bind (ofFault_kept _) fun i => ?_
  refine (Trails.blind fun _ => blind_goTo _).bind (goTo_meets (R := fun _ _ => True) _) fun _ => ?_
  rw [modify_push]
  exact exec_trails hc Array.push_ne_empty _ _ _

theorem run_trails (rounds : Nat) : Trails b B (Working L pre base depth)
    (run (step (Engine.ofFuel level).call) pre.size rounds)
    fun m => run (spending (ending b m) (d m)) pre.size rounds := by
  induction rounds with
  | zero => exact fun w s t _ _ => .exhausted (.inr fun _ _ => ⟨0, fun _ _ => ⟨_, rfl, trivial⟩⟩)
  | succ rounds ih =>
    have hcall := (callers_survival (fun _ _ _ _ => rfl) level).self
    refine (step_trails hb hc).bind (step_alike hcall) fun o => ?_
    cases o with
    | some v => exact .blind fun _ => .pure v
    | none => exact ih.pre fun s h => h.elim (fun h => h.2) fun h => absurd rfl h.1

theorem begun_trails (base rounds id : Nat) (f : Closure) (args : List Value) (counted : Bool) :
    Trails b B (Steady L pre depth)
      (onStop (do
        begin id f args base counted
        run (step (Engine.ofFuel level).call) pre.size rounds) (unwind base pre.size depth))
      fun m => onStop (do
        begin id f args base counted
        run (spending (ending b m) (d m)) pre.size rounds) (unwind base pre.size depth) := by
  intro w s t hst hs
  refine Coupling.Match.onStop ?_ (fun _ _ _ h => unwind_related h _) (fun _ _ => rfl)
    (fun _ _ _ h => h) fun _ => rfl
  exact ((Trails.blind fun _ => blind_begin id f args base counted).bind
    (begin_meets id f args counted) fun _ => run_trails hb hc rounds) w s t hst hs

theorem start_trails (rounds id : Nat) (f : Closure) (args : List Value) (counted : Bool) :
    Trails b B (Ready L pre depth)
      (start (step (Engine.ofFuel level).call) rounds id f args counted)
      fun m => start (spending (ending b m) (d m)) rounds id f args counted := by
  rintro w s t hst ⟨h, hidle⟩
  by_cases ha : args.length = f.proto.arity
  · have hfresh : s.machine.frames.size = 0 → s.machine = idle := fun he =>
      hidle (by rw [← h.frames]; exact Array.size_eq_zero_iff.mp he)
    have hsteady : Steady L s.machine.frames s.depth s :=
      ⟨h.limits, h.regular, h.parked, h.literate, rfl, rfl⟩
    have hbegun := begun_trails hb hc s.machine.stack.size rounds id f args counted w s t hst
      hsteady
    obtain ⟨rfl, rfl, rfl⟩ := hst
    have hfirst : start (step (Engine.ofFuel level).call) rounds id f args counted s = _ :=
      start_eq ha hfresh
    rw [hfirst]
    have hsecond : ∀ m, start (spending (ending s.config.limits.stepBudget m) (d m)) rounds id f
        args counted (s.budgeted (some (B - s.machine.steps))) = _ := fun m => start_eq ha hfresh
    simp only [hsecond]
    exact hbegun
  · simp only [start_refuses ha]
    exact Trails.blind (P := fun _ => True) (fun _ => .fail _) w s t hst trivial

theorem Execution.trails (e : Execution) (rounds : Nat) :
    Trails b B (Ready L pre depth)
      (e.perform (step (Engine.ofFuel level).call) rounds)
      fun m => e.perform (spending (ending b m) (d m)) rounds := by
  cases e with
  | call id args =>
    exact (Trails.blind fun _ => blind_closureOf id).bind (closureOf_kept id) fun f =>
      start_trails hb hc rounds id f args true
  | form p =>
    refine (Trails.blind fun _ => .onStore fun _ => rfl).bind (Q := fun _ => Ready L pre depth)
      (R := fun _ _ => True) (.onStore fun s h => ?_) fun id =>
        start_trails hb hc rounds id ⟨p, #[]⟩ [] false
    exact ⟨h.1.ofStore rfl h.1.regular.sound, h.2⟩

theorem onParked_follows (w : State.Core × Nat) (rounds id : Nat) (args : List Value) :
    ((metering b B).coupling n).Follows (fun _ => True) ((metering b B).coupling n).value
      ((metering b B).coupling n).fault w
      (onParked (executeBy (step (Engine.ofFuel level).call) rounds id args))
      fun m => onParked (executeBy (spending (ending b m) (d m)) rounds id args) := by
  rintro s t ⟨rfl, hs⟩
  have hinv : Attended b s.core := hs.inv
  obtain ⟨m, hm, hreg, hfs⟩ := hinv.parked
  have hm : s.parked = some m := hm
  let s₀ : State := { s with machine := s.parked.getD .idle, parked := none }
  have hwork : s₀.machine = m := by
    show s.parked.getD .idle = m
    rw [hm]
    rfl
  have hsteady : Steady s.config.limits m.frames s.depth s₀ :=
    ⟨rfl, by rw [hwork]; exact hreg, rfl, hs.literate, by rw [hwork], rfl⟩
  have hrun := (Execution.call id args).trails hb hc rounds s₀.machine.steps s₀ _
    ⟨rfl, hinv.budget, rfl⟩ ⟨hsteady, fun he => absurd he hfs⟩
  have hcall : survival.Callers 0 (Engine.ofFuel level).call (Engine.ofFuel level).call :=
    (callers_survival (fun _ _ _ _ => rfl) level).self
  have hpost := (executeBy_alike (fun _ _ _ _ => rfl) hcall rounds id args s₀.machine s₀
    ⟨hsteady, rfl⟩).2
  have hpark : ∀ {w' : Nat} {s' t' : State}, s₀.machine.steps ≤ w' →
      (allowance b B).related w' s' t' → Steady s.config.limits m.frames s.depth s' →
      let u : State := { s' with machine := s.machine, parked := some s'.machine }
      ((metering b B).coupling n).le w (u.core, u.depth) ∧
        ((metering b B).coupling n).related (u.core, u.depth) u
          { t' with machine := s.machine, parked := some t'.machine } ∧
        ∀ m, (allowance b B).lags w' m → ((metering b B).coupling n).lags (u.core, u.depth) m := by
    rintro w' s' t' hw ⟨rfl, hb, rfl⟩ h u
    have hrel : (metering b B).Rel s.core u.core := by
      refine ⟨⟨h.limits, ?_, fun _ => rfl⟩, hw⟩
      show s'.machine.frames = s₀.machine.frames
      rw [h.frames, hwork]
    refine ⟨⟨hs.core ▸ hrel, h.depth.trans hs.depth⟩, ⟨rfl, ⟨hinv.machine, hb, s'.machine, rfl, ?_,
      ?_⟩, h.literate, rfl, rfl⟩, fun _ hl => hl⟩
    · show s'.machine.Regular s'.config.limits s'.store.cells
      rw [h.limits]
      exact h.regular
    · rw [h.frames]
      exact hfs
  -- what becomes of an outcome of the second
  let after : Nat → EStateM.Result (Stop RuntimeError) State Value →
      EStateM.Result (Stop RuntimeError) State Value := fun _ r =>
    onParked (fun _ => r) ((metering b B).second s)
  unfold onParked
  change (allowance b B).Match _ _ _ _ (executeBy _ _ _ _ s₀) _ at hrun
  generalize executeBy (step (Engine.ofFuel level).call) rounds id args s₀ = r at hrun hpost
  cases hrun with
  | ok hw hx hst hc' =>
    obtain ⟨hle, hrel, hlag⟩ := hpark hw hst hpost.1
    cases hx
    exact .ok hle (Watch.value_iff.mpr rfl) hrel
      (hc'.carry hlag after (fun _ _ => rfl) fun _ t => ⟨_, rfl⟩)
  | raised hw he hst hc' =>
    obtain ⟨hle, hrel, hlag⟩ := hpark hw hst (hpost.elim And.left And.left)
    cases he
    exact .raised hle (Watch.fault_iff.mpr ⟨rfl, trivial⟩) hrel
      (hc'.carry hlag after (fun _ _ => rfl) fun _ t => ⟨_, rfl⟩)
  | exhausted hc' =>
    refine .exhausted (.inr fun m _ => ?_)
    obtain ⟨K, hK⟩ := hc'.resolve_left (fun h => h) m trivial
    refine ⟨K, fun L hL => ?_⟩
    obtain ⟨t, e, -⟩ := hK L hL
    exact ⟨_, congrArg (after m) e, metering_spent _ _ _⟩

end Runs

end Machine

end TwinLisp
