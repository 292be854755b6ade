import TwinLisp.Proofs.Machine.Metering

/-! The budget of instructions, for whole executions. A run that has a value has kept to its budget,
since its last instruction was counted; beyond that an execution on a budget is compared with one on
an allowance, and so with one without a budget.

* `run_counts`, `Execution.counts`: the count of an execution that has a value.
* `Paid`, `paid_of_match`: what the allowance says of an execution.
* `Execution.afresh`: the counts of an earlier execution.
* `step_budget`: what an outermost execution does on a budget. -/

namespace TwinLisp

/-- The end of an action that has one, and the state there. -/
def Act.outcome? {ε α : Type} : EStateM.Result (Stop ε) State α → Option (Except ε α × State)
  | .ok x s => some (.ok x, s)
  | .error (.raised e) s => some (.error e, s)
  | .error .exhausted _ => none

namespace Machine

open Act

variable {b : Option Nat} {B : Nat} {α : Type} {n : Nat} {L : Limits}
  {fs pre : Array Activation} {base depth k : Nat}

/-! ## The last instruction -/

section Last

variable (hL : L.stepBudget = some B) {c : Caller} (hc : survival.Callers n c c)

theorem keeps_count {a : Run α} (ha : ∀ ν, Blind ν a) :
    Meets (fun s => s.machine.steps ≤ B) a (fun _ s => s.machine.steps ≤ B) fun _ _ => True := by
  intro s hs
  refine ⟨rfl, ?_⟩
  have hsame := ha { steps := fun _ => s.machine.steps } s
  change a s = _ at hsame
  generalize a s = r at hsame
  match r with
  | .ok x t =>
    have ht : t = _ := (EStateM.Result.ok.inj hsame).2
    show t.machine.steps ≤ B
    rw [ht]
    exact hs
  | .error (.raised e) t => trivial
  | .error .exhausted t => trivial

include hL

theorem tick_counts : Meets (Steady L fs k) tick
    (fun _ s => Steady L fs k s ∧ s.machine.steps ≤ B) fun _ _ => True := by
  intro s h
  have hkept := (tick_kept s h).2
  have hbudget : s.config.limits.stepBudget = some B := by rw [h.limits, hL]
  refine ⟨rfl, ?_⟩
  by_cases hlt : s.machine.steps < B
  · have he := tick_within (s := s) fun k hk => by
      rw [hbudget] at hk
      cases hk
      exact hlt
    rw [he] at hkept ⊢
    exact ⟨hkept, hlt⟩
  · rw [tick_beyond hbudget (Nat.le_of_not_lt hlt)]
    trivial

include hc

/-- The instruction that ends a run is within the budget. -/
theorem step_counts : Meets (Working L pre base depth) (step c pre.size)
    (fun o s => o ≠ none → s.machine.steps ≤ B) fun _ _ => True := by
  intro s hs
  obtain ⟨fs, k, hsite, h⟩ := hs
  obtain ⟨gs, a, rfl, -⟩ := hsite.back
  refine Alike.bind (running_meets (R := fun _ _ => True)) (fun x => ?_) s h
  rintro s ⟨rfl, h⟩
  refine Alike.mapFault ?_ s h
  refine Alike.bind (tick_counts hL) fun _ => ?_
  refine Alike.bind ((ofFault_kept _).imp (fun _ h => h) (fun _ _ h => h) fun _ _ _ => trivial)
    fun i => ?_
  refine Alike.bind (((goTo_meets (R := fun _ _ => True) i.next).and
    (keeps_count fun _ => blind_goTo i.next)).imp (fun _ h => h) (fun _ _ h => h)
      fun _ _ _ => trivial) fun _ => ?_
  by_cases hi : i.op = .ret
  · have hcall : i.op ≠ .call := by rw [hi]; decide
    exact (keeps_count fun _ => blind_exec c pre.size x hcall).imp (fun _ h => h.2)
      (fun _ _ h _ => h) fun _ _ _ => trivial
  · exact (exec_goes hc pre.size x i hi).imp (fun _ h => h.1) (fun _ _ h hne => absurd h.1 hne)
      fun _ _ _ => trivial

theorem run_counts (rounds : Nat) : Meets (Working L pre base depth) (run (step c) pre.size rounds)
    (fun _ s => s.machine.steps ≤ B) fun _ _ => True := by
  induction rounds with
  | zero => exact .exhausted
  | succ rounds ih =>
    have hstep : Meets (Working L pre base depth) (step c pre.size)
        (fun o s => (o = none ∧ Working L pre base depth s ∨ o ≠ none ∧ Ended L pre base depth s) ∧
          (o ≠ none → s.machine.steps ≤ B)) fun _ _ => True :=
      (Meets.and (step_alike hc) (step_counts hL hc)).imp (fun _ h => ⟨h, h⟩) (fun _ _ h => h)
        fun _ _ _ => trivial
    refine Alike.bind hstep fun o => ?_
    cases o with
    | some v => exact .pure fun s h => h.2 (Option.some_ne_none v)
    | none => exact ih.pre fun s h => h.1.elim (fun h => h.2) fun h => absurd rfl h.1

theorem start_counts (rounds id : Nat) (f : Closure) (args : List Value) (counted : Bool) :
    Meets (Ready L pre depth) (start (step c) rounds id f args counted)
      (fun _ s => s.machine.steps ≤ B) fun _ _ => True := by
  rintro s ⟨h, hidle⟩
  refine ⟨rfl, ?_⟩
  by_cases ha : args.length = f.proto.arity
  · rw [start_eq ha fun he => hidle (by rw [← h.frames]; exact Array.size_eq_zero_iff.mp he)]
    have hbegin : Meets (Steady L s.machine.frames s.depth)
        (begin id f args s.machine.stack.size counted)
        (fun _ => Working L s.machine.frames s.machine.stack.size s.depth)
        fun _ => Broken L s.machine.frames := begin_meets id f args counted
    refine (Alike.onStop (R := fun _ _ => True) (Alike.bind (hbegin.imp (fun _ h => h)
      (fun _ _ h => h) fun _ _ _ => trivial) fun _ => run_counts hL hc rounds) s
      ⟨h.limits, h.regular, h.parked, h.literate, rfl, rfl⟩).2
  · rw [start_refuses ha]
    trivial

theorem Execution.counts (e : Execution) (rounds : Nat) :
    Meets (Ready L pre depth) (e.perform (step c) rounds)
      (fun _ s => s.machine.steps ≤ B) fun _ _ => True := by
  cases e with
  | call id args =>
    exact Alike.bind ((closureOf_kept id).imp (fun _ h => h) (fun _ _ h => h) fun _ _ _ => trivial)
      fun f => start_counts hL hc rounds id f args true
  | form p =>
    refine Alike.bind (Q := fun _ => Ready L pre depth) (.onStore fun s h => ?_) fun id =>
      start_counts hL hc rounds id ⟨p, #[]⟩ [] false
    exact ⟨h.1.ofStore rfl h.1.regular.sound, h.2⟩

end Last

/-! ## Whole executions -/

theorem runs_metering (hb : ∀ k ∈ b, k = B) :
    (metering b B).Runs fun m => .steps (spending (ending b m)) where
  around h := h
  late h := h
  assign n w v x := .of_step fun s t hst => by
    obtain ⟨rfl, h⟩ := hst
    exact ⟨w, (), (), _, _, ((metering b B).coupling n).refl w, rfl, fun _ _ => rfl, rfl, rfl,
      h.inv, h.literate, h.core, h.depth⟩
  call hc w rounds id args := onParked_follows hb hc w rounds id args
  form _ _ hw := hw.elim

theorem calls_metering (hb : ∀ k ∈ b, k = B) (level : Nat) :
    ((metering b B).coupling 0).Calls (fun _ => True) (Engine.ofFuel level).call fun m =>
      (Engine.equipped Run.assign (spending (ending b m)) level).call := by
  have h := (Watch.engines (runs_metering hb) level 0).call
  simpa only [Engine.probed_steps] using h

/-- An end with what is left of an allowance. -/
def unspent (B : Nat) (o : Except RuntimeError Value × State) : Except RuntimeError Value × State :=
  (o.1, o.2.budgeted (some (B - o.2.machine.steps)))

theorem eq_of_unspent {o o' : Except RuntimeError Value × State} (h : unspent B o = unspent B o')
    (hb : o.2.config.limits.stepBudget = b) : o = (o'.1, o'.2.budgeted b) := by
  obtain ⟨r, t⟩ := o
  obtain ⟨r', t'⟩ := o'
  subst hb
  obtain ⟨rfl, ht⟩ := Prod.mk.inj h
  have hback := congrArg (State.budgeted t.config.limits.stepBudget) ht
  exact congrArg (Prod.mk r) hback

theorem eq_ok_of_outcome {r : EStateM.Result (Stop RuntimeError) State Value} {v : Value}
    {t : State} (h : outcome? r = some (.ok v, t)) : r = .ok v t := by
  cases r with
  | ok x s =>
    cases h
    rfl
  | error e s =>
    cases e with
    | raised e => cases h
    | exhausted => cases h

/-- What the second says of the outcome `r` of the first: with enough fuel it ends as the first
does, and without fuel it does so unless the allowance has been used up. -/
structure Paid (b : Option Nat) (B : Nat) (r : EStateM.Result (Stop RuntimeError) State Value)
    (c : Nat → EStateM.Result (Stop RuntimeError) State Value) : Prop where
  budget : ∀ o ∈ outcome? r, o.2.config.limits.stepBudget = b
  ends : ∃ m, outcome? (c (m + 1)) = (outcome? r).map (unspent B)
  lasts : outcome? (c 0) = (outcome? r).map (unspent B) ∨
    outcome? (c 0) = none ∧ ∀ o ∈ outcome? r, B < o.2.machine.steps

theorem paid_of_settles {r : EStateM.Result (Stop RuntimeError) State Value}
    {c q : Nat → EStateM.Result (Stop RuntimeError) State Value}
    {o : Except RuntimeError Value × State} (hr : outcome? r = some o)
    (h : (allowance o.2.config.limits.stepBudget B).Settles o.2.machine.steps (fun m _ => c m) q)
    (hq : ∀ L, outcome? (q L) = some (unspent B o)) :
    Paid o.2.config.limits.stepBudget B r c := by
  obtain ⟨K, hK⟩ := h
  obtain ⟨hfew, hmany⟩ := hK K (Nat.le_refl K)
  refine ⟨fun o' ho => ?_, ⟨K, ?_⟩, ?_⟩
  · rw [hr] at ho
    cases ho
    rfl
  · have he : c (K + 1) = q K := hmany (K + 1) (Nat.le_succ K)
    rw [he, hq, hr]
    rfl
  · rcases hfew 0 with he | ⟨hlag, t, he⟩
    · have he : c 0 = q K := he
      exact .inl (by rw [he, hq, hr]; rfl)
    · have he : c 0 = .error .exhausted t := he
      refine .inr ⟨by rw [he]; rfl, fun o' ho => ?_⟩
      rw [hr] at ho
      cases ho
      exact hlag.2

theorem paid_of_match {w : Nat} {r : EStateM.Result (Stop RuntimeError) State Value}
    {c : Nat → EStateM.Result (Stop RuntimeError) State Value}
    (h : (allowance b B).Match (fun _ => True) (allowance b B).same (allowance b B).same w r
      fun m _ => c m) : Paid b B r c := by
  cases h with
  | ok hw hx hs hc =>
    rename_i x y s t
    obtain ⟨rfl, rfl, rfl⟩ := hs
    cases hx
    exact paid_of_settles (o := (.ok x, s)) rfl hc fun _ => rfl
  | raised hw hx hs hc =>
    rename_i e e' s t
    obtain ⟨rfl, rfl, rfl⟩ := hs
    cases hx
    exact paid_of_settles (o := (.error e, s)) rfl hc fun _ => rfl
  | exhausted hc =>
    have hnone : ∀ m, outcome? (c m) = none := fun m => by
      obtain ⟨K, hK⟩ := hc.resolve_left id m trivial
      obtain ⟨t, he, -⟩ := hK K (Nat.le_refl K)
      have he : c m = .error .exhausted t := he
      rw [he]
      rfl
    exact ⟨fun o ho => (by cases ho), ⟨0, hnone 1⟩, .inl (hnone 0)⟩

/-! ## Machines that have been used -/

/-- The state with an empty machine on which an earlier execution has left its counts. -/
def used (steps peak : Nat) (s : State) : State :=
  { s with machine := { idle with steps := steps, peak := peak } }

/-- Both outcomes are the same, or nothing has been begun and the counts are still there. -/
def Afresh (steps peak : Nat) (r q : EStateM.Result (Stop RuntimeError) State Value) : Prop :=
  q = r ∨ ∃ e t, r = .error (.raised e) t ∧ t.machine = idle ∧
    q = .error (.raised e) (used steps peak t)

theorem start_afresh {cycle : Nat → Run (Option Value)} {rounds id : Nat} {f : Closure}
    {args : List Value} {counted : Bool} {s : State} (hm : s.machine = idle) (steps peak : Nat) :
    Afresh steps peak (start cycle rounds id f args counted s)
      (start cycle rounds id f args counted (used steps peak s)) := by
  by_cases ha : args.length = f.proto.arity
  · left
    obtain ⟨store, names, config, mode, machine, parked, depth, gensyms, output, reports⟩ := s
    cases hm
    have hne : ¬ args.length ≠ f.proto.arity := fun h => h ha
    unfold start
    simp only [if_neg hne, Act.bind_apply, Act.ask]
    rfl
  · right
    rw [start_refuses ha]
    exact ⟨_, s, rfl, hm, rfl⟩

/-- The counts of an earlier execution are cleared when the next one begins. -/
theorem Execution.afresh (e : Execution) {cycle : Nat → Run (Option Value)} {rounds : Nat}
    {s : State} (hm : s.machine = idle) (steps peak : Nat) :
    Afresh steps peak (e.perform cycle rounds s) (e.perform cycle rounds (used steps peak s)) := by
  cases e with
  | call id args =>
    cases hf : s.store.closures[id]? with
    | some f =>
      have hstart : ∀ t : State, t.store.closures[id]? = some f →
          (call id args).perform cycle rounds t = start cycle rounds id f args true t := by
        intro t ht
        simp only [perform, executeBy, closureOf, Act.bind_apply, Act.askStore, ht]
        rfl
      rw [hstart s hf, hstart _ (show (used steps peak s).store.closures[id]? = some f from hf)]
      exact start_afresh hm steps peak
    | none =>
      have hfail : ∀ t : State, t.store.closures[id]? = none →
          (call id args).perform cycle rounds t = .error (.raised
            (RuntimeFault.bare (.general ("Unknown function " ++ toString id)))) t := by
        intro t ht
        simp only [perform, executeBy, closureOf, Act.bind_apply, Act.askStore, ht]
        rfl
      exact .inr ⟨_, s, hfail s hf, hm, hfail _ hf⟩
  | form p =>
    exact start_afresh (s := { s with store := (s.store.newClosure ⟨p, #[]⟩).2 }) hm steps peak

section Whole

variable {s : State} (hm : s.machine = idle) (hp : s.parked = none)
  (hl : s.Literate fun _ _ _ => True)

include hm hp hl

theorem ready_budgeted (b : Option Nat) :
    Ready (s.budgeted b).config.limits #[] s.depth (s.budgeted b) := by
  refine ⟨⟨rfl, ?_, hp, hl, congrArg Machine.frames hm, rfl⟩, fun _ => hm⟩
  show s.machine.Regular _ _
  rw [hm]
  exact empty_idle.regular _ _

/-- An execution on an empty machine beside one with an allowance. -/
theorem execution_match (hb : ∀ k ∈ b, k = B) (level rounds : Nat) (e : Execution) :
    (allowance b B).Match (fun _ => True) (allowance b B).same (allowance b B).same
      s.machine.steps (e.run step level rounds (s.budgeted b))
      fun m _ => e.run (spending (ending b m)) level rounds (s.budgeted (some B)) := by
  have hrel : (allowance b B).related s.machine.steps (s.budgeted b) (s.budgeted (some B)) := by
    refine ⟨rfl, rfl, ?_⟩
    rw [hm]
    rfl
  exact e.trails hb (calls_metering hb level) rounds _ _ _ hrel (ready_budgeted hm hp hl b)

end Whole

/-- The budget of instructions. An execution begins on an empty machine, a call of a compiled
function or a whole form, with a budget of `B` instructions or with none. Calls that leave the
machine may come back to it; all instructions count.

No more than `B` instructions take effect: with the budget, the execution is the one that takes each
instruction that takes effect from an allowance of `B` to which nothing is ever given back, and
without a budget the count is of all instructions that an allowance would have to pay for. If no
more than `B` instructions are begun without the budget, then the execution is the same with it. If
the budgeted execution has a value, then this is so; hence it has none if more would be begun,
whether or not a fault is caught on the way. What an earlier execution has counted makes no
difference. -/
theorem step_budget {s : State} (hm : s.machine = idle) (hp : s.parked = none)
    (hl : s.Literate fun _ _ _ => True) (B level rounds : Nat) (e : Execution) :
    (∀ b : Option Nat, (∀ k ∈ b, k = B) →
      outcome? (e.run (spending (atEnd b)) level rounds (s.budgeted (some B))) =
        (outcome? (e.run step level rounds (s.budgeted b))).map (unspent B)) ∧
    (∀ r t, outcome? (e.run step level rounds (s.budgeted none)) = some (r, t) →
      t.machine.steps ≤ B →
        outcome? (e.run step level rounds (s.budgeted (some B))) = some (r, t.budgeted (some B))) ∧
    (∀ v t, outcome? (e.run step level rounds (s.budgeted (some B))) = some (.ok v, t) →
      t.machine.steps ≤ B ∧
        outcome? (e.run step level rounds (s.budgeted none)) = some (.ok v, t.budgeted none)) ∧
    ∀ b steps peak, Afresh steps peak (e.run step level rounds (s.budgeted b))
      (e.run step level rounds (used steps peak (s.budgeted b))) := by
  have hnone : ∀ k ∈ (none : Option Nat), k = B := fun _ h => (by cases h)
  have hsome : ∀ k ∈ some B, k = B := fun _ h => (Option.mem_some_iff.mp h).symm
  have hpaid := fun b hb =>
    paid_of_match (execution_match hm hp hl (b := b) (B := B) hb level rounds e)
  -- without fuel the end of the allowance is the end of everything, whatever the budget is
  let stopped := outcome? (e.run (spending Act.exhausted) level rounds (s.budgeted (some B)))
  have hfree : stopped = _ ∨ stopped = none ∧ _ := (hpaid none hnone).lasts
  have hbound : stopped = _ ∨ stopped = none ∧ _ := (hpaid (some B) hsome).lasts
  refine ⟨fun b hb => ?_, fun r t hr ht => ?_, fun v t hv => ?_,
    fun b steps peak => e.afresh (s := s.budgeted b) hm steps peak⟩
  · obtain ⟨m, h⟩ := (hpaid b hb).ends
    exact h
  · have hspent := hfree.resolve_right fun h => absurd (h.2 _ hr) (Nat.not_lt.mpr ht)
    rw [hr] at hspent
    have hspent' := hbound.resolve_right fun h => Option.some_ne_none _ (hspent.symm.trans h.1)
    obtain ⟨o, ho, he⟩ := Option.map_eq_some_iff.mp (hspent'.symm.trans hspent)
    rw [ho, eq_of_unspent he ((hpaid (some B) hsome).budget o ho)]
  · have ht : t.machine.steps ≤ B := by
      have hcall : survival.Callers 0 (Engine.ofFuel level).call (Engine.ofFuel level).call :=
        (callers_survival (fun _ _ _ _ => rfl) level).self
      have hpost := (e.counts (L := (s.budgeted (some B)).config.limits) rfl hcall rounds _
        (ready_budgeted hm hp hl (some B))).2
      have hrun : e.perform (step (Engine.ofFuel level).call) rounds (s.budgeted (some B)) =
          .ok v t := eq_ok_of_outcome hv
      rw [hrun] at hpost
      exact hpost
    refine ⟨ht, ?_⟩
    have hspent := hbound.resolve_right fun h => absurd (h.2 _ hv) (Nat.not_lt.mpr ht)
    rw [hv] at hspent
    have hspent' := hfree.resolve_right fun h => Option.some_ne_none _ (hspent.symm.trans h.1)
    obtain ⟨o, ho, he⟩ := Option.map_eq_some_iff.mp (hspent'.symm.trans hspent)
    rw [ho, eq_of_unspent he ((hpaid none hnone).budget o ho)]

/-- The bytecode of `(apply (fn [] 1) [])`. -/
def applying : Proto :=
  ⟨"form", 0, ⟨#[0, 0, 0, 26, 0, 0, 0, 0, 1, 25, 2, 28], #[.native 0 .apply, .vector []],
      .replicate 12 0⟩, #[],
    #[⟨"fn", 0, ⟨#[0, 0, 0, 28], #[.int 1], .replicate 4 0⟩, #[], #[]⟩]⟩

/-- The word that an execution yields, and its count. -/
def wordAndCount (r : EStateM.Result (Stop RuntimeError) State Value) : Option (Int64 × Nat) :=
  match r with
  | .ok (.int n) t => some (n, t.machine.steps)
  | _ => none

theorem applying_counts : ∃ t, outcome? ((Execution.form applying).run step 5 9
    ((State.bare .empty .standard).budgeted none)) = some (.ok (.int 1), t) ∧
      t.machine.steps = 7 := by
  have h : wordAndCount ((Execution.form applying).run step 5 9
      ((State.bare .empty .standard).budgeted none)) = some (1, 7) := by decide +kernel
  unfold wordAndCount at h
  split at h
  · next n t hr =>
    obtain ⟨rfl, hsteps⟩ := Prod.mk.inj (Option.some.inj h)
    exact ⟨t, by rw [hr]; rfl, hsteps⟩
  · cases h

/-- The form goes back to the machine for two of its seven instructions; it has its value on a budget of
seven, and none on a budget of six. -/
theorem form_within_budget :
    (∃ t, outcome? ((Execution.form applying).run step 5 9
      ((State.bare .empty .standard).budgeted (some 7))) = some (.ok (.int 1), t)) ∧
    ∀ v t, outcome? ((Execution.form applying).run step 5 9
      ((State.bare .empty .standard).budgeted (some 6))) ≠ some (.ok v, t) := by
  obtain ⟨t, ht, hsteps⟩ := applying_counts
  have hbudget := fun B => step_budget (s := State.bare .empty .standard) rfl rfl
    (fun _ _ h => (by cases h)) B 5 9 (.form applying)
  refine ⟨⟨_, (hbudget 7).2.1 _ t ht (Nat.le_of_eq hsteps)⟩, fun v u hv => ?_⟩
  obtain ⟨hle, hfree⟩ := (hbudget 6).2.2.1 v u hv
  obtain ⟨-, rfl⟩ := Prod.mk.inj (Option.some.inj (ht.symm.trans hfree))
  exact absurd hsteps (Nat.ne_of_lt (Nat.lt_succ_of_le hle))

end Machine

end TwinLisp
