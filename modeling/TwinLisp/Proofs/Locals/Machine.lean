import TwinLisp.Proofs.Locals.Coupled

/-! The machine beside locals in frames and by name. Instructions see neither, so the machine does the
same in both, as long as the calls that leave it do.

* `Chart.callOut_agrees`: a call that leaves the machine.
* `Chart.exec_agrees`, `Chart.run_agrees`: an instruction, and a run.
* `Chart.executeBy_agrees`, `Chart.executeFormBy_agrees`: calls of compiled functions, and forms. -/

namespace TwinLisp

namespace Chart

open Machine

variable {w : mirroring.World}

theorem agreeOn_demand {α : Type} {c : Prop} [Decidable c] {f : RuntimeFault} {k k' : Unit → Run α}
    (h : AgreeOn w (k ()) (k' ())) :
    AgreeOn w (if c then Run.fail f >>= k else k ()) (if c then Run.fail f >>= k' else k' ()) := by
  by_cases hc : c
  · simp only [if_pos hc]
    exact follows_of_agree (fun _ _ => fault_iff.mpr rfl) fun s t h => .raised (.refl w) h
  · simp only [if_neg hc]
    exact h

theorem onParked_agrees {a b : Run Value} (h : ∀ w, AgreeOn w a b) :
    AgreeOn w (onParked a) (onParked b) := by
  refine follows_of_agree (fun _ _ => fault_iff.mpr rfl) fun s t hst => ?_
  have hin := hst.blind (f := fun s => { s with machine := s.parked.getD .idle, parked := none })
    fun _ _ _ => rfl
  have hrun := agree_of_follows (fun _ _ _ => fault_iff.mp) (h w) hin
  have hout : ∀ {d : Chart} {s' t' : State}, d.Mirrors s' t' →
      d.Mirrors { s' with machine := s.machine, parked := some s'.machine }
        { t' with machine := t.machine, parked := some t'.machine } := by
    intro d s' t' h
    rw [show t.machine = s.machine from hst.agree State.machine fun _ => rfl]
    exact h.blind (f := fun s' => { s' with machine := s.machine, parked := some s'.machine })
      fun _ _ _ => rfl
  unfold onParked
  generalize a { s with machine := s.parked.getD .idle, parked := none } = r at hrun
  generalize b { t with machine := t.parked.getD .idle, parked := none } = q at hrun
  cases hrun with
  | ok hd h => exact .ok hd (hout h)
  | raised hd h => exact .raised hd (hout h)
  | exhausted h => exact .exhausted h

/-! ## Instructions -/

section Calls

variable {call call' : Caller} (hc : mirroring.Calls (fun _ => True) call fun _ => call')

include hc

theorem callOut_agrees (f : Value) (args : List Value) :
    AgreeOn w (callOut call f args) (callOut call' f args) := by
  refine follows_of_agree (fun _ _ => fault_iff.mpr rfl) fun s t hst => ?_
  have hin := hst.blind (f := fun s => { s with machine := .idle, parked := some s.machine })
    fun _ _ _ => rfl
  have hcall := agree_of_follows (fun _ _ _ => fault_iff.mp)
    (agreeOn_value.mpr (hc w f f args args (value_iff.mpr rfl) (values_iff.mpr rfl))) hin
  have hback : ∀ {d : Chart} {s' t' : State}, d.Mirrors s' t' →
      t'.parked = s'.parked ∧ d.Mirrors (back s s') (back t t') := by
    intro d s' t' h
    have hp : t.parked = s.parked := hst.agree State.parked fun _ => rfl
    refine ⟨h.agree State.parked fun _ => rfl, ?_⟩
    rw [show back t t' = back s t' by rw [back, back, hp]]
    exact h.blind (f := back s) fun _ _ _ => rfl
  unfold callOut
  generalize call f args { s with machine := .idle, parked := some s.machine } = r at hcall
  generalize call' f args { t with machine := .idle, parked := some t.machine } = q at hcall
  cases hcall with
  | ok hd h =>
    obtain ⟨hp, hm⟩ := hback h
    simp only [hp]
    split
    · exact .ok hd hm
    · exact .raised hd hm
  | raised hd h =>
    obtain ⟨hp, hm⟩ := hback h
    simp only [hp]
    exact .raised hd hm
  | exhausted h => exact .exhausted h

theorem callValue_agrees (count : Nat) :
    AgreeOn w (callValue call count) (callValue call' count) := by
  have hout : ∀ w, AgreeOn w
      (do let args ← popMany count; let callee ← pop; push (← callOut call callee args))
      (do let args ← popMany count; let callee ← pop; push (← callOut call' callee args)) := by
    intro w
    refine (agreeOn_blind (blind_popMany count)).bind fun w₁ args _ _ h => ?_
    cases h
    refine (agreeOn_blind blind_pop).bind fun w₂ f _ _ h => ?_
    cases h
    refine (callOut_agrees hc f args).bind fun w₃ v _ _ h => ?_
    cases h
    exact agreeOn_blind (blind_push v)
  refine (agreeOn_blind (.ask fun _ => rfl)).bind fun w₁ size _ _ h => ?_
  cases h
  refine agreeOn_demand ((agreeOn_blind (blind_slot _)).bind fun w₂ f _ _ h => ?_)
  cases h
  cases f with
  | closure id name =>
    exact agreeOn_blind <| (blind_closureOf id).bind fun c => .demand (blind_pushFrame c _ true)
  | _ => exact hout w₂

theorem exec_agrees (entry : Nat) (a : Activation) (i : Instruction) :
    AgreeOn w (exec call entry a i) (exec call' entry a i) := by
  by_cases hi : i.op = .call
  · simp only [exec, hi]
    exact (callValue_agrees hc i.operand).bind_pure fun _ _ _ _ _ => rfl
  · have e : exec call' entry a i = exec call entry a i := by
      obtain ⟨op, operand, next⟩ := i
      cases op with
      | call => exact absurd rfl hi
      | _ => rfl
    rw [e]
    exact agreeOn_blind (blind_exec call entry a hi)

theorem step_agrees (entry : Nat) : AgreeOn w (step call entry) (step call' entry) := by
  refine (agreeOn_blind blind_running).bind fun w₁ a _ _ h => ?_
  cases h
  refine .within ?_ (.ofLine (line a))
  refine (agreeOn_blind (blind_tick rfl rfl)).bind fun w₂ _ _ _ _ => ?_
  refine (agreeOn_blind (.ofFault _)).bind fun w₃ i _ _ h => ?_
  cases h
  exact (agreeOn_blind (blind_goTo _)).bind fun w₄ _ _ _ _ => exec_agrees hc entry a i

/-! ## Runs -/

theorem run_agrees (entry rounds : Nat) :
    AgreeOn w (run (step call) entry rounds) (run (step call') entry rounds) := by
  induction rounds generalizing w with
  | zero => exact .exhausted fun _ _ _ => rfl
  | succ rounds ih =>
    refine (step_agrees hc entry).bind fun w₁ o _ _ h => ?_
    cases h
    cases o with
    | some v => exact agreeOn_blind (.pure v)
    | none => exact ih

theorem start_agrees (rounds id : Nat) (k : Closure) (args : List Value) (counted : Bool) :
    AgreeOn w (start (step call) rounds id k args counted)
      (start (step call') rounds id k args counted) := by
  have hbody : ∀ w base entry depth, AgreeOn w
      (Act.onStop (do begin id k args base counted; run (step call) entry rounds)
        (unwind base entry depth))
      (Act.onStop (do begin id k args base counted; run (step call') entry rounds)
        (unwind base entry depth)) := fun w base entry depth =>
    ((agreeOn_blind (blind_begin id k args base counted)).bind fun w₁ _ _ _ _ =>
        run_agrees hc entry rounds).onStop
      (fun _ _ _ h => h.blind fun F G => unwind_seen (ν := .lexical F G) base entry depth)
      (fun _ _ => rfl) (fun _ _ _ h => h) fun _ => rfl
  unfold start
  refine agreeOn_demand ?_
  refine (agreeOn_blind (.ask fun _ => rfl)).bind fun w₁ base _ _ h => ?_
  cases h
  refine (agreeOn_blind (.ask fun _ => rfl)).bind fun w₂ entry _ _ h => ?_
  cases h
  refine (agreeOn_blind (.ask fun _ => rfl)).bind fun w₃ depth _ _ h => ?_
  cases h
  by_cases he : entry = 0
  · simp only [if_pos he]
    exact (agreeOn_blind (.update fun _ => rfl)).bind fun w₄ _ _ _ _ => hbody w₄ base entry depth
  · simp only [if_neg he]
    exact hbody w₃ base entry depth

theorem executeBy_agrees (rounds id : Nat) (args : List Value) :
    AgreeOn w (onParked (executeBy (step call) rounds id args))
      (onParked (executeBy (step call') rounds id args)) := by
  refine onParked_agrees fun w => (agreeOn_blind (blind_closureOf id)).bind fun w₁ k _ _ h => ?_
  cases h
  exact start_agrees hc rounds id k args true

theorem executeFormBy_agrees (rounds : Nat) (p : Proto) :
    AgreeOn w (onParked (executeFormBy (step call) rounds p))
      (onParked (executeFormBy (step call') rounds p)) := by
  refine onParked_agrees fun w => (agreeOn_blind (.onStore fun _ => rfl)).bind fun w₁ id _ _ h => ?_
  cases h
  exact start_agrees hc rounds id _ [] false

end Calls

end Chart

end TwinLisp
