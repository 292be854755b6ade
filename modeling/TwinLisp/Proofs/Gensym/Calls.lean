import TwinLisp.Proofs.Gensym.Parsing
import TwinLisp.Proofs.Native.Call

/-! Natives and the machine make names by `gensym` alone: what they do has a journal, if calls have one.

* `Native.journaled_call`: the call of a native.
* `Machine.journaled_step`: one instruction.
* `Machine.journaled_executeBy`, `Machine.journaled_executeFormBy`: runs of the machine.
* `Machine.journaled_onParked`: a run on the machine that was put aside. -/

namespace TwinLisp

open Act (Journaled Blind)

/-! ## Natives -/

section Natives

variable {c : Caller} (hc : c.Journaled)

theorem journaled_ofFault {α : Type} (r : Except RuntimeFault α) : Journaled (Run.ofFault r) :=
  .silent fun _ => .ofFault r

theorem journaled_newExInfo (message : String) (data : Value) :
    Journaled (newExInfo message data) := .silent fun _ => .onStore fun _ => rfl

include hc

theorem journaled_mapRows (f : Value) (acc xs : List Value) (others : List (List Value)) :
    Journaled (mapRows c f acc xs others) := by
  induction xs generalizing acc others with
  | nil => exact .pure _
  | cons x xs ih =>
    simp only [mapRows]
    cases firsts? others with
    | none => exact .pure _
    | some p => exact (hc f _).bind fun y => ih _ _

theorem journaled_filterItems (f : Value) (acc xs : List Value) :
    Journaled (filterItems c f acc xs) := by
  induction xs generalizing acc with
  | nil => exact .pure _
  | cons x xs ih => exact (hc f _).bind fun y => ih _

theorem journaled_reduceItems (f acc : Value) (xs : List Value) :
    Journaled (reduceItems c f acc xs) := by
  induction xs generalizing acc with
  | nil => exact .pure _
  | cons x xs ih => exact (hc f _).bind fun y => ih _

theorem journaled_reduceAll (f : Value) (xs : List Value) : Journaled (reduceAll c f xs) := by
  cases xs with
  | nil => exact hc f []
  | cons x xs => exact journaled_reduceItems hc f x xs

theorem journaled_expandOnce (v : Value) : Journaled (expandOnce c v) := by
  unfold expandOnce
  refine (Journaled.ofExcept _).bind fun form => ?_
  refine ((Macro.journaled_expandBuiltin form).mapFault _).bind fun o => ?_
  cases o with
  | some expansion => exact .pure _
  | none =>
    dsimp only
    split
    · next name args =>
      refine Journaled.after (fun _ => Act.blind_resolve? name) fun o => ?_
      cases o with
      | none => exact .pure _
      | some var =>
        refine Journaled.after (fun _ => Act.blind_isMacro var) fun flag => ?_
        cases flag with
        | false => exact .pure _
        | true =>
          refine Journaled.after (fun _ => Act.blind_varValue? var) fun m => ?_
          cases m with
          | none => exact .pure _
          | some f =>
            refine (Journaled.ofExcept _).bind fun forms => ?_
            exact (Macro.journaled_expandUser hc f forms .unknown).bind fun _ => .pure _
    · exact .pure _

theorem Native.journaled_call (op : Native) (args : List Value) : Journaled (op.call c args) := by
  have hmisused : ∀ op : Native, Journaled (op.misused args) := fun op => .raise _
  by_cases hop : op.computing = true
  · obtain ⟨r, -, hr, -, -⟩ := Native.computes_agree .id hop (Renaming.plain_id.shows args)
    rw [hr c]
    exact journaled_ofFault r
  · cases op with
    | print | println | prn =>
      exact Journaled.after (fun _ => .update fun _ => rfl) fun _ => .pure _
    | apply =>
      match args with
      | f :: x :: more => exact (journaled_ofFault _).bind fun xs => hc f xs
      | [] | [_] => exact hmisused .apply
    | map =>
      match args with
      | f :: x :: more =>
        refine (journaled_ofFault _).bind fun xs => (journaled_ofFault _).bind fun others => ?_
        exact (journaled_mapRows hc f [] xs others).bind fun _ => .pure _
      | [] | [_] => exact hmisused .map
    | filter =>
      match args with
      | [f, x] =>
        refine (journaled_ofFault _).bind fun xs => ?_
        exact (journaled_filterItems hc f [] xs).bind fun _ => .pure _
      | [] | [_] | _ :: _ :: _ :: _ => exact hmisused .filter
    | reduce =>
      match args with
      | [f, x] => exact (journaled_ofFault _).bind fun xs => journaled_reduceAll hc f xs
      | [f, init, x] => exact (journaled_ofFault _).bind fun xs => journaled_reduceItems hc f init xs
      | [] | [_] | _ :: _ :: _ :: _ :: _ => exact hmisused .reduce
    | macroexpand =>
      match args with
      | [x] => exact journaled_expandOnce hc x
      | [] | _ :: _ :: _ => exact hmisused .macroexpand
    | exInfo =>
      match args with
      | [message, data] =>
        cases message with
        | str s =>
          cases data with
          | map | nil => exact journaled_newExInfo s _
          | _ => exact .silent fun _ _ => rfl
        | _ => exact .silent fun _ _ => rfl
      | [] | [_] | _ :: _ :: _ :: _ => exact hmisused .exInfo
    | inNs =>
      match args with
      | [x] =>
        cases x with
        | symbol ns => exact Journaled.after (fun _ => .update fun _ => rfl) fun _ => .pure _
        | _ => exact .silent fun _ _ => rfl
      | [] | _ :: _ :: _ => exact hmisused .inNs
    | gensym =>
      match args with
      | [] => exact (Journaled.gensym _).bind fun _ => .pure _
      | [x] =>
        cases x with
        | str stem => exact (Journaled.gensym stem).bind fun _ => .pure _
        | _ => exact .silent fun _ _ => rfl
      | _ :: _ :: _ => exact hmisused .gensym
    | deref =>
      match args with
      | [x] =>
        cases x with
        | var v => exact .silent fun _ => .deref v _
        | _ => exact .silent fun _ _ => rfl
      | [] | _ :: _ :: _ => exact hmisused .deref
    | _ => exact absurd rfl hop

end Natives

/-! ## The machine -/

namespace Machine

section Calls

variable {c : Caller} (hc : c.Journaled)

include hc

theorem journaled_callOut (callee : Value) (args : List Value) :
    Journaled (callOut c callee args) := by
  refine (hc callee args).around (fun s => { s with machine := .idle, parked := some s.machine })
    (fun s r => callOut (fun _ _ _ => r) callee args s) (fun _ _ => rfl) ?_
  -- The machine is taken up again from a state that may have any number of names.
  rintro m n s (⟨v, t⟩ | ⟨_ | _, t⟩)
  · show (if t.parked.isSome then _ else _) = Act.seen _ (if t.parked.isSome then _ else _)
    split <;> rfl
  · rfl
  · rfl

theorem journaled_callValue (count : Nat) : Journaled (callValue c count) := by
  unfold callValue
  refine Journaled.after (fun _ => .ask fun _ => rfl) fun size => ?_
  dsimp only
  split
  · exact .silent fun _ _ => rfl
  · refine Journaled.after (fun _ => blind_slot _) fun v => ?_
    split
    · refine Journaled.after (fun _ => blind_closureOf _) fun f => ?_
      exact .silent fun _ => .demand (blind_pushFrame f _ true)
    · refine Journaled.after (fun _ => blind_popMany count) fun args => ?_
      refine Journaled.after (fun _ => blind_pop) fun callee => ?_
      refine (journaled_callOut hc callee args).bind fun x => ?_
      exact .silent fun _ => blind_push x

theorem journaled_exec (entry : Nat) (a : Activation) (i : Instruction) :
    Journaled (exec c entry a i) := by
  by_cases h : i.op = .call
  · have hexec : exec c entry a i = (do callValue c i.operand; return none) := by
      simp only [exec, h]
    rw [hexec]
    exact (journaled_callValue hc i.operand).bind fun _ => .pure _
  · exact .silent fun _ => blind_exec c entry a h

theorem journaled_step (entry : Nat) : Journaled (step c entry) := by
  unfold step
  refine Journaled.after (fun _ => blind_running) fun a => ?_
  refine Journaled.within (.ofLine (line a)) ?_
  refine Journaled.after (fun _ => blind_tick rfl rfl) fun _ => ?_
  refine (journaled_ofFault _).bind fun i => ?_
  refine Journaled.after (fun _ => blind_goTo _) fun _ => ?_
  exact journaled_exec hc entry a i

end Calls

section Runs

variable {cycle : Nat → Run (Option Value)} (h : ∀ entry, Journaled (cycle entry))

include h

theorem journaled_run (entry rounds : Nat) : Journaled (run cycle entry rounds) := by
  induction rounds with
  | zero => exact .exhausted
  | succ rounds ih =>
    refine (h entry).bind fun o => ?_
    cases o with
    | some v => exact .pure _
    | none => exact ih

theorem journaled_start (rounds i : Nat) (c : Closure) (args : List Value) (counted : Bool) :
    Journaled (start cycle rounds i c args counted) := by
  unfold start
  dsimp only
  split
  · exact .silent fun _ _ => rfl
  · refine Journaled.after (fun _ => .ask fun _ => rfl) fun base => ?_
    refine Journaled.after (fun _ => .ask fun _ => rfl) fun entry => ?_
    refine Journaled.after (fun _ => .ask fun _ => rfl) fun depth => ?_
    have hrun : Journaled (Act.onStop (do begin i c args base counted; run cycle entry rounds)
        (unwind base entry depth)) := by
      refine Journaled.onStop ?_ fun n s => unwind_seen base entry depth s
      refine Journaled.after (fun _ => blind_begin i c args base counted) fun _ => ?_
      exact journaled_run h entry rounds
    split
    · exact Journaled.after (fun _ => .update fun _ => rfl) fun _ => hrun
    · exact hrun

theorem journaled_executeBy (rounds i : Nat) (args : List Value) :
    Journaled (executeBy cycle rounds i args) :=
  Journaled.after (fun _ => blind_closureOf i) fun c => journaled_start h rounds i c args true

theorem journaled_executeFormBy (rounds : Nat) (p : Proto) :
    Journaled (executeFormBy cycle rounds p) :=
  Journaled.after (fun _ => .onStore fun _ => rfl) fun i =>
    journaled_start h rounds i ⟨p, #[]⟩ [] false

end Runs

theorem journaled_onParked {α : Type} {a : Run α} (h : Journaled a) : Journaled (onParked a) := by
  refine h.around (fun s => { s with machine := s.parked.getD .idle, parked := none })
    (fun s r => onParked (fun _ => r) s) (fun _ _ => rfl) ?_
  rintro m n s (_ | _) <;> rfl

end Machine

end TwinLisp
