import TwinLisp.Proofs.Native.Call
import TwinLisp.Proofs.Spots.Parsing

/-! Natives and the machine up to byte offsets, given calls that do without offsets what they do
with them.

* `Native.call_spots`: the call of a native.
* `Machine.step_spots`: one instruction.
* `Machine.executeBy_spots`, `Machine.executeFormBy_spots`: runs of the machine. -/

namespace TwinLisp

open Located (SameSpot)
open Act (Spots Becomes Blind)
open Act.Spots (Outcome)

/-! ## Natives -/

section Natives

variable {c d : Caller} (hc : Caller.Spots c d)

theorem ofFault_spots {α : Type} (r : Except RuntimeFault α) :
    Spots (Becomes id) SameSpot (Run.ofFault r) (Run.ofFault r) := .blind (Blind.ofFault r)

theorem print_spots (text : String) : Spots (Becomes id) SameSpot (do
    Run.print text
    return .nil : Run Value) (do
    Run.print text
    return .nil) :=
  .blind (Blind.bind (.update fun _ => rfl) fun _ => .pure _)

theorem newExInfo_spots (message : String) (data : Value) :
    Spots (Becomes id) SameSpot (newExInfo message data) (newExInfo message data) :=
  .blind (.onStore fun _ => rfl)

theorem gensym_spots (stem : String) : Spots (Becomes id) SameSpot
    (do return .symbol (← Act.gensym stem) : Run Value)
    (do return .symbol (← Act.gensym stem) : Run Value) :=
  .blind (Blind.bind (fun _ => rfl) fun _ => .pure _)

/-- The messages of faults of the parser name lines and columns. -/
theorem Located.SameSpot.parseMessage {e e' : ParseError} (h : SameSpot e e') :
    e'.message = e.message := (congrArg ParseError.message (h : e'.spot = e.spot) :)

theorem Form.ofValue_unknown {v : Value} {f : Form} (h : Form.ofValue .unknown v = .ok f) :
    f.spots = f := by
  have hspots := Form.ofValue_spots .unknown v
  rw [show Span.unknown.spot = Span.unknown from rfl, h] at hspots
  cases hspots with
  | ok h => exact h.symm

theorem Form.ofValues_unknown {vs : List Value} {fs : List Form}
    (h : vs.mapM (Form.ofValue .unknown) = .ok fs) : Form.spotsAll fs = fs := by
  induction vs generalizing fs with
  | nil =>
    cases h
    rfl
  | cons v rest ih =>
    rw [List.mapM_cons] at h
    cases hv : Form.ofValue .unknown v with
    | error e =>
      rw [hv] at h
      cases h
    | ok f =>
      cases hrest : rest.mapM (Form.ofValue .unknown) with
      | error e =>
        rw [hv, hrest] at h
        cases h
      | ok gs =>
        rw [hv, hrest] at h
        cases h
        rw [Form.spotsAll, Form.ofValue_unknown hv, ih hrest]

include hc

theorem mapRows_spots (f : Value) (acc xs : List Value) (others : List (List Value)) :
    Spots (Becomes id) SameSpot (mapRows c f acc xs others) (mapRows d f acc xs others) := by
  induction xs generalizing acc others with
  | nil => exact .pure rfl
  | cons x xs ih =>
    simp only [mapRows]
    cases firsts? others with
    | none => exact .pure rfl
    | some p => exact (hc f _).next fun y => ih _ _

theorem filterItems_spots (f : Value) (acc xs : List Value) :
    Spots (Becomes id) SameSpot (filterItems c f acc xs) (filterItems d f acc xs) := by
  induction xs generalizing acc with
  | nil => exact .pure rfl
  | cons x xs ih => exact (hc f _).next fun y => ih _

theorem reduceItems_spots (f acc : Value) (xs : List Value) :
    Spots (Becomes id) SameSpot (reduceItems c f acc xs) (reduceItems d f acc xs) := by
  induction xs generalizing acc with
  | nil => exact .pure rfl
  | cons x xs ih => exact (hc f _).next fun y => ih _

theorem reduceAll_spots (f : Value) (xs : List Value) :
    Spots (Becomes id) SameSpot (reduceAll c f xs) (reduceAll d f xs) := by
  cases xs with
  | nil => exact hc f []
  | cons x xs => exact reduceItems_spots hc f x xs

theorem expandOnce_spots (v : Value) :
    Spots (Becomes id) SameSpot (expandOnce c v) (expandOnce d v) := by
  unfold expandOnce
  cases hv : Form.ofValue .unknown v with
  | error e => exact .raise rfl
  | ok form =>
    have hbuiltin := (Macro.expandBuiltin_spots form).mapFault
      (f := fun e : ParseError => (RuntimeFault.general e.message).bare)
      (g := fun e : ParseError => (RuntimeFault.general e.message).bare)
      (Y := SameSpot) fun e e' h => by
        rw [h.parseMessage]
        rfl
    rw [Form.ofValue_unknown hv] at hbuiltin
    refine hbuiltin.next fun o => ?_
    cases o with
    | some expansion => exact .pure (Form.toValue_spots expansion)
    | none =>
      dsimp only [Option.map_none]
      split
      · rename_i name args
        refine (Act.Spots.blind (Act.blind_resolve? name)).next fun o => ?_
        cases o with
        | none => exact .pure rfl
        | some var =>
          refine (Act.Spots.blind (Act.blind_isMacro var)).next fun flag => ?_
          cases flag with
          | false => exact .pure rfl
          | true =>
            refine (Act.Spots.blind (Act.blind_varValue? var)).next fun m => ?_
            cases m with
            | none => exact .pure rfl
            | some f =>
              dsimp only [id]
              cases hargs : args.mapM (Form.ofValue .unknown) with
              | error e => exact fun _ => .raised rfl
              | ok forms =>
                have hexpand := Macro.expandUser_spots hc f forms .unknown
                rw [Form.ofValues_unknown hargs] at hexpand
                exact hexpand.bind_pure fun x y e => by rw [e, Becomes, Form.toValue_spots, id]
      · exact .pure rfl

theorem Native.call_spots (op : Native) (args : List Value) :
    Spots (Becomes id) SameSpot (op.call c args) (op.call d args) := by
  have hmisused : ∀ op : Native, Spots (Becomes id) SameSpot (op.misused args) (op.misused args) :=
    fun op => .blind (.fail _)
  by_cases hop : op.computing = true
  · obtain ⟨r, -, hr, -, -⟩ := Native.computes_agree .id hop (Renaming.plain_id.shows args)
    rw [hr c, hr d]
    exact ofFault_spots r
  · cases op with
    | print | println | prn => exact print_spots _
    | apply =>
      match args with
      | f :: x :: more => exact (ofFault_spots _).next fun xs => hc f xs
      | [] | [_] => exact hmisused .apply
    | map =>
      match args with
      | f :: x :: more =>
        refine (ofFault_spots _).next fun xs => (ofFault_spots _).next fun others => ?_
        exact (mapRows_spots hc f [] xs others).bind_pure fun _ _ e => by rw [e]; rfl
      | [] | [_] => exact hmisused .map
    | filter =>
      match args with
      | [f, x] =>
        refine (ofFault_spots _).next fun xs => ?_
        exact (filterItems_spots hc f [] xs).bind_pure fun _ _ e => by rw [e]; rfl
      | [] | [_] | _ :: _ :: _ :: _ => exact hmisused .filter
    | reduce =>
      match args with
      | [f, x] => exact (ofFault_spots _).next fun xs => reduceAll_spots hc f xs
      | [f, init, x] => exact (ofFault_spots _).next fun xs => reduceItems_spots hc f init xs
      | [] | [_] | _ :: _ :: _ :: _ :: _ => exact hmisused .reduce
    | macroexpand =>
      match args with
      | [x] => exact expandOnce_spots hc x
      | [] | _ :: _ :: _ => exact hmisused .macroexpand
    | exInfo =>
      match args with
      | [message, data] =>
        cases message with
        | str s =>
          cases data with
          | map | nil => exact newExInfo_spots s _
          | _ => exact fun _ => .raised rfl
        | _ => exact fun _ => .raised rfl
      | [] | [_] | _ :: _ :: _ :: _ => exact hmisused .exInfo
    | inNs =>
      match args with
      | [x] =>
        cases x with
        | symbol ns => exact .blind (Blind.bind (.update fun _ => rfl) fun _ => .pure _)
        | _ => exact fun _ => .raised rfl
      | [] | _ :: _ :: _ => exact hmisused .inNs
    | gensym =>
      match args with
      | [] => exact gensym_spots "G"
      | [x] =>
        cases x with
        | str stem => exact gensym_spots stem
        | _ => exact fun _ => .raised rfl
      | _ :: _ :: _ => exact hmisused .gensym
    | deref =>
      match args with
      | [x] =>
        cases x with
        | var v => exact .blind (.deref v _)
        | _ => exact fun _ => .raised rfl
      | [] | _ :: _ :: _ => exact hmisused .deref
    | _ => exact absurd rfl hop

end Natives

/-! ## The machine -/

namespace Machine

section Calls

variable {c d : Caller} (hc : Caller.Spots c d)

include hc

theorem callOut_spots (callee : Value) (args : List Value) :
    Spots (Becomes id) SameSpot (callOut c callee args) (callOut d callee args) := by
  intro s
  -- The machine holds no interpreted function, so putting it aside commutes with the view.
  have hcall := hc callee args { s with machine := .idle, parked := some s.machine }
  have hout : State.spots { s with machine := .idle, parked := some s.machine } =
      { s.spots with machine := .idle, parked := some s.spots.machine } := rfl
  rw [hout] at hcall
  have hback : ∀ t : State, back s.spots t.spots = (back s t).spots := fun t => rfl
  have hparked : ∀ t : State, t.spots.parked = t.parked := fun t => rfl
  simp only [callOut]
  generalize c callee args _ = r at hcall
  generalize d callee args _ = q at hcall
  cases hcall with
  | @ok x y t h =>
    cases h
    simp only [hparked, hback, id]
    split
    · exact .ok rfl
    · exact .raised (.refl _)
  | @raised e e' t h =>
    simp only [hparked, hback]
    split
    · exact .raised h
    · exact .raised (.refl _)
  | exhausted => exact .exhausted

theorem callValue_spots (count : Nat) :
    Spots (Becomes id) SameSpot (callValue c count) (callValue d count) := by
  unfold callValue
  refine (Act.Spots.blind (.ask fun _ => rfl)).next fun size => ?_
  dsimp only [id]
  split
  · exact fun _ => .raised rfl
  · refine (Act.Spots.blind (blind_slot _)).next fun v => ?_
    dsimp only [id]
    split
    · refine (Act.Spots.blind (blind_closureOf _)).next fun f => ?_
      exact .blind (.demand (blind_pushFrame f _ true))
    · refine (Act.Spots.blind (blind_popMany count)).next fun args => ?_
      refine (Act.Spots.blind blind_pop).next fun callee => ?_
      refine (callOut_spots hc callee args).next fun x => ?_
      exact .blind (blind_push x)

theorem exec_spots (entry : Nat) (a : Activation) (i : Instruction) :
    Spots (Becomes id) SameSpot (exec c entry a i) (exec d entry a i) := by
  by_cases h : i.op = .call
  · have hexec : ∀ call, exec call entry a i =
        (do callValue call i.operand; return none) := fun call => by simp only [exec, h]
    rw [hexec, hexec]
    exact (callValue_spots hc i.operand).next fun _ => .pure rfl
  · have hexec : exec d entry a i = exec c entry a i := by
      unfold exec
      cases hop : i.op with
      | call => exact absurd hop h
      | _ => rfl
    rw [hexec]
    exact .blind (blind_exec c entry a h)

theorem step_spots (entry : Nat) : Spots (Becomes id) SameSpot (step c entry) (step d entry) := by
  unfold step
  refine (Act.Spots.blind blind_running).next fun a => ?_
  refine Act.Spots.within ?_ (.ofLine (line a))
  refine (Act.Spots.blind (blind_tick rfl rfl)).next fun _ => ?_
  refine (ofFault_spots _).next fun i => ?_
  refine (Act.Spots.blind (blind_goTo _)).next fun _ => ?_
  exact exec_spots hc entry a i

end Calls

section Runs

variable {cycle cycle' : Nat → Run (Option Value)}
  (h : ∀ entry, Spots (Becomes id) SameSpot (cycle entry) (cycle' entry))

include h

theorem run_spots (entry rounds : Nat) :
    Spots (Becomes id) SameSpot (run cycle entry rounds) (run cycle' entry rounds) := by
  induction rounds with
  | zero => exact .exhausted
  | succ rounds ih =>
    refine (h entry).next fun o => ?_
    cases o with
    | some v => exact .pure rfl
    | none => exact ih

theorem start_spots (rounds i : Nat) (c : Closure) (args : List Value) (counted : Bool) :
    Spots (Becomes id) SameSpot (start cycle rounds i c args counted)
      (start cycle' rounds i c args counted) := by
  unfold start
  dsimp only
  split
  · exact fun _ => .raised rfl
  · refine (Act.Spots.blind (.ask fun _ => rfl)).next fun base => ?_
    refine (Act.Spots.blind (.ask fun _ => rfl)).next fun entry => ?_
    refine (Act.Spots.blind (.ask fun _ => rfl)).next fun depth => ?_
    have hrun : Spots (Becomes id) SameSpot
        (Act.onStop (do begin i c args base counted; run cycle entry rounds)
          (unwind base entry depth))
        (Act.onStop (do begin i c args base counted; run cycle' entry rounds)
          (unwind base entry depth)) := by
      refine Act.Spots.onStop ?_ fun s => unwind_seen base entry depth s
      refine (Act.Spots.blind (blind_begin i c args base counted)).next fun _ => ?_
      exact run_spots h entry rounds
    dsimp only [id]
    split
    · have hreset : Blind .spots (Act.update fun s => s.mapMachine fun m =>
          { m with steps := 0, peak := 0 } : Run Unit) := .update fun _ => rfl
      exact (Act.Spots.blind hreset).next fun _ => hrun
    · exact hrun

theorem executeBy_spots (rounds i : Nat) (args : List Value) :
    Spots (Becomes id) SameSpot (executeBy cycle rounds i args) (executeBy cycle' rounds i args) :=
  (Act.Spots.blind (blind_closureOf i)).next fun c => start_spots h rounds i c args true

theorem executeFormBy_spots (rounds : Nat) (p : Proto) :
    Spots (Becomes id) SameSpot (executeFormBy cycle rounds p) (executeFormBy cycle' rounds p) :=
  (Act.Spots.blind (.onStore fun _ => rfl)).next fun i => start_spots h rounds i ⟨p, #[]⟩ [] false

end Runs

theorem onParked_spots {α : Type} {V : α → α → Prop} {a b : Run α} (h : Spots V SameSpot a b) :
    Spots V SameSpot (onParked a) (onParked b) := by
  intro s
  have hrun := h { s with machine := s.parked.getD .idle, parked := none }
  have hout : State.spots { s with machine := s.parked.getD .idle, parked := none } =
      { s.spots with machine := s.spots.parked.getD .idle, parked := none } := rfl
  rw [hout] at hrun
  simp only [onParked]
  generalize a _ = r at hrun
  generalize b _ = q at hrun
  cases hrun with
  | @ok x y t h => exact .ok (s := { t with machine := s.machine, parked := some t.machine }) h
  | @raised e e' t h =>
    exact .raised (s := { t with machine := s.machine, parked := some t.machine }) h
  | @exhausted t =>
    exact .exhausted (s := { t with machine := s.machine, parked := some t.machine })

end Machine

end TwinLisp
