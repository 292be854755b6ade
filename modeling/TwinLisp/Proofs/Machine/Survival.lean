import TwinLisp.Proofs.Machine.Alike
import TwinLisp.Proofs.Machine.Regular
import TwinLisp.Proofs.Watch.Engine

/-! Arbitrary bytecode. Whatever the code of a function is, the machine stays within its limits and
its open cells stay sound; a run ends on the frames it began on, also where calls leave the machine
and come back to it, and a run that began on an empty machine leaves it empty.

* `Steady`: what single actions keep, with the frames and the depth of calls as they are.
* `exec_moves`, `endFrame_meets`: what an instruction does to the frames.
* `Site`: the frames of a run above those that were there before.
* `survival`: the watch, from which calls and whole forms follow. -/

namespace TwinLisp

namespace Machine

open Act

/-- A machine at work, with certain frames and a certain depth of calls. -/
structure Steady (L : Limits) (fs : Array Activation) (d : Nat) (s : State) : Prop where
  limits : s.config.limits = L
  regular : s.machine.Regular L s.store.cells
  parked : s.parked = none
  literate : s.Literate fun _ _ _ => True
  frames : s.machine.frames = fs
  depth : s.depth = d

/-- An action that keeps a property of the state, also where it fails. -/
abbrev Kept {α : Type} (I : State → Prop) (a : Run α) : Prop :=
  Meets I a (fun _ => I) fun _ => I

theorem ask_kept {α : Type} {I : State → Prop} (f : State → α) : Kept I (Act.ask f) :=
  .ask fun _ h => h

theorem fail_kept {α : Type} {I : State → Prop} (f : RuntimeFault) : Kept I (Run.fail f : Run α) :=
  Run.fail_meets fun _ h => h

theorem askStore_kept {α : Type} {I : State → Prop} (f : Store → α) : Kept I (Act.askStore f) :=
  .askStore fun _ h => h

theorem pure_kept {α : Type} {I : State → Prop} (x : α) : Kept I (Pure.pure x : Run α) :=
  .pure fun _ h => h

variable {L : Limits} {fs : Array Activation} {d n : Nat}

namespace Steady

variable {s : State} (h : Steady L fs d s)

include h

theorem mapStack {f : Array Value → Array Value} (hf : (f s.machine.stack).size ≤ L.stackMax) :
    Steady L fs d (s.mapMachine (Machine.mapStack f)) :=
  ⟨h.limits, ⟨hf, h.regular.frames, h.regular.sound⟩, h.parked, h.literate, h.frames, h.depth⟩

theorem closeFrom (height : Nat) : Steady L fs d (s.closeFrom height) := by
  refine ⟨h.limits, ⟨h.regular.stack, h.regular.frames, h.regular.sound.close _ height⟩, h.parked,
    fun i g hg => h.literate i g ?_, h.frames, h.depth⟩
  have e : (s.closeFrom height).store = closeCells s.machine.stack s.store
      (s.machine.openCells.takeWhile fun c => height ≤ c.slot) := rfl
  rw [e, closeCells_eq] at hg
  exact hg

theorem ofStore {store : Store} (hf : store.functions = s.store.functions)
    (hc : Sound store.cells s.machine.openCells) : Steady L fs d { s with store := store } :=
  ⟨h.limits, ⟨h.regular.stack, h.regular.frames, hc⟩, h.parked, fun i g hg =>
    h.literate i g (hf ▸ hg), h.frames, h.depth⟩

theorem mapFrames {f : Array Activation → Array Activation} {n : Nat}
    (hf : (f fs).size ≤ L.framesMax) :
    Steady L (f fs) n { s.mapMachine (Machine.mapFrames f) with depth := n } :=
  ⟨h.limits, ⟨h.regular.stack, by rw [← h.frames] at hf; exact hf,
    h.regular.sound⟩, h.parked, h.literate, congrArg f h.frames, rfl⟩

end Steady

/-! ## The stack -/

theorem push_kept (v : Value) : Kept (Steady L fs d) (push v) := by
  intro s h
  refine ⟨rfl, ?_⟩
  unfold push
  split
  · exact h
  · rename_i hlt
    refine h.mapStack ?_
    rw [Array.size_push, ← h.limits]
    omega

theorem pop_kept : Kept (Steady L fs d) pop := by
  intro s h
  refine ⟨rfl, ?_⟩
  unfold pop
  split
  · exact h
  · refine h.mapStack ?_
    rw [Array.size_pop]
    exact Nat.le_trans (Nat.sub_le _ _) h.regular.stack

theorem top_kept : Kept (Steady L fs d) top := by
  refine (ask_kept _).bind fun o => ?_
  cases o with
  | none => exact fail_kept _
  | some v => exact pure_kept v

theorem truncate_kept (height : Nat) : Kept (Steady L fs d) (truncate height) := by
  refine .update fun s h => h.mapStack ?_
  rw [Array.size_shrink]
  exact Nat.le_trans (Nat.min_le_right _ _) h.regular.stack

theorem drop_kept (count : Nat) : Kept (Steady L fs d) (drop count) := by
  refine (ask_kept _).bind fun size => ?_
  exact Run.guard_alike (fun _ _ h => h) fun _ => truncate_kept _

theorem popMany_kept (count : Nat) : Kept (Steady L fs d) (popMany count) := by
  refine (ask_kept _).bind fun size => ?_
  refine Run.guard_alike (fun _ _ h => h) fun _ => ?_
  refine (ask_kept _).bind fun values => ?_
  exact (truncate_kept _).bind fun _ => pure_kept values

theorem slot_kept (index : Nat) : Kept (Steady L fs d) (slot index) := by
  refine (ask_kept _).bind fun o => ?_
  cases o with
  | none => exact fail_kept _
  | some v => exact pure_kept v

theorem setSlot_kept (index : Nat) (v : Value) : Kept (Steady L fs d) (setSlot index v) := by
  refine (ask_kept _).bind fun size => ?_
  refine Run.guard_alike (fun _ _ h => h) fun _ => ?_
  refine .update fun s h => h.mapStack ?_
  rw [Array.size_setIfInBounds]
  exact h.regular.stack

/-! ## Constants and captured variables -/

theorem constant_kept {I : State → Prop} (a : Activation) (index : Nat) :
    Kept I (constant a index) := by
  unfold constant
  split
  · exact pure_kept _
  · exact fail_kept _

theorem varConstant_kept {I : State → Prop} (a : Activation) (index : Nat) :
    Kept I (varConstant a index) := by
  refine (constant_kept a index).bind fun v => ?_
  split
  · exact pure_kept _
  · exact fail_kept _

theorem cellOf_kept {I : State → Prop} (a : Activation) (index : Nat) : Kept I (cellOf a index) := by
  unfold cellOf
  split
  · exact pure_kept _
  · exact fail_kept _

theorem readCell_kept (id : Nat) : Kept (Steady L fs d) (readCell id) := by
  refine (askStore_kept _).bind fun o => ?_
  match o with
  | some (.live i) => exact slot_kept i
  | some (.closed v) => exact pure_kept v
  | none => exact pure_kept _

theorem writeCell_kept (id : Nat) (v : Value) : Kept (Steady L fs d) (writeCell id v) := by
  have hask : Meets (Steady L fs d) (Act.askStore fun s => s.cells[id]? : Run (Option Cell))
      (fun o s => o = s.store.cells[id]? ∧ Steady L fs d s) fun _ => Steady L fs d :=
    .askStore fun s h => ⟨rfl, h⟩
  refine hask.bind fun o => ?_
  match o with
  | some (.live i) => exact (setSlot_kept i v).pre fun _ h => h.2
  | some (.closed u) =>
    exact .updateStore fun s h => h.2.ofStore rfl (h.2.regular.sound.setClosed h.1.symm _)
  | none => exact .pure fun _ h => h.2

theorem openCell_kept (index : Nat) : Kept (Steady L fs d) (openCell index) := by
  intro s h
  refine ⟨rfl, ?_⟩
  cases hc : openCell? index s.machine.openCells with
  | some id =>
    simp only [openCell, Act.bind_apply, Act.ask, hc]
    exact h
  | none =>
    simp only [openCell, Act.bind_apply, Act.ask, hc]
    refine ⟨h.limits, ⟨h.regular.stack, h.regular.frames, ?_⟩, h.parked, h.literate, h.frames,
      h.depth⟩
    refine (h.regular.sound.push (.live index)).insertOpen (c := ⟨index, s.store.cells.size⟩) ?_ hc
    exact Array.getElem?_push_size

theorem closeSlots_kept (height : Nat) : Kept (Steady L fs d) (closeSlots height) :=
  .update fun _ h => h.closeFrom height

theorem captures_kept (a : Activation) (acc : Array Nat) (count ip : Nat) :
    Kept (Steady L fs d) (captures a acc count ip) := by
  induction count generalizing acc ip with
  | zero => exact pure_kept _
  | succ count ih =>
    unfold captures
    split
    · dsimp only
      split
      · exact (cellOf_kept a _).bind fun id => ih _ _
      · exact (openCell_kept _).bind fun id => ih _ _
    · exact fail_kept _

/-! ## What is watched -/

/-- The machine is out of work while nothing runs on it, and the parked one is regular. -/
structure Parked (k : State.Core) : Prop where
  machine : k.machine = idle
  parked : ∀ m, k.parked = some m → m.Regular k.limits k.cells

/-- A call leaves the limits and the frames as they are, and a parked machine stays there. -/
structure SameFrames (k l : State.Core) : Prop where
  limits : l.limits = k.limits
  frames : (l.parked.getD idle).frames = (k.parked.getD idle).frames
  there : k.parked.isSome → l.parked.isSome

/-- The watch for arbitrary bytecode, any fault of which may be raised. -/
def survival : Watch where
  Inv _ k _ := Parked k
  enter h _ := h
  leave h := h
  Rel := SameFrames
  refl _ := ⟨rfl, rfl, fun h => h⟩
  trans h h' := ⟨h'.limits.trans h.limits, h'.frames.trans h.frames, fun hs => h'.there (h.there hs)⟩
  good _ _ _ := True
  stored _ _ _ _ _ _ := trivial
  make h _ := ⟨⟨h.machine, h.parked⟩, rfl, rfl, fun hs => hs⟩
  allowed _ := True
  allowed_of_plain _ := trivial
  allowed_thrown _ _ := trivial
  Top _ := True
  top_mono _ _ := trivial

theorem exact_survival : survival.Exact := ⟨fun _ _ => rfl, fun _ _ h => h⟩

/-! ## Calls -/

/-- What an instruction does to the frames and the depth of calls: it moves the running function, or
it begins another one. -/
inductive Moved (fs : Array Activation) (d : Nat) : Array Activation → Nat → Prop
  | stay : Moved fs d fs d
  | goTo (ip : Nat) : Moved fs d (fs.modify (fs.size - 1) fun a => { a with ip := ip }) d
  | enter (c : Closure) (base : Nat) : Moved fs d (fs.push ⟨c, 0, base, true⟩) (d + 1)

/-- The machine after an instruction other than the end of a function. -/
def Next (L : Limits) (fs : Array Activation) (d : Nat) (s : State) : Prop :=
  ∃ fs' d', Moved fs d fs' d' ∧ Steady L fs' d' s

theorem Steady.next {s : State} (h : Steady L fs d s) : Next L fs d s := ⟨fs, d, .stay, h⟩

/-- Two actions that do the same, with the machine between two instructions or at the next one. -/
abbrev Moves {α : Type} (L : Limits) (fs : Array Activation) (d : Nat) (a b : Run α) : Prop :=
  Alike (Steady L fs d) a b (fun _ => Next L fs d) fun _ => Next L fs d

theorem goTo_meets (ip : Nat) {R : RuntimeError → State → Prop} :
    Meets (Steady L fs d) (goTo ip)
      (fun _ => Steady L (fs.modify (fs.size - 1) fun a => { a with ip := ip }) d) R := by
  refine .update fun s h => ?_
  have hf : (fs.modify (fs.size - 1) fun a => { a with ip := ip }).size ≤ L.framesMax := by
    rw [Array.size_modify, ← h.frames]
    exact h.regular.frames
  have := h.mapFrames (n := d) (f := fun fs => fs.modify (fs.size - 1) fun a => { a with ip := ip }) hf
  rw [← h.depth] at this
  rw [← h.depth]
  exact this

theorem jump_moves (ip : Nat) (distance : Int) :
    Moves L fs d (jump ip distance) (jump ip distance) := by
  unfold jump
  split
  · exact Run.fail_meets fun _ h => h.next
  · exact (goTo_meets _).post fun _ s h => ⟨_, d, .goTo _, h⟩

theorem pushFrame_meets (c : Closure) (base : Nat) (counted : Bool) :
    Meets (Steady L fs d) (pushFrame c base counted)
      (fun _ => Steady L (fs.push ⟨c, 0, base, counted⟩) (d + counted.toNat))
      fun _ => Steady L fs d := by
  intro s h
  refine ⟨rfl, ?_⟩
  -- the frame is pushed at a depth that counts it already
  have hpush : ∀ {n : Nat}, ¬s.machine.frames.size ≥ s.config.limits.framesMax →
      Steady L (fs.push ⟨c, 0, base, counted⟩) n { s with
        machine := { s.machine with
          frames := s.machine.frames.push ⟨c, 0, base, counted⟩
          peak := max s.machine.peak (s.machine.frames.size + 1) }
        depth := n } := by
    intro n hlt
    refine ⟨h.limits, ⟨h.regular.stack, ?_, h.regular.sound⟩, h.parked, h.literate, ?_, rfl⟩
    · show (s.machine.frames.push _).size ≤ L.framesMax
      rw [Array.size_push, ← h.limits]
      omega
    · show s.machine.frames.push _ = _
      rw [h.frames]
  unfold pushFrame
  cases counted with
  | true =>
    by_cases hd : s.depth ≥ s.config.maxDepth
    · simp only [if_true, Act.bind_apply, Run.enter, if_pos hd]
      exact h
    · by_cases hf : s.machine.frames.size ≥ s.config.limits.framesMax
      · simp only [if_true, Act.bind_apply, Run.enter, if_neg hd, Act.ask, if_pos hf, Run.leave,
          Act.update, Run.fail, Act.raise]
        exact ⟨h.limits, h.regular, h.parked, h.literate, h.frames, h.depth⟩
      · simp only [if_true, Act.bind_apply, Run.enter, if_neg hd, Act.ask, if_neg hf, Act.update]
        rw [← h.depth]
        exact hpush hf
  | false =>
    by_cases hf : s.machine.frames.size ≥ s.config.limits.framesMax
    · simp only [Bool.false_eq_true, if_false, Act.bind_apply, Act.ask, if_pos hf, Run.fail,
        Act.raise]
      exact h
    · simp only [Bool.false_eq_true, if_false, Act.bind_apply, Act.ask, if_neg hf, Act.update]
      rw [← h.depth]
      exact hpush hf

theorem callOut_alike {c c' : Caller} (hc : survival.Callers n c c') (f : Value)
    (args : List Value) :
    Alike (Steady L fs d) (callOut c f args) (callOut c' f args) (fun _ => Steady L fs d)
      fun _ => Steady L fs d := by
  have hP : ∀ s, Steady L fs d s → ∃ w,
      survival.Holds n w { s with machine := .idle, parked := some s.machine } ∧
        ∀ t, survival.Holds n w t → t.parked.isSome ∧ Steady L fs d (back s t) := by
    intro s h
    let s₀ : State := { s with machine := .idle, parked := some s.machine }
    refine ⟨(s₀.core, d), ⟨⟨rfl, fun m hm => ?_⟩, h.literate, survival.refl _, h.depth⟩,
      fun t ht => ?_⟩
    · cases hm
      show s.machine.Regular s.config.limits s.store.cells
      rw [h.limits]
      exact h.regular
    · have hp : t.parked.isSome := ht.rel.there rfl
      obtain ⟨m, hm⟩ := Option.isSome_iff_exists.mp hp
      have hl : t.config.limits = L := ht.rel.limits.trans h.limits
      have hm' : (back s t).machine = m := by rw [back, hm, Option.getD_some]
      refine ⟨hp, hl, ?_, h.parked, ht.literate, ?_, ht.depth⟩
      · rw [hm', ← hl]
        exact ht.inv.parked m hm
      · have hf := ht.rel.frames
        rw [show t.core.parked = some m from hm] at hf
        rw [hm']
        exact hf.trans h.frames
  exact (survival.callOut_alike hc f args hP).imp (fun _ h => h) (fun _ _ h => h) fun _ _ h => h.2

/-! ## Instructions -/

theorem Kept.moves {α : Type} {a : Run α} (h : Kept (Steady L fs d) a) : Moves L fs d a a :=
  h.imp (fun _ hs => hs) (fun _ _ hs => hs.next) fun _ _ hs => hs.next

theorem Kept.thenMoves {α β : Type} {a : Run α} (h : Kept (Steady L fs d) a) {f g : α → Run β}
    (hf : ∀ x, Moves L fs d (f x) (g x)) : Moves L fs d (a >>= f) (a >>= g) :=
  Alike.bind (h.imp (fun _ hs => hs) (fun _ _ hs => hs) fun _ _ hs => hs.next) hf

theorem closureOf_kept {I : State → Prop} (id : Nat) : Kept I (closureOf id) := by
  refine (askStore_kept _).bind fun o => ?_
  cases o with
  | none => exact fail_kept _
  | some c => exact pure_kept c

theorem ofFault_kept {α : Type} {I : State → Prop} (r : Except RuntimeFault α) :
    Kept I (Run.ofFault r) := Run.ofFault_meets (fun _ _ h _ => h) fun _ _ h _ => h

theorem deref_kept {I : State → Prop} (v : Var) (span : Span) : Kept I (Run.deref v span) := by
  refine (askStore_kept _).bind fun o => ?_
  cases o with
  | none => exact .raise fun _ h => h
  | some x => exact pure_kept x

theorem assign_kept (v : Var) (x : Value) : Kept (Steady L fs d) (Run.assign v x) :=
  .updateStore fun _ h => h.ofStore rfl h.regular.sound

theorem binary_kept (op : Value → Value → Except RuntimeFault Value) :
    Kept (Steady L fs d) (binary op) :=
  pop_kept.bind fun _ => pop_kept.bind fun _ => (ofFault_kept _).bind fun v => push_kept v

theorem mapOf_kept {I : State → Prop} (items : List Value) : Kept I (mapOf items) := by
  unfold mapOf
  dsimp only
  split
  · exact fail_kept _
  · exact pure_kept _

theorem setOf_kept {I : State → Prop} (items : List Value) : Kept I (setOf items) := by
  unfold Machine.setOf
  split
  · exact fail_kept _
  · exact pure_kept _

theorem callValue_moves {c c' : Caller} (hc : survival.Callers n c c') (count : Nat) :
    Moves L fs d (callValue c count) (callValue c' count) := by
  refine (ask_kept _).thenMoves fun size => ?_
  refine Run.guard_alike (fun _ _ h => h.next) fun _ => ?_
  refine (slot_kept _).thenMoves fun f => ?_
  have hout : Moves L fs d
      (do let args ← popMany count; let callee ← pop; push (← callOut c callee args))
      (do let args ← popMany count; let callee ← pop; push (← callOut c' callee args)) := by
    refine (popMany_kept count).thenMoves fun args => pop_kept.thenMoves fun callee => ?_
    exact Alike.bind ((callOut_alike hc callee args).imp (fun _ h => h) (fun _ _ h => h)
      fun _ _ h => h.next) fun v => (push_kept v).moves
  cases f with
  | closure id name =>
    refine (closureOf_kept id).thenMoves fun k => ?_
    refine Run.guard_alike (fun _ _ h => h.next) fun _ => ?_
    exact (pushFrame_meets k _ true).imp (fun _ h => h) (fun _ s h => ⟨_, _, .enter _ _, h⟩)
      fun _ _ h => h.next
  | _ => exact hout

theorem makeClosure_moves (a : Activation) (i : Instruction) :
    Moves L fs d (makeClosure a i) (makeClosure a i) := by
  unfold makeClosure
  split
  · exact (fail_kept _).moves
  · refine (captures_kept a _ _ _).thenMoves fun r => ?_
    refine (goTo_meets r.2).bind fun _ => ?_
    have hrest : ∀ {fs' : Array Activation} (p : Proto), Kept (Steady L fs' d) (do
        let id ← Act.onStore (Store.newClosure ⟨p, r.1⟩)
        push (.closure id p.name)) := fun p =>
      Alike.bind (.onStore fun s h => h.ofStore rfl h.regular.sound) fun id => push_kept _
    exact (hrest _).imp (fun _ h => h) (fun _ _ h => ⟨_, d, .goTo _, h⟩) fun _ _ h => ⟨_, d, .goTo _, h⟩

/-- Instructions that do the same and are not the end of a function. -/
abbrev Goes (L : Limits) (fs : Array Activation) (d : Nat) (a b : Run (Option Value)) : Prop :=
  Alike (Steady L fs d) a b (fun o s => o = none ∧ Next L fs d s) fun _ => Next L fs d

theorem Moves.goes {a b : Run Unit} (h : Moves L fs d a b) :
    Goes L fs d (do a; return none) (do b; return none) :=
  Alike.bind h fun _ => .pure fun _ hs => ⟨rfl, hs⟩

theorem Kept.goes {a : Run Unit} (h : Kept (Steady L fs d) a) :
    Goes L fs d (do a; return none) (do a; return none) := h.moves.goes

theorem Kept.thenGoes {α : Type} {a : Run α} (h : Kept (Steady L fs d) a)
    {f g : α → Run (Option Value)} (hf : ∀ x, Goes L fs d (f x) (g x)) :
    Goes L fs d (a >>= f) (a >>= g) :=
  Alike.bind (h.imp (fun _ hs => hs) (fun _ _ hs => hs) fun _ _ hs => hs.next) hf

theorem size_rebound_le (stack : Array Value) (height count : Nat) :
    (((stack.shrink (stack.size - count)).shrink height).appendList
      (stack.extract (stack.size - count) stack.size).toList).size ≤ stack.size := by
  rw [Array.appendList_eq_append, ← Array.length_toList, Array.toList_appendList,
    List.length_append, Array.length_toList, Array.length_toList, Array.size_shrink,
    Array.size_shrink, Array.size_extract]
  omega

/-- An action that leaves the frames as they are and does not end the run. -/
abbrev Lingers (L : Limits) (fs : Array Activation) (d : Nat) (a : Run (Option Value)) : Prop :=
  Meets (Steady L fs d) a (fun o s => o = none ∧ Steady L fs d s) fun _ => Steady L fs d

theorem Kept.lingers {a : Run Unit} (h : Kept (Steady L fs d) a) :
    Lingers L fs d (do a; return none) := Alike.bind h fun _ => .pure fun _ hs => ⟨rfl, hs⟩

/-- Values that are put back under a height do not exceed the stack they were taken from. -/
theorem rebind_lingers (height count : Nat) :
    Lingers L fs d (do let args ← popMany count; truncate height; append args; return none) := by
  intro s h
  refine ⟨rfl, ?_⟩
  by_cases hc : s.machine.stack.size < count
  · simp only [popMany, Act.bind_apply, Act.ask, if_pos hc, Run.fail, Act.raise]
    exact h
  · simp only [popMany, Act.bind_apply, Act.ask, if_neg hc, truncate, append, Act.update]
    have hs := h.regular.stack
    have h₁ := h.mapStack (f := fun stack => stack.shrink (stack.size - count)) (by
      rw [Array.size_shrink]
      omega)
    have h₂ := h₁.mapStack (f := fun stack => stack.shrink height) (by
      rw [Array.size_shrink]
      exact Nat.le_trans (Nat.min_le_right _ _) h₁.regular.stack)
    exact ⟨rfl, h₂.mapStack (Nat.le_trans (size_rebound_le s.machine.stack height count) hs)⟩

/-- Instructions that neither jump nor call, and neither make nor end a function, leave the frames as
they are. -/
theorem exec_lingers {c : Caller} (entry : Nat) (a : Activation) {op : Opcode} (operand next : Nat)
    (hop : op ∉ [.jump, .jumpIfFalse, .loop, .call, .closure, .ret]) :
    Lingers L fs d (exec c entry a ⟨op, operand, next⟩) := by
  cases op with
  | const => exact (constant_kept a _).bind fun v => (push_kept v).lingers
  | nil | true | false => exact (push_kept _).lingers
  | pop => exact Kept.lingers (pop_kept.bind fun _ => pure_kept _)
  | popN => exact pop_kept.bind fun v => (drop_kept _).bind fun _ => (push_kept v).lingers
  | getLocal => exact (slot_kept _).bind fun v => (push_kept v).lingers
  | setLocal => exact top_kept.bind fun v => (setSlot_kept _ v).lingers
  | getUpvalue =>
    exact (cellOf_kept a _).bind fun id => (readCell_kept id).bind fun v => (push_kept v).lingers
  | setUpvalue =>
    exact (cellOf_kept a _).bind fun id => top_kept.bind fun v => (writeCell_kept id v).lingers
  | closeUpvalue => exact (closeSlots_kept _).lingers
  | getVar =>
    exact (varConstant_kept a _).bind fun v => (deref_kept v _).bind fun x => (push_kept x).lingers
  | setVar =>
    exact top_kept.bind fun x => (varConstant_kept a _).bind fun v => (assign_kept v x).lingers
  | add | subtract | multiply | divide | less | greater | equal => exact (binary_kept _).lingers
  | negate =>
    exact pop_kept.bind fun x => (ofFault_kept (Number.negate x)).bind fun v => (push_kept v).lingers
  | not => exact pop_kept.bind fun x => (push_kept _).lingers
  | recur => exact (closeSlots_kept _).bind fun _ => rebind_lingers _ _
  | vector => exact (popMany_kept _).bind fun vs => (push_kept _).lingers
  | map => exact (popMany_kept _).bind fun vs => (mapOf_kept vs).bind fun v => (push_kept v).lingers
  | set => exact (popMany_kept _).bind fun vs => (setOf_kept vs).bind fun v => (push_kept v).lingers
  | jump | jumpIfFalse | loop | call | closure | ret => exact absurd (by decide) hop

/-- An instruction other than the end of a function moves the running function or begins another. -/
theorem exec_goes {c c' : Caller} (hc : survival.Callers n c c') (entry : Nat) (a : Activation)
    (i : Instruction) (hi : i.op ≠ .ret) : Goes L fs d (exec c entry a i) (exec c' entry a i) := by
  obtain ⟨op, operand, next⟩ := i
  cases op with
  | jump | loop => exact (jump_moves _ _).goes
  | jumpIfFalse =>
    refine pop_kept.thenGoes fun x => ?_
    split
    · exact (pure_kept ()).goes
    · exact (jump_moves _ _).goes
  | call => exact (callValue_moves hc _).goes
  | closure => exact (makeClosure_moves a _).goes
  | ret => exact absurd rfl hi
  | _ =>
    exact (exec_lingers entry a operand next (by decide)).imp (fun _ hs => hs) (fun _ _ hs => ⟨hs.1, hs.2.next⟩)
      fun _ _ hs => hs.next

/-! ## The end of a function -/

/-- Nothing is left on the machine from a height on. -/
structure Low (base : Nat) (s : State) : Prop where
  stack : s.machine.stack.size ≤ base
  cells : ∀ c ∈ s.machine.openCells, c.slot < base

theorem Steady.closeFrom_slot_lt {s : State} (h : Steady L fs d s) (height : Nat) {c : OpenCell}
    (hc : c ∈ (s.closeFrom height).machine.openCells) : c.slot < height :=
  ((h.regular.sound.mem_dropWhile height).mp hc).2

theorem endFrame_meets (a : Activation) (entry : Nat) :
    Meets (Steady L fs d) (endFrame a entry)
      (fun o s => Steady L fs.pop (d - a.counted.toNat) s ∧
        (o = none ∧ entry < fs.pop.size ∨ o ≠ none ∧ fs.pop.size ≤ entry ∧ Low a.base s))
      fun _ s => Steady L fs d s ∨
        Steady L fs.pop (d - a.counted.toNat) s ∧ entry < fs.pop.size := by
  refine Alike.bind (pop_kept.imp (fun _ h => h) (fun _ _ h => h) fun _ _ h => .inl h) fun v => ?_
  have hframes : ∀ s, Steady L fs d s → Steady L fs.pop d (s.mapMachine (mapFrames Array.pop)) := by
    intro s h
    have hf : fs.pop.size ≤ L.framesMax := by
      have := h.frames ▸ h.regular.frames
      rw [Array.size_pop]
      omega
    have := h.mapFrames (n := d) hf
    rw [← h.depth] at this ⊢
    exact this
  have hlow : ∀ s, (Steady L fs.pop d s ∧ ∀ c ∈ s.machine.openCells, c.slot < a.base) →
      Steady L fs.pop d (s.mapMachine (mapStack fun stack => stack.shrink a.base)) ∧
        Low a.base (s.mapMachine (mapStack fun stack => stack.shrink a.base)) := by
    rintro s ⟨h, hc⟩
    have hs := h.regular.stack
    refine ⟨h.mapStack ?_, ?_, hc⟩
    · rw [Array.size_shrink]
      omega
    · show (s.machine.stack.shrink a.base).size ≤ a.base
      rw [Array.size_shrink]
      omega
  refine Alike.bind (Q := fun _ => Steady L fs.pop d) (.update hframes) fun _ => ?_
  refine Alike.bind (Q := fun _ s => Steady L fs.pop d s ∧
    ∀ c ∈ s.machine.openCells, c.slot < a.base)
    (.update fun s h => ⟨h.closeFrom a.base, fun _ => h.closeFrom_slot_lt a.base⟩) fun _ => ?_
  have hrest : Alike (fun s => Steady L fs.pop (d - a.counted.toNat) s ∧ Low a.base s)
      (do
        if (← Act.ask fun s => s.machine.frames.size) ≤ entry then return some v
        push v
        return none : Run (Option Value))
      (do
        if (← Act.ask fun s => s.machine.frames.size) ≤ entry then return some v
        push v
        return none)
      (fun o s => Steady L fs.pop (d - a.counted.toNat) s ∧
        (o = none ∧ entry < fs.pop.size ∨ o ≠ none ∧ fs.pop.size ≤ entry ∧ Low a.base s))
      fun _ s => Steady L fs d s ∨
        Steady L fs.pop (d - a.counted.toNat) s ∧ entry < fs.pop.size := by
    refine Alike.bind (Q := fun n s => n = fs.pop.size ∧ Steady L fs.pop (d - a.counted.toNat) s ∧
      Low a.base s) (.ask fun s h => ⟨congrArg Array.size h.1.frames, h⟩) fun n => ?_
    split
    · refine .pure fun s h => ⟨h.2.1, .inr ⟨nofun, ?_, h.2.2⟩⟩
      omega
    · rename_i hn
      intro s h
      have hlt : entry < fs.pop.size := by omega
      exact Alike.bind ((push_kept v).imp (fun _ h => h) (fun _ _ h => h)
        fun _ _ h => .inr ⟨h, hlt⟩) (fun _ => .pure fun s h => ⟨h, .inl ⟨rfl, hlt⟩⟩) s h.2.1
  refine Alike.bind (Q := fun _ s => Steady L fs.pop d s ∧ Low a.base s) (.update hlow) fun _ => ?_
  cases hc : a.counted with
  | true =>
    rw [hc] at hrest
    refine Alike.bind (.update fun s h => ?_) fun _ => hrest
    exact ⟨⟨h.1.limits, h.1.regular, h.1.parked, h.1.literate, h.1.frames,
      congrArg (· - 1) h.1.depth⟩, h.2.stack, h.2.cells⟩
  | false =>
    rw [hc] at hrest
    exact hrest

/-! ## Runs -/

/-- The frames of a run above those that were there before. The lowest of them begins at `base`, and
the depth of calls counts those that are nested calls. -/
inductive Site (pre : Array Activation) (base depth : Nat) : Array Activation → Nat → Prop
  | first (a : Activation) (h : a.base = base) :
    Site pre base depth (pre.push a) (depth + a.counted.toNat)
  | next {fs : Array Activation} {d : Nat} (a : Activation) (h : Site pre base depth fs d) :
    Site pre base depth (fs.push a) (d + a.counted.toNat)

variable {pre : Array Activation} {base depth : Nat}

theorem modify_push (fs : Array Activation) (a : Activation) (f : Activation → Activation) :
    (fs.push a).modify ((fs.push a).size - 1) f = fs.push (f a) := by
  apply Array.ext_getElem?
  intro i
  rw [Array.getElem?_modify, Array.getElem?_push, Array.getElem?_push, Array.size_push]
  by_cases hi : i = fs.size
  · simp [hi]
  · rw [if_neg (by omega), if_neg hi, if_neg hi]

theorem Site.moved (h : Site pre base depth fs d) {fs' : Array Activation} {d' : Nat}
    (hm : Moved fs d fs' d') : Site pre base depth fs' d' := by
  cases hm with
  | stay => exact h
  | enter c b => exact .next ⟨c, 0, b, true⟩ h
  | goTo ip =>
    cases h with
    | first a ha =>
      rw [modify_push]
      exact .first { a with ip := ip } ha
    | next a h =>
      rw [modify_push]
      exact .next { a with ip := ip } h

theorem Site.size_lt (h : Site pre base depth fs d) : pre.size < fs.size := by
  induction h with
  | first a => simp
  | next a _ ih =>
    rw [Array.size_push]
    omega

theorem Site.above (h : Site pre base depth fs d) : ∃ rest : Array Activation, fs = pre ++ rest := by
  induction h with
  | first a => exact ⟨#[a], by simp⟩
  | next a _ ih =>
    obtain ⟨rest, rfl⟩ := ih
    exact ⟨rest.push a, by simp⟩

theorem Site.back (h : Site pre base depth fs d) : ∃ gs a, fs = gs.push a ∧
    ((gs = pre ∧ a.base = base ∧ d - a.counted.toNat = depth) ∨
      Site pre base depth gs (d - a.counted.toNat)) := by
  cases h with
  | first a ha => exact ⟨pre, a, rfl, .inl ⟨rfl, ha, Nat.add_sub_cancel _ _⟩⟩
  | next a h =>
    refine ⟨_, a, rfl, .inr ?_⟩
    rw [Nat.add_sub_cancel]
    exact h

/-- A run between two instructions. -/
def Working (L : Limits) (pre : Array Activation) (base depth : Nat) (s : State) : Prop :=
  ∃ fs d, Site pre base depth fs d ∧ Steady L fs d s

/-- A run that has ended: its frames are gone, and nothing of it is left on the machine. -/
def Ended (L : Limits) (pre : Array Activation) (base depth : Nat) (s : State) : Prop :=
  Steady L pre depth s ∧ Low base s

/-- A run that has failed somewhere. -/
def Broken (L : Limits) (pre : Array Activation) (s : State) : Prop :=
  ∃ rest d, Steady L (pre ++ rest) d s

theorem Working.broken {s : State} (h : Working L pre base depth s) : Broken L pre s := by
  obtain ⟨fs, d, hsite, h⟩ := h
  obtain ⟨rest, rfl⟩ := hsite.above
  exact ⟨rest, d, h⟩

theorem tick_kept : Kept (Steady L fs d) tick := by
  refine Alike.bind (Q := fun _ => Steady L fs d) (.update fun s h => ?_) fun _ => ?_
  · exact ⟨h.limits, ⟨h.regular.stack, h.regular.frames, h.regular.sound⟩, h.parked, h.literate,
      h.frames, h.depth⟩
  · refine (ask_kept _).bind fun o => ?_
    cases o with
    | none => exact pure_kept _
    | some budget =>
      refine (ask_kept _).bind fun steps => ?_
      split
      · exact fail_kept _
      · exact pure_kept _

theorem running_meets {a : Activation} {R : RuntimeError → State → Prop} :
    Meets (Steady L (fs.push a) d) running (fun x s => x = a ∧ Steady L (fs.push a) d s) R := by
  refine Alike.bind (Q := fun o s => o = some a ∧ Steady L (fs.push a) d s)
    (.ask fun s h => ⟨by rw [h.frames, Array.back?_push], h⟩) fun o => ?_
  cases o with
  | none => exact Run.fail_meets fun s h => nomatch h.1
  | some x => exact .pure fun s h => ⟨Option.some.inj h.1, h.2⟩

theorem step_alike {c c' : Caller} (hc : survival.Callers n c c') :
    Alike (Working L pre base depth) (step c pre.size) (step c' pre.size)
      (fun o s => o = none ∧ Working L pre base depth s ∨ o ≠ none ∧ Ended L pre base depth s)
      fun _ => Broken L pre := by
  intro s hs
  obtain ⟨fs, d, hsite, h⟩ := hs
  obtain ⟨gs, a, rfl, hpop⟩ := hsite.back
  have hmoved : ∀ (ip : Nat) (s : State), Next L (gs.push { a with ip := ip }) d s →
      Working L pre base depth s := by
    rintro ip s ⟨fs', d', hm, h'⟩
    have hgo := hsite.moved (.goTo ip)
    rw [modify_push] at hgo
    exact ⟨fs', d', hgo.moved hm, h'⟩
  have hend : ∀ (ip : Nat), Meets (Steady L (gs.push { a with ip := ip }) d) (endFrame a pre.size)
      (fun o s => o = none ∧ Working L pre base depth s ∨ o ≠ none ∧ Ended L pre base depth s)
      fun _ => Broken L pre := by
    intro ip
    refine (endFrame_meets a pre.size).imp (fun _ h => h) (fun o s ho => ?_) fun _ s ho => ?_
    · rw [Array.pop_push] at ho
      rcases hpop with ⟨rfl, hb, hd⟩ | hgs
      · rcases ho with ⟨h', ⟨_, hlt⟩ | ⟨hne, _, hlow⟩⟩
        · exact absurd hlt (Nat.lt_irrefl _)
        · rw [hd] at h'
          rw [hb] at hlow
          exact .inr ⟨hne, h', hlow⟩
      · rcases ho with ⟨h', ⟨hn, _⟩ | ⟨_, hle, _⟩⟩
        · exact .inl ⟨hn, gs, _, hgs, h'⟩
        · exact absurd hle (Nat.not_le.mpr hgs.size_lt)
    · rw [Array.pop_push] at ho
      rcases ho with h' | ⟨h', hlt⟩
      · exact (hmoved ip s h'.next).broken
      · rcases hpop with ⟨rfl, _, _⟩ | hgs
        · exact absurd hlt (Nat.lt_irrefl _)
        · exact Working.broken ⟨gs, _, hgs, h'⟩
  have hbody : Alike (Steady L (gs.push a) d)
      (do tick
          let i ← Run.ofFault (a.closure.proto.chunk.fetch a.ip)
          goTo i.next
          exec c pre.size a i)
      (do tick
          let i ← Run.ofFault (a.closure.proto.chunk.fetch a.ip)
          goTo i.next
          exec c' pre.size a i)
      (fun o s => o = none ∧ Working L pre base depth s ∨ o ≠ none ∧ Ended L pre base depth s)
      fun _ => Broken L pre := by
    have hfail : ∀ (_ : RuntimeError) s, Steady L (gs.push a) d s → Broken L pre s :=
      fun _ s h => Working.broken ⟨_, d, hsite, h⟩
    refine Alike.bind (tick_kept.imp (fun _ h => h) (fun _ _ h => h) hfail) fun _ => ?_
    refine Alike.bind ((ofFault_kept _).imp (fun _ h => h) (fun _ _ h => h) hfail) fun i => ?_
    refine Alike.bind (goTo_meets i.next) fun _ => ?_
    rw [modify_push]
    by_cases hi : i.op = .ret
    · obtain ⟨op, operand, next⟩ := i
      cases hi
      exact hend next
    · exact (exec_goes hc pre.size a i hi).imp (fun _ h => h)
        (fun _ s h => .inl ⟨h.1, hmoved i.next s h.2⟩) fun _ s h => (hmoved i.next s h).broken
  refine Alike.bind (a := running) running_meets (fun x => ?_) s h
  rintro s ⟨rfl, h⟩
  refine Alike.mapFault ?_ s h
  exact hbody

/-- The machine of a state is within the limits, and its open cells are sound. -/
def Upright (s : State) : Prop := s.machine.Regular s.config.limits s.store.cells

theorem Working.upright {s : State} (h : Working L pre base depth s) : Upright s := by
  obtain ⟨fs, d, _, h⟩ := h
  show s.machine.Regular s.config.limits s.store.cells
  rw [h.limits]
  exact h.regular

variable {c c' : Caller} {step' : Caller → Nat → Run (Option Value)}

theorem run_alike (hf : Watch.Faithful Upright step') (hc : survival.Callers n c c') (rounds : Nat) :
    Alike (Working L pre base depth) (run (step c) pre.size rounds)
      (run (step' c') pre.size rounds) (fun _ => Ended L pre base depth) fun _ => Broken L pre := by
  induction rounds with
  | zero => exact .exhausted
  | succ rounds ih =>
    have hstep : Alike (Working L pre base depth) (step c pre.size) (step' c' pre.size)
        (fun o s => o = none ∧ Working L pre base depth s ∨ o ≠ none ∧ Ended L pre base depth s)
        fun _ => Broken L pre := fun s h => by
      rw [hf c' pre.size s h.upright]
      exact step_alike hc s h
    refine hstep.bind fun o => ?_
    cases o with
    | some v => exact .pure fun s h => h.elim (fun h => nomatch h.1) fun h => h.2
    | none => exact ih.pre fun s h => h.elim (fun h => h.2) fun h => absurd rfl h.1

theorem Broken.unwind {s : State} (h : Broken L pre s) (base depth : Nat) :
    Ended L pre base depth (unwind base pre.size depth s) := by
  obtain ⟨rest, d, h⟩ := h
  have hc := h.closeFrom base
  have hsize : (s.machine.stack.shrink base).size ≤ base := by
    rw [Array.size_shrink]
    omega
  have hstack : (s.machine.stack.shrink base).size ≤ L.stackMax := by
    have := h.regular.stack
    rw [Array.size_shrink]
    omega
  have hframes : (s.machine.frames.shrink pre.size) = pre := by
    rw [h.frames]
    simp
  refine ⟨⟨h.limits, ⟨hstack, ?_, hc.regular.sound⟩, h.parked, hc.literate, hframes, rfl⟩, hsize,
    fun c hc => h.closeFrom_slot_lt base hc⟩
  show (s.machine.frames.shrink pre.size).size ≤ L.framesMax
  rw [hframes]
  have hall := h.regular.frames
  rw [h.frames, Array.size_append] at hall
  omega

theorem forM_push_kept (args : List Value) : Kept (Steady L fs d) (args.forM push) := by
  induction args with
  | nil => exact pure_kept _
  | cons v rest ih => exact (push_kept v).bind fun _ => ih

theorem begin_meets (id : Nat) (k : Closure) (args : List Value) (counted : Bool) :
    Meets (Steady L pre depth) (begin id k args base counted) (fun _ => Working L pre base depth)
      fun _ => Broken L pre := by
  have hfail : ∀ (_ : RuntimeError) s, Steady L pre depth s → Broken L pre s :=
    fun _ s h => ⟨#[], depth, by rwa [Array.append_empty]⟩
  refine Alike.bind ((push_kept _).imp (fun _ h => h) (fun _ _ h => h) hfail) fun _ => ?_
  refine Alike.bind ((forM_push_kept args).imp (fun _ h => h) (fun _ _ h => h) hfail) fun _ => ?_
  exact (pushFrame_meets k base counted).imp (fun _ h => h)
    (fun _ s h => ⟨_, _, .first ⟨k, 0, base, counted⟩ rfl, h⟩) hfail

theorem start_alike (hf : Watch.Faithful Upright step') (hc : survival.Callers n c c')
    (rounds id : Nat) (k : Closure) (args : List Value) (counted : Bool) (m : Machine) :
    Alike (fun s => Steady L pre depth s ∧ s.machine = m)
      (start (step c) rounds id k args counted) (start (step' c') rounds id k args counted)
      (fun _ => Ended L pre m.stack.size depth)
      fun _ s => Steady L pre depth s ∧ s.machine = m ∨ Ended L pre m.stack.size depth s := by
  unfold start
  refine Run.guard_alike (fun _ _ h => .inl h) fun _ => ?_
  intro s ⟨h, hb⟩
  have hrun : Alike (Steady L pre depth)
      (onStop (do begin id k args m.stack.size counted; run (step c) pre.size rounds)
        (unwind m.stack.size pre.size depth))
      (onStop (do begin id k args m.stack.size counted; run (step' c') pre.size rounds)
        (unwind m.stack.size pre.size depth)) (fun _ => Ended L pre m.stack.size depth)
      fun _ s => Steady L pre depth s ∧ s.machine = m ∨ Ended L pre m.stack.size depth s := by
    refine Alike.onStop ?_
    refine (Alike.bind (begin_meets id k args counted) fun _ => run_alike hf hc rounds).imp
      (fun _ h => h) (fun _ _ h => h) fun _ s h => .inr (h.unwind m.stack.size depth)
  subst hb
  have hreset : Steady L pre depth (s.mapMachine fun m => { m with steps := 0, peak := 0 }) :=
    ⟨h.limits, ⟨h.regular.stack, h.regular.frames, h.regular.sound⟩, h.parked, h.literate,
      h.frames, h.depth⟩
  have hd := h.depth
  have hp := h.frames
  subst hd hp
  simp only [Act.bind_apply, Act.ask]
  by_cases he : s.machine.frames.size = 0
  · simp only [if_pos he, Act.bind_apply, Act.update]
    exact hrun _ hreset
  · simp only [if_neg he]
    exact hrun s h

theorem executeBy_alike (hf : Watch.Faithful Upright step') (hc : survival.Callers n c c')
    (rounds id : Nat) (args : List Value) (m : Machine) :
    Alike (fun s => Steady L pre depth s ∧ s.machine = m)
      (executeBy (step c) rounds id args) (executeBy (step' c') rounds id args)
      (fun _ => Ended L pre m.stack.size depth)
      fun _ s => Steady L pre depth s ∧ s.machine = m ∨ Ended L pre m.stack.size depth s :=
  Alike.bind ((closureOf_kept id).imp (fun _ h => h) (fun _ _ h => h) fun _ _ h => .inl h) fun k =>
    start_alike hf hc rounds id k args true m

theorem executeFormBy_alike (hf : Watch.Faithful Upright step') (hc : survival.Callers n c c')
    (rounds : Nat) (p : Proto) (m : Machine) :
    Alike (fun s => Steady L pre depth s ∧ s.machine = m)
      (executeFormBy (step c) rounds p) (executeFormBy (step' c') rounds p)
      (fun _ => Ended L pre m.stack.size depth)
      fun _ s => Steady L pre depth s ∧ s.machine = m ∨ Ended L pre m.stack.size depth s :=
  Alike.bind (.onStore fun _ h => ⟨h.1.ofStore rfl h.1.regular.sound, h.2⟩) fun id =>
    start_alike hf hc rounds id ⟨p, #[]⟩ [] false m

theorem onParked_survival {a b : Run Value}
    (h : ∀ L pre depth m, Alike (fun s => Steady L pre depth s ∧ s.machine = m) a b
      (fun _ => Ended L pre m.stack.size depth)
      fun _ s => Steady L pre depth s ∧ s.machine = m ∨ Ended L pre m.stack.size depth s)
    (w : State.Core × Nat) : survival.KeepsRun n w (onParked a) (onParked b) := by
  refine Watch.onParked_keeps fun s hs => ?_
  have hkeep : ∀ t, Steady s.config.limits (s.parked.getD .idle).frames s.depth t →
      survival.Holds n w { t with machine := s.machine, parked := some t.machine } := by
    intro t ht
    refine ⟨⟨hs.inv.machine, fun m hm => ?_⟩, ht.literate, survival.trans hs.rel ?_,
      ht.depth.trans hs.depth⟩
    · cases hm
      show t.machine.Regular t.config.limits t.store.cells
      rw [ht.limits]
      exact ht.regular
    · exact ⟨ht.limits, ht.frames, fun _ => rfl⟩
  have hreg : (s.parked.getD .idle).Regular s.config.limits s.store.cells := by
    cases hp : s.parked with
    | none => exact empty_idle.regular _ _
    | some m => exact hs.inv.parked m hp
  exact ⟨_, ⟨⟨rfl, hreg, rfl, hs.literate, rfl, rfl⟩, rfl⟩,
    (h s.config.limits (s.parked.getD .idle).frames s.depth (s.parked.getD .idle)).imp
      (fun _ h => h) (fun _ t ht => hkeep t ht.1)
      fun _ t ht => ⟨trivial, hkeep t (ht.elim And.left And.left)⟩⟩

/-- Arbitrary bytecode keeps what is watched, so whole programs do. -/
theorem sound_survival (hf : Watch.Faithful Upright step') : survival.Sound (.steps step') :=
  .steps (fun hc w rounds id args =>
      onParked_survival (fun _ _ _ m => executeBy_alike hf hc rounds id args m) w)
    fun hc w _ rounds _ p _ _ =>
      onParked_survival (fun _ _ _ m => executeFormBy_alike hf hc rounds p m) w

theorem callers_survival (hf : Watch.Faithful Upright step') (level : Nat) :
    survival.Callers 0 (Engine.ofFuel level).call (Engine.equipped Run.assign step' level).call := by
  have hc := Watch.call_keeps exact_survival (sound_survival hf) level 0
  rwa [Engine.probed_steps] at hc

/-! ## Empty machines -/

/-- The machine has been left as it was found, without any work to do, and as many calls are
counted as before. -/
structure Vacated (s t : State) : Prop where
  machine : t.machine.Empty
  depth : t.depth = s.depth

theorem Ended.vacated {s t : State} (h : Ended L #[] 0 s.depth t) : Vacated s t := by
  refine ⟨⟨Array.size_eq_zero_iff.mp (Nat.le_zero.mp h.2.stack), h.1.frames, ?_⟩, h.1.depth⟩
  exact List.eq_nil_iff_forall_not_mem.mpr fun c hc => absurd (h.2.cells c hc) (Nat.not_lt_zero _)

/-- The machine survives arbitrary bytecode. Started empty on a function or a whole form, whatever
the prototypes of the program are, it executes instructions in upright states only: any other way
to execute instructions that is the usual one in these does the same. When the run ends, with a
value or with any fault, the machine is empty again and as many calls are counted as before. -/
theorem survives_arbitrary_bytecode {s : State} (he : s.machine.Empty) (hp : s.parked = none)
    (hl : s.Literate fun _ _ _ => True) (n rounds : Nat) :
    (∀ step', Watch.Faithful Upright step' →
      (∀ id args, executeBy (step' (Engine.equipped Run.assign step' n).call) rounds id args s =
        execute (Engine.ofFuel n).call rounds id args s) ∧
      ∀ p, executeFormBy (step' (Engine.equipped Run.assign step' n).call) rounds p s =
        executeForm (Engine.ofFuel n).call rounds p s) ∧
    (∀ id args, Post (fun _ => Vacated s) (fun _ => Vacated s)
      (execute (Engine.ofFuel n).call rounds id args s)) ∧
    ∀ p, Post (fun _ => Vacated s) (fun _ => Vacated s)
      (executeForm (Engine.ofFuel n).call rounds p s) := by
  have hstart : Steady s.config.limits #[] s.depth s ∧ s.machine = s.machine :=
    ⟨⟨rfl, he.regular _ _, hp, hl, he.frames, rfl⟩, rfl⟩
  have hend : ∀ t, Ended s.config.limits #[] s.machine.stack.size s.depth t → Vacated s t := by
    intro t ht
    rw [he.stack] at ht
    exact ht.vacated
  have hpost : ∀ {r : EStateM.Result (Stop RuntimeError) State Value},
      Post (fun _ => Ended s.config.limits #[] s.machine.stack.size s.depth)
        (fun _ t => Steady s.config.limits #[] s.depth t ∧ t.machine = s.machine ∨
          Ended s.config.limits #[] s.machine.stack.size s.depth t) r →
      Post (fun _ => Vacated s) (fun _ => Vacated s) r := fun h =>
    h.imp (fun _ t ht => hend t ht) fun _ t ht => ht.elim
      (fun ht => ⟨ht.2 ▸ he, ht.1.depth⟩) (hend t)
  refine ⟨fun step' hf => ?_, fun id args => ?_, fun p => ?_⟩
  · have hc := callers_survival hf n
    exact ⟨fun id args => (executeBy_alike hf hc rounds id args s.machine s hstart).1,
      fun p => (executeFormBy_alike hf hc rounds p s.machine s hstart).1⟩
  · have hf : Watch.Faithful Upright step := fun _ _ _ _ => rfl
    have hc := callers_survival hf n
    exact hpost (executeBy_alike hf hc rounds id args s.machine s hstart).2
  · have hf : Watch.Faithful Upright step := fun _ _ _ _ => rfl
    have hc := callers_survival hf n
    exact hpost (executeFormBy_alike hf hc rounds p s.machine s hstart).2

/-- A form that pops what is not there, in an interpreter without functions. -/
theorem survives_corrupt_form :
    Post (fun _ => Vacated (State.bare .empty .standard))
      (fun _ => Vacated (State.bare .empty .standard))
      (executeForm (Engine.ofFuel 3).call 9 ⟨"form", 0, ⟨#[4, 4, 200], #[], #[]⟩, #[], #[]⟩
        (State.bare .empty .standard)) :=
  (survives_arbitrary_bytecode (s := State.bare .empty .standard) empty_idle rfl
    (fun _ _ h => nomatch h) 3 9).2.2 _

end Machine

end TwinLisp
