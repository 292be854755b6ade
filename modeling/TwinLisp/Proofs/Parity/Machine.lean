import TwinLisp.Proofs.Machine.Intrinsics
import TwinLisp.Proofs.Parity.Coupled
import TwinLisp.Proofs.Variables.Actions

/-! A function on the machine whose slots are cells. Between two instructions all slots of the running
function have cells and show what is in them, so the machine is known by what lies below the function,
by its cells and by where it is in its code.

* `Posture`: a running function and what lies below it.
* `Posture.At`: the machine between two instructions.
* `Posture.step_eq`: an instruction, once it has been fetched.
* `Steps`: an instruction that does not end the run, whatever calls may do.
* `Posture.push_lands` and so on: what the instructions do. -/

namespace TwinLisp.Parity

open Machine Machine.Ideal Act

/-! ## Collections -/

/-- What comes of alternating keys and values. -/
def mapAnswer (items : List Value) : Answer Value :=
  match Value.repeated? ((Form.pairUp items).map Prod.fst) with
  | some k => .error (.general ("Duplicate key: " ++ k.readable))
  | none => .ok (.map (Form.pairUp items))

theorem mapOf_eq (items : List Value) : Machine.mapOf items = Run.ofFault (mapAnswer items) := by
  unfold Machine.mapOf mapAnswer
  dsimp only
  cases Value.repeated? ((Form.pairUp items).map Prod.fst) <;> rfl

def setAnswer (items : List Value) : Answer Value :=
  match Value.repeated? items with
  | some k => .error (.general ("Duplicate key: " ++ k.readable))
  | none => .ok (.set items)

theorem setOf_eq (items : List Value) : Machine.setOf items = Run.ofFault (setAnswer items) := by
  unfold Machine.setOf setAnswer
  cases Value.repeated? items <;> rfl

/-! ## Postures -/

/-- A running function: what lies below it on the stack and what runs below it, its code, and the cells
that it has captured. -/
structure Posture where
  stack : Array Value
  frames : Array Activation
  proto : Proto
  captured : List Nat
  fits : captured.length = proto.captures.size
  counted : Bool

namespace Posture

variable (P : Posture) {k : Nat} {cs : List Nat} {vs olds news : List Value} {t T : State}

def activation (k : Nat) (cs : List Nat) : Activation :=
  ⟨⟨P.proto, (P.captured ++ cs).toArray⟩, k, P.stack.size, P.counted⟩

@[simp] theorem base_activation (k : Nat) (cs : List Nat) :
    (P.activation k cs).base = P.stack.size := rfl

/-- The state in which the function is at an offset, with cells and values in its slots. -/
def put (k : Nat) (cs : List Nat) (vs : List Value) (T : State) : State :=
  { T with machine :=
    ⟨P.stack ++ vs.toArray, P.frames.push (P.activation k cs), [], T.machine.steps, T.machine.peak⟩ }

/-- The state with new cells for values. -/
def allot (news : List Value) (T : State) : State :=
  { T with store := { T.store with cells := T.store.cells ++ (news.map Cell.closed).toArray } }

def fresh (news : List Value) (T : State) : List Nat := List.range' T.store.cells.size news.length

/-- The function is at an offset. All its slots have cells and show what is in them. -/
structure At (k : Nat) (cs : List Nat) (vs : List Value) (t : State) : Prop where
  machine : t = P.put k cs vs t
  parked : t.parked = none
  shown : cs.map t.store.content? = vs.map some

variable {P}

theorem At.length (h : P.At k cs vs t) : cs.length = vs.length := by
  have := congrArg List.length h.shown
  simpa using this

theorem content?_allot_old {c : Nat} {v : Value} (h : T.store.content? c = some v)
    (news : List Value) : (allot news T).store.content? c = some v := by
  unfold Store.content? at h ⊢
  cases hc : T.store.cells[c]? with
  | none => simp [hc] at h
  | some x =>
    have hlt := (Array.getElem?_eq_some_iff.mp hc).1
    simp only [allot, Array.getElem?_append, hlt, if_true, hc]
    simpa [hc] using h

theorem content?_allot_new (news : List Value) (T : State) (j : Nat) :
    (allot news T).store.content? (T.store.cells.size + j) = news[j]? := by
  unfold Store.content?
  simp only [allot, Array.getElem?_append, List.getElem?_toArray, List.getElem?_map]
  rw [if_neg (by omega), Nat.add_sub_cancel_left]
  cases news[j]? <;> rfl

theorem map_content?_allot (hs : cs.map T.store.content? = vs.map some) (news : List Value) :
    (cs ++ fresh news T).map (allot news T).store.content? = (vs ++ news).map some := by
  rw [List.map_append, List.map_append]
  congr 1
  · rw [← hs]
    refine List.map_congr_left fun c hc => ?_
    obtain ⟨i, hi⟩ := List.mem_iff_getElem?.mp hc
    have h := congrArg (·[i]?) hs
    simp only [List.getElem?_map, hi, Option.map_some] at h
    cases hv : vs[i]? with
    | none => simp [hv] at h
    | some v =>
      rw [hv, Option.map_some, Option.some.injEq] at h
      rw [h]
      exact content?_allot_old h news
  · apply List.ext_getElem?
    intro i
    simp only [fresh, List.getElem?_map]
    by_cases hi : i < news.length
    · rw [List.getElem?_range' hi, Option.map_some, Nat.one_mul, content?_allot_new,
        List.getElem?_eq_getElem hi, Option.map_some]
    · rw [List.getElem?_eq_none (by simpa using hi), List.getElem?_eq_none (by simpa using hi)]
      rfl

theorem getElem?_above (xs : Array Value) (ys : List Value) (i : Nat) :
    (xs ++ ys.toArray)[xs.size + i]? = ys[i]? := by
  rw [Array.getElem?_append_right (Nat.le_add_right _ _), Nat.add_sub_cancel_left,
    List.getElem?_toArray]

/-- Slots get their cells. Those that have cells show what is in them, whatever has been in them. -/
theorem settle_put (hl : olds.length = cs.length) (hs : cs.map T.store.content? = vs.map some) :
    settle (P.put k cs (olds ++ news) T) =
      P.put k (cs ++ fresh news T) (vs ++ news) (allot news T) := by
  have hlen : vs.length = cs.length := by
    have := congrArg List.length hs
    simpa using this.symm
  have hback : (P.put k cs (olds ++ news) T).machine.frames.back? = some (P.activation k cs) := by
    simp [put]
  have hshown : (P.activation k cs).shown = cs.length := by
    simp [Activation.shown, activation, P.fits]
  have hvalues : (P.stack ++ (olds ++ news).toArray).extract (P.stack.size + cs.length)
      (P.stack ++ (olds ++ news).toArray).size = news.toArray := by
    rw [← hl]
    apply Array.ext'
    simp
  have hcontent := map_content?_allot hs news
  unfold settle
  rw [hback]
  simp only [hshown]
  have hextract : (P.put k cs (olds ++ news) T).machine.stack.extract
      ((P.activation k cs).base + cs.length) (P.put k cs (olds ++ news) T).machine.stack.size =
        news.toArray := hvalues
  rw [hextract]
  have ha : (P.activation k cs).withCells ((P.activation k cs).closure.cells ++
      Array.range' (P.put k cs (olds ++ news) T).store.cells.size news.toArray.size) =
        P.activation k (cs ++ fresh news T) := by
    have hrange : Array.range' T.store.cells.size news.length =
        (List.range' T.store.cells.size news.length).toArray := Array.ext' (by simp)
    simp only [activation, Activation.withCells, fresh, put, List.size_toArray, hrange,
      List.append_toArray, List.append_assoc]
  have hstore : ({ (P.put k cs (olds ++ news) T).store with
      cells := (P.put k cs (olds ++ news) T).store.cells ++ news.toArray.map Cell.closed } : Store) =
        (allot news T).store := by
    simp [put, allot]
  rw [ha, hstore]
  have hstack : (P.put k cs (olds ++ news) T).machine.stack.mapIdx (fun x v =>
      (((P.activation k (cs ++ fresh news T)).cell? x).bind (allot news T).store.content?).getD v) =
        P.stack ++ (vs ++ news).toArray := by
    apply Array.ext_getElem?
    intro x
    rw [Array.getElem?_mapIdx]
    by_cases hx : x < P.stack.size
    · have hcell : (P.activation k (cs ++ fresh news T)).cell? x = none := by
        rw [Activation.cell?, base_activation, if_neg (Nat.not_le.mpr hx)]
      simp [put, Array.getElem?_append, hx, hcell]
    · obtain ⟨i, rfl⟩ := Nat.exists_eq_add_of_le (Nat.le_of_not_lt hx)
      have hcell : (P.activation k (cs ++ fresh news T)).cell? (P.stack.size + i) =
          (cs ++ fresh news T)[i]? := by
        rw [Activation.cell?, base_activation, if_pos (Nat.le_add_right _ _)]
        simp only [activation, Nat.add_sub_cancel_left, ← P.fits, List.getElem?_toArray]
        rw [List.getElem?_append_right (Nat.le_add_right _ _), Nat.add_sub_cancel_left]
      have hat := congrArg (·[i]?) hcontent
      simp only [List.getElem?_map] at hat
      have hold : (P.put k cs (olds ++ news) T).machine.stack[P.stack.size + i]? =
          (olds ++ news)[i]? := by
        exact getElem?_above P.stack (olds ++ news) i
      have hnew : (P.stack ++ (vs ++ news).toArray)[P.stack.size + i]? = (vs ++ news)[i]? := by
        exact getElem?_above P.stack (vs ++ news) i
      rw [hold, hnew, hcell]
      have hsame : (olds ++ news).length = (vs ++ news).length := by simp [hl, hlen]
      cases hv : (vs ++ news)[i]? with
      | none =>
        have hnone : (olds ++ news)[i]? = none := by
          rw [List.getElem?_eq_none_iff] at hv ⊢
          omega
        rw [hnone]
        rfl
      | some v =>
        have hi : i < (olds ++ news).length := hsame ▸ (List.getElem?_eq_some_iff.mp hv).1
        rw [hv] at hat
        rw [List.getElem?_eq_getElem hi, Option.map_some]
        cases hc : (cs ++ fresh news T)[i]? with
        | none => simp [hc] at hat
        | some c =>
          rw [hc, Option.map_some, Option.map_some, Option.some.injEq] at hat
          rw [Option.bind_some, hat, Option.getD_some]
  rw [hstack]
  simp only [put, allot, Array.pop_push]

theorem At.settled (h : P.At k cs vs t) : settle t = t := by
  have hput := @settle_put P k cs vs vs [] t h.length.symm h.shown
  have hnone : allot [] t = t := by
    simp [allot]
  rw [List.append_nil, hnone, ← h.machine] at hput
  simpa [fresh, ← h.machine] using hput

/-! ## Actions -/

section Actions

variable {v : Value} {xs : List Value}

theorem running_put : running (P.put k cs vs T) = .ok (P.activation k cs) (P.put k cs vs T) := by
  simp [running, put, Act.bind_apply, Act.ask]
  rfl

theorem push_put (h : (P.stack ++ vs.toArray).size < T.config.limits.stackMax) :
    push v (P.put k cs vs T) = .ok () (P.put k cs (vs ++ [v]) T) := by
  have hsize : ¬ (P.put k cs vs T).machine.stack.size ≥
      (P.put k cs vs T).config.limits.stackMax := Nat.not_le.mpr h
  rw [push, if_neg hsize]
  simp [put, State.mapMachine, mapStack]

theorem pop_put : pop (P.put k cs (vs ++ [v]) T) = .ok v (P.put k cs vs T) := by
  have hstack : (P.put k cs (vs ++ [v]) T).machine.stack = (P.stack ++ vs.toArray).push v := by
    simp [put]
  rw [pop_push hstack]
  rfl

theorem top_put : top (P.put k cs (vs ++ [v]) T) = .ok v (P.put k cs (vs ++ [v]) T) := by
  have hback : (P.put k cs (vs ++ [v]) T).machine.stack.back? = some v := by simp [put]
  simp only [top, Act.bind_apply, Act.ask, hback]
  rfl

theorem popMany_put {n : Nat} (hn : xs.length = n) :
    popMany n (P.put k cs (vs ++ xs) T) = .ok xs (P.put k cs vs T) := by
  have hstack : (P.put k cs (vs ++ xs) T).machine.stack = (P.stack ++ vs.toArray) ++ xs.toArray := by
    simp [put]
  subst hn
  rw [popMany_append hstack]
  rfl

theorem truncate_put {n : Nat} (hn : n = P.stack.size + vs.length) :
    truncate n (P.put k cs (vs ++ xs) T) = .ok () (P.put k cs vs T) := by
  have hshrink : (P.stack ++ (vs ++ xs).toArray).shrink n = P.stack ++ vs.toArray := by
    rw [Array.shrink_eq_take, hn]
    apply Array.ext'
    simp [List.take_of_length_le]
  simp only [truncate, Act.update, put, State.mapMachine, mapStack, hshrink]

theorem drop_put {n : Nat} (hn : xs.length = n) :
    drop n (P.put k cs (vs ++ xs) T) = .ok () (P.put k cs vs T) := by
  have hsize : (P.put k cs (vs ++ xs) T).machine.stack.size = P.stack.size + vs.length + n := by
    simp [put, ← hn, Nat.add_assoc]
  simp only [drop, Act.bind_apply, Act.ask, hsize]
  rw [if_neg (by omega)]
  exact truncate_put (by omega)

theorem append_put : append xs (P.put k cs vs T) = .ok () (P.put k cs (vs ++ xs) T) := by
  simp only [append, Act.update, put, State.mapMachine, mapStack]
  congr 2
  exact congrArg (Machine.mk · _ _ _ _) (Array.ext' (by simp))

theorem goTo_put (j : Nat) : goTo j (P.put k cs vs T) = .ok () (P.put j cs vs T) := by
  have hmodify : (P.frames.push (P.activation k cs)).modify
      ((P.frames.push (P.activation k cs)).size - 1) (fun a => { a with ip := j }) =
        P.frames.push (P.activation j cs) := by
    apply Array.ext_getElem?
    intro i
    rw [Array.getElem?_modify, Array.size_push, Nat.add_sub_cancel]
    split
    · next hi => subst hi; simp [activation]
    · next hi => rw [Array.getElem?_push, Array.getElem?_push, if_neg (Ne.symm hi), if_neg (Ne.symm hi)]
  simp only [goTo, Act.update, put, State.mapMachine, mapFrames, hmodify]

theorem release_put (n : Nat) : release n (P.put k cs vs T) = .ok () (P.put k (cs.take n) vs T) := by
  have hkeep : (P.activation k cs).keeping n = P.activation k (cs.take n) := by
    simp only [activation, Activation.keeping, Activation.withCells, ← P.fits]
    congr 2
    apply Array.ext'
    simpa using List.take_length_add_append n
  have hmodify : (P.frames.push (P.activation k cs)).modify
      ((P.frames.push (P.activation k cs)).size - 1) (Activation.keeping n) =
        P.frames.push (P.activation k (cs.take n)) := by
    apply Array.ext_getElem?
    intro i
    rw [Array.getElem?_modify, Array.size_push, Nat.add_sub_cancel]
    split
    · next hi => subst hi; simp [hkeep]
    · next hi => rw [Array.getElem?_push, Array.getElem?_push, if_neg (Ne.symm hi), if_neg (Ne.symm hi)]
  simp only [release, Act.update, put, State.mapMachine, mapFrames, hmodify]

theorem closeSlots_put (n : Nat) : closeSlots n (P.put k cs vs T) = .ok () (P.put k cs vs T) := by
  simp only [closeSlots, Act.update]
  rw [closeFrom_of_nil rfl]

theorem readCell_eq {c : Nat} {v : Value} {T : State} (h : T.store.content? c = some v) :
    readCell c T = .ok v T := by
  unfold Store.content? at h
  unfold readCell
  simp only [Act.bind_apply, Act.askStore]
  split at h
  · next hc =>
    cases h
    simp only [hc]
    rfl
  · cases h

theorem writeCell_eq {c : Nat} {v : Value} {T : State} (h : T.store.content? c = some v) (y : Value) :
    writeCell c y T = .ok () { T with store := T.store.setCell c (.closed y) } := by
  unfold Store.content? at h
  unfold writeCell
  simp only [Act.bind_apply, Act.askStore]
  split at h
  · next hc =>
    cases h
    simp only [hc]
    rfl
  · cases h

theorem cellOf_eq {i c : Nat} (h : (P.captured ++ cs)[i]? = some c) (T : State) :
    cellOf (P.activation k cs) i T = .ok c T := by
  have hc : (P.activation k cs).closure.cells[i]? = some c := by
    simpa [activation] using h
  rw [cellOf, hc]
  rfl

theorem slotCell_eq {i c : Nat} (h : cs[i]? = some c) (T : State) :
    slotCell (P.activation k cs) i T = .ok c T := by
  refine cellOf_eq ?_ T
  simp only [activation, ← P.fits]
  rw [List.getElem?_append_right (Nat.le_add_right _ _), Nat.add_sub_cancel_left, h]

end Actions

/-! ## Instructions -/

def ticked (T : State) : State :=
  { T with machine := { T.machine with steps := T.machine.steps + 1 } }

theorem tick_put (h : T.config.limits.stepBudget = none) :
    tick (P.put k cs vs T) = .ok () (P.put k cs vs (ticked T)) := by
  simp only [tick, Act.bind_apply, Act.update, Act.ask]
  have hb : ((P.put k cs vs T).mapMachine fun m => { m with steps := m.steps + 1 }).config.limits.stepBudget =
      none := h
  rw [hb]
  rfl

/-- An instruction, once it has been fetched. -/
theorem step_eq (call : Caller) (entry : Nat) {i : Instruction} (h : P.At k cs vs T)
    (hb : T.config.limits.stepBudget = none) (hi : P.proto.chunk.fetch k = .ok i) :
    Ideal.step call entry T =
      Act.within (.ofLine (P.proto.chunk.lines.getD k 0))
        (Ideal.exec call entry (P.activation k cs) i)
        (P.put i.next (cs.take (i.spares vs.length)) vs (ticked T)) := by
  have hfetch : Run.ofFault ((P.activation k cs).closure.proto.chunk.fetch
      (P.activation k cs).ip) = (Pure.pure i : Run Instruction) := by
    rw [show (P.activation k cs).closure.proto.chunk.fetch (P.activation k cs).ip = .ok i from hi]
    rfl
  have hheight : (P.stack ++ vs.toArray).size - P.stack.size = vs.length := by simp
  have hstep : Ideal.step call entry T = advance call entry T := by
    simp only [Ideal.step, Act.bind_apply, Act.update, h.settled]
  rw [hstep]
  conv_lhs => rw [h.machine]
  simp only [advance, Act.bind_apply, running_put]
  simp only [Act.within, Act.mapFault, Act.bind_apply, tick_put hb, hfetch]
  simp only [Pure.pure, EStateM.pure, goTo_put, Act.ask]
  rw [show (P.put i.next cs vs (ticked T)).machine.stack = P.stack ++ vs.toArray from rfl,
    base_activation, hheight, release_put]
  rfl

end Posture

def ample (L : Nat) (t : State) : State := t.limited (ampleLimits L)

/-- An instruction that does not end the run, which began above some frames, leads from one state to the
other, both between two instructions, whatever calls may do. -/
def Steps (entry : Nat) (t t' : State) : Prop :=
  ∃ K, ∀ L ≥ K, ∀ call, ∃ u, Ideal.step call entry (ample L t) = .ok none u ∧
    settle u = ample L t' ∧ settle (ample L t') = ample L t'

namespace Posture

variable {P : Posture} {k : Nat} {cs ds : List Nat} {vs xs olds news : List Value} {t t' u T : State}
  {entry : Nat}

theorem At.lifted (h : P.At k cs vs t) (L : Nat) : P.At k cs vs (ample L t) where
  machine := congrArg (State.limited (ampleLimits L)) h.machine
  parked := h.parked
  shown := h.shown

/-- What an instruction does that changes the state to `u` and puts values on what is left of the
stack. -/
structure Lands (P : Posture) (entry k : Nat) (cs : List Nat) (vs news : List Value) (t u t' : State) :
    Prop where
  steps : Steps entry t t'
  at_ : P.At k (cs ++ fresh news u) (vs ++ news) t'
  enlarged : Enlarged u t'
  depth : t'.depth = u.depth

theorem enlarged_allot (h : Enlarged t u) (k : Nat) (cs : List Nat) (vs news : List Value) :
    Enlarged t (P.put k cs vs (allot news u)) where
  store := h.store.trans ⟨fun h => h, fun hc => by
    obtain ⟨hlt, rfl⟩ := Array.getElem?_eq_some_iff.mp hc
    simp only [put, allot, Array.getElem?_append, hlt, if_true, Array.getElem?_eq_getElem],
    fun h => h, fun h => h⟩
  vars := h.vars
  raised := h.raised
  names := h.names
  gensyms := h.gensyms
  output := h.output
  config := h.config

theorem At.parts (h : P.At k (cs ++ ds) (vs ++ xs) t) (hl : cs.length = vs.length) :
    cs.map t.store.content? = vs.map some ∧ ds.map t.store.content? = xs.map some := by
  have hs := h.shown
  rw [List.map_append, List.map_append] at hs
  exact List.append_inj hs (by simpa using hl)

theorem At.does (h : P.At k (cs ++ ds) (vs ++ xs) t) (hl : cs.length = vs.length)
    {op : Opcode} {n : Nat} (hi : P.proto.Has k op n)
    (hs : Instruction.spares ⟨op, n, k + 1 + op.width⟩ (vs ++ xs).length = vs.length)
    {Q : Posture} (k' : Nat) (cs' : List Nat) (vs' olds news : List Value)
    (ho : olds.length = cs'.length) (hq : cs'.map u.store.content? = vs'.map some) (hp : u.parked = none)
    (K : Nat)
    (hexec : ∀ L ≥ K, ∀ call, Ideal.exec call entry (P.activation k (cs ++ ds))
      ⟨op, n, k + 1 + op.width⟩ (P.put (k + 1 + op.width) cs (vs ++ xs) (ticked (ample L t))) =
        .ok none (Q.put k' cs' (olds ++ news) (ample L u))) :
    Steps entry t (Q.put k' (cs' ++ fresh news u) (vs' ++ news) (allot news u)) := by
  refine ⟨K, fun L hL call => ⟨Q.put k' cs' (olds ++ news) (ample L u), ?_, ?_, ?_⟩⟩
  · have hstep := step_eq call entry (h.lifted L) rfl hi
    have htake : (cs ++ ds).take vs.length = cs := by rw [← hl, List.take_left]
    rw [hs, htake] at hstep
    rw [hstep]
    simp only [Act.within, Act.mapFault, hexec L hL]
  · exact settle_put (T := ample L u) ho hq
  · have hat : Q.At k' (cs' ++ fresh news u) (vs' ++ news)
        (Q.put k' (cs' ++ fresh news u) (vs' ++ news) (allot news u)) :=
      ⟨rfl, hp, map_content?_allot hq news⟩
    exact (hat.lifted L).settled

theorem enlarged_ticked (t : State) : Enlarged t (ticked t) :=
  ⟨⟨fun h => h, fun h => h, fun h => h, fun h => h⟩, rfl, rfl, rfl, rfl, rfl, rfl⟩

/-- An instruction that takes values away and puts others there. -/
theorem At.lands (h : P.At k (cs ++ ds) (vs ++ xs) t) (hl : cs.length = vs.length)
    {op : Opcode} {n : Nat} (hi : P.proto.Has k op n)
    (hs : Instruction.spares ⟨op, n, k + 1 + op.width⟩ (vs ++ xs).length = vs.length)
    {k' : Nat} {vs' : List Value} (hq : cs.map u.store.content? = vs'.map some)
    (hp : u.parked = none) (K : Nat)
    (hexec : ∀ L ≥ K, ∀ call, Ideal.exec call entry (P.activation k (cs ++ ds))
      ⟨op, n, k + 1 + op.width⟩ (P.put (k + 1 + op.width) cs (vs ++ xs) (ticked (ample L t))) =
        .ok none (P.put k' cs (vs ++ news) (ample L (ticked u)))) :
    ∃ t', P.Lands entry k' cs vs' news t u t' :=
  ⟨_, h.does (u := ticked u) hl hi hs k' cs vs' vs news hl.symm hq hp K hexec,
    ⟨rfl, hp, map_content?_allot (T := ticked u) hq news⟩,
    enlarged_allot (enlarged_ticked u) _ _ _ _, rfl⟩

theorem room {L : Nat} (hL : (P.stack ++ vs.toArray).size + 1 ≤ L) (T : State) :
    (P.stack ++ vs.toArray).size < (ample L T).config.limits.stackMax :=
  Nat.lt_of_lt_of_le hL (Nat.le_add_right _ _)

/-- An instruction that takes values away and pushes one. -/
theorem At.pushes (h : P.At k (cs ++ ds) (vs ++ xs) t) (hl : cs.length = vs.length)
    {op : Opcode} {n : Nat} (hi : P.proto.Has k op n)
    (hs : Instruction.spares ⟨op, n, k + 1 + op.width⟩ (vs ++ xs).length = vs.length)
    {v : Value} (hexec : ∀ L call entry, Ideal.exec call entry (P.activation k (cs ++ ds))
      ⟨op, n, k + 1 + op.width⟩ (P.put (k + 1 + op.width) cs (vs ++ xs) (ticked (ample L t))) =
        (do push v; return none : Run (Option Value))
          (P.put (k + 1 + op.width) cs vs (ample L (ticked t)))) :
    ∃ t', P.Lands entry (k + 1 + op.width) cs vs [v] t t t' := by
  refine h.lands hl hi hs (h.parts hl).1 h.parked ((P.stack ++ vs.toArray).size + 1)
    fun L hL call => ?_
  rw [hexec, Act.bind_apply, push_put (room hL _)]
  rfl

theorem At.goes (h : P.At k (cs ++ ds) (vs ++ xs) t) (hl : cs.length = vs.length)
    {op : Opcode} {n : Nat} (hi : P.proto.Has k op n)
    (hs : Instruction.spares ⟨op, n, k + 1 + op.width⟩ (vs ++ xs).length = vs.length) {k' : Nat}
    (hexec : ∀ L call entry, Ideal.exec call entry (P.activation k (cs ++ ds))
      ⟨op, n, k + 1 + op.width⟩ (P.put (k + 1 + op.width) cs (vs ++ xs) (ticked (ample L t))) =
        .ok none (P.put k' cs vs (ample L (ticked t)))) :
    ∃ t', P.Lands entry k' cs vs [] t t t' :=
  h.lands hl hi hs (h.parts hl).1 h.parked 0 fun L _ call => by
    rw [hexec, List.append_nil]

/-- An instruction that raises a fault, in a state `u`. -/
def Fails (t : State) (e : RuntimeError) (u : State) : Prop :=
  ∃ K, ∀ L ≥ K, ∀ call entry, Ideal.step call entry (ample L t) = .error (.raised e) (ample L u)

/-- The machine above what lies below a function. -/
structure Under (P : Posture) (u : State) : Prop where
  stack : ∃ more, u.machine.stack = P.stack ++ more
  frames : ∃ more, u.machine.frames = P.frames ++ more
  openCells : u.machine.openCells = []
  parked : u.parked = none

theorem under_put (hp : T.parked = none) : P.Under (P.put k cs vs T) :=
  ⟨⟨_, rfl⟩, ⟨#[P.activation k cs], by simp [put]⟩, rfl, hp⟩

theorem At.fails (h : P.At k (cs ++ ds) (vs ++ xs) t) (hl : cs.length = vs.length)
    {op : Opcode} {n : Nat} (hi : P.proto.Has k op n)
    (hs : Instruction.spares ⟨op, n, k + 1 + op.width⟩ (vs ++ xs).length = vs.length)
    {f : RuntimeFault} {span : Span} (hplace : P.proto.Placed k span) (k' : Nat) (vs' : List Value)
    (hexec : ∀ L call entry, Ideal.exec call entry (P.activation k (cs ++ ds))
      ⟨op, n, k + 1 + op.width⟩ (P.put (k + 1 + op.width) cs (vs ++ xs) (ticked (ample L t))) =
        .error (.raised f.bare) (P.put k' cs vs' (ample L (ticked t)))) :
    ∃ u, Fails t ⟨f, .ofLine span.line⟩ u ∧ P.Under u ∧ Enlarged t u := by
  refine ⟨P.put k' cs vs' (ticked t), ⟨0, fun L _ call entry => ?_⟩, under_put h.parked,
    (enlarged_ticked t).trans ⟨⟨fun h => h, fun h => h, fun h => h, fun h => h⟩, rfl, rfl, rfl, rfl,
      rfl, rfl⟩⟩
  have hstep := step_eq call entry (h.lifted L) rfl hi
  have htake : (cs ++ ds).take vs.length = cs := by rw [← hl, List.take_left]
  have hline : P.proto.chunk.lines.getD k 0 = span.line := by
    rw [Array.getD_eq_getD_getElem?, show P.proto.chunk.lines[k]? = some span.line from hplace]
    rfl
  rw [hs, htake] at hstep
  rw [hstep, hline]
  simp only [Act.within, Act.mapFault, hexec L]
  rfl

section Instructions

variable (entry) (h : P.At k cs vs t)

include h

theorem At.bare : P.At k (cs ++ []) (vs ++ []) t := by simpa using h

theorem At.loads {v : Value} {m : Nat} (hi : Loads P.proto k v m) :
    ∃ t', P.Lands entry m cs vs [v] t t t' := by
  cases hi with
  | nil hi | true hi | false hi =>
    exact h.bare.pushes h.length hi (by simp [Instruction.spares, Instruction.takes])
      fun _ _ _ => by simp [Ideal.exec, Machine.exec]; rfl
  | const hn hi =>
    refine h.bare.pushes h.length hi (by simp [Instruction.spares, Instruction.takes])
      fun _ _ _ => ?_
    simp [Ideal.exec, Machine.exec, constant, activation, hn]
    rfl

theorem At.getLocal {i c : Nat} {v : Value} (hi : P.proto.Has k .getLocal i) (hc : cs[i]? = some c)
    (hv : t.store.content? c = some v) : ∃ t', P.Lands entry (k + 2) cs vs [v] t t t' := by
  refine h.bare.pushes h.length hi (by simp [Instruction.spares, Instruction.takes])
    fun L _ _ => ?_
  have hcell := slotCell_eq (P := P) (k := k) hc
    (P.put (k + 2) cs vs (ticked (Parity.ample L t)))
  simp only [Ideal.exec, List.append_nil, Act.bind_apply,
    show k + 1 + Opcode.width .getLocal = k + 2 from rfl, hcell]
  rw [readCell_eq (T := P.put (k + 2) cs vs (ticked (Parity.ample L t))) hv]
  rfl

theorem At.getUpvalue {i c : Nat} {v : Value} (hi : P.proto.Has k .getUpvalue i)
    (hc : P.captured[i]? = some c) (hv : t.store.content? c = some v) :
    ∃ t', P.Lands entry (k + 2) cs vs [v] t t t' := by
  refine h.bare.pushes h.length hi (by simp [Instruction.spares, Instruction.takes])
    fun L _ _ => ?_
  have hc' : (P.captured ++ cs)[i]? = some c := by
    rw [List.getElem?_append_left (List.getElem?_eq_some_iff.mp hc).1, hc]
  have hcell := cellOf_eq (P := P) (k := k) hc' (P.put (k + 2) cs vs (ticked (Parity.ample L t)))
  simp only [Ideal.exec, Machine.exec, List.append_nil, Act.bind_apply,
    show k + 1 + Opcode.width .getUpvalue = k + 2 from rfl, hcell]
  rw [readCell_eq (T := P.put (k + 2) cs vs (ticked (Parity.ample L t))) hv]
  rfl

theorem At.closeUpvalue {i : Nat} (hi : P.proto.Has k .closeUpvalue i) :
    ∃ t', P.Lands entry (k + 2) cs vs [] t t t' := by
  refine h.bare.goes h.length hi (by simp [Instruction.spares, Instruction.takes])
    fun L _ _ => ?_
  simp only [Ideal.exec, List.append_nil]
  rfl

theorem At.getVar {i : Nat} {x : Var} {v : Value} (hi : P.proto.Has k .getVar i)
    (hx : P.proto.chunk.constants[i]? = some (.var x)) (hv : t.store.varValue? x = some v) :
    ∃ t', P.Lands entry (k + 3) cs vs [v] t t t' := by
  refine h.bare.pushes h.length hi (by simp [Instruction.spares, Instruction.takes])
    fun L _ _ => ?_
  have hderef : Run.deref x .unknown (P.put (k + 3) cs vs (ticked (Parity.ample L t))) =
      .ok v (P.put (k + 3) cs vs (ticked (Parity.ample L t))) := by
    simp only [Run.deref, Act.bind_apply, Act.askStore]
    rw [show (P.put (k + 3) cs vs (ticked (Parity.ample L t))).store.varValue? x = some v from hv]
    rfl
  have hconst : varConstant (P.activation k (cs ++ [])) i = (Pure.pure x : Run Var) := by
    simp [varConstant, constant, activation, hx]
  simp only [Ideal.exec, Machine.exec, List.append_nil, Act.bind_apply] at hconst ⊢
  rw [hconst]
  simp only [Pure.pure, EStateM.pure, show k + 1 + Opcode.width .getVar = k + 3 from rfl, hderef]
  rfl

theorem At.getVar_unbound {i : Nat} {x : Var} {span : Span} (hi : P.proto.Has k .getVar i)
    (hplace : P.proto.Placed k span) (hx : P.proto.chunk.constants[i]? = some (.var x))
    (hv : t.store.varValue? x = none) :
    ∃ u, Fails t ⟨.unboundVar x.qualified, .ofLine span.line⟩ u ∧ P.Under u ∧ Enlarged t u := by
  refine h.bare.fails h.length hi (by simp [Instruction.spares, Instruction.takes]) hplace (k + 3) vs
    fun L _ _ => ?_
  have hderef : Run.deref x .unknown (P.put (k + 3) cs vs (ticked (Parity.ample L t))) =
      .error (.raised (RuntimeFault.unboundVar x.qualified).bare)
        (P.put (k + 3) cs vs (ticked (Parity.ample L t))) := by
    simp only [Run.deref, Act.bind_apply, Act.askStore]
    rw [show (P.put (k + 3) cs vs (ticked (Parity.ample L t))).store.varValue? x = none from hv]
    rfl
  have hconst : varConstant (P.activation k (cs ++ [])) i = (Pure.pure x : Run Var) := by
    simp [varConstant, constant, activation, hx]
  simp only [Ideal.exec, Machine.exec, List.append_nil, Act.bind_apply] at hconst ⊢
  rw [hconst]
  simp only [Pure.pure, EStateM.pure, show k + 1 + Opcode.width .getVar = k + 3 from rfl, hderef]
  rfl

theorem At.jump {d m : Nat} (hi : P.proto.Has k .jump d) (hd : d < 32768) (hm : k + 3 + d = m) :
    ∃ t', P.Lands entry m cs vs [] t t t' := by
  refine h.bare.goes h.length hi (by simp [Instruction.spares, Instruction.takes])
    fun L _ _ => ?_
  have hword : Chunk.signedWord d = d := if_pos hd
  have hto : ((k + 1 + Opcode.width .jump : Nat) + (d : Int)).toNat = m := by
    rw [show Opcode.width .jump = 2 from rfl]
    omega
  simp only [Ideal.exec, Machine.exec, Machine.jump, List.append_nil, Act.bind_apply, hword]
  rw [if_neg (by omega), hto, goTo_put]
  rfl

theorem At.loop {d m : Nat} (hi : P.proto.Has k .loop d) (hm : m + d = k + 3) :
    ∃ t', P.Lands entry m cs vs [] t t t' := by
  refine h.bare.goes h.length hi (by simp [Instruction.spares, Instruction.takes])
    fun L _ _ => ?_
  have hto : ((k + 1 + Opcode.width .loop : Nat) + -(d : Int)).toNat = m := by
    rw [show Opcode.width .loop = 2 from rfl]
    omega
  simp only [Ideal.exec, Machine.exec, Machine.jump, List.append_nil, Act.bind_apply]
  rw [if_neg (by rw [show Opcode.width .loop = 2 from rfl]; omega), hto, goTo_put]
  rfl

end Instructions

/-- The running function has the cell of a variable to be captured. -/
def Reaches (P : Posture) (cs : List Nat) (cap : Capture) (c : Nat) : Prop :=
  if cap.isLocal then cs[cap.index.toNat]? = some c else P.captured[cap.index.toNat]? = some c

theorem captures_eq {caps : Array Capture} {cells : List Nat} {j₀ : Nat}
    (hp : P.proto.HasPairs j₀ caps) (hlen : cells.length = caps.size)
    (hcells : ∀ {i : Nat} {cap : Capture} {c : Nat}, caps[i]? = some cap → cells[i]? = some c →
      P.Reaches cs cap c) (T : State) (m j : Nat) (hj : m + j = caps.size) :
    Ideal.captures (P.activation k cs) (cells.take j).toArray m (j₀ + 2 * j) T =
      .ok (cells.toArray, j₀ + 2 * caps.size) T := by
  induction m generalizing j with
  | zero =>
    rw [Nat.zero_add] at hj
    rw [hj, ← hlen, List.take_length]
    rfl
  | succ m ih =>
    have hjlt : j < caps.size := by omega
    have hc := List.getElem?_eq_getElem (hlen ▸ hjlt : j < cells.length)
    have hcap := Array.getElem?_eq_getElem hjlt
    have hcell := hcells hcap hc
    obtain ⟨hlocal, hindex⟩ := hp j _ hcap
    have hnext : (cells.take j).toArray.push cells[j] = (cells.take (j + 1)).toArray := by
      rw [List.take_add_one, hc]
      simp
    have ih' := ih (j + 1) (by omega)
    rw [← hnext] at ih'
    rw [Ideal.captures]
    rw [show (P.activation k cs).closure.proto.chunk.code[j₀ + 2 * j]? = _ from hlocal,
      show (P.activation k cs).closure.proto.chunk.code[j₀ + 2 * j + 1]? = _ from hindex]
    unfold Reaches at hcell
    cases hl : caps[j].isLocal with
    | true =>
      simp only [hl, if_true] at hcell
      simp only [if_true]
      rw [if_neg (show ¬ (1 : UInt8) = 0 by decide), Act.bind_apply, slotCell_eq hcell]
      exact ih'
    | false =>
      simp only [hl, Bool.false_eq_true, if_false] at hcell
      have hc' : (P.captured ++ cs)[caps[j].index.toNat]? = some cells[j] := by
        rw [List.getElem?_append_left (List.getElem?_eq_some_iff.mp hcell).1, hcell]
      simp only [Act.bind_apply, Bool.false_eq_true, if_false, if_true, cellOf_eq hc']
      exact ih'

/-! ### Instructions that take values -/

section Taking

variable (entry) (h : P.At k (cs ++ ds) (vs ++ xs) t) (hl : cs.length = vs.length)

include h hl

theorem At.length_right : ds.length = xs.length := by
  have := h.length
  simp only [List.length_append] at this
  omega

theorem At.pop (hx : xs.length = 1) (hi : P.proto.Has k .pop 0) :
    ∃ t', P.Lands entry (k + 1) cs vs [] t t t' := by
  obtain ⟨v, rfl⟩ := List.length_eq_one_iff.mp hx
  refine h.goes hl hi (by simp [Instruction.spares, Instruction.takes]) fun L _ _ => ?_
  simp only [Ideal.exec, Machine.exec, Act.bind_apply, discard, Functor.discard, Functor.mapConst,
    EStateM.map, Function.comp, pop_put]
  rfl

theorem At.popN {v : Value} (hx : xs = olds ++ [v]) (hi : P.proto.Has k .popN olds.length) :
    ∃ t', P.Lands entry (k + 2) cs vs [v] t t t' := by
  subst hx
  refine h.pushes hl hi (by simp [Instruction.spares, Instruction.takes]) fun L _ _ => ?_
  have hpop := @pop_put P (k + 2) cs (vs ++ olds) (ticked (Parity.ample L t)) v
  rw [List.append_assoc] at hpop
  simp only [Ideal.exec, Machine.exec, Act.bind_apply, show k + 1 + Opcode.width .popN = k + 2 from rfl, hpop]
  rw [drop_put rfl]
  rfl

theorem At.jumpIfFalse {v : Value} {d : Nat} (hx : xs = [v]) (hi : P.proto.Has k .jumpIfFalse d)
    (hd : d < 32768) :
    ∃ t', P.Lands entry (if v.truthy then k + 3 else k + 3 + d) cs vs [] t t t' := by
  subst hx
  refine h.goes hl hi (by simp [Instruction.spares, Instruction.takes]) fun L _ _ => ?_
  have hpop := @pop_put P (k + 3) cs vs (ticked (Parity.ample L t)) v
  simp only [Ideal.exec, Machine.exec, Act.bind_apply,
    show k + 1 + Opcode.width .jumpIfFalse = k + 3 from rfl, hpop]
  cases v.truthy with
  | true => rfl
  | false =>
    have hword : Chunk.signedWord d = d := if_pos hd
    have hto : ((k + 3 : Nat) + (d : Int)).toNat = k + 3 + d := by omega
    simp only [Machine.jump, hword, Bool.false_eq_true, if_false]
    rw [if_neg (by omega), hto, Act.bind_apply, goTo_put]
    rfl

theorem At.vector (hi : P.proto.Has k .vector xs.length) :
    ∃ t', P.Lands entry (k + 3) cs vs [.vector xs] t t t' := by
  refine h.pushes hl hi (by simp [Instruction.spares, Instruction.takes]) fun L _ _ => ?_
  simp only [Ideal.exec, Machine.exec, Act.bind_apply, popMany_put]
  rfl

/-- An instruction that computes one value from some. -/
theorem At.computes {op : Opcode} {n : Nat} {r : Answer Value} (hi : P.proto.Has k op n)
    (hs : Instruction.spares ⟨op, n, k + 1 + op.width⟩ (vs ++ xs).length = vs.length)
    (hexec : ∀ L call entry, Ideal.exec call entry (P.activation k (cs ++ ds))
      ⟨op, n, k + 1 + op.width⟩ (P.put (k + 1 + op.width) cs (vs ++ xs) (ticked (Parity.ample L t))) =
        (do push (← Run.ofFault r); return none : Run (Option Value))
          (P.put (k + 1 + op.width) cs vs (Parity.ample L (ticked t)))) :
    (∀ v, r = .ok v → ∃ t', P.Lands entry (k + 1 + op.width) cs vs [v] t t t') ∧
      ∀ f, r = .error f → ∀ span, P.proto.Placed k span →
        ∃ u, Fails t ⟨f, .ofLine span.line⟩ u ∧ P.Under u ∧ Enlarged t u := by
  refine ⟨?_, ?_⟩
  · rintro v rfl
    exact h.pushes hl hi hs hexec
  · rintro f rfl span hplace
    exact h.fails hl hi hs hplace (k + 1 + op.width) vs hexec

theorem At.recur {args : List Value} (hx : xs = olds ++ args) (hn : vs.length < 256)
    (hi : P.proto.Has k .recur (args.length * 256 + vs.length)) :
    ∃ t', P.Lands entry (k + 3) cs vs args t t t' := by
  subst hx
  have hfirst : Instruction.first ⟨.recur, args.length * 256 + vs.length, k + 3⟩ = args.length := by
    simp only [Instruction.first]
    omega
  have hsecond : Instruction.second ⟨.recur, args.length * 256 + vs.length, k + 3⟩ = vs.length := by
    simp only [Instruction.second]
    omega
  refine h.lands hl hi hsecond (h.parts hl).1 h.parked 0 fun L _ call => ?_
  have hpop := @popMany_put P (k + 3) cs (vs ++ olds) (ticked (Parity.ample L t)) args _ rfl
  rw [List.append_assoc] at hpop
  simp only [Ideal.exec, Machine.exec, Act.bind_apply, show k + 1 + Opcode.width .recur = k + 3 from rfl,
    hfirst, hsecond, closeSlots_put, hpop]
  have hcut := @truncate_put P (k + 3) cs vs (ticked (Parity.ample L t)) olds _ rfl
  simp only [base_activation, hcut, append_put]
  rfl

theorem At.setVar {x : Value} {i : Nat} {v : Var} (hx : xs = []) (hv : vs = olds ++ [x])
    (hi : P.proto.Has k .setVar i) (hn : P.proto.chunk.constants[i]? = some (.var v)) :
    ∃ t', P.Lands entry (k + 3) cs vs [] t { t with store := t.store.setVar v x } t' := by
  subst hx
  refine h.lands hl hi (by simp [Instruction.spares]) (h.parts hl).1 h.parked 0 fun L _ _ => ?_
  have htop := @top_put P (k + 3) cs olds (ticked (Parity.ample L t)) x
  have hconst : varConstant (P.activation k (cs ++ ds)) i = (Pure.pure v : Run Var) := by
    simp [varConstant, constant, activation, hn]
  rw [← hv] at htop
  simp only [Ideal.exec, Machine.exec, Act.bind_apply, List.append_nil,
    show k + 1 + Opcode.width .setVar = k + 3 from rfl, htop] at hconst ⊢
  rw [hconst]
  rfl

/-- A variable in a cell is given the value on top, of which nothing else takes notice. -/
theorem At.write {x : Value} {op : Opcode} {i c : Nat} {u : Value} {vs' : List Value} (hx : xs = [])
    (hv : vs = olds ++ [x]) (hi : P.proto.Has k op i) (hw : op.width = 1)
    (hop : op = .setLocal ∧ cs[i]? = some c ∨ op = .setUpvalue ∧ P.captured[i]? = some c)
    (hc : t.store.content? c = some u)
    (hs : cs.map (t.store.setCell c (.closed x)).content? = vs'.map some) :
    ∃ t', P.Lands entry (k + 2) cs vs' [] t { t with store := t.store.setCell c (.closed x) } t' := by
  subst hx
  have hds : ds = [] := List.length_eq_zero_iff.mp (h.length_right hl)
  subst hds
  refine h.lands hl hi ?_ hs h.parked 0 fun L _ _ => ?_
  · rcases hop with ⟨rfl, -⟩ | ⟨rfl, -⟩ <;> simp [Instruction.spares]
  have htop := @top_put P (k + 2) cs olds (ticked (Parity.ample L t)) x
  rw [← hv] at htop
  have hwrite := writeCell_eq (T := P.put (k + 2) cs vs (ticked (Parity.ample L t))) hc x
  rcases hop with ⟨rfl, hcell⟩ | ⟨rfl, hcell⟩
  · have hcell' := slotCell_eq (P := P) (k := k) hcell (P.put (k + 2) cs vs (ticked (Parity.ample L t)))
    simp only [Ideal.exec, List.append_nil, Act.bind_apply,
      show k + 1 + Opcode.width .setLocal = k + 2 from rfl, hcell', htop, hwrite]
    rfl
  · have hc' : (P.captured ++ cs)[i]? = some c := by
      rw [List.getElem?_append_left (List.getElem?_eq_some_iff.mp hcell).1, hcell]
    have hcell' := cellOf_eq (P := P) (k := k) hc' (P.put (k + 2) cs vs (ticked (Parity.ample L t)))
    simp only [Ideal.exec, Machine.exec, List.append_nil, Act.bind_apply,
      show k + 1 + Opcode.width .setUpvalue = k + 2 from rfl, hcell', htop, hwrite]
    rfl

theorem At.closure {q : Proto} {n : Nat} {cells : List Nat} (hx : xs = [])
    (hi : P.proto.Has k .closure n) (hq : P.proto.subs[n]? = some q)
    (hp : P.proto.HasPairs (k + 3) q.captures) (hlen : cells.length = q.captures.size)
    (hcells : ∀ {i : Nat} {cap : Capture} {c : Nat}, q.captures[i]? = some cap → cells[i]? = some c →
      P.Reaches cs cap c) :
    ∃ t', P.Lands entry (k + 3 + 2 * q.captures.size) cs vs [.closure t.store.closures.size q.name] t
      { t with store := (t.store.newClosure ⟨q, cells.toArray⟩).2 } t' := by
  subst hx
  have hds : ds = [] := List.length_eq_zero_iff.mp (h.length_right hl)
  subst hds
  refine h.lands hl hi (by simp [Instruction.spares, Instruction.takes]) (h.parts hl).1 h.parked
    ((P.stack ++ vs.toArray).size + 1) fun L hL _ => ?_
  have hcaptures := captures_eq (P := P) (k := k) hp hlen hcells
    (P.put (k + 3) cs vs (ticked (Parity.ample L t))) q.captures.size 0 (Nat.add_zero _)
  simp only [Ideal.exec, Ideal.makeClosure, List.append_nil, Act.bind_apply,
    show k + 1 + Opcode.width .closure = k + 3 from rfl]
  rw [show (P.activation k cs).closure.proto.subs[n]? = some q from hq]
  simp only [Act.bind_apply]
  rw [show Ideal.captures (P.activation k cs) #[] q.captures.size (k + 3)
    (P.put (k + 3) cs vs (ticked (Parity.ample L t))) = _ from hcaptures]
  simp only [goTo_put]
  have hpush := @push_put P (k + 3 + 2 * q.captures.size) cs vs
    (ticked (Parity.ample L { t with store := (t.store.newClosure ⟨q, cells.toArray⟩).2 }))
    (.closure t.store.closures.size q.name) (room hL _)
  have hmade : (onStore (Store.newClosure ⟨q, cells.toArray⟩) : Run Nat)
      (P.put (k + 3 + 2 * q.captures.size) cs vs (ticked (Parity.ample L t))) =
      .ok t.store.closures.size (P.put (k + 3 + 2 * q.captures.size) cs vs (ticked (Parity.ample L
        { t with store := (t.store.newClosure ⟨q, cells.toArray⟩).2 }))) := rfl
  rw [hmade]
  simp only [hpush]
  rfl

theorem At.map {n : Nat} (hn : xs.length = n * 2) (hi : P.proto.Has k .map n) :
    (∀ v, mapAnswer xs = .ok v → ∃ t', P.Lands entry (k + 3) cs vs [v] t t t') ∧
      ∀ f, mapAnswer xs = .error f → ∀ span, P.proto.Placed k span →
        ∃ u, Fails t ⟨f, .ofLine span.line⟩ u ∧ P.Under u ∧ Enlarged t u := by
  refine h.computes entry hl hi (by simp [Instruction.spares, Instruction.takes, hn]) fun L _ _ => ?_
  simp only [Ideal.exec, Machine.exec, Act.bind_apply, popMany_put hn, mapOf_eq]
  rfl

theorem At.set {n : Nat} (hn : xs.length = n) (hi : P.proto.Has k .set n) :
    (∀ v, setAnswer xs = .ok v → ∃ t', P.Lands entry (k + 3) cs vs [v] t t t') ∧
      ∀ f, setAnswer xs = .error f → ∀ span, P.proto.Placed k span →
        ∃ u, Fails t ⟨f, .ofLine span.line⟩ u ∧ P.Under u ∧ Enlarged t u := by
  refine h.computes entry hl hi (by simp [Instruction.spares, Instruction.takes, hn]) fun L _ _ => ?_
  simp only [Ideal.exec, Machine.exec, Act.bind_apply, popMany_put hn, setOf_eq]
  rfl

omit h hl in
theorem spares_intrinsic {op : Native} {m : Nat} {o : Opcode} (ho : Intrinsic op m o) (n j : Nat) :
    Instruction.spares ⟨o, 0, j⟩ (n + m) = n := by
  cases ho <;> simp [Instruction.spares, Instruction.takes]

theorem At.intrinsic {o : Opcode} {op : Native} (ho : Intrinsic op xs.length o)
    (hi : P.proto.Has k o 0) :
    (∀ v, o.operation xs = .ok v → ∃ t', P.Lands entry (k + 1) cs vs [v] t t t') ∧
      ∀ f, o.operation xs = .error f → ∀ span, P.proto.Placed k span →
        ∃ u, Fails t ⟨f, .ofLine span.line⟩ u ∧ P.Under u ∧ Enlarged t u := by
  have hw : o.width = 0 := by generalize xs.length = n at ho; cases ho <;> rfl
  have hres := h.computes entry hl (r := o.operation xs) hi ?_ fun L call entry => ?_
  · rw [hw] at hres
    exact hres
  · rw [List.length_append]
    exact spares_intrinsic ho ..
  · have hsize : xs.length ≤ (P.stack ++ (vs ++ xs).toArray).size := by simp; omega
    have hideal : Ideal.exec call entry (P.activation k (cs ++ ds)) ⟨o, 0, k + 1 + o.width⟩ =
        Machine.exec call entry (P.activation k (cs ++ ds)) ⟨o, 0, k + 1 + o.width⟩ := by
      generalize xs.length = n at ho
      cases ho <;> rfl
    rw [hideal, exec_intrinsic ho rfl hsize, Act.bind_apply, popMany_put rfl]
    rfl

end Taking

/-! ### Calls and returns -/

/-- A function that is called by another one, which goes on at an offset with what is left of its
slots. -/
def callee (P : Posture) (k : Nat) (cs : List Nat) (vs : List Value) (q : Proto) (cells : List Nat)
    (fits : cells.length = q.captures.size) : Posture :=
  ⟨P.stack ++ vs.toArray, P.frames.push (P.activation k cs), q, cells, fits, true⟩

/-- The state inside a call, and after it. -/
def entered (frames : Nat) (T : State) : State :=
  { T with
    depth := T.depth + 1
    machine := { T.machine with peak := max T.machine.peak (frames + 1) } }

def left (counted : Bool) (T : State) : State :=
  if counted then { T with depth := T.depth - 1 } else T

/-- The state outside of the machine, which is parked, and back on it. -/
def outside (t : State) : State := { t with machine := .idle, parked := some t.machine }

def inside (t : State) : State := { t with machine := t.parked.getD .idle, parked := none }

section Calls

variable {f : Value} {args : List Value}

/-- A call finds what it calls below the arguments. -/
theorem callValue_put (call : Caller) {n : Nat} (hn : args.length = n) :
    callValue call n (P.put k cs (vs ++ f :: args) T) =
      (match f with
        | .closure id _ => do
          let c ← closureOf id
          if n ≠ c.proto.arity then Run.fail (.wrongArity c.proto.name n)
          pushFrame c (P.stack.size + vs.length) true
        | _ => do
          let args ← popMany n
          let callee ← pop
          push (← callOut call callee args) : Run Unit) (P.put k cs (vs ++ f :: args) T) := by
  have hsize : (P.put k cs (vs ++ f :: args) T).machine.stack.size =
      P.stack.size + vs.length + (n + 1) := by
    simp [put, ← hn]
    omega
  have hslot : slot (P.stack.size + vs.length) (P.put k cs (vs ++ f :: args) T) =
      .ok f (P.put k cs (vs ++ f :: args) T) := by
    have hat : (P.put k cs (vs ++ f :: args) T).machine.stack[P.stack.size + vs.length]? = some f := by
      rw [show (P.put k cs (vs ++ f :: args) T).machine.stack = P.stack ++ (vs ++ f :: args).toArray
        from rfl, getElem?_above]
      simp
    simp only [slot, Act.bind_apply, Act.ask, hat]
    rfl
  unfold callValue
  simp only [Act.bind_apply, Act.ask, hsize]
  rw [if_neg (by omega), show P.stack.size + vs.length + (n + 1) - (n + 1) = P.stack.size + vs.length by
    omega]
  exact bind_of_ok hslot _

theorem pushFrame_eq {c : Closure} {base : Nat} (hd : T.depth < T.config.maxDepth)
    (hf : T.machine.frames.size < T.config.limits.framesMax) :
    pushFrame c base true T = .ok () { T with
      depth := T.depth + 1
      machine := { T.machine with
        frames := T.machine.frames.push ⟨c, 0, base, true⟩
        peak := max T.machine.peak (T.machine.frames.size + 1) } } := by
  have henter : Run.enter .unknown T = .ok () { T with depth := T.depth + 1 } :=
    if_neg (Nat.not_le.mpr hd)
  simp only [pushFrame, if_true, Act.bind_apply, henter, Act.ask]
  split
  · next h => exact absurd h (Nat.not_le.mpr hf)
  · rfl

theorem closureOf_eq {id : Nat} {c : Closure} (h : T.store.closures[id]? = some c) :
    closureOf id T = .ok c T := by
  simp only [closureOf, Act.bind_apply, Act.askStore, h]
  rfl

variable (h : P.At k (cs ++ ds) (vs ++ (f :: args)) t)
  (hl : cs.length = vs.length) (hi : P.proto.Has k .call args.length)

include h hl hi

theorem At.call (entry : Nat) {id : Nat} {name : String} {q : Proto} {cells : List Nat}
    (hf : f = .closure id name)
    (hq : t.store.closures[id]? = some ⟨q, cells.toArray⟩) (hn : args.length = q.arity)
    (fits : cells.length = q.captures.size) (hd : t.depth < t.config.maxDepth) :
    ∃ t', Steps entry t t' ∧
      (P.callee (k + 2) cs vs q cells fits).At 0 (fresh (f :: args) t) (f :: args) t' ∧
      Enlarged t t' ∧ t'.depth = t.depth + 1 := by
  subst hf
  let Q := P.callee (k + 2) cs vs q cells fits
  let T := ticked (entered (P.frames.size + 1) t)
  have hT : Enlarged t T :=
    ⟨⟨fun h => h, fun h => h, fun h => h, fun h => h⟩, rfl, rfl, rfl, rfl, rfl, rfl⟩
  have hat : (fresh (.closure id name :: args) T).map (allot (.closure id name :: args) T).store.content? =
      (.closure id name :: args : List Value).map some := by
    have := @map_content?_allot [] [] T rfl (.closure id name :: args)
    rwa [List.nil_append, List.nil_append] at this
  refine ⟨_, h.does (u := T) (Q := Q) hl hi (by simp [Instruction.spares, Instruction.takes]) 0 [] [] []
    (.closure id name :: args) rfl rfl h.parked (P.frames.size + 2)
    fun L hL call => ?_, ⟨rfl, h.parked, hat⟩, ?_, rfl⟩
  · have hclosure := closureOf_eq (T := P.put (k + 2) cs (vs ++ .closure id name :: args)
      (ticked (Parity.ample L t))) hq
    have hroom : ¬ (P.frames.push (P.activation (k + 2) cs)).size ≥
        (Parity.ample L t).config.limits.framesMax := by
      have : L ≤ (Parity.ample L t).config.limits.framesMax := Nat.le_add_right _ _
      rw [Array.size_push]
      omega
    simp only [Ideal.exec, Machine.exec, Act.bind_apply, show k + 1 + Opcode.width .call = k + 2 from rfl]
    rw [callValue_put call rfl]
    simp only [Act.bind_apply, hclosure, hn, ne_eq, not_true_eq_false, if_false]
    have hpush := @pushFrame_eq (P.put (k + 2) cs (vs ++ .closure id name :: args)
      (ticked (Parity.ample L t))) ⟨q, cells.toArray⟩ (P.stack.size + vs.length) hd
      (Nat.lt_of_not_le hroom)
    rw [hpush]
    simp only [put, Q, callee, activation, T, ticked, entered, List.nil_append, Array.size_push]
    have hstack : P.stack ++ (vs ++ .closure id name :: args).toArray =
        P.stack ++ vs.toArray ++ (.closure id name :: args : List Value).toArray := Array.ext' (by simp)
    rw [hstack, List.append_nil, show (P.stack ++ vs.toArray).size = P.stack.size + vs.length by simp]
    rfl
  · exact enlarged_allot (P := Q) hT 0 _ _ _

theorem At.call_misfit {id : Nat} {name : String} {c : Closure} (hf : f = .closure id name)
    (hq : t.store.closures[id]? = some c) (hn : args.length ≠ c.proto.arity) {span : Span}
    (hplace : P.proto.Placed k span) :
    ∃ u, Fails t ⟨.wrongArity c.proto.name args.length, .ofLine span.line⟩ u ∧ P.Under u ∧
      Enlarged t u := by
  subst hf
  refine h.fails hl hi (by simp [Instruction.spares, Instruction.takes]) hplace (k + 2)
    (vs ++ .closure id name :: args) fun L call _ => ?_
  have hclosure := closureOf_eq (T := P.put (k + 2) cs (vs ++ .closure id name :: args)
    (ticked (Parity.ample L t))) hq
  simp only [Ideal.exec, Machine.exec, Act.bind_apply, show k + 1 + Opcode.width .call = k + 2 from rfl]
  rw [callValue_put call rfl]
  simp only [Act.bind_apply, hclosure, ne_eq, hn, not_false_eq_true, if_true]
  rfl

theorem At.call_overflow {id : Nat} {name : String} {c : Closure} (hf : f = .closure id name)
    (hq : t.store.closures[id]? = some c) (hn : args.length = c.proto.arity)
    (hd : t.config.maxDepth ≤ t.depth) {span : Span} (hplace : P.proto.Placed k span) :
    ∃ u, Fails t ⟨.stackOverflow, .ofLine span.line⟩ u ∧ P.Under u ∧ Enlarged t u := by
  subst hf
  refine h.fails hl hi (by simp [Instruction.spares, Instruction.takes]) hplace (k + 2)
    (vs ++ .closure id name :: args) fun L call _ => ?_
  have hclosure := closureOf_eq (T := P.put (k + 2) cs (vs ++ .closure id name :: args)
    (ticked (Parity.ample L t))) hq
  have henter : Run.enter .unknown (P.put (k + 2) cs (vs ++ .closure id name :: args)
      (ticked (Parity.ample L t))) = .error (.raised RuntimeFault.stackOverflow.bare)
        (P.put (k + 2) cs (vs ++ .closure id name :: args) (ticked (Parity.ample L t))) := if_pos hd
  simp only [Ideal.exec, Machine.exec, Act.bind_apply, show k + 1 + Opcode.width .call = k + 2 from rfl]
  rw [callValue_put call rfl]
  simp only [Act.bind_apply, hclosure, hn, ne_eq, not_true_eq_false, if_false, pushFrame, if_true, henter]
  rfl

/-- What is not compiled is called outside of the machine, which is taken up again afterwards. -/
theorem At.callOut (hf : ∀ id name, f ≠ .closure id name) (call : Caller) (entry L : Nat) :
    Ideal.step call entry (Parity.ample L t) =
      Act.within (.ofLine (P.proto.chunk.lines.getD k 0))
        (do push (← callOut call f args); return none : Run (Option Value))
        (P.put (k + 2) cs vs (ticked (Parity.ample L t))) := by
  have hstep := step_eq call entry (h.lifted L) rfl hi
  have htake : (cs ++ ds).take (Instruction.spares ⟨.call, args.length, k + 1 + Opcode.width .call⟩
      (vs ++ f :: args).length) = cs := by
    rw [show Instruction.spares ⟨.call, args.length, k + 1 + Opcode.width .call⟩
      (vs ++ f :: args).length = vs.length by simp [Instruction.spares, Instruction.takes], ← hl,
      List.take_left]
  rw [htake] at hstep
  rw [hstep]
  have hmany := @popMany_put P (k + 2) cs (vs ++ [f]) (ticked (Parity.ample L t)) args _ rfl
  rw [List.append_assoc, List.singleton_append] at hmany
  have hexec : Ideal.exec call entry (P.activation k (cs ++ ds))
      ⟨.call, args.length, k + 1 + Opcode.width .call⟩
      (P.put (k + 2) cs (vs ++ f :: args) (ticked (Parity.ample L t))) =
      (do push (← Machine.callOut call f args); return none : Run (Option Value))
        (P.put (k + 2) cs vs (ticked (Parity.ample L t))) := by
    simp only [Ideal.exec, Machine.exec, Act.bind_apply]
    rw [callValue_put call rfl]
    cases f with
    | closure id name => exact absurd rfl (hf id name)
    | _ =>
      simp only [Act.bind_apply, hmany, pop_put]
      cases Machine.callOut call _ args (P.put (k + 2) cs vs (ticked (Parity.ample L t))) <;> rfl
  simp only [Act.within, Act.mapFault]
  rw [show k + 1 + Opcode.width .call = k + 2 from rfl] at hexec ⊢
  rw [hexec]

end Calls

def gone (P : Posture) (T : State) : State :=
  { T with machine := ⟨P.stack, P.frames, [], T.machine.steps, T.machine.peak⟩ }

theorem endFrame_put {y : Value} (j : Nat) :
    endFrame (P.activation j ds) entry (P.put k cs (vs ++ [y]) T) =
      (if P.frames.size ≤ entry then .ok (some y) (P.gone (left P.counted T))
      else (do push y; return none : Run (Option Value)) (P.gone (left P.counted T))) := by
  have hshrink : (P.stack ++ vs.toArray).shrink P.stack.size = P.stack := by
    rw [Array.shrink_eq_take]
    simp
  have hclose : ∀ T : State, T.machine.openCells = [] → closeSlots P.stack.size T = .ok () T :=
    fun T h => by simp only [closeSlots, Act.update]; rw [closeFrom_of_nil h]
  simp only [endFrame, Act.bind_apply, pop_put, base_activation]
  simp only [Act.update, put, State.mapMachine, mapFrames, Array.pop_push]
  rw [hclose _ rfl]
  simp only [truncate, Act.update, State.mapMachine, mapStack, hshrink]
  by_cases hcounted : P.counted = true
  · rw [if_pos (show (P.activation j ds).counted = true from hcounted)]
    simp only [left, hcounted, if_true, Run.leave, Act.bind_apply, Act.update, Act.ask]
    split
    · rfl
    · exact Act.bind_apply ..
  · rw [if_neg (show ¬ (P.activation j ds).counted = true from hcounted)]
    simp only [left, hcounted, Bool.false_eq_true, if_false, Act.bind_apply, Act.ask]
    split
    · rfl
    · exact Act.bind_apply ..

theorem exists_snoc {ws : List Value} {y : Value} (h : P.At k ds (ws ++ [y]) t) :
    ∃ es d, ds = es ++ [d] ∧ es.length = ws.length := by
  have hlen := h.length
  rw [List.length_append, List.length_singleton] at hlen
  have hne : ds ≠ [] := fun e => by simp [e] at hlen
  refine ⟨ds.dropLast, ds.getLast hne, (List.dropLast_concat_getLast hne).symm, ?_⟩
  rw [List.length_dropLast]
  omega

/-- A function that has been called gives its value to the one that called it. -/
theorem At.returns (entry : Nat) {q : Proto} {cells : List Nat} {fits : cells.length = q.captures.size}
    {j : Nat}
    {us : List Value} {y : Value} (h : (P.callee k cs vs q cells fits).At j ds (us ++ [y]) t)
    (hi : q.Has j .ret 0) (he : entry ≤ P.frames.size) (hl : vs.length = cs.length)
    {vs' : List Value} (hs : cs.map t.store.content? = vs'.map some) :
    ∃ t', P.Lands entry k cs vs' [y] t (left true t) t' := by
  obtain ⟨es, d, rfl, hus⟩ := exists_snoc h
  let Q := P.callee k cs vs q cells fits
  refine ⟨_, h.does (Q := P) (u := ticked (left true t)) hus hi
    (by simp [Instruction.spares, Instruction.takes]) k cs vs' vs [y] hl hs h.parked
    ((P.stack ++ vs.toArray).size + 1) fun L hL call => ?_,
    ⟨rfl, h.parked, map_content?_allot (T := ticked (left true t)) hs [y]⟩,
    enlarged_allot (enlarged_ticked _) _ _ _ _, rfl⟩
  have hend := @endFrame_put Q (j + 1) es (es ++ [d]) us (ticked (Parity.ample L t)) entry y j
  rw [if_neg (show ¬ Q.frames.size ≤ entry by simp [Q, callee]; omega)] at hend
  have hpush := @push_put P k cs vs (ticked (left true (Parity.ample L t))) y (room hL _)
  have hgone : Q.gone (left Q.counted (ticked (Parity.ample L t))) =
      P.put k cs vs (ticked (left true (Parity.ample L t))) := rfl
  rw [hgone, Act.bind_apply, hpush] at hend
  exact hend

/-- An instruction that ends the run with a value. -/
def Finishes (entry : Nat) (t : State) (y : Value) (u : State) : Prop :=
  ∀ L call, Ideal.step call entry (Parity.ample L t) = .ok (some y) (Parity.ample L u)

/-- A function that has been called from outside gives its value back. -/
theorem At.finishes {y : Value} (h : P.At k cs (vs ++ [y]) t) (hi : P.proto.Has k .ret 0)
    (he : P.frames.size ≤ entry) :
    Finishes entry t y (P.gone (left P.counted (ticked t))) := by
  intro L call
  obtain ⟨es, d, rfl, hvs⟩ := exists_snoc h
  have hstep := step_eq call entry (h.lifted L) rfl hi
  have htake : (es ++ [d]).take (Instruction.spares ⟨.ret, 0, k + 1 + Opcode.width .ret⟩
      (vs ++ [y]).length) = es := by
    rw [show Instruction.spares ⟨.ret, 0, k + 1 + Opcode.width .ret⟩ (vs ++ [y]).length = vs.length by
      simp [Instruction.spares, Instruction.takes], ← hvs, List.take_left]
  have hend := @endFrame_put P (k + 1) es (es ++ [d]) vs (ticked (Parity.ample L t)) entry y k
  rw [if_pos he] at hend
  have hexec : Ideal.exec call entry (P.activation k (es ++ [d])) ⟨.ret, 0, k + 1 + Opcode.width .ret⟩
      (P.put (k + 1) es (vs ++ [y]) (ticked (Parity.ample L t))) =
      .ok (some y) (Parity.ample L (P.gone (left P.counted (ticked t)))) := by
    refine hend.trans ?_
    cases P.counted <;> rfl
  rw [hstep, htake]
  simp only [Act.within, Act.mapFault]
  rw [show k + 1 + Opcode.width .ret = k + 1 from rfl] at hexec ⊢
  rw [hexec]

end Posture

end TwinLisp.Parity
