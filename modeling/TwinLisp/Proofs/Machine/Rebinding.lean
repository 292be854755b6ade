import TwinLisp.Proofs.Bytecode.Layout
import TwinLisp.Proofs.Machine.Lasting

/-! A `recur` to the head of a compiled function. The slots of the parameters are given new values and
stand for new variables, which no function has captured that is there already. The slot below them, that
of the function's own name, is left as it is.

* `Proto.RecursAt`: where such a `recur` stands.
* `Rebound`: what the two instructions do that it is made of.
* `Fresh`: variables that are new, now and ever after. -/

namespace TwinLisp

/-- A `recur` to the head of a function: all slots but the lowest get new values, and the function
begins again. -/
structure Proto.RecursAt (p : Proto) (k : Nat) : Prop where
  rebinds : p.Has k .recur (p.arity * 256 + 1)
  begins : p.Has (k + 3) .loop (k + 6)

/-- The code of a `recur` whose target is the head of the function ends in one. -/
theorem Lays.recursAt {p : Proto} {outer : List Scene} {vs : List LocalVar} {σ : Shape}
    {args : List Expr} {span : Span} {k m : Nat}
    (h : Lays p outer (some ⟨⟨0, 1, p.arity⟩, vs⟩) σ (.recur args span) k m) :
    ∃ n, m = n + 6 ∧ p.RecursAt n := by
  cases h with
  | @recur _ _ _ _ _ _ _ n d hn _ hr _ hl hd =>
    have hd : d = n + 6 := by simpa using hd
    rw [hn] at hr
    exact ⟨n, rfl, hr, hd ▸ hl⟩

namespace Machine

open Act

variable {c : Caller} {entry : Nat} {s t u : State} {fs : Array Activation} {a : Activation}

/-! ## Single instructions -/

/-- A run may execute some more instructions. -/
def Affords (s : State) (count : Nat) : Prop :=
  ∀ budget, s.config.limits.stepBudget = some budget → s.machine.steps + count ≤ budget

theorem tick_eq (h : Affords s 1) :
    tick s = .ok () (s.mapMachine fun m => { m with steps := m.steps + 1 }) := by
  unfold tick
  simp only [Act.bind_apply, Act.update, Act.ask]
  cases hb : s.config.limits.stepBudget with
  | none =>
    rw [show (s.mapMachine fun m => { m with steps := m.steps + 1 }).config.limits.stepBudget =
      none from hb]
    rfl
  | some budget =>
    rw [show (s.mapMachine fun m => { m with steps := m.steps + 1 }).config.limits.stepBudget =
      some budget from hb]
    have hle : ¬ (s.mapMachine fun m => { m with steps := m.steps + 1 }).machine.steps > budget :=
      Nat.not_lt.mpr (h budget hb)
    simp only [Act.bind_apply, Act.ask, if_neg hle]
    rfl

/-- The running function at another place, with one instruction more that has been begun. -/
def advanced (fs : Array Activation) (a : Activation) (ip : Nat) (s : State) : State :=
  s.mapMachine fun m => { m with frames := fs.push { a with ip := ip }, steps := m.steps + 1 }

/-- An instruction is fetched, and executed once the running function has been moved to the next. -/
theorem step_eq_ok {i : Instruction} {o : Option Value} (ha : s.machine.frames = fs.push a)
    (h : Affords s 1) (hi : a.closure.proto.chunk.fetch a.ip = .ok i)
    (he : exec c entry a i (advanced fs a i.next s) = .ok o t) : step c entry s = .ok o t := by
  have hrunning : running s = .ok a s := by
    unfold running
    simp only [Act.bind_apply, Act.ask, ha, Array.back?_push]
    rfl
  have hfetch : ∀ t, Run.ofFault (a.closure.proto.chunk.fetch a.ip) t = .ok i t := fun t => by
    rw [hi]
    rfl
  have hgo : goTo i.next (s.mapMachine fun m => { m with steps := m.steps + 1 }) =
      .ok () (advanced fs a i.next s) := by
    have hmodify : s.machine.frames.modify (s.machine.frames.size - 1)
        (fun a => { a with ip := i.next }) = fs.push { a with ip := i.next } := by
      rw [ha, modify_push]
    rw [advanced, ← hmodify]
    rfl
  unfold step
  simp only [Act.bind_apply, hrunning]
  unfold Act.within Act.mapFault
  simp only [Act.bind_apply, tick_eq h, hfetch, hgo, he]

/-- The cells of all slots from a height on are closed, and the topmost values become the first ones
there. -/
def rebound (height count : Nat) (s : State) : State :=
  (s.closeFrom height).mapMachine (mapStack fun _ => s.machine.stack.extract 0 height ++
    s.machine.stack.extract (s.machine.stack.size - count) s.machine.stack.size)

theorem exec_recur {next n : Nat} (h : a.base + 1 + n ≤ s.machine.stack.size) :
    exec c entry a ⟨.recur, n * 256 + 1, next⟩ s = .ok none (rebound (a.base + 1) n s) := by
  have hfirst : Instruction.first ⟨.recur, n * 256 + 1, next⟩ = n := by
    show (n * 256 + 1) / 256 = n
    omega
  have hsecond : Instruction.second ⟨.recur, n * 256 + 1, next⟩ = 1 := by
    show (n * 256 + 1) % 256 = 1
    omega
  have hsize : (s.closeFrom (a.base + 1)).machine.stack = s.machine.stack := rfl
  have hle : ¬ s.machine.stack.size < n := by omega
  have hstack : ((s.machine.stack.shrink (s.machine.stack.size - n)).shrink (a.base + 1)).appendList
      (s.machine.stack.extract (s.machine.stack.size - n) s.machine.stack.size).toList =
      s.machine.stack.extract 0 (a.base + 1) ++
        s.machine.stack.extract (s.machine.stack.size - n) s.machine.stack.size := by
    rw [Array.shrink_eq_take, Array.shrink_eq_take, Array.take_eq_extract, Array.take_eq_extract,
      Array.extract_extract, Array.appendList_eq_append, Nat.min_eq_left (by omega),
      Nat.zero_add]
    exact Array.ext' (by simp)
  simp only [exec, hfirst, hsecond, Act.bind_apply, closeSlots, Act.update, popMany, Act.ask, hsize,
    if_neg hle, truncate, append]
  exact congrArg (fun stack => EStateM.Result.ok none
    ((s.closeFrom (a.base + 1)).mapMachine (mapStack fun _ => stack))) hstack

theorem exec_loop {b : Activation} {d : Nat} (ha : s.machine.frames = fs.push a) :
    exec c entry b ⟨.loop, d, d⟩ s =
      .ok none (s.mapMachine fun m => { m with frames := fs.push { a with ip := 0 } }) := by
  have hjump : jump d (-(d : Int)) = goTo 0 := by
    unfold jump
    rw [if_neg (by omega), Int.add_right_neg]
    rfl
  have hmodify : s.machine.frames.modify (s.machine.frames.size - 1)
      (fun a => { a with ip := 0 }) = fs.push { a with ip := 0 } := by
    rw [ha, modify_push]
  simp only [exec, Act.bind_apply, hjump, goTo, Act.update]
  exact congrArg (fun frames => EStateM.Result.ok none (s.mapMachine (mapFrames fun _ => frames)))
    hmodify

/-! ## The next round -/

/-- The state in which a function has begun again with the topmost values in the slots of its
parameters. -/
def anew (fs : Array Activation) (a : Activation) (s : State) : State :=
  advanced fs a 0 (rebound (a.base + 1) a.closure.proto.arity (advanced fs a (a.ip + 3) s))

theorem steps_recur (c : Caller) (entry : Nat) (ha : s.machine.frames = fs.push a) (hr : a.closure.proto.RecursAt a.ip)
    (hb : Affords s 2) (hs : a.base + 1 + a.closure.proto.arity ≤ s.machine.stack.size) :
    ∃ t, step c entry s = .ok none t ∧ step c entry t = .ok none (anew fs a s) := by
  have hone : Affords s 1 := fun budget h => Nat.le_of_succ_le (hb budget h)
  have htwo : Affords (rebound (a.base + 1) a.closure.proto.arity (advanced fs a (a.ip + 3) s)) 1 :=
    hb
  refine ⟨_, step_eq_ok ha hone hr.rebinds (exec_recur hs), ?_⟩
  exact step_eq_ok (a := { a with ip := a.ip + 3 }) rfl htwo hr.begins
    (exec_loop (a := { a with ip := a.ip + 6 }) rfl)

theorem cell_closed_of_mem {store : Store} {stack : Array Value}
    {cs : List OpenCell} {o : OpenCell} (ho : o ∈ cs)
    (hs : ∀ d ∈ cs, d.cell = o.cell → d.slot = o.slot) (hlt : o.cell < store.cells.size) :
    (closeCells stack store cs).cells[o.cell]? = some (.closed ((stack[o.slot]?).getD .nil)) := by
  induction cs generalizing store with
  | nil => cases ho
  | cons d rest ih =>
    have hrest : ∀ e ∈ rest, e.cell = o.cell → e.slot = o.slot :=
      fun e he => hs e (List.mem_cons_of_mem d he)
    rw [closeCells]
    by_cases hm : ∃ e ∈ rest, e.cell = o.cell
    · -- it is closed once more
      obtain ⟨e, he, hcell⟩ := hm
      have heo : o ∈ rest := by
        obtain ⟨slot, cell⟩ := e
        obtain rfl : cell = o.cell := hcell
        obtain rfl : slot = o.slot := hrest _ he rfl
        exact he
      refine ih heo hrest ?_
      rwa [Store.setCell, Array.size_setIfInBounds]
    · have hne : ∀ e ∈ rest, e.cell ≠ o.cell := fun e he hcell => hm ⟨e, he, hcell⟩
      have hd : d = o := by
        rcases List.mem_cons.mp ho with rfl | ho
        · rfl
        · exact absurd rfl (hne o ho)
      subst hd
      rw [closeCells_cells_of_notMem _ _ _ hne, Store.setCell,
        Array.getElem?_setIfInBounds_self, if_pos hlt]

/-- What has become of a state when a function begins again with new values for its parameters. Its
own slot is as before; cells of slots above it have been closed. -/
structure NextRound (fs : Array Activation) (a : Activation) (s u : State) : Prop where
  frames : u.machine.frames = fs.push { a with ip := 0 }
  size : u.machine.stack.size = a.base + 1 + a.closure.proto.arity
  below : ∀ i ≤ a.base, u.machine.stack[i]? = s.machine.stack[i]?
  params : ∀ i < a.closure.proto.arity, u.machine.stack[a.base + 1 + i]? =
    s.machine.stack[s.machine.stack.size - a.closure.proto.arity + i]?
  closures : u.store.closures = s.store.closures
  cells : u.store.cells.size = s.store.cells.size
  closed : ∀ (id slot : Nat), s.store.cells[id]? = some (.live slot) → a.base < slot →
    u.store.cells[id]? = some (.closed ((s.machine.stack[slot]?).getD .nil))
  kept : ∀ (id : Nat) x, s.store.cells[id]? = some x → (∀ slot, x = .live slot → slot ≤ a.base) →
    u.store.cells[id]? = some x

theorem nextRound_anew (fs : Array Activation) (hl : Linked s.store.cells s.machine.openCells)
    (hs : a.base + 1 + a.closure.proto.arity ≤ s.machine.stack.size) :
    NextRound fs a s (anew fs a s) := by
  have hstack : (anew fs a s).machine.stack = s.machine.stack.extract 0 (a.base + 1) ++
      s.machine.stack.extract (s.machine.stack.size - a.closure.proto.arity)
        s.machine.stack.size := rfl
  have hstore : (anew fs a s).store = closeCells s.machine.stack s.store
      (s.machine.openCells.takeWhile fun c => a.base + 1 ≤ c.slot) := rfl
  have hlow : (s.machine.stack.extract 0 (a.base + 1)).size = a.base + 1 := by
    rw [Array.size_extract]
    omega
  refine ⟨rfl, ?_, fun i hi => ?_, fun i hi => ?_, ?_, ?_,
    fun id slot hid hslot => ?_, fun id x hid hx => ?_⟩
  · rw [hstack, Array.size_append, hlow, Array.size_extract]
    omega
  · rw [hstack, Array.getElem?_append_left (by omega), Array.getElem?_extract, if_pos (by omega),
      Nat.zero_add]
  · rw [hstack, Array.getElem?_append_right (by omega), hlow, Array.getElem?_extract,
      if_pos (by omega)]
    congr 1
    omega
  · rw [hstore, closeCells_eq]
  · rw [hstore, size_closeCells]
  · have hm := hl.all id slot hid
    rw [hstore]
    refine cell_closed_of_mem (o := ⟨slot, id⟩)
      ((hl.sound.mem_takeWhile _).mpr ⟨hm, hslot⟩) (fun d hd he => ?_)
      (Array.getElem?_eq_some_iff.mp hid).1
    exact hl.sound.slot_eq ((hl.sound.mem_takeWhile _).mp hd).1 hm he
  · rw [hstore, closeCells_cells_of_notMem, hid]
    intro d hd he
    obtain ⟨hd, hle⟩ := (hl.sound.mem_takeWhile _).mp hd
    have hlive := hl.sound.live d hd
    rw [he, hid] at hlive
    have := hx d.slot (Option.some.inj hlive)
    omega

/-! ## New variables -/

/-- The variables in the slots above a height were new at the moment `k`, as seen from a later one:
functions that were there have kept their cells, and none of these stands for such a slot. -/
structure Fresh (height : Nat) (k l : State.Core) : Prop where
  closures : ∀ (i : Nat) c, k.closures[i]? = some c →
    l.closures[i]? = some c ∧ ∀ id ∈ c.cells, id < k.cells.size
  cells : ∀ (id slot : Nat), l.cells[id]? = some (.live slot) → height < slot → k.cells.size ≤ id

theorem Lasts.fresh {k l : State.Core} {height : Nat} (hk : Complete k)
    (hh : ∀ (id slot : Nat), k.cells[id]? = some (.live slot) → slot ≤ height) (h : Lasts k l) :
    Fresh height k l where
  closures i c hc := ⟨h.closure i c hc, hk.closures i c hc⟩
  cells id slot hid hslot := by
    by_contra hlt
    have := hh id slot (h.live (Nat.not_le.mp hlt) hid)
    omega

/-- No cell is left that stands for a slot of a parameter, or above it. -/
theorem NextRound.low (h : NextRound fs a s u) {id slot : Nat}
    (hid : u.store.cells[id]? = some (.live slot)) : slot ≤ a.base := by
  have hlt : id < s.store.cells.size := h.cells ▸ (Array.getElem?_eq_some_iff.mp hid).1
  have hs : s.store.cells[id]? = some s.store.cells[id] := Array.getElem?_eq_getElem hlt
  by_contra hslot
  cases hx : s.store.cells[id] with
  | closed v =>
    rw [hx] at hs
    rw [h.kept id _ hs nofun] at hid
    cases hid
  | live slot' =>
    rw [hx] at hs
    by_cases hle : slot' ≤ a.base
    · rw [h.kept id _ hs fun _ he => by cases he; exact hle] at hid
      cases hid
      exact hslot hle
    · rw [h.closed id slot' hs (Nat.not_le.mp hle)] at hid
      cases hid

namespace Typed

variable {G : Ground} {level : Nat}

/-- States that a run comes to, one instruction after another. -/
inductive Later (c : Caller) (entry : Nat) (s : State) : State → Prop
  | here : Later c entry s s
  | step {t u : State} (h : Later c entry s t) (e : step c entry t = .ok none u) : Later c entry s u

theorem Running.later (h : Running G s) (hs : Complete s.core)
    (hl : Later (Engine.ofFuel level).call G.machine.frames.size s t) :
    Running G t ∧ Since s.core t := by
  induction hl with
  | here => exact ⟨h, .self hs⟩
  | step _ e ih =>
    have hr := ih.1.step_lasting ih.2.complete level
    rw [e] at hr
    exact ⟨hr.2.elim And.right fun hn => absurd rfl hn.1, ih.2.trans hr.1⟩

theorem begin_running {n id : Nat} {k : Closure} {args : List Value} (h : Coherent n s)
    (hs : Complete s.core) (hk : s.store.closures[id]? = some k)
    (ha : args.length = k.proto.arity) :
    Post (fun _ u => Running (groundOf n s) u ∧ Complete u.core) (fun _ _ => True)
      (begin id k args (groundOf n s).base true
        { s with machine := s.parked.getD .idle, parked := none }) := by
  have hworks : Works (groundOf n s) (Loading (groundOf n s) 0)
      (begin id k args (groundOf n s).base true) fun _ => Running (groundOf n s) :=
    begin_works id (h.parked.closures id k hk) ha nofun
  have hhoused : Housed ({ s with machine := s.parked.getD .idle, parked := none } : State).core.cells k :=
    hs.closures id k hk
  have hsince := (begin_lasting id hhoused args (groundOf n s).base true _ (.self hs.taken)).2
  exact ((hworks _ (h.parked.loading h.literate)).2.and hsince).imp
    (fun _ _ hu => ⟨hu.1, hu.2.complete⟩) fun _ _ _ => trivial

/-! ## A compiled function by itself -/

/-- An interpreter with one compiled function. -/
def compiledState (p : Proto) : State :=
  { State.fresh .empty .standard with
    store := ((State.fresh .empty .standard).store.newClosure ⟨p, #[]⟩).2 }

/-- The state that an action leaves. -/
def leaving {α : Type} (a : Run α) (s : State) : State :=
  match a s with
  | .ok _ t => t
  | .error _ t => t

/-- A call of the function, when some instructions have been executed. -/
def calledAfter (p : Proto) (args : List Value) : (count : Nat) → State
  | 0 => leaving (begin 0 ⟨p, #[]⟩ args 0 true)
    { compiledState p with machine := (compiledState p).parked.getD .idle, parked := none }
  | count + 1 => leaving (step (Engine.ofFuel 9).call 0) (calledAfter p args count)

theorem running_calledAfter {p : Proto} (hp : p.Produced) (hc : p.captures = #[])
    {args : List Value} (ha : args.length = p.arity)
    (hbegin : begin 0 ⟨p, #[]⟩ args 0 true
      { compiledState p with machine := (compiledState p).parked.getD .idle, parked := none } =
        .ok () (calledAfter p args 0)) {count : Nat}
    (hstep : ∀ k < count, step (Engine.ofFuel 9).call 0 (calledAfter p args k) =
      .ok none (calledAfter p args (k + 1))) :
    Running (groundOf 0 (compiledState p)) (calledAfter p args count) ∧
      Complete (calledAfter p args count).core := by
  have hl : ∀ k ≤ count, Later (Engine.ofFuel 9).call 0 (calledAfter p args 0)
      (calledAfter p args k) := by
    intro k hk
    induction k with
    | zero => exact .here
    | succ k ih => exact .step (ih (Nat.le_of_succ_le hk)) (hstep k hk)
  have hq := Reached.first .standard
  have hid : (compiledState p).store.closures[0]? = some ⟨p, #[]⟩ := rfl
  have h := begin_running (s := compiledState p) (hq.quiet.coherent.newClosure hp hc)
    (hq.complete.push p).1 hid ha
  change Post _ _ (begin 0 ⟨p, #[]⟩ args 0 true _) at h
  rw [hbegin] at h
  obtain ⟨hrun, hsince⟩ := h.1.later h.2 (hl count (Nat.le_refl _))
  exact ⟨hrun, hsince.complete⟩

/-! ## The beginning of a round -/

/-- A `recur` to the head of the running function, and what becomes of the variables. -/
theorem Running.recurs (h : Running G s) (hs : Complete s.core) (ha : s.machine.frames = fs.push a)
    (hr : a.closure.proto.RecursAt a.ip) (hb : Affords s 2) (level : Nat) :
    ∃ t u, step (Engine.ofFuel level).call G.machine.frames.size s = .ok none t ∧
      step (Engine.ofFuel level).call G.machine.frames.size t = .ok none u ∧
      NextRound fs a s u ∧ (∀ l, Lasts u.core l → Fresh a.base u.core l) ∧
      Running G u ∧ Complete u.core := by
  obtain ⟨gs, b, d, -, hbetween, hstands⟩ := id h
  obtain ⟨rfl, rfl⟩ : fs = gs ∧ a = b := by
    have e := ha.symm.trans hstands.frames
    exact Array.push_eq_push.mp e |>.symm
  obtain ⟨i, hfetch, hadmits⟩ :=
    hbetween.wellFormed.admits a.ip hbetween.boundary hbetween.inside
  have hi := hr.rebinds.symm.trans hfetch
  cases hi
  have hmeans : 1 + a.closure.proto.arity ≤ a.outline.height := by
    have hm := hadmits.fits.means
    simp only [Proto.Means, Instruction.first, Instruction.second] at hm
    have : a.outline.height = (a.closure.proto.outline a.ip).height := rfl
    omega
  have hsize : a.base + 1 + a.closure.proto.arity ≤ s.machine.stack.size := by
    have := hstands.height
    omega
  obtain ⟨t, ht, hu⟩ := steps_recur (Engine.ofFuel level).call G.machine.frames.size ha hr hb hsize
  have hnext := nextRound_anew fs hstands.linked hsize
  obtain ⟨hrun, hsince⟩ := h.later hs (.step (.step .here ht) hu)
  exact ⟨t, _, ht, hu, hnext, fun l hl => hl.fresh hsince.complete fun _ _ => hnext.low, hrun,
    hsince.complete⟩

end Typed

end Machine

end TwinLisp
