import TwinLisp.Proofs.Machine.Instructions

/-! Runs of well-formed code. A run that ends, with a value or with a fault, leaves the machine as it
was found, so that the calls that have left the machine below it can go on; whole programs therefore
keep what is watched.

* `Ended`: what a run leaves behind.
* `step_alike`, `run_alike`, `start_alike`: one instruction, a run, and a run from its beginning.
* `runs_intact`: what has to be shown of the machine for whole programs. -/

namespace TwinLisp

namespace Machine.Typed

open Act

variable {G : Ground} {fs waiting : Array Activation} {base d : Nat} {o : Outline} {a : Activation}

/-! ## The end of a function -/

theorem Layered.back {cs : List OpenCell} {top : Nat} (h : Layered cs (fs.push a) top) :
    Layered cs fs a.base ∧ Waits cs a top := by
  generalize hg : fs.push a = gs at h
  cases h with
  | nil => exact absurd hg (Array.push_ne_empty)
  | push h ha =>
    obtain ⟨rfl, rfl⟩ := Array.push_eq_push.mp hg
    exact ⟨h, ha⟩

theorem base_le_of_site {pre : Array Activation} {depth top : Nat} {cs : List OpenCell}
    (h : Site pre base depth fs d) (hl : Layered cs fs top) : base ≤ top := by
  induction h generalizing top with
  | first a ha => exact ha ▸ hl.back.2.above
  | next a _ ih => exact Nat.le_trans (ih hl.back.1) hl.back.2.above

/-- A state after a run. -/
structure Ended (G : Ground) (s : State) : Prop where
  limits : s.config.limits = G.limits
  maxDepth : s.config.maxDepth = G.maxDepth
  parked : s.parked = none
  literate : s.Literate Compiled
  closures : ∀ (i : Nat) c, s.store.closures[i]? = some c → c.Sound
  depth : s.depth = G.depth
  linked : Linked s.store.cells s.machine.openCells
  restored : Restored G.machine s.machine

/-- A machine that has been cleared down to its ground is as it was found. -/
theorem restored_of_upon {m m' : Machine} (h : Upon m m') (hf : m'.frames = m.frames)
    (hs : m'.stack.size = m.stack.size) (hc : ∀ c ∈ m'.openCells, c.slot < m.stack.size) :
    Restored m m' := by
  refine ⟨hf, hs, ?_, fun i => ?_⟩
  · rw [← h.cells, dropWhile_of_low hc]
  · by_cases hi : i < m.stack.size
    · exact h.stack i hi
    · left
      rw [Array.getElem?_eq_none (by omega), Array.getElem?_eq_none (by omega)]

namespace Stands

variable {s : State}

theorem ended (h : Stands G G.machine.frames waiting G.base G.depth ⟨0, []⟩ s) : Ended G s where
  limits := h.limits
  maxDepth := h.maxDepth
  parked := h.parked
  literate := h.literate
  closures := h.closures
  depth := h.depth
  linked := h.linked
  restored := restored_of_upon h.upon h.frames h.height fun c hc => by
    have := h.low c hc
    rwa [h.height] at this

theorem descend (h : Stands G (fs.push a) (fs.push a) base d ⟨0, []⟩ s) (ha : G.base ≤ a.base) :
    Between a ∧ ∃ n, n + 1 = a.outline.height ∧
      Stands G (fs.push a) fs a.base d ⟨n, a.outline.held⟩ s := by
  obtain ⟨hl, hw⟩ := h.layered.back
  have hheight := hw.height
  have habove := hw.above
  refine ⟨hw.between, base - a.base, by omega, { h with
    above := ha
    height := ?_
    held := fun c hc hle => hw.held c hc hle ?_
    layered := hl }⟩
  · rw [h.height]
    dsimp only
    omega
  · have := h.low c hc
    rwa [h.height] at this

end Stands

variable {i : Instruction}

/-- The frame of a function goes at once with its call, since what comes in between sees neither. -/
theorem endFrame_eq (a : Activation) (entry : Nat) :
    endFrame a entry = (do
      let result ← pop
      closeSlots a.base
      truncate a.base
      Act.update fun s =>
        { s.mapMachine (mapFrames Array.pop) with depth := s.depth - a.counted.toNat }
      if (← Act.ask fun s => s.machine.frames.size) ≤ entry then return some result
      push result
      return none) := by
  unfold endFrame
  cases a.counted <;> rfl

/-- The end of a function is the end of the run, or the function below goes on with its value. -/
theorem endFrame_works (h : Due G fs a d i) (hi : i.op = .ret) :
    Works G (Inside G fs a d i.next a.outline) (endFrame a G.machine.frames.size) fun o s =>
      o = none ∧ Running G s ∨ o ≠ none ∧ Ended G s := by
  obtain ⟨op, operand, next⟩ := i
  cases hi
  have hr := h.rests next
  have hn : 0 < a.outline.height := h.admits.fits.takes
  have hk : ∀ s ∈ a.outline.held, s < a.outline.height - 1 := h.admits.fits.kept
  have hnone : ∀ s ∈ (Outline.closedFrom ⟨a.outline.height - 1, a.outline.held⟩ 0).held, s < 0 := by
    intro s hs
    simpa using (List.mem_filter.mp hs).2
  rw [endFrame_eq]
  refine Alike.bind (pop_works hn hk) fun v => ?_
  refine Alike.bind (@closeSlots_works _ _ _ a.base _ _ 0) fun _ => ?_
  refine Alike.bind ((truncate_works (n := 0) (Nat.zero_le _) hnone).post
    fun _ s hs => show Stands G _ fs a.base d ⟨0, []⟩ s from
      hs.into ⟨rfl, fun s hs => ?_⟩) fun _ => ?_
  · exact absurd (hnone s hs) (Nat.not_lt_zero s)
  -- nothing of the function is left above its base, so its frame goes
  refine Alike.bind (Q := fun _ => Stands G fs fs a.base (d - a.counted.toNat) ⟨0, []⟩)
    (.update fun s hs =>
      { hs with
        depth := congrArg (· - a.counted.toNat) hs.depth
        tally := hs.tally.pop
        frames := by
          change s.machine.frames.pop = fs
          rw [hs.frames, Array.pop_push]
        upon := ⟨hs.upon.stack, hs.upon.cells⟩ }) fun _ => ?_
  refine Alike.bind (Q := fun n s => n = fs.size ∧
    Stands G fs fs a.base (d - a.counted.toNat) ⟨0, []⟩ s)
    (.ask fun s hs => ⟨congrArg Array.size hs.frames, hs⟩) fun n => ?_
  refine Alike.given fun hsize => ?_
  subst hsize
  obtain ⟨gs, b, hg, hsite⟩ := h.site.back
  obtain ⟨rfl, rfl⟩ := Array.push_eq_push.mp hg
  rcases hsite with ⟨rfl, hb, hd⟩ | hsite
  · rw [if_pos (Nat.le_refl _), hb, hd]
    exact .pure fun s hs => .inr ⟨nofun, hs.ended⟩
  · rw [if_neg (Nat.not_le.mpr hsite.size_lt)]
    obtain ⟨gs, b, rfl, hgs⟩ := hsite.back
    intro s hs
    have hb : G.base ≤ b.base := by
      rcases hgs with ⟨_, hb, _⟩ | hgs
      · exact Nat.le_of_eq hb.symm
      · exact base_le_of_site hgs hs.layered.back.1
    obtain ⟨hbetween, n, hn, hs'⟩ := hs.descend hb
    exact Alike.bind (push_works hsite.above v) (fun _ => .pure fun s hs => .inl
      ⟨rfl, gs, b, _, hsite, hbetween, hs.as hn.symm rfl⟩) s hs'

/-! ## Runs -/

theorem tick_works (hr : Rests G fs) : Rest G fs waiting base d o tick := by
  refine Alike.bind (Q := fun _ => Stands G fs waiting base d o)
    (.update fun s h => { h with upon := ⟨h.upon.stack, h.upon.cells⟩ }) fun _ => ?_
  refine Alike.bind (Q := fun _ => Stands G fs waiting base d o) (.ask fun _ h => h) fun b => ?_
  cases b with
  | none => exact .pure fun _ h => h
  | some budget =>
    refine Alike.bind (Q := fun _ => Stands G fs waiting base d o) (.ask fun _ h => h) fun n => ?_
    split
    · exact fail_works ⟨nofun, fun _ => nofun⟩ fun s h => h.broken hr
    · exact .pure fun _ h => h

variable {c c' : Caller} {step' : Caller → Nat → Run (Option Value)}

theorem step_alike (hc : G.watch.Callers G.calls c c') :
    Alike (Running G) (step c G.machine.frames.size) (step c' G.machine.frames.size)
      (fun o s => o = none ∧ Running G s ∨ o ≠ none ∧ Ended G s) (Fails G) := by
  intro s hs
  obtain ⟨fs, a, d, hsite, hbetween, h⟩ := hs
  obtain ⟨i, hfetch, hadmits⟩ :=
    hbetween.wellFormed.admits a.ip hbetween.boundary hbetween.inside
  have hdue : Due G fs a d i := ⟨hsite, hbetween, hadmits⟩
  have hr : Rests G (fs.push a) := hsite.above
  have hbody : Alike (Stands G (fs.push a) fs a.base d a.outline)
      (do tick
          let i ← Run.ofFault (a.closure.proto.chunk.fetch a.ip)
          goTo i.next
          exec c G.machine.frames.size a i)
      (do tick
          let i ← Run.ofFault (a.closure.proto.chunk.fetch a.ip)
          goTo i.next
          exec c' G.machine.frames.size a i)
      (fun o s => o = none ∧ Running G s ∨ o ≠ none ∧ Ended G s) (Fails G) := by
    rw [hfetch]
    refine Alike.bind (tick_works hr) fun _ => ?_
    refine Alike.bind (Q := fun j s => j = i ∧ Stands G (fs.push a) fs a.base d a.outline s)
      (.pure fun s hs => ⟨rfl, hs⟩) fun j => ?_
    refine Alike.given fun hj => ?_
    subst hj
    refine Alike.bind (goTo_works j.next) fun _ => ?_
    by_cases hi : j.op = .ret
    · have hexec : ∀ c, exec c G.machine.frames.size a j = endFrame a G.machine.frames.size := by
        intro c
        obtain ⟨op, operand, next⟩ := j
        cases hi
        rfl
      rw [hexec, hexec]
      exact endFrame_works hdue hi
    · exact (exec_works hc _ hdue hi).post fun _ _ hs => .inl hs
  have hrunning : Works G (Stands G (fs.push a) fs a.base d a.outline) running
      fun x s => x = a ∧ Stands G (fs.push a) fs a.base d a.outline s := by
    refine Alike.bind (Q := fun b s => b = some a ∧ Stands G (fs.push a) fs a.base d a.outline s)
      (.ask fun s hs => ⟨by rw [hs.frames, Array.back?_push], hs⟩) fun b => ?_
    cases b with
    | none => exact Run.fail_meets fun s hs => nomatch hs.1
    | some x => exact .pure fun s hs => ⟨Option.some.inj hs.1, hs.2⟩
  refine Alike.bind hrunning (fun x => ?_) s h
  refine Alike.given fun hx => ?_
  subst hx
  exact Alike.mapFault (hbody.imp (fun _ hs => hs) (fun _ _ hs => hs) fun e s hs =>
    ⟨by rw [Located.within_cause]; exact hs.1, hs.2⟩)

/-- A way to execute an instruction that is the usual one wherever well-formed code runs inside a
number of calls of interpreted functions, if calls that leave the machine come back to it. -/
def Usual (calls : Nat) (step' : Caller → Nat → Run (Option Value)) : Prop :=
  ∀ G c s, G.calls = calls → G.watch.Callers calls c c → Running G s →
    step' c G.machine.frames.size s = step c G.machine.frames.size s

theorem run_alike (hf : Usual G.calls step') (hc : G.watch.Callers G.calls c c') (rounds : Nat) :
    Alike (Running G) (run (step c) G.machine.frames.size rounds)
      (run (step' c') G.machine.frames.size rounds) (fun _ => Ended G) (Fails G) := by
  induction rounds with
  | zero => exact .exhausted
  | succ rounds ih =>
    have hstep : Alike (Running G) (step c G.machine.frames.size) (step' c' G.machine.frames.size)
        (fun o s => o = none ∧ Running G s ∨ o ≠ none ∧ Ended G s) (Fails G) := fun s h => by
      rw [hf G c' s rfl hc.self h]
      exact step_alike hc s h
    refine hstep.bind fun o => ?_
    cases o with
    | some v => exact .pure fun s h => h.elim (fun h => nomatch h.1) fun h => h.2
    | none => exact ih.pre fun s h => h.elim (fun h => h.2) fun h => absurd rfl h.1

/-- What an unfinished run leaves behind is taken away. -/
theorem Broken.unwind {s : State} (h : Broken G s) :
    Ended G (unwind G.base G.machine.frames.size G.depth s) := by
  have hstore : (s.closeFrom G.base).store = closeCells s.machine.stack s.store
      (s.machine.openCells.takeWhile fun c => G.base ≤ c.slot) := rfl
  obtain ⟨rest, hrest⟩ := h.frames
  have hframes : s.machine.frames.shrink G.machine.frames.size = G.machine.frames := by
    rw [hrest]
    simp
  have hsize : (s.machine.stack.shrink G.base).size = G.base := by
    rw [Array.size_shrink]
    exact Nat.min_eq_left h.above
  have hslots : ∀ i < G.base, (s.machine.stack.shrink G.base)[i]? = s.machine.stack[i]? :=
    fun i hi => getElem?_shrink _ hi
  have hopen : ∀ c ∈ (s.closeFrom G.base).machine.openCells, c.slot < G.base := fun c hc =>
    ((h.linked.sound.mem_dropWhile G.base).mp hc).2
  exact {
    limits := h.limits
    maxDepth := h.maxDepth
    parked := h.parked
    literate := fun i g hg => h.literate i g (by
      change (s.closeFrom G.base).store.functions[i]? = _ at hg
      rwa [hstore, closeCells_eq] at hg)
    closures := fun i c hc => h.closures i c (by
      change (s.closeFrom G.base).store.closures[i]? = _ at hc
      rwa [hstore, closeCells_eq] at hc)
    depth := rfl
    linked := h.linked.close s.machine.stack G.base
    restored := restored_of_upon ⟨fun i hi => by
        rcases h.upon.stack i hi with e | hc
        · exact .inl ((hslots i hi).trans e)
        · exact .inr hc,
      (dropWhile_dropWhile_slot (Nat.le_refl _) s.machine.openCells).trans h.upon.cells⟩
      hframes hsize hopen }

/-! ## Beginnings -/

/-- A machine on which a run is about to begin. -/
abbrev Loading (G : Ground) (k : Nat) : State → Prop :=
  Stands G G.machine.frames G.machine.frames G.base G.depth ⟨k, []⟩

theorem rests_ground : Rests G G.machine.frames := ⟨#[], by simp⟩

theorem forM_push_works (args : List Value) {k : Nat} :
    Works G (Loading G k) (args.forM push) fun _ => Loading G (k + args.length) := by
  induction args generalizing k with
  | nil => exact .pure fun _ h => h
  | cons v rest ih =>
    refine Alike.bind (push_works rests_ground v) fun _ => ih.post fun _ s hs => ?_
    rw [List.length_cons, Nat.add_comm rest.length 1, ← Nat.add_assoc]
    exact hs

theorem begin_works (id : Nat) {k : Closure} (hk : k.Sound) {args : List Value}
    (ha : args.length = k.proto.arity) {counted : Bool}
    (hcount : counted = false → G.machine.frames = #[]) :
    Works G (Loading G 0) (begin id k args G.base counted) fun _ => Running G := by
  refine Alike.bind (push_works rests_ground _) fun _ => ?_
  refine Alike.bind (forM_push_works args) fun _ => ?_
  refine (pushFrame_works k hcount rests_ground).post fun _ s hs => ?_
  refine Running.start hk (.first ⟨k, 0, G.base, counted⟩ rfl) (hs.as ?_ rfl)
  dsimp only
  omega

section Start

variable (hf : Usual G.calls step') (hc : G.watch.Callers G.calls c c')

include hf hc

theorem start_alike (rounds id : Nat) {k : Closure} (hk : k.Sound) (args : List Value)
    {counted : Bool} (hcount : counted = false → G.machine.frames = #[]) :
    Alike (Loading G 0) (start (step c) rounds id k args counted)
      (start (step' c') rounds id k args counted) (fun _ => Ended G)
      fun e s => Sane G.limits G.maxDepth e.cause ∧ Ended G s := by
  unfold start
  refine Run.guard_alike (fun _ _ h => ⟨⟨nofun, fun _ => nofun⟩, h.ended⟩) fun ha => ?_
  have ha : args.length = k.proto.arity := by simpa using ha
  intro s h
  have hrun : Alike (Loading G 0)
      (onStop (do begin id k args G.base counted; run (step c) G.machine.frames.size rounds)
        (unwind G.base G.machine.frames.size G.depth))
      (onStop (do begin id k args G.base counted; run (step' c') G.machine.frames.size rounds)
        (unwind G.base G.machine.frames.size G.depth)) (fun _ => Ended G)
      fun e s => Sane G.limits G.maxDepth e.cause ∧ Ended G s := by
    refine Alike.onStop ?_
    exact (Alike.bind (begin_works id hk ha hcount) fun _ => run_alike hf hc rounds).imp
      (fun _ h => h) (fun _ _ h => h) fun _ s h => ⟨h.1, h.2.unwind⟩
  have hreset : Loading G 0 (s.mapMachine fun m => { m with steps := 0, peak := 0 }) :=
    { h with upon := ⟨h.upon.stack, h.upon.cells⟩ }
  have hsize : s.machine.stack.size = G.base := h.height
  simp only [Act.bind_apply, Act.ask, hsize, h.frames, h.depth]
  by_cases he : G.machine.frames.size = 0
  · simp only [if_pos he, Act.bind_apply, Act.update]
    exact hrun _ hreset
  · simp only [if_neg he]
    exact hrun s h

theorem executeBy_alike (rounds id : Nat) (args : List Value) :
    Alike (Loading G 0) (executeBy (step c) rounds id args) (executeBy (step' c') rounds id args)
      (fun _ => Ended G) fun e s => Sane G.limits G.maxDepth e.cause ∧ Ended G s :=
  Alike.bind (closureOf_meets id fun _ _ hf hs => ⟨sane_of_plain hf, hs.ended⟩) fun _ =>
    Alike.given fun hk => start_alike hf hc rounds id hk args (show true = false → _ from nofun)

theorem executeFormBy_alike (rounds : Nat) {p : Proto} (hp : p.Produced) (hcap : p.captures = #[])
    (htop : G.machine.frames = #[]) :
    Alike (Loading G 0) (executeFormBy (step c) rounds p) (executeFormBy (step' c') rounds p)
      (fun _ => Ended G) fun e s => Sane G.limits G.maxDepth e.cause ∧ Ended G s := by
  have hcells : (#[] : Array Nat).size = p.captures.size := by rw [hcap]; rfl
  refine Alike.bind (Q := fun _ => Loading G 0) (.onStore fun s hs => ?_) fun id =>
    start_alike hf hc rounds id ⟨hp, hcells⟩ [] fun _ => htop
  exact hs.ofStore rfl rfl (sound_push hs.closures hp hcells)

end Start

/-! ## Whole programs -/

/-- The machine that a run takes up. -/
def groundOf (calls : Nat) (s : State) : Ground :=
  ⟨s.config.limits, s.config.maxDepth, calls, s.parked.getD idle, s.depth⟩

variable {limits : Limits} {maxDepth n : Nat} {w : State.Core × Nat}

theorem Parked.loading {s : State} (h : Parked n s.core s.depth) (hl : s.Literate Compiled) :
    Loading (groundOf n s) 0 { s with machine := s.parked.getD .idle, parked := none } where
  limits := rfl
  maxDepth := rfl
  parked := rfl
  literate := hl
  closures := h.closures
  depth := rfl
  tally := h.tally
  frames := rfl
  linked := h.linked
  upon := ⟨fun _ _ => .inl rfl, dropWhile_of_low h.low⟩
  above := Nat.le_refl _
  height := rfl
  held := fun c hc hle => absurd (h.low c hc) (Nat.not_lt.mpr hle)
  low := h.low
  layered := h.layered

theorem Ended.holds {s t : State} (hs : (intact limits maxDepth).Holds n w s)
    (ht : Ended (groundOf n s) t) : (intact limits maxDepth).Holds n w
      { t with machine := s.machine, parked := some t.machine } :=
  have hinv := hs.inv.1
  { inv := ⟨{
      machine := hinv.machine
      tally := by
        show Tally n t.config.maxDepth t.machine.frames t.depth
        rw [ht.maxDepth, ht.restored.frames, ht.depth]
        exact hinv.tally
      closures := ht.closures
      linked := ht.linked
      low := fun c hc => by
        change c ∈ t.machine.openCells at hc
        show c.slot < t.machine.stack.size
        rw [ht.restored.openCells] at hc
        rw [ht.restored.size]
        exact hinv.low c hc
      layered := by
        show Layered t.machine.openCells t.machine.frames t.machine.stack.size
        rw [ht.restored.openCells, ht.restored.frames, ht.restored.size]
        exact hinv.layered }, ht.limits.trans hs.inv.2.1, ht.maxDepth.trans hs.inv.2.2⟩
    literate := ht.literate
    rel := (intact limits maxDepth).trans hs.rel
      ⟨ht.limits, ht.maxDepth, ht.restored, fun _ => rfl⟩
    depth := ht.depth.trans hs.depth }

theorem onParked_intact {b b' : Run Value}
    (h : ∀ s, (intact limits maxDepth).Holds n w s →
      Alike (Loading (groundOf n s) 0) b b' (fun _ => Ended (groundOf n s))
        fun e t => Sane s.config.limits s.config.maxDepth e.cause ∧ Ended (groundOf n s) t) :
    (intact limits maxDepth).KeepsRun n w (onParked b) (onParked b') := by
  refine Watch.onParked_keeps fun s hs => ?_
  obtain ⟨hlimits, hmax⟩ : s.config.limits = limits ∧ s.config.maxDepth = maxDepth := hs.inv.2
  refine ⟨_, hs.inv.1.loading hs.literate, (h s hs).imp (fun _ h => h) (fun _ t ht => ht.holds hs)
    fun _ t ht => ?_⟩
  rw [hlimits, hmax] at ht
  exact ⟨ht.1, ht.2.holds hs⟩

/-- The machine calls out inside a run, on whatever ground it stands. -/
theorem callers_ground {s : State} (hs : (intact limits maxDepth).Holds n w s)
    (hc : (intact limits maxDepth).Callers n c c') :
    (groundOf n s).watch.Callers (groundOf n s).calls c c' := by
  obtain ⟨rfl, rfl⟩ : s.config.limits = limits ∧ s.config.maxDepth = maxDepth := hs.inv.2
  exact hc

section Whole

variable (hf : Usual n step') (hc : (intact limits maxDepth).Callers n c c')

include hf hc

theorem call_intact (w : State.Core × Nat) (rounds id : Nat) (args : List Value) :
    (intact limits maxDepth).KeepsRun n w (onParked (executeBy (step c) rounds id args))
      (onParked (executeBy (step' c') rounds id args)) :=
  onParked_intact fun _ hs => executeBy_alike hf (callers_ground hs hc) rounds id args

theorem form_intact (hw : (intact limits maxDepth).Top w.1) (rounds : Nat) {p : Proto}
    (hp : p.Produced) (hcap : p.captures = #[]) :
    (intact limits maxDepth).KeepsRun n w (onParked (executeFormBy (step c) rounds p))
      (onParked (executeFormBy (step' c') rounds p)) :=
  onParked_intact fun _ hs => executeFormBy_alike hf (callers_ground hs hc) rounds hp hcap
    ((intact limits maxDepth).top_mono hs.rel hw).frames

end Whole

end Machine.Typed

end TwinLisp
