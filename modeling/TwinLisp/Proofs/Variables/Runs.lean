import TwinLisp.Proofs.Variables.Calls
import TwinLisp.Proofs.Variables.Faithful

/-! Runs of code from the compiler in both machines. They come to the same, whether they end with a
value or with a fault, and the cells of one stand for variables of the other afterwards.

* `Settled.advance`, `step_tandem`: one instruction.
* `Observed`: ways to execute instructions that print what they find.
* `run_tandem`, `start_tandem`: a run, and a run from its beginning.
* `call_reflects`, `form_reflects`: calls and whole forms on the parked machines. -/

namespace TwinLisp

namespace Machine.Ideal

open Act Typed

variable {B : Origin} {ρ ρ' : List Nat} {lim even d n m : Nat} {fs fs' : Array Activation}
  {a a' b : Activation} {i : Instruction}

/-! ## Instructions -/

/-- No slot is left that is about to be dropped. -/
theorem Settled.spared {s t : State} (h : Settled B ρ lim fs fs' a a' n s t)
    (hi : a.closure.proto.chunk.fetch a.ip = .ok i) (hn : n = a.base + a.outline.height)
    (hf : a.closure.proto.Fits a.outline i) : a.base + i.spares (n - a.base) ≤ lim := by
  have hle : i.spares (n - a.base) ≤ n - a.base := by
    obtain ⟨op, operand, next⟩ := i
    cases op with
    | recur =>
      have hmeans : operand % 256 + operand / 256 ≤ a.outline.height := hf.means
      show operand % 256 ≤ _
      omega
    | _ => first | exact Nat.le_refl _ | exact Nat.sub_le _ _
  rcases h.ready with hr | ⟨k, hk, hr⟩
  · omega
  · cases hi.symm.trans hk
    have htakes : k + 1 ≤ a.outline.height := hf.takes
    show a.base + (n - a.base - (k + 1)) ≤ lim
    omega

theorem exec_caller {entry : Nat} (hi : i.op ≠ .call) (c c' : Caller) :
    Machine.exec c entry a i = Machine.exec c' entry a i := by
  obtain ⟨op, operand, next⟩ := i
  cases op <;> first | exact absurd rfl hi | rfl

variable {c c' : Caller}

/-- What comes of one instruction. -/
abbrev Advanced (B : Origin) (o o' : Option Value) (s t : State) : Prop :=
  o' = o ∧ (o = none ∧ Running B.ground s ∧ Abreast B s t ∨
    o ≠ none ∧ Typed.Ended B.ground s ∧ Finished B s t)

theorem Facing.exec (hc : Answers B.ground.watch B.ground.calls c c')
    (hB : B.frames.size = B.ground.machine.frames.size)
    (h : Facing B ρ lim fs fs' a a' b d n i) :
    Tandem (Before B ρ lim fs fs' a a' b d n i)
      (Machine.exec c B.ground.machine.frames.size a i)
      (Ideal.exec c' B.ground.machine.frames.size a' i) (Advanced B) (Failed B) := by
  by_cases hret : i.op = .ret
  · obtain ⟨op, operand, next⟩ := i
    cases hret
    have hend := endFrame_tandem h
    rw [hB] at hend
    refine (hend.along (endFrame_works h.due rfl)).imp (fun s t hs => ⟨hs.1, h.freedWork nofun hs⟩)
      (fun o o' s t hs => ?_) fun _ _ hs => hs
    obtain ⟨ho, rfl, hs⟩ := hs
    refine ⟨rfl, ?_⟩
    rcases ho with ⟨ho, hr⟩ | ⟨ho, he⟩
    · exact .inl ⟨ho, hr, (hs.resolve_right fun h => h.1 ho).2⟩
    · exact .inr ⟨ho, he, (hs.resolve_left fun h => ho h.1).2⟩
  by_cases hcall : i.op = .call
  · obtain ⟨op, operand, next⟩ := i
    cases hcall
    show Tandem _ (do callValue c operand; return none) (do callValue c' operand; return none) _ _
    exact ((callValue_tandem hc h).pre fun s t hs => ⟨hs.1, h.freedWork nofun hs⟩).bind
      fun _ _ => .pure fun s t hs => ⟨rfl, .inl ⟨rfl, hs⟩⟩
  · have hnone : B.ground.watch.Callers B.ground.calls (fun _ _ => Act.exhausted)
        fun _ _ => Act.exhausted := fun _ _ _ => .exhausted
    have hworks := exec_works hnone B.ground.machine.frames.size h.due hret
    rw [exec_caller hcall _ c] at hworks
    exact ((exec_tandem h hret hcall).along hworks).imp (fun s t hs => ⟨hs.1, hs⟩)
      (fun o o' s t hs => ⟨hs.2.1, .inl ⟨hs.1.1, hs.1.2, hs.2.2.2⟩⟩)
      fun _ _ hs => hs

/-- Slots of the ideal machine are freed. -/
theorem Work.release {W : Display} {s t : State}
    (h : Work ρ W lim even fs (fs'.push a') n s t) (count : Nat) :
    Work ρ W lim even fs (fs'.push (a'.keeping count)) n s
      (t.mapMachine (Machine.mapFrames fun frames =>
        frames.modify (frames.size - 1) (Activation.keeping count))) := by
  have hm := h.mapFrames id fun frames => frames.modify (frames.size - 1) (Activation.keeping count)
  rwa [modify_push] at hm

section Step

variable (hc : Answers B.ground.watch B.ground.calls c c')
  (hB : B.frames.size = B.ground.machine.frames.size)

include hc hB

/-- One instruction, once all slots of the ideal machine have cells. -/
theorem Settled.advance {s₀ t₀ : State} (h : Settled B ρ lim fs fs' a b n s₀ t₀)
    (hsite : Site B.ground.machine.frames B.ground.base B.ground.depth (fs.push a) d)
    (hbetween : Between a) (hlow : B.ground.base ≤ a.base) (hheight : n = a.base + a.outline.height) :
    Tandem (fun s t => Stands B.ground (fs.push a) fs a.base d a.outline s ∧
        Work ρ (Showing fs' b) lim a.base (fs.push a) (fs'.push b) n s t)
      (Machine.step c B.ground.machine.frames.size) (advance c' B.ground.machine.frames.size)
      (Advanced B) (Failed B) := by
  obtain ⟨i, hfetch, hadmits⟩ := hbetween.wellFormed.admits a.ip hbetween.boundary hbetween.inside
  have hfacing : Facing B ρ lim fs fs' a b (b.keeping (i.spares (n - a.base))) d n i :=
    ⟨⟨hsite, hbetween, hadmits⟩, hfetch, h.stacked, h.twin, h.origin, h.above, h.full, hlow, hheight,
      rfl, h.spared hfetch hheight hadmits.fits⟩
  have hfetch' : b.closure.proto.chunk.fetch b.ip = .ok i := by
    rw [h.twin.proto, h.twin.ip, hfetch]
  have hexec : Tandem (fun s t => Inside B.ground fs a d i.next a.outline s ∧
        Work ρ (Showing fs' b) lim a.base (fs.push { a with ip := i.next })
          (fs'.push { b with ip := i.next }) n s t)
      (Machine.exec c B.ground.machine.frames.size a i)
      (do let height ← Act.ask fun s => s.machine.stack.size
          release (i.spares (height - b.base))
          Ideal.exec c' B.ground.machine.frames.size b i) (Advanced B) (Failed B) := by
    rintro s t ⟨hs, hw⟩
    have hrel := hfacing.exec hc hB s _ ⟨hs, hw.release (i.spares (n - a.base))⟩
    simp only [Act.bind_apply, Act.ask, release, Act.update, hw.size', h.twin.base]
    exact hrel
  have hbody : Tandem (fun s t => Stands B.ground (fs.push a) fs a.base d a.outline s ∧
        Work ρ (Showing fs' b) lim a.base (fs.push a) (fs'.push b) n s t)
      (do tick
          let i ← Run.ofFault (a.closure.proto.chunk.fetch a.ip)
          goTo i.next
          Machine.exec c B.ground.machine.frames.size a i)
      (do tick
          let i ← Run.ofFault (b.closure.proto.chunk.fetch b.ip)
          goTo i.next
          let height ← Act.ask fun s => s.machine.stack.size
          release (i.spares (height - b.base))
          Ideal.exec c' B.ground.machine.frames.size b i) (Advanced B) (Failed B) := by
    rw [hfetch, hfetch']
    refine ((tick_tandem h.origin).along (tick_works hsite.above)).bind fun _ _ => ?_
    exact ((goTo_tandem (B := B) i.next).along (goTo_works i.next)).bind fun _ _ => hexec
  rintro s t ⟨hs, hw⟩
  obtain ⟨hrun, hrun'⟩ := hw.running
  simp only [Machine.step, Ideal.advance, Act.bind_apply, hrun, hrun', h.twin.line_eq]
  exact Tandem.mapFault (f := fun e => e.within (.ofLine (line a))) hbody s t ⟨hs, hw⟩

theorem step_tandem :
    Tandem (fun s t => Running B.ground s ∧ Abreast B s t)
      (Machine.step c B.ground.machine.frames.size) (step c' B.ground.machine.frames.size)
      (Advanced B) (Failed B) := by
  rintro s t ⟨⟨fs, a, d, hsite, hbetween, hs⟩, ρ, lim, gs, fs', a₁, a', n, h⟩
  obtain ⟨rfl, rfl⟩ := Array.push_eq_push.mp (hs.frames.symm.trans h.work.frames)
  obtain ⟨lim₁, b, hsettled⟩ := h.settle hs.above
  exact hsettled.advance hc hB hsite hbetween hs.above (h.work.size.symm.trans hs.height) s
    (settle t) ⟨hs, hsettled.work⟩

end Step

/-! ## Runs -/

/-- Ways to execute an instruction in both machines that first print what they find. It is the same
wherever the machine is faithful. -/
def Observed (step₁ step₂ : Caller → Nat → Run (Option Value)) : Prop :=
  ∀ {entry s t}, Faithful entry s t → ∃ text, ∀ c c',
    step₁ c entry s = Machine.step c entry (s.printing text) ∧
      step₂ c' entry t = Ideal.step c' entry (t.printing text)

theorem running_printing {G : Ground} {s : State} (h : Running G s) (text : String) :
    Running G (s.printing text) := by
  obtain ⟨fs, a, d, hsite, hbetween, hs⟩ := h
  exact ⟨fs, a, d, hsite, hbetween, { hs with }⟩

theorem Abreast.printing {s t : State} (h : Abreast B s t) (text : String) :
    Abreast B (s.printing text) (t.printing text) := by
  obtain ⟨ρ, lim, fs, fs', a, a', n, hl⟩ := h
  have hout : t.output = s.output := by rw [hl.work.rest]
  refine ⟨ρ, lim, fs, fs', a, a', n, { hl with
    work := {
      rest := ?_
      frames := hl.work.frames
      frames' := hl.work.frames'
      size := hl.work.size
      even := hl.work.even
      doubles := hl.work.doubles } }⟩
  show { t with output := t.output ++ text } = _
  rw [hout]
  exact congrArg (fun u : State => { u with
    store := t.store
    machine := t.machine
    output := s.output ++ text }) hl.work.rest

section Whole

variable {step₁ step₂ : Caller → Nat → Run (Option Value)} (hobs : Observed step₁ step₂)
  (hc : Answers B.ground.watch B.ground.calls c c')
  (hB : Stacked B.world B.ground.machine.frames B.frames B.ground.base)

include hobs hc hB

theorem run_tandem (rounds : Nat) :
    Tandem (fun s t => Running B.ground s ∧ Abreast B s t)
      (run (step₁ c) B.ground.machine.frames.size rounds)
      (run (step₂ c') B.ground.machine.frames.size rounds)
      (fun u v s t => v = u ∧ Typed.Ended B.ground s ∧ Finished B s t) (Failed B) := by
  induction rounds with
  | zero => exact .exhausted
  | succ rounds ih =>
    have hstep : Tandem (fun s t => Running B.ground s ∧ Abreast B s t)
        (step₁ c B.ground.machine.frames.size) (step₂ c' B.ground.machine.frames.size) (Advanced B)
        (Failed B) := by
      rintro s t ⟨hr, ha⟩
      obtain ⟨text, heq⟩ := hobs (ha.faithful hr)
      rw [(heq c c').1, (heq c c').2]
      exact step_tandem hc hB.size_eq _ _ ⟨running_printing hr text, ha.printing text⟩
    refine hstep.bind fun o o' => ?_
    rintro s t ⟨rfl, h⟩
    cases o' with
    | some v => exact ⟨rfl, (h.resolve_left fun h => nomatch h.1).2⟩
    | none => exact ih s t (h.resolve_right fun h => h.1 rfl).2

end Whole

theorem Torn.unwind {s t : State} (h : Torn B s t) (hr : Typed.Broken B.ground s)
    (hB : Stacked B.world B.ground.machine.frames B.frames B.ground.base) :
    Finished B (Machine.unwind B.ground.base B.ground.machine.frames.size B.ground.depth s)
      (Machine.unwind B.ground.base B.ground.machine.frames.size B.ground.depth t) := by
  obtain ⟨ρ, W, lim, even, fs, fs', n, ho, hw⟩ := h
  obtain ⟨rest, hrest⟩ := ho.frames
  obtain ⟨hclosed, hopen⟩ := hw.closeFrom B.ground.base
  have hlow := ho.low
  have hlim : min lim B.ground.base = B.ground.base := Nat.min_eq_right hlow
  rw [hlim] at hclosed
  have habove : B.ground.base ≤ n := hw.size ▸ hr.above
  have hshrunk : ∀ {stack : Array Value}, stack.size = n →
      (stack.shrink B.ground.base).size = B.ground.base := fun he => by
    rw [Array.size_shrink, he]
    exact Nat.min_eq_left habove
  have hshown : ∀ x j, Shown B.frames x j ↔ W.below B.ground.base x j := fun x j => by
    constructor
    · intro hx
      have hlt := hB.lt_of_shown hx
      exact ⟨(ho.below x hlt j).mpr hx, hlt⟩
    · exact fun hx => (ho.below x hx.2 j).mp hx.1
  have hframes : t.machine.frames.shrink B.ground.machine.frames.size = B.frames := by
    rw [hw.frames', ← hB.size_eq, hrest]
    simp
  have hopen' : ∀ (i x j : Nat), (s.closeFrom B.ground.base).store.cells[i]? = some (.live x) →
      W x j → W.below B.ground.base x j := fun i x j hi hx =>
    ⟨hx, hopen _ (hclosed.doubles.linked.all i x hi)⟩
  have hstack : ∀ x, (∀ j, ¬ W.below B.ground.base x j) →
      (t.machine.stack.shrink B.ground.base)[x]? =
        ((s.closeFrom B.ground.base).machine.stack.shrink B.ground.base)[x]? := fun x hx => by
    by_cases hlt : x < B.ground.base
    · rw [getElem?_shrink _ hlt, getElem?_shrink _ hlt]
      exact hclosed.doubles.stack x fun j hj => hx j ⟨hj, hlt⟩
    · rw [Array.getElem?_eq_none (by rw [hshrunk hclosed.size']; omega),
        Array.getElem?_eq_none (by rw [hshrunk hclosed.size]; omega)]
  have hcut : Doubles ρ (W.below B.ground.base) B.ground.base (s.closeFrom B.ground.base).store
      t.store (mapStack (·.shrink B.ground.base) (s.closeFrom B.ground.base).machine)
      (mapStack (·.shrink B.ground.base) t.machine) :=
    hclosed.doubles.cutStack (fun x j hx => hx.1) hopen' (fun x j hx _ => hx.2)
      ((hshrunk hclosed.size').trans (hshrunk hclosed.size).symm)
      (fun x j hx => getElem?_shrink _ hx.2) hstack
  refine ⟨ρ, B.ground.base, B.ground.base, s.machine.frames.shrink B.ground.machine.frames.size,
    B.ground.base, ho.world, fun _ _ => hB.lt_of_shown, ?_⟩
  rw [Machine.unwind, Machine.unwind, closeFrom_of_nil hw.doubles.openCells]
  exact {
    rest := congrArg (fun u : State => { u with
      store := t.store
      machine := { t.machine with
        stack := t.machine.stack.shrink B.ground.base
        frames := t.machine.frames.shrink B.ground.machine.frames.size }
      depth := B.ground.depth }) hclosed.rest
    frames := rfl
    frames' := hframes
    size := hshrunk hclosed.size
    even := fun x hx => (Array.getElem?_eq_none ((hshrunk hclosed.size').symm ▸ hx)).trans
      (Array.getElem?_eq_none ((hshrunk hclosed.size).symm ▸ hx)).symm
    doubles := { hcut.as hshown with } }

/-! ## Beginnings -/

/-- Both machines with nothing above the base of a run. -/
abbrev Cleared (B : Origin) : State → State → Prop :=
  Work B.world (Shown B.frames) B.ground.base B.ground.base B.ground.machine.frames B.frames
    B.ground.base

/-- Both machines before a run. -/
abbrev Loaded (B : Origin) (s t : State) : Prop := Loading B.ground 0 s ∧ Cleared B s t

theorem over_origin (B : Origin) : Over B B.world (Shown B.frames) B.ground.base B.frames :=
  ⟨List.prefix_refl _, Nat.le_refl _, ⟨#[], by simp⟩, fun _ _ _ => Iff.rfl⟩

theorem forM_push_tandem {W : Display} (ho : Over B ρ W lim fs') (args : List Value) :
    Paired B (Work ρ W lim even fs fs' n) (args.forM push) (args.forM push)
      fun _ _ => Work ρ W lim even fs fs' (n + args.length) := by
  induction args generalizing n with
  | nil => exact .pure fun _ _ h => h
  | cons v rest ih =>
    refine (push_tandem ho v).bind fun _ _ => ih.post fun _ _ s t h => ?_
    rw [List.length_cons, Nat.add_comm rest.length 1, ← Nat.add_assoc]
    exact h

theorem Work.finished (hB : Stacked B.world B.ground.machine.frames B.frames B.ground.base)
    {s t : State} (h : Cleared B s t) : Finished B s t :=
  ⟨B.world, _, _, _, _, List.prefix_refl _, fun _ _ => hB.lt_of_shown, h⟩

section Begin

variable (hB : Stacked B.world B.ground.machine.frames B.frames B.ground.base)

include hB

theorem begin_tandem (id : Nat) {k k' : Closure} (hk : k.Sound) (hcopies : Copies B.world k k')
    {args : List Value} (ha : args.length = k.proto.arity) {counted : Bool}
    (hcount : counted = false → B.ground.machine.frames = #[]) :
    Tandem (Loaded B) (begin id k args B.ground.base counted) (begin id k' args B.ground.base counted)
      (fun _ _ s t => Running B.ground s ∧ Abreast B s t) (Failed B) := by
  have ho := over_origin B
  have hbegin : Paired B (Cleared B) (begin id k args B.ground.base counted)
      (begin id k' args B.ground.base counted) fun _ _ => Abreast B := by
    unfold begin
    rw [hcopies.proto]
    refine (push_tandem ho _).bind fun _ _ => (forM_push_tandem ho args).bind fun _ _ => ?_
    refine (pushFrame_tandem ho hB.size_eq k k' B.ground.base counted).post fun _ _ s t hw => ?_
    exact abreast_start hB ho (Nat.le_refl _) hk hcopies (by omega) hw
  exact hbegin.along (begin_works id hk ha hcount)

section Start

variable {step₁ step₂ : Caller → Nat → Run (Option Value)} (hobs : Observed step₁ step₂)
  (hc : Answers B.ground.watch B.ground.calls c c')

include hobs hc

/-- What runs leave behind, whether they have a value or not. -/
abbrev Closed (B : Origin) (s t : State) : Prop := Typed.Ended B.ground s ∧ Finished B s t

theorem start_tandem (rounds id : Nat) {k k' : Closure} (hk : k.Sound)
    (hcopies : Copies B.world k k') (args : List Value) {counted : Bool}
    (hcount : counted = false → B.ground.machine.frames = #[]) :
    Tandem (Loaded B) (start (step₁ c) rounds id k args counted)
      (start (step₂ c') rounds id k' args counted) (fun u v s t => v = u ∧ Closed B s t)
      (Closed B) := by
  have hclosed : ∀ s t, Loaded B s t → Closed B s t := fun s t h =>
    ⟨h.1.ended, h.2.finished hB⟩
  unfold start
  rw [hcopies.proto]
  refine Run.guard_tandem (fun _ => hclosed) fun ha => ?_
  have ha : args.length = k.proto.arity := by simpa using ha
  have hrun : Tandem (Loaded B)
      (onStop (do begin id k args B.ground.base counted
                  run (step₁ c) B.ground.machine.frames.size rounds)
        (unwind B.ground.base B.ground.machine.frames.size B.ground.depth))
      (onStop (do begin id k' args B.ground.base counted
                  run (step₂ c') B.ground.machine.frames.size rounds)
        (unwind B.ground.base B.ground.machine.frames.size B.ground.depth))
      (fun u v s t => v = u ∧ Closed B s t) (Closed B) := by
    refine Tandem.onStop ?_
    exact ((begin_tandem hB id hk hcopies ha hcount).bind fun _ _ => run_tandem hobs hc hB rounds).imp
      (fun _ _ h => h) (fun _ _ _ _ h => h) fun s t h => ⟨h.1.unwind, h.2.unwind h.1 hB⟩
  rintro s t ⟨hs, hw⟩
  have hsize : s.machine.stack.size = B.ground.base := hs.height
  have hframes : t.machine.frames.size = B.ground.machine.frames.size := by
    rw [hw.frames', hB.size_eq]
  simp only [Act.bind_apply, Act.ask, hsize, hw.size', hs.frames, hframes, hs.depth, hw.depth]
  by_cases he : B.ground.machine.frames.size = 0
  · simp only [if_pos he, Act.bind_apply, Act.update]
    refine hrun _ _ ⟨{ hs with upon := ⟨hs.upon.stack, hs.upon.cells⟩ }, ?_⟩
    exact {
      rest := congrArg (fun u : State => { u with
        store := t.store
        machine := { t.machine with steps := 0, peak := 0 } }) hw.rest
      frames := hw.frames
      frames' := hw.frames'
      size := hw.size
      even := hw.even
      doubles := { hw.doubles with
        steps := rfl
        peak := rfl } }
  · simp only [if_neg he]
    exact hrun s t ⟨hs, hw⟩

theorem executeBy_tandem (rounds id : Nat) (args : List Value) :
    Tandem (Loaded B) (executeBy (step₁ c) rounds id args) (executeBy (step₂ c') rounds id args)
      (fun u v s t => v = u ∧ Closed B s t) (Closed B) := by
  have hknown : Tandem (Cleared B) (closureOf id) (closureOf id)
      (fun k k' s t => Copies B.world k k' ∧ Cleared B s t) (Finished B) :=
    closureOf_tandem (fun _ _ hw => hw.finished hB) id
  have hsound : Meets (Loading B.ground 0) (closureOf id) (fun k s => k.Sound ∧ Loading B.ground 0 s)
      fun _ => Typed.Ended B.ground := Typed.closureOf_meets id fun _ _ _ hs => hs.ended
  refine ((hknown.along hsound).imp (fun _ _ h => h) (fun _ _ _ _ h => h) fun s t h =>
    ⟨h.1.elim fun _ h => h, h.2⟩).bind fun k k' => ?_
  rintro s t ⟨⟨hk, hs⟩, hcopies, hw⟩
  exact start_tandem hB hobs hc rounds id hk hcopies args (show true = false → _ from nofun) s t
    ⟨hs, hw⟩

theorem executeFormBy_tandem (rounds : Nat) {p : Proto} (hp : p.Produced) (hcap : p.captures = #[])
    (htop : B.ground.machine.frames = #[]) :
    Tandem (Loaded B) (executeFormBy (step₁ c) rounds p) (executeFormBy (step₂ c') rounds p)
      (fun u v s t => v = u ∧ Closed B s t) (Closed B) := by
  have hcells : (#[] : Array Nat).size = p.captures.size := by rw [hcap]; rfl
  have hcopies : Copies B.world ⟨p, #[]⟩ ⟨p, #[]⟩ := ⟨rfl, rfl, nofun⟩
  have hnew : Paired B (Cleared B) (Act.onStore (Store.newClosure ⟨p, #[]⟩))
      (Act.onStore (Store.newClosure ⟨p, #[]⟩)) fun i i' s t => i' = i ∧ Cleared B s t :=
    newClosure_tandem hcopies
  refine Tandem.bind_same (Q := fun _ => Loaded B) ?_ fun id =>
    start_tandem hB hobs hc rounds id ⟨hp, hcells⟩ hcopies [] fun _ => htop
  rintro s t ⟨hs, hw⟩
  obtain ⟨he, hw'⟩ := hnew s t hw
  exact ⟨he, hs.ofStore rfl rfl (sound_push hs.closures hp hcells), hw'⟩

end Start

end Begin

/-! ## Parked machines -/

/-- Where runs on the parked machines begin. -/
def originOf (calls : Nat) (ρ : List Nat) (fs' : Array Activation) (s : State) : Origin :=
  ⟨groundOf calls s, fs', ρ⟩

namespace Mirrors

variable {s t s₁ t₁ : State} (h : Mirrors ρ fs' s t) (calls : Nat)

include h

theorem cleared : Cleared (originOf calls ρ fs' s)
    { s with machine := s.parked.getD .idle, parked := none }
    { t with machine := t.parked.getD .idle, parked := none } where
  rest := congrArg (fun u : State => { u with
    store := t.store
    machine := t.parked.getD .idle
    parked := none }) h.rest
  frames := rfl
  frames' := h.frames
  size := rfl
  even := fun _ hx => (Array.getElem?_eq_none (h.doubles.size.symm ▸ hx)).trans
    (Array.getElem?_eq_none hx).symm
  doubles := h.doubles

theorem parked (hc : Closed (originOf calls ρ fs' s) s₁ t₁) :
    Mirrored ρ fs' { s₁ with machine := s.machine, parked := some s₁.machine }
      { t₁ with machine := t.machine, parked := some t₁.machine } := by
  obtain ⟨he, ρ', lim, even, fs, n, hρ, hlim, hw⟩ := hc
  have hρ : ρ <+: ρ' := hρ
  have hframes : s₁.machine.frames = (s.parked.getD .idle).frames := he.restored.frames
  have hsize : s₁.machine.stack.size = (s.parked.getD .idle).stack.size := he.restored.size
  have hmachine : t.machine = s.machine := by rw [h.rest]
  refine ⟨ρ', hρ, {
    rest := ?_
    there := rfl
    frames := hw.frames'
    stacked := ?_
    doubles := ?_ }⟩
  · rw [hmachine]
    exact congrArg (fun u : State => { u with
      store := t₁.store
      machine := s.machine
      parked := some t₁.machine }) hw.rest
  · show Stacked ρ' s₁.machine.frames fs' s₁.machine.stack.size
    rw [hframes, hsize]
    exact h.stacked.mono hρ
  · show Doubles ρ' (Shown fs') s₁.machine.stack.size s₁.store t₁.store s₁.machine t₁.machine
    exact (hw.relax hlim _).doubles

end Mirrors

variable {limits : Limits} {maxDepth calls : Nat} {w : State.Core × Nat}

theorem onParked_reflects {x y : Run Value}
    (h : ∀ {s t}, (intact limits maxDepth).Holds calls w s → Mirrors ρ fs' s t →
      Tandem (Loaded (originOf calls ρ fs' s)) x y
        (fun u v s₁ t₁ => v = u ∧ Closed (originOf calls ρ fs' s) s₁ t₁)
        (Closed (originOf calls ρ fs' s))) :
    Reflects (intact limits maxDepth) calls w ρ fs' (onParked x) (onParked y) := by
  rintro s t ⟨hs, hm⟩
  have hrun := h hs hm _ _ ⟨hs.inv.1.loading hs.literate, hm.cleared calls⟩
  simp only [onParked]
  refine hrun.elim (fun u v s₁ t₁ hc => ?_) (fun e s₁ t₁ hc => ?_) fun _ _ => trivial
  · exact ⟨hc.1, hc.2.1.holds hs, hm.parked calls hc.2⟩
  · exact ⟨rfl, hc.1.holds hs, hm.parked calls hc⟩

section Parked

variable {step₁ step₂ : Caller → Nat → Run (Option Value)} (hobs : Observed step₁ step₂)
  (hc : Answers (intact limits maxDepth) calls c c')

include hobs hc

theorem call_reflects (rounds id : Nat) (args : List Value) :
    Reflects (intact limits maxDepth) calls w ρ fs' (onParked (executeBy (step₁ c) rounds id args))
      (onParked (executeBy (step₂ c') rounds id args)) := by
  refine onParked_reflects fun {s t} hs hm => ?_
  obtain ⟨rfl, rfl⟩ : s.config.limits = limits ∧ s.config.maxDepth = maxDepth := hs.inv.2
  exact executeBy_tandem (B := originOf calls ρ fs' s) hm.stacked hobs hc rounds id args

theorem form_reflects (hw : (intact limits maxDepth).Top w.1) (rounds : Nat) {p : Proto}
    (hp : p.Produced) (hcap : p.captures = #[]) :
    Reflects (intact limits maxDepth) calls w ρ fs'
      (onParked (executeFormBy (step₁ c) rounds p)) (onParked (executeFormBy (step₂ c') rounds p)) := by
  refine onParked_reflects fun {s t} hs hm => ?_
  have htop := ((intact limits maxDepth).top_mono hs.rel hw).frames
  obtain ⟨rfl, rfl⟩ : s.config.limits = limits ∧ s.config.maxDepth = maxDepth := hs.inv.2
  exact executeFormBy_tandem (B := originOf calls ρ fs' s) hm.stacked hobs hc rounds hp hcap htop

end Parked

end Machine.Ideal

end TwinLisp
