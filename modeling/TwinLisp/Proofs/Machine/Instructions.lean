import TwinLisp.Proofs.Bytecode.Prototypes
import TwinLisp.Proofs.Machine.Actions
import TwinLisp.Proofs.Machine.Survival

/-! Instructions of well-formed code. The running function stands where its outline says; each
instruction brings it to a place where that holds again, begins a function that stands at the
beginning of its code, or ends the running one, for which the one below has waited.

* `intact`: the watch, that calls leave the machine as they found it.
* `Running`: a run between two instructions.
* `exec_works`, `endFrame_works`: every instruction but the end of a function, and that one. -/

namespace TwinLisp

namespace Machine.Typed

open Act

/-! ## What is watched -/

/-- A machine on which a run has been, which has left nothing behind: only slots that have an open
cell may have got other values. -/
structure Restored (m m' : Machine) : Prop where
  frames : m'.frames = m.frames
  size : m'.stack.size = m.stack.size
  openCells : m'.openCells = m.openCells
  slots : ∀ i : Nat, m'.stack[i]? = m.stack[i]? ∨ ∃ c ∈ m.openCells, c.slot = i

theorem Restored.refl (m : Machine) : Restored m m := ⟨rfl, rfl, rfl, fun _ => .inl rfl⟩

theorem Restored.trans {l m n : Machine} (h : Restored l m) (h' : Restored m n) : Restored l n := by
  refine ⟨h'.frames.trans h.frames, h'.size.trans h.size, h'.openCells.trans h.openCells,
    fun i => ?_⟩
  rcases h'.slots i with e | ⟨c, hc, he⟩
  · rw [e]
    exact h.slots i
  · exact .inr ⟨c, h.openCells ▸ hc, he⟩

/-- The machine is out of work while nothing runs on it; on the parked one all frames wait, and they
and the calls of interpreted functions are what the depth of calls counts. -/
structure Parked (calls : Nat) (k : State.Core) (d : Nat) : Prop where
  machine : k.machine = idle
  tally : Tally calls k.maxDepth (k.parked.getD idle).frames d
  closures : ∀ (i : Nat) c, k.closures[i]? = some c → c.Sound
  linked : Linked k.cells (k.parked.getD idle).openCells
  low : ∀ c ∈ (k.parked.getD idle).openCells, c.slot < (k.parked.getD idle).stack.size
  layered : Layered (k.parked.getD idle).openCells (k.parked.getD idle).frames
    (k.parked.getD idle).stack.size

/-- A call leaves the limits and the parked machine as they are. -/
structure Returned (k l : State.Core) : Prop where
  limits : l.limits = k.limits
  maxDepth : l.maxDepth = k.maxDepth
  restored : Restored (k.parked.getD idle) (l.parked.getD idle)
  there : k.parked.isSome → l.parked.isSome

theorem sound_push {closures : Array Closure} {p : Proto}
    (h : ∀ (i : Nat) c, closures[i]? = some c → c.Sound) (hp : p.Produced)
    {cells : Array Nat} (hc : cells.size = p.captures.size) :
    ∀ (i : Nat) c, (closures.push ⟨p, cells⟩)[i]? = some c → c.Sound := by
  intro i c hi
  rw [Array.getElem?_push] at hi
  split at hi
  · cases hi
    exact ⟨hp, hc⟩
  · exact h i c hi

/-- The watch for programs from the compiler, under certain limits. -/
def intact (limits : Limits) (maxDepth : Nat) : Watch where
  Inv n k d := Parked n k d ∧ k.limits = limits ∧ k.maxDepth = maxDepth
  enter h hd := ⟨{ h.1 with tally := h.1.tally.enter hd }, h.2⟩
  leave h := ⟨{ h.1 with tally := h.1.tally.leave }, h.2⟩
  Rel := Returned
  refl _ := ⟨rfl, rfl, .refl _, fun h => h⟩
  trans h h' := ⟨h'.limits.trans h.limits, h'.maxDepth.trans h.maxDepth,
    h.restored.trans h'.restored, fun hs => h'.there (h.there hs)⟩
  good := Compiled
  stored _ _ _ hf _ hp := ⟨.literal hf hp, (Proto.wellFormed_of_ofFn hf hp).2⟩
  make h hp := ⟨⟨{ h.1 with closures := sound_push h.1.closures hp.1 (by rw [hp.2]; rfl) }, h.2⟩,
    rfl, rfl, .refl _, fun hs => hs⟩
  allowed := Sane limits maxDepth
  allowed_of_plain := sane_of_plain
  allowed_thrown _ _ := ⟨nofun, fun _ => nofun⟩
  Top k := Restored idle (k.parked.getD idle)
  top_mono h ht := ht.trans h.restored

theorem exact_intact (limits : Limits) (maxDepth : Nat) : (intact limits maxDepth).Exact :=
  ⟨fun _ _ => rfl, fun _ _ h => h⟩

/-- The watch for a run. -/
abbrev Ground.watch (G : Ground) : Watch := intact G.limits G.maxDepth

variable {G : Ground} {fs waiting : Array Activation} {base d : Nat} {o : Outline}

/-! ## Leaving the machine -/

namespace Stands

variable {s : State}

/-- The machine is parked while its frames wait for the value of a call. -/
theorem park (h : Stands G fs waiting base d o s) (hw : Layered s.machine.openCells fs (base + o.height)) :
    G.watch.Holds G.calls (({ s with machine := .idle, parked := some s.machine } : State).core, d)
      { s with machine := .idle, parked := some s.machine } where
  inv := ⟨{
    machine := rfl
    tally := by
      show Tally G.calls s.config.maxDepth s.machine.frames s.depth
      rw [h.maxDepth, h.frames, h.depth]
      exact h.tally
    closures := h.closures
    linked := h.linked
    low := h.low
    layered := by
      show Layered s.machine.openCells s.machine.frames s.machine.stack.size
      rw [h.frames, h.height]
      exact hw }, h.limits, h.maxDepth⟩
  literate := h.literate
  rel := G.watch.refl _
  depth := h.depth

theorem back (h : Stands G fs waiting base d o s) {t : State}
    (ht : G.watch.Holds G.calls
      (({ s with machine := .idle, parked := some s.machine } : State).core, d) t) :
    t.parked.isSome ∧ Stands G fs waiting base d o (back s t) := by
  have hp : t.parked.isSome := ht.rel.there rfl
  obtain ⟨m, hm⟩ := Option.isSome_iff_exists.mp hp
  have hr : Restored s.machine m := by
    have := ht.rel.restored
    rwa [show t.core.parked = some m from hm] at this
  have hinv := ht.inv.1
  have hm' : (Machine.back s t).machine = m := by rw [Machine.back, hm, Option.getD_some]
  have hopen : (Machine.back s t).machine.openCells = s.machine.openCells := by
    rw [hm']
    exact hr.openCells
  refine ⟨hp, { h with
    limits := ht.rel.limits.trans h.limits
    maxDepth := ht.rel.maxDepth.trans h.maxDepth
    parked := h.parked
    literate := ht.literate
    closures := hinv.closures
    depth := ht.depth
    frames := by rw [hm', hr.frames, h.frames]
    linked := ?_
    upon := ⟨fun i hi => ?_, by rw [hopen, h.upon.cells]⟩
    height := by rw [hm', hr.size, h.height]
    held := hopen ▸ h.held
    low := fun c hc => by
      rw [hm', hr.size]
      exact h.low c (hopen ▸ hc)
    layered := hopen ▸ h.layered }⟩
  · have := hinv.linked
    rwa [show t.core.parked = some m from hm, Option.getD_some, ← hm'] at this
  · rw [hm']
    rcases hr.slots i with e | ⟨c, hc, rfl⟩
    · rw [e]
      exact h.upon.stack i hi
    · refine .inr ⟨c, ?_, rfl⟩
      rw [← h.upon.cells]
      exact (h.linked.sound.mem_dropWhile _).mpr ⟨hc, hi⟩

theorem ascend (h : Stands G fs waiting base d o s) {n : Nat} (hn : n ≤ o.height)
    (hk : ∀ i ∈ o.held, i < o.height - n)
    (hw : Layered s.machine.openCells fs (base + (o.height - n))) :
    Stands G fs fs (base + (o.height - n)) d ⟨n, []⟩ s :=
  { h with
    above := Nat.le_add_right_of_le h.above
    height := by
      have := h.height
      dsimp only
      omega
    held := fun c hc hle => by
      have := h.slot_lt hk c hc
      omega
    layered := hw }

theorem as (h : Stands G fs waiting base d o s) {o' : Outline} (hh : o'.height = o.height)
    (hk : o'.held = o.held) : Stands G fs waiting base d o' s :=
  h.into ⟨hh, fun _ hs => hk ▸ hs⟩

end Stands

/-- A call that leaves the machine comes back to the frames that wait for its value. -/
theorem callOut_works {c c' : Caller} (hc : G.watch.Callers G.calls c c') (f : Value) (args : List Value)
    (hr : Rests G fs)
    (hw : ∀ s, Stands G fs waiting base d o s → Layered s.machine.openCells fs (base + o.height)) :
    Alike (Stands G fs waiting base d o) (callOut c f args) (callOut c' f args)
      (fun _ => Stands G fs waiting base d o) (Fails G) :=
  (Watch.callOut_alike hc f args fun s hs =>
    ⟨_, hs.park (hw s hs), fun _ ht => hs.back ht⟩).imp (fun _ h => h) (fun _ _ h => h)
      fun _ _ h => ⟨h.1, h.2.broken hr⟩

/-! ## Functions -/

/-- The frame of a function that begins. There is room for it if there is room for all nested calls
and a whole form. -/
theorem pushFrame_works (c : Closure) {counted : Bool} (hcount : counted = false → fs = #[])
    (hr : Rests G fs) :
    Works G (Stands G fs waiting base d o) (pushFrame c base counted) fun _ =>
      Stands G (fs.push ⟨c, 0, base, counted⟩) waiting base (d + counted.toNat) o := by
  intro s h
  refine ⟨rfl, ?_⟩
  -- the frame is pushed at a depth that counts it already
  have hpush : d + counted.toNat ≤ G.maxDepth →
      Stands G (fs.push ⟨c, 0, base, counted⟩) waiting base (d + counted.toNat) o { s with
        machine := { s.machine with
          frames := s.machine.frames.push ⟨c, 0, base, counted⟩
          peak := max s.machine.peak (s.machine.frames.size + 1) }
        depth := d + counted.toNat } := fun hd =>
    { h with
      depth := rfl
      tally := @Tally.push _ _ _ _ ⟨c, 0, base, counted⟩ h.tally hd hcount
      frames := by
        show s.machine.frames.push _ = _
        rw [h.frames]
      upon := ⟨h.upon.stack, h.upon.cells⟩ }
  have hdepth := h.tally.depth
  have hbound := h.tally.bound
  have hframes := h.tally.frames
  have hover : (counted = true → d < G.maxDepth) →
      s.machine.frames.size ≥ s.config.limits.framesMax →
      Sane G.limits G.maxDepth (.frameOverflow s.config.limits.framesMax) := by
    intro hd hf
    refine ⟨fun hc => (by cases hc), fun hroom => ?_⟩
    rw [h.frames, h.limits] at hf
    cases counted with
    | true =>
      have := hd rfl
      omega
    | false =>
      rw [hcount rfl] at hf
      simp at hf
      omega
  unfold pushFrame
  cases counted with
  | true =>
    by_cases hd : s.depth ≥ s.config.maxDepth
    · simp only [if_true, Act.bind_apply, Run.enter, if_pos hd]
      exact ⟨⟨fun hc => (by cases hc), fun _ _ hc => (by cases hc)⟩, h.broken hr⟩
    · have hlt : d < G.maxDepth := by
        rw [h.depth, h.maxDepth] at hd
        omega
      by_cases hf : s.machine.frames.size ≥ s.config.limits.framesMax
      · simp only [if_true, Act.bind_apply, Run.enter, if_neg hd, Act.ask, if_pos hf, Run.leave,
          Act.update, Run.fail, Act.raise]
        exact ⟨hover (fun _ => hlt) hf, h.broken hr⟩
      · simp only [if_true, Act.bind_apply, Run.enter, if_neg hd, Act.ask, if_neg hf, Act.update]
        rw [h.depth]
        exact hpush hlt
  | false =>
    by_cases hf : s.machine.frames.size ≥ s.config.limits.framesMax
    · simp only [Bool.false_eq_true, if_false, Act.bind_apply, Act.ask, if_pos hf, Run.fail,
        Act.raise]
      exact ⟨hover (fun h => absurd h Bool.false_ne_true) hf, h.broken hr⟩
    · simp only [Bool.false_eq_true, if_false, Act.bind_apply, Act.ask, if_neg hf, Act.update]
      have hp := hpush (Nat.le_trans (Nat.le_of_eq (Nat.add_zero d)) hbound)
      rw [← h.depth] at hp ⊢
      exact hp

/-- A run between two instructions: the running function stands as its outline says, all others wait
for values. -/
def Running (G : Ground) (s : State) : Prop :=
  ∃ fs a d, Site G.machine.frames G.base G.depth (fs.push a) d ∧ Between a ∧
    Stands G (fs.push a) fs a.base d a.outline s

theorem Between.wellFormed {a : Activation} (h : Between a) :
    a.closure.proto.Outlined a.closure.proto.outline := h.sound.code.wellFormed.outlined

theorem between_start {c : Closure} (h : c.Sound) (base : Nat) (counted : Bool) :
    Between ⟨c, 0, base, counted⟩ := by
  obtain ⟨k, _, hk, _⟩ := h.code.wellFormed.outlined.last
  have hpos : 0 < c.proto.chunk.size := by omega
  exact ⟨h, .refl, hpos⟩

theorem Running.start {s : State} {c : Closure} {counted : Bool} (hc : c.Sound)
    (hsite : Site G.machine.frames G.base G.depth (fs.push ⟨c, 0, base, counted⟩) d)
    (h : Stands G (fs.push ⟨c, 0, base, counted⟩) fs base d ⟨c.proto.arity + 1, []⟩ s) :
    Running G s :=
  ⟨fs, _, d, hsite, between_start hc base counted,
    h.into ⟨hc.code.wellFormed.outlined.start, nofun⟩⟩

/-! ## Moving on -/

theorem goTo_works {a : Activation} (ip : Nat) :
    Works G (Stands G (fs.push a) waiting base d o) (goTo ip) fun _ =>
      Stands G (fs.push { a with ip := ip }) waiting base d o := by
  refine .update fun s h =>
    { h with tally := h.tally.move ip, frames := ?_, upon := ⟨h.upon.stack, h.upon.cells⟩ }
  change s.machine.frames.modify (s.machine.frames.size - 1) (fun a => { a with ip := ip }) = _
  rw [h.frames, modify_push]

variable {a : Activation} {i : Instruction}

/-- An instruction at the place of the running function, which has been moved to the next one. -/
structure Due (G : Ground) (fs : Array Activation) (a : Activation) (d : Nat) (i : Instruction) :
    Prop where
  site : Site G.machine.frames G.base G.depth (fs.push a) d
  between : Between a
  admits : a.closure.proto.Admits a.closure.proto.outline a.ip i

namespace Due

variable (h : Due G fs a d i)

include h

theorem rests (ip : Nat) : Rests G (fs.push { a with ip := ip }) := by
  have := h.site.moved (.goTo ip)
  rw [modify_push] at this
  exact this.above

theorem between_of_mem {t : Nat} (ht : t ∈ a.closure.proto.targets i) :
    Between { a with ip := t } :=
  ⟨h.between.sound, (h.admits.leads t ht).1, (h.admits.leads t ht).2.1⟩

theorem arrive {t : Nat} (ht : t ∈ a.closure.proto.targets i) {s : State}
    (hs : Stands G (fs.push { a with ip := t }) fs a.base d (i.after a.outline) s) :
    Running G s := by
  have hsite := h.site.moved (.goTo t)
  rw [modify_push] at hsite
  exact ⟨fs, _, d, hsite, h.between_of_mem ht, hs.into (h.admits.leads t ht).2.2⟩

end Due

/-- The frame of the running function. -/
abbrev Inside (G : Ground) (fs : Array Activation) (a : Activation) (d ip : Nat) (o : Outline) :
    State → Prop := Stands G (fs.push { a with ip := ip }) fs a.base d o

/-- An instruction after which the run goes on. -/
abbrev Goes (G : Ground) (P : State → Prop) (a b : Run (Option Value)) : Prop :=
  Alike P a b (fun o s => o = none ∧ Running G s) (Fails G)

theorem Works.goes {P Q : State → Prop} {b : Run Unit} (h : Works G P b fun _ => Q)
    (hQ : ∀ s, Q s → Running G s) : Goes G P (do b; return none) (do b; return none) :=
  Alike.bind h fun _ => .pure fun s hs => ⟨rfl, hQ s hs⟩

/-! ## Instructions -/

section Exec

variable {P : State → Prop} {α : Type}

theorem ofFault_works {r : Except RuntimeFault α} (hr : ∀ f, r = .error f → f.Plain)
    (hP : ∀ s, P s → Broken G s) : Works G P (Run.ofFault r) fun _ => P :=
  Run.ofFault_meets (fun _ _ h _ => h) fun s _ hs e => ⟨sane_of_plain (hr _ e), hP s hs⟩

theorem deref_works (v : Var) (span : Span) (hP : ∀ s, P s → Broken G s) :
    Works G P (Run.deref v span) fun _ => P := by
  refine Alike.bind (Q := fun _ => P) (.askStore fun _ h => h) fun o => ?_
  cases o with
  | none => exact .raise fun s h => ⟨⟨nofun, fun _ => nofun⟩, hP s h⟩
  | some x => exact .pure fun _ h => h

theorem assign_works (v : Var) (x : Value) :
    Rest G fs waiting base d o (Run.assign v x) :=
  .updateStore fun _ h => h.ofStore rfl rfl h.closures

theorem binary_works {op : Value → Value → Except RuntimeFault Value}
    (hop : ∀ x y f, op x y = .error f → f.Plain) (hr : Rests G fs) (hn : 2 ≤ o.height)
    (hk : ∀ i ∈ o.held, i < o.height - 2) :
    Works G (Stands G fs waiting base d o) (binary op) fun _ =>
      Stands G fs waiting base d ⟨o.height - 2 + 1, o.held⟩ := by
  have hk' : ∀ i ∈ o.held, i < o.height - 1 := fun i hi => by
    have := hk i hi
    omega
  refine Alike.bind (pop_works (by omega) hk') fun y => ?_
  refine Alike.bind (pop_works (by dsimp only; omega) hk) fun x => ?_
  refine Alike.bind (ofFault_works (hop x y) fun s h => h.broken hr) fun v =>
    (push_works hr v).post fun _ s h => h.as ?_ rfl
  dsimp only
  omega

theorem plain_of_agree {β γ : Type} {V : β → γ → Prop} {r : Answer β} {q : Answer γ}
    (h : Answer.Agree V r q) {f : RuntimeFault} (hf : r = .error f) : f.Plain := by
  cases h with
  | ok _ => cases hf
  | error h => cases hf; exact h

theorem mapOf_works (items : List Value) (hP : ∀ s, P s → Broken G s) :
    Works G P (mapOf items) fun _ => P := by
  unfold mapOf
  dsimp only
  split
  · exact fail_works (sane_of_plain (RuntimeFault.plain_general_append _ (by decide) (by decide))) hP
  · exact .pure fun _ h => h

theorem setOf_works (items : List Value) (hP : ∀ s, P s → Broken G s) :
    Works G P (Machine.setOf items) fun _ => P := by
  unfold Machine.setOf
  split
  · exact fail_works (sane_of_plain (RuntimeFault.plain_general_append _ (by decide) (by decide))) hP
  · exact .pure fun _ h => h

theorem closureOf_meets (id : Nat) {R : RuntimeError → State → Prop}
    (hR : ∀ (f : RuntimeFault) s, f.Plain → Stands G fs waiting base d o s → R f.bare s) :
    Meets (Stands G fs waiting base d o) (closureOf id)
      (fun c s => c.Sound ∧ Stands G fs waiting base d o s) R := by
  have hask : Meets (Stands G fs waiting base d o)
      (Act.askStore fun s => s.closures[id]? : Run (Option Closure))
      (fun c s => c = s.store.closures[id]? ∧ Stands G fs waiting base d o s) R :=
    .askStore fun s h => ⟨rfl, h⟩
  refine hask.bind fun c => ?_
  cases c with
  | none =>
    exact Run.fail_meets fun s h =>
      hR _ s (RuntimeFault.plain_general_append _ (by decide) (by decide)) h.2
  | some c => exact .pure fun s h => ⟨h.2.closures id c h.1.symm, h.2⟩

end Exec

theorem jump_works {ip t : Nat} {distance : Int} (ht : (ip : Int) + distance = t) :
    Works G (Stands G (fs.push a) waiting base d o) (jump ip distance) fun _ =>
      Stands G (fs.push { a with ip := t }) waiting base d o := by
  have hlt : ¬ (ip : Int) + distance < 0 := by omega
  have hto : ((ip : Int) + distance).toNat = t := by omega
  unfold jump
  rw [if_neg hlt, hto]
  exact goTo_works t

namespace Due

variable {P : State → Prop} {op : Opcode} {operand next : Nat}

/-- The frames below the running function, and the running function, wait for the value of a call. -/
theorem layered {i : Instruction} (h : Due G fs a d i)
    (ht : i.next ∈ a.closure.proto.targets i) {n : Nat}
    (hafter : i.after a.outline = ⟨n + 1, a.outline.held⟩) {s : State} {k : Nat} {ip : Nat}
    (hs : Inside G fs a d ip ⟨k, a.outline.held⟩ s) :
    Layered s.machine.openCells (fs.push { a with ip := i.next }) (a.base + n) := by
  have hinto := (h.admits.leads _ ht).2.2
  change (i.after a.outline).Into _ at hinto
  rw [hafter] at hinto
  refine .push hs.layered ⟨h.between_of_mem ht, ?_, Nat.le_add_right _ _, fun c hc hle _ => ?_⟩
  · have := hinto.height
    dsimp only at this
    show a.base + n + 1 = a.base + (a.closure.proto.outline i.next).height
    omega
  · exact hinto.held _ (hs.held c hc hle)

end Due

theorem callValue_works {c c' : Caller} (hc : G.watch.Callers G.calls c c') {count next : Nat}
    (h : Due G fs a d ⟨.call, count, next⟩) :
    Alike (Inside G fs a d next a.outline) (callValue c count) (callValue c' count)
      (fun _ => Running G) (Fails G) := by
  have hr := h.rests next
  have hn : count + 1 ≤ a.outline.height := h.admits.fits.takes
  have hk : ∀ s ∈ a.outline.held, s < a.outline.height - (count + 1) := h.admits.fits.kept
  have hnext : next ∈ a.closure.proto.targets ⟨.call, count, next⟩ := List.mem_singleton.mpr rfl
  have hwait : ∀ {s : State} {k : Nat}, Inside G fs a d next ⟨k, a.outline.held⟩ s →
      Layered s.machine.openCells (fs.push { a with ip := next })
        (a.base + (a.outline.height - (count + 1))) := fun hs => h.layered hnext rfl hs
  refine Alike.bind (Q := fun size s => size = a.base + a.outline.height ∧
    Inside G fs a d next a.outline s) (.ask fun s hs => ⟨hs.height, hs⟩) fun size => ?_
  refine Alike.given fun hsize => ?_
  have hbelow : size - (count + 1) = a.base + (a.outline.height - (count + 1)) := by omega
  refine Run.guard_alike (fun hlt => by omega) fun _ => ?_
  rw [hbelow]
  refine Alike.bind (slot_works (by omega)) fun f => ?_
  have hout : Alike (Inside G fs a d next a.outline)
      (do let args ← popMany count; let callee ← pop; push (← callOut c callee args))
      (do let args ← popMany count; let callee ← pop; push (← callOut c' callee args))
      (fun _ => Running G) (Fails G) := by
    have hpop : a.outline.height - count - 1 = a.outline.height - (count + 1) := by omega
    refine Alike.bind ((popMany_works (by omega) fun s hs => ?_).post fun _ _ hs => hs.2)
      fun args => ?_
    · have := hk s hs
      omega
    refine Alike.bind (pop_works (by dsimp only; omega) fun s hs => hpop ▸ hk s hs)
      fun callee => ?_
    refine Alike.bind (callOut_works hc callee args hr fun s hs => hpop ▸ hwait hs) fun v => ?_
    exact (push_works hr v).post fun _ s hs => h.arrive hnext (hs.as (congrArg (· + 1) hpop.symm) rfl)
  cases f with
  | closure id name =>
    refine Alike.bind (closureOf_meets id fun f s hf hs => ⟨sane_of_plain hf, hs.broken hr⟩) fun k => ?_
    refine Alike.given fun hsound => ?_
    refine Run.guard_alike (fun _ s hs => ⟨⟨nofun, fun _ => nofun⟩, hs.broken hr⟩) fun harity => ?_
    have harity : count = k.proto.arity := by simpa using harity
    refine ((pushFrame_works k (show true = false → _ from nofun) hr).pre fun s hs => hs.ascend hn hk (hwait hs)).post
      fun _ s hs => ?_
    have hsite := h.site.moved (.goTo next)
    rw [modify_push] at hsite
    exact Running.start hsound (.next _ hsite) (harity ▸ hs)
  | _ => exact hout

theorem makeClosure_works {operand next : Nat} (h : Due G fs a d ⟨.closure, operand, next⟩) :
    Works G (Inside G fs a d next a.outline) (makeClosure a ⟨.closure, operand, next⟩)
      fun _ => Running G := by
  obtain ⟨q, hq, hpairs, hreach⟩ := h.admits.fits.means
  have hnext : next + 2 * q.captures.size ∈ a.closure.proto.targets ⟨.closure, operand, next⟩ := by
    rw [Proto.targets, Proto.next]
    simp only [hq, List.mem_singleton]
  unfold makeClosure
  simp only [hq]
  refine Alike.bind (captures_works (a := a) (o := a.outline) h.between.sound rfl fun j hj => ?_)
    fun r => ?_
  · have hc := Array.getElem?_eq_getElem hj
    exact ⟨_, (hpairs j _ hc).1, (hpairs j _ hc).2, hreach _ (Array.getElem_mem hj)⟩
  refine Alike.given fun hsize => Alike.given fun hto => ?_
  rw [hto]
  refine Alike.bind (goTo_works _) fun _ => ?_
  have hcells : r.1.size = q.captures.size := by
    rw [hsize]
    exact Nat.zero_add _
  refine Alike.bind (Q := fun _ => Stands G (fs.push { a with ip := next + 2 * q.captures.size }) fs
    a.base d a.outline) (.onStore fun s hs => ?_) fun id => ?_
  · exact hs.ofStore rfl rfl (sound_push hs.closures (.inner h.between.sound.code (Array.mem_of_getElem? hq)) hcells)
  · exact (push_works (h.rests _) _).post fun _ s hs => h.arrive hnext hs

theorem rebind_works {n count : Nat} (hm : n + count ≤ o.height) (hn : count ≤ o.height)
    (hk : ∀ i ∈ o.held, i < o.height - count) :
    Works G (Stands G fs waiting base d o)
      (do
        closeSlots (base + n)
        let args ← popMany count
        truncate (base + n)
        append args
        return none : Run (Option Value)) fun r s =>
      r = none ∧ Stands G fs waiting base d ⟨n + count, (o.closedFrom n).held⟩ s := by
  have hk' : ∀ i ∈ (o.closedFrom n).held, i < o.height - count := fun i hi =>
    hk i (List.mem_filter.mp hi).1
  refine Alike.bind (closeSlots_works n) fun _ => ?_
  refine Alike.bind (popMany_works (o := o.closedFrom n) hn hk') fun args => ?_
  refine Alike.given fun hlen => ?_
  refine Alike.bind (truncate_works (n := n) (by dsimp only [Outline.closedFrom]; omega)
    fun i hi => ?_) fun _ => ?_
  · simpa using (List.mem_filter.mp hi).2
  · refine Alike.bind (append_works args) fun _ => .pure fun s hs => ⟨rfl, ?_⟩
    rw [hlen] at hs
    exact hs

theorem exec_works {c c' : Caller} (hc : G.watch.Callers G.calls c c') (entry : Nat) (h : Due G fs a d i)
    (hi : i.op ≠ .ret) :
    Goes G (Inside G fs a d i.next a.outline) (exec c entry a i) (exec c' entry a i) := by
  obtain ⟨op, operand, next⟩ := i
  have hr := h.rests next
  have hbroken : ∀ {o : Outline} (s : State), Inside G fs a d next o s → Broken G s :=
    fun s hs => hs.broken hr
  have hn := h.admits.fits.takes
  have hk := h.admits.fits.kept
  have hm := h.admits.fits.means
  -- where most instructions lead
  have stay : ∀ {n : Nat}, next ∈ a.closure.proto.targets ⟨op, operand, next⟩ →
      Instruction.after ⟨op, operand, next⟩ a.outline = ⟨n, a.outline.held⟩ →
      ∀ s, Inside G fs a d next ⟨n, a.outline.held⟩ s → Running G s :=
    fun ht e s hs => h.arrive ht (e ▸ hs)
  cases op with
  | const =>
    exact Alike.bind (constant_works hm) fun v => (push_works hr v).goes
      (stay (List.mem_singleton.mpr rfl) rfl)
  | nil | true | false => exact (push_works hr _).goes (stay (List.mem_singleton.mpr rfl) rfl)
  | pop =>
    exact Works.goes (Alike.bind (pop_works hn hk) fun _ => .pure fun _ hs => hs)
      (stay (List.mem_singleton.mpr rfl) rfl)
  | popN =>
    have hn : operand + 1 ≤ a.outline.height := hn
    have hk : ∀ s ∈ a.outline.held, s < a.outline.height - (operand + 1) := hk
    have hsub : a.outline.height - 1 - operand = a.outline.height - (operand + 1) := by omega
    refine Alike.bind (pop_works (by omega) fun s hs => ?_) fun v => ?_
    · have := hk s hs
      omega
    refine Alike.bind (drop_works (by dsimp only; omega) fun s hs => ?_) fun _ => ?_
    · dsimp only
      rw [hsub]
      exact hk s hs
    refine (push_works hr v).goes (stay (List.mem_singleton.mpr rfl) ?_)
    dsimp only
    rw [hsub]
    rfl
  | getLocal =>
    exact Alike.bind (slot_works hm) fun v => (push_works hr v).goes
      (stay (List.mem_singleton.mpr rfl) rfl)
  | setLocal =>
    have hn : 1 ≤ a.outline.height := hn
    refine Alike.bind (top_works hn) fun v => (setSlot_works hm v).goes
      (stay (List.mem_singleton.mpr rfl) ?_)
    exact congrArg (Outline.mk · a.outline.held) (Nat.sub_add_cancel hn)
  | getUpvalue =>
    refine Alike.bind (cellOf_works (h.between.sound.cells ▸ hm)) fun id => ?_
    exact Alike.bind (readCell_works id) fun v => (push_works hr v).goes
      (stay (List.mem_singleton.mpr rfl) rfl)
  | setUpvalue =>
    have hn : 1 ≤ a.outline.height := hn
    refine Alike.bind (cellOf_works (h.between.sound.cells ▸ hm)) fun id => ?_
    refine Alike.bind (top_works hn) fun v => (writeCell_works id v).goes
      (stay (List.mem_singleton.mpr rfl) ?_)
    exact congrArg (Outline.mk · a.outline.held) (Nat.sub_add_cancel hn)
  | closeUpvalue =>
    exact (closeSlots_works operand).goes fun s hs => h.arrive (List.mem_singleton.mpr rfl) hs
  | getVar =>
    obtain ⟨v, hv⟩ := hm
    refine Alike.bind (varConstant_works hv) fun v => ?_
    exact Alike.bind (deref_works v _ hbroken) fun x => (push_works hr x).goes
      (stay (List.mem_singleton.mpr rfl) rfl)
  | setVar =>
    obtain ⟨v, hv⟩ := hm
    have hn : 1 ≤ a.outline.height := hn
    refine Alike.bind (top_works hn) fun x => ?_
    refine Alike.bind (varConstant_works hv) fun v => (assign_works v x).goes
      (stay (List.mem_singleton.mpr rfl) ?_)
    exact congrArg (Outline.mk · a.outline.held) (Nat.sub_add_cancel hn)
  | add =>
    exact (binary_works (fun x y _ => plain_of_agree (Number.add_agree .id x y)) hr hn hk).goes
      (stay (List.mem_singleton.mpr rfl) rfl)
  | subtract =>
    exact (binary_works (fun x y _ => plain_of_agree (Number.sub_agree .id x y)) hr hn hk).goes
      (stay (List.mem_singleton.mpr rfl) rfl)
  | multiply =>
    exact (binary_works (fun x y _ => plain_of_agree (Number.mul_agree .id x y)) hr hn hk).goes
      (stay (List.mem_singleton.mpr rfl) rfl)
  | divide =>
    exact (binary_works (fun x y _ => plain_of_agree (Number.div_agree .id x y)) hr hn hk).goes
      (stay (List.mem_singleton.mpr rfl) rfl)
  | less | greater =>
    exact (binary_works (fun x y _ => plain_of_agree (Number.ordered_agree .id _ x y)) hr hn hk).goes
      (stay (List.mem_singleton.mpr rfl) rfl)
  | equal =>
    have hsame : ∀ x y (f : RuntimeFault),
        (.ok (.bool (Value.same x y)) : Except RuntimeFault Value) = .error f → f.Plain :=
      fun _ _ _ e => nomatch e
    exact (binary_works hsame hr hn hk).goes (stay (List.mem_singleton.mpr rfl) rfl)
  | negate =>
    refine Alike.bind (pop_works hn hk) fun x => ?_
    refine Alike.bind (ofFault_works (fun f e => plain_of_agree (Number.negate_agree .id x) e)
      hbroken) fun v => ?_
    exact (push_works hr v).goes (stay (List.mem_singleton.mpr rfl) rfl)
  | not =>
    exact Alike.bind (pop_works hn hk) fun x => (push_works hr _).goes
      (stay (List.mem_singleton.mpr rfl) rfl)
  | jump =>
    have hm : operand < 32768 := hm
    refine (jump_works (t := next + operand) ?_).goes fun s hs =>
      h.arrive (List.mem_singleton.mpr rfl) hs
    rw [Chunk.signedWord, if_pos hm]
    rfl
  | jumpIfFalse =>
    have hm : operand < 32768 := hm
    refine Alike.bind (pop_works hn hk) fun x => ?_
    split
    · exact .pure fun s hs => ⟨rfl, h.arrive List.mem_cons_self hs⟩
    · refine (jump_works (t := next + operand) ?_).goes fun s hs =>
        h.arrive (List.mem_cons_of_mem _ List.mem_cons_self) hs
      rw [Chunk.signedWord, if_pos hm]
      rfl
  | loop =>
    have hm : operand ≤ next := hm
    refine (jump_works (t := next - operand) ?_).goes fun s hs =>
      h.arrive (List.mem_singleton.mpr rfl) hs
    dsimp only
    omega
  | call => exact Alike.bind (callValue_works hc h) fun _ => .pure fun s hs => ⟨rfl, hs⟩
  | closure => exact (makeClosure_works h).goes fun _ hs => hs
  | recur =>
    exact (rebind_works hm hn hk).post fun _ s hs =>
      ⟨hs.1, h.arrive (List.mem_singleton.mpr rfl) hs.2⟩
  | ret => exact absurd rfl hi
  | vector =>
    refine Alike.bind ((popMany_works hn hk).post fun _ _ hs => hs.2) fun vs => ?_
    exact (push_works hr _).goes (stay (List.mem_singleton.mpr rfl) rfl)
  | map =>
    refine Alike.bind ((popMany_works hn hk).post fun _ _ hs => hs.2) fun vs => ?_
    refine Alike.bind (mapOf_works vs hbroken) fun v => ?_
    exact (push_works hr v).goes (stay (List.mem_singleton.mpr rfl) rfl)
  | set =>
    refine Alike.bind ((popMany_works hn hk).post fun _ _ hs => hs.2) fun vs => ?_
    refine Alike.bind (setOf_works vs hbroken) fun v => ?_
    exact (push_works hr v).goes (stay (List.mem_singleton.mpr rfl) rfl)

end Machine.Typed

end TwinLisp
