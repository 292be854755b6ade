import TwinLisp.Proofs.Machine.Coherent

/-! Code from the compiler never goes wrong. The height of the stack above a frame depends on the
place in the code only, no instruction finds anything missing, and however often a loop or a function
goes round, it does so in one frame.

* `stays_of_round`: going round does not touch the frames but for the place of the running function.
* `Right`: what has to be true of an instruction that is about to be executed.
* `compiled_never_goes_wrong`: all instructions are right. -/

namespace TwinLisp

/-- The height of the stack above the base of a function at a place in its code. -/
noncomputable def Proto.height (p : Proto) (ip : Nat) : Nat := (p.outline ip).height

namespace Machine.Typed

open Act

variable {n : Nat} {s : State} {c : Caller} {entry : Nat} {fs : Array Activation} {a : Activation}

/-! ## Going round -/

/-- The running function stands on certain frames. -/
def Atop (fs : Array Activation) (a : Activation) (s : State) : Prop := s.machine.frames = fs.push a

/-- An action that leaves the frames as they are. -/
abbrev Leaves {α : Type} (fs : Array Activation) (a : Activation) (b : Run α) : Prop :=
  Meets (Atop fs a) b (fun _ => Atop fs a) fun _ _ => True

theorem update_leaves {f : State → State} (hf : ∀ s, (f s).machine.frames = s.machine.frames) :
    Leaves fs a (Act.update f) := .update fun s h => (hf s).trans h

theorem goTo_atop (ip : Nat) :
    Meets (Atop fs a) (goTo ip) (fun _ => Atop fs { a with ip := ip }) fun _ _ => True :=
  .update fun s h => by
    change s.machine.frames.modify (s.machine.frames.size - 1) (fun a => { a with ip := ip }) = _
    rw [show s.machine.frames = fs.push a from h, modify_push]

theorem tick_leaves : Leaves fs a tick := by
  refine Alike.bind (update_leaves fun _ => by rfl) fun _ => ?_
  refine Alike.bind (Q := fun _ => Atop fs a) (.ask fun _ h => h) fun b => ?_
  cases b with
  | none => exact .pure fun _ h => h
  | some budget =>
    refine Alike.bind (Q := fun _ => Atop fs a) (.ask fun _ h => h) fun n => ?_
    split
    · exact Run.fail_meets fun _ _ => trivial
    · exact .pure fun _ h => h

theorem popMany_leaves (count : Nat) : Leaves fs a (popMany count) := by
  refine Alike.bind (Q := fun _ => Atop fs a) (.ask fun _ h => h) fun size => ?_
  refine Run.guard_alike (fun _ _ _ => trivial) fun _ => ?_
  refine Alike.bind (Q := fun _ => Atop fs a) (.ask fun _ h => h) fun vs => ?_
  exact Alike.bind (update_leaves fun _ => by rfl) fun _ => .pure fun _ h => h

/-- Loops and functions go round in the frame they are in. -/
theorem exec_leaves {i : Instruction} (hi : i.op = .loop ∨ i.op = .recur) (b : Activation) :
    Meets (Atop fs a) (exec c entry b i) (fun r s => r = none ∧ ∃ ip, Atop fs { a with ip := ip } s)
      fun _ _ => True := by
  obtain ⟨op, operand, next⟩ := i
  rcases hi with rfl | rfl
  · refine Alike.bind (Q := fun _ s => ∃ ip, Atop fs { a with ip := ip } s) ?_ fun _ =>
      .pure fun _ h => ⟨rfl, h⟩
    dsimp only
    unfold jump
    split
    · exact Run.fail_meets fun _ _ => trivial
    · exact (goTo_atop _).post fun _ _ h => ⟨_, h⟩
  · refine Alike.bind (update_leaves fun _ => by rfl) fun _ => ?_
    refine Alike.bind (popMany_leaves _) fun args => ?_
    refine Alike.bind (update_leaves fun _ => by rfl) fun _ => ?_
    refine Alike.bind (update_leaves fun _ => by rfl) fun _ => ?_
    exact .pure fun _ h => ⟨rfl, a.ip, h⟩

theorem stays_of_round {i : Instruction} (hs : Atop fs a s)
    (hi : a.closure.proto.chunk.fetch a.ip = .ok i) (hr : i.op = .loop ∨ i.op = .recur) :
    Post (fun r t => r = none ∧ ∃ ip, Atop fs { a with ip := ip } t) (fun _ _ => True)
      (step c entry s) := by
  have hrunning : Meets (Atop fs a) running (fun x s => x = a ∧ Atop fs a s)
      (fun _ _ => True : RuntimeError → State → Prop) := by
    refine Alike.bind (Q := fun b s => b = some a ∧ Atop fs a s)
      (.ask fun s h => ⟨by rw [show s.machine.frames = _ from h, Array.back?_push], h⟩) fun b => ?_
    cases b with
    | none => exact Run.fail_meets fun _ _ => trivial
    | some x => exact .pure fun s h => ⟨Option.some.inj h.1, h.2⟩
  have hbody : Meets (Atop fs a) (do
      tick
      let i ← Run.ofFault (a.closure.proto.chunk.fetch a.ip)
      goTo i.next
      exec c entry a i) (fun r t => r = none ∧ ∃ ip, Atop fs { a with ip := ip } t)
        fun _ _ => True := by
    rw [hi]
    refine Alike.bind tick_leaves fun _ => ?_
    refine Alike.bind (Q := fun j s => j = i ∧ Atop fs a s) (.pure fun s h => ⟨rfl, h⟩) fun j => ?_
    refine Alike.given fun hj => ?_
    subst hj
    exact Alike.bind (goTo_atop j.next) fun _ => exec_leaves hr a
  refine (Alike.bind hrunning fun x => ?_ : Meets (Atop fs a) (step c entry) _ _) s hs |>.2
  refine Alike.given fun hx => ?_
  subst hx
  exact Alike.mapFault hbody

/-! ## Instructions that are right -/

/-- An instruction that is about to be executed goes right. The stack is as high above the running
function as the place in its code says, the instruction raises no fault of corrupt bytecode, and it
goes round in the same frame. -/
structure Right (c : Caller) (entry : Nat) (s : State) : Prop where
  height : ∀ a, s.machine.frames.back? = some a →
    s.machine.stack.size = a.base + a.closure.proto.height a.ip
  sound : Post (fun _ _ => True) (fun e _ => ¬ e.cause.Corrupt) (step c entry s)
  stays : ∀ (fs : Array Activation) (a : Activation) (i : Instruction), s.machine.frames = fs.push a →
    a.closure.proto.chunk.fetch a.ip = .ok i → i.op = .loop ∨ i.op = .recur → Post
      (fun r t => r = none ∧ ∃ ip, t.machine.frames = fs.push { a with ip := ip })
      (fun _ _ => True) (step c entry s)

theorem Running.right {G : Ground} (h : Running G s) (hc : G.watch.Callers G.calls c c) :
    Right c G.machine.frames.size s where
  height b hb := by
    obtain ⟨fs, a, d, _, _, hs⟩ := h
    rw [hs.frames, Array.back?_push] at hb
    cases hb
    exact hs.height
  sound := (step_alike hc s h).2.imp (fun _ _ _ => trivial) fun _ _ h => h.1.1
  stays _ _ _ hs hi hr := stays_of_round hs hi hr

/-- Code from the compiler never goes wrong. In an interpreter whose compiled functions come from the
compiler, inside any calls, every instruction is right: another way to execute instructions that is
the usual one where they are right does the same in calls of values, in whole forms that have been
compiled, and in texts of programs. Compiled functions may be added, and no fault of corrupt bytecode
ever comes out. -/
theorem compiled_never_goes_wrong {n : Nat} {s : State} (h : Coherent n s)
    {step' : Caller → Nat → Run (Option Value)}
    (hstep : ∀ c entry t, Right c entry t → step' c entry t = step c entry t) (level : Nat) :
    (∀ {call f s₀ s₁ e p}, f.Proper → Expr.ofForm call f s₀ = .ok e s₁ →
      ((∃ name, Proto.ofExpr name e = .ok p) ∨ ∃ g ∈ e.literals, Proto.ofFn g = .ok p) →
      Coherent n { s with store := (s.store.newClosure ⟨p, #[]⟩).2 }) ∧
    (∀ f args,
      (Engine.equipped Run.assign step' level).call f args s = (Engine.ofFuel level).call f args s ∧
      Post (fun _ => Coherent n) (fun e t => ¬ e.cause.Corrupt ∧ Coherent n t)
        ((Engine.ofFuel level).call f args s)) ∧
    (Quiet s → ∀ {call f s₀ s₁ e p}, f.Proper → Expr.ofForm call f s₀ = .ok e s₁ →
      Proto.ofExpr "top-level" e = .ok p → ∀ rounds,
      onParked (executeFormBy (step' (Engine.equipped Run.assign step' level).call) rounds p) s =
        onParked (executeForm (Engine.ofFuel level).call rounds p) s ∧
      Post (fun _ => Quiet) (fun e t => ¬ e.cause.Corrupt ∧ Quiet t)
        (onParked (executeForm (Engine.ofFuel level).call rounds p) s)) ∧
    (Quiet s → ∀ source,
      Session.evalSourceBy (Engine.equipped Run.assign step' level) source s =
        Session.evalSource level source s ∧
      Post (fun _ => Quiet) (fun f t => (∀ e, f = .runtime e → ¬ e.cause.Corrupt) ∧ Quiet t)
        (Session.evalSource level source s)) := by
  have hP : Discreet (.steps step') :=
    ⟨fun _ _ => rfl, fun _ _ => rfl, fun _ => rfl, fun _ G c t hn hc ht =>
      hstep c _ t (ht.right (hn ▸ hc))⟩
  refine ⟨fun hf he hp => ?_, fun f args => ?_, fun hq _ _ _ _ _ _ hf he hp rounds => ?_,
    fun hq source => ?_⟩
  · have hparsed := Expr.parsed_of_ofForm hf he
    rcases hp with ⟨name, hp⟩ | ⟨g, hg, hp⟩
    · exact h.newClosure (.form hparsed hp) (Proto.wellFormed_of_ofExpr hparsed hp).2.1
    · obtain ⟨sc, hgp⟩ := hparsed.literals _ g hg
      exact h.newClosure (.literal hgp hp) (Proto.wellFormed_of_ofFn hgp hp).2
  · obtain ⟨heq, hr⟩ := hP.call_eq h level f args
    rw [Engine.probed_steps] at heq
    exact ⟨heq, hr.imp (fun _ _ ht => ht.coherent) fun _ _ ht => ⟨ht.1.1, ht.2.coherent⟩⟩
  · have hparsed := Expr.parsed_of_ofForm hf he
    obtain ⟨heq, hr⟩ := hq.form hP level rounds (.form hparsed hp)
      (Proto.wellFormed_of_ofExpr hparsed hp).2.1
    rw [Engine.probed_steps] at heq
    exact ⟨heq, hr.imp (fun _ _ ht => hq.of_returns ht) fun _ _ ht => ⟨ht.1.1, hq.of_returns ht.2⟩⟩
  · obtain ⟨heq, hr⟩ := hq.source hP level source
    rw [Engine.probed_steps] at heq
    exact ⟨heq, hr.imp (fun _ _ ht => hq.of_returns ht) fun _ _ ht =>
      ⟨fun e he => (ht.1 e he).1, hq.of_returns ht.2⟩⟩

/-- A function that has its argument for a value. -/
def identity : Form :=
  .list [.symbol "fn" .unknown, .vector [.symbol "x" .unknown] .unknown, .symbol "x" .unknown]
    .unknown

theorem proper_identity : identity.Proper := by
  have hx : (Form.vector [.symbol "x" .unknown] .unknown).Proper :=
    .vector (Form.AllProper.cons .symbol Form.AllProper.nil)
  exact .list (Form.AllProper.cons .symbol (.cons hx (.cons .symbol .nil)))

theorem identity_compiles : ∃ e s₁ g p,
    Expr.ofForm (fun _ _ => Act.exhausted) identity (State.bare .empty .standard) = .ok e s₁ ∧
      g ∈ e.literals ∧ Proto.ofFn g = .ok p :=
  ⟨_, _, _, _, rfl, List.mem_cons_self, rfl⟩

theorem identity_never_goes_wrong : ∃ g p, Proto.ofFn g = .ok p ∧
    Post (fun _ => Coherent 0) (fun e t => ¬ e.cause.Corrupt ∧ Coherent 0 t)
      ((Engine.ofFuel 9).call (.closure 0 "fn") [.int 7]
        { State.fresh .empty .standard with
          store := ((State.fresh .empty .standard).store.newClosure ⟨p, #[]⟩).2 }) := by
  obtain ⟨e, s₁, g, p, he, hg, hp⟩ := identity_compiles
  have hstep : ∀ c entry t, Right c entry t → step c entry t = step c entry t := fun _ _ _ _ => rfl
  obtain ⟨hnew, -⟩ := compiled_never_goes_wrong (Reached.first .standard).quiet.coherent hstep 9
  have h := hnew proper_identity he (.inr ⟨g, hg, hp⟩)
  exact ⟨g, p, hp, ((compiled_never_goes_wrong h hstep 9).2.1 _ _).2⟩

end Machine.Typed

end TwinLisp
