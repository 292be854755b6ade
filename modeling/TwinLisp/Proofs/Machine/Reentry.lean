import TwinLisp.Proofs.Machine.Intrinsics
import TwinLisp.Proofs.Machine.Rebinding

/-! Calls between the two engines. A call that is made while the machine is parked comes back to it as
to a machine on which nothing has happened, and all calls that are going on are accounted for in one
number.

* `Transparent`, `reentry_is_transparent`: what the caller sees of a nested call.
* `Accounted`, `calls_are_accounted`: the depth of calls, and the room for frames. -/

namespace TwinLisp

namespace Machine.Typed

open Act

variable {n : Nat} {s t : State}

/-! ## What the caller sees -/

/-- What a call leaves to its caller. As many calls are being counted as before, and if the machine was
parked, it is parked again: its frames, the height of its stack and its open cells are as they were,
and so are the slots that have no open cell. -/
structure Transparent (s t : State) : Prop where
  depth : t.depth = s.depth
  machine : t.machine = s.machine
  parked : ∀ m, s.parked = some m → ∃ m', t.parked = some m' ∧ Restored m m'

theorem Returns.transparent (h : Coherent n s) (ht : Returns n s t) : Transparent s t where
  depth := ht.depth
  machine := ht.coherent.parked.machine.trans h.parked.machine.symm
  parked m hm := by
    have hs : s.core.parked = some m := hm
    obtain ⟨m', hm'⟩ := Option.isSome_iff_exists.mp (ht.returned.there (by rw [hs]; rfl))
    have hr := ht.returned.restored
    rw [hs, hm'] at hr
    exact ⟨m', hm', hr⟩

/-- Calls between the engines are transparent. A value that is called in an interpreter whose compiled
functions come from the compiler, at any depth of calls, and a body that is evaluated there, such as
that of a `try`, leave to the caller what they should, whether they end with a value or with a fault.
So do all calls made on the way: nobody notices if calls that do not are done otherwise. -/
theorem reentry_is_transparent {n : Nat} {s : State} (h : Coherent n s) (level : Nat) :
    (∀ f args, Post (fun _ => Transparent s) (fun _ => Transparent s)
      ((Engine.ofFuel level).call f args s)) ∧
    (∀ (es : List Expr) (sc : Scopes) (pos : Position), AllParsed (.storing Compiled True) sc pos es →
      ∀ frame, Post (fun _ => Transparent s) (fun _ => Transparent s)
        (bodyValue (Engine.ofFuel level) .nil es frame s)) ∧
    ∀ call' : Caller → Caller,
      (∀ n c f args t, Coherent n t →
        Post (fun _ => Transparent t) (fun _ => Transparent t) (c f args t) →
          call' c f args t = c f args t) →
      let P : Probe := { Probe.idle with call := fun _ => call' }
      (∀ f args, (Engine.probed P level n).call f args s = (Engine.ofFuel level).call f args s) ∧
      (Quiet s → ∀ source,
        Session.evalSourceBy (Engine.probed P level 0) source s =
          Session.evalSource level source s) := by
  have hpost : ∀ {ε α : Type} {n : Nat} {s : State} {allowed : ε → Prop}
      {r : EStateM.Result (Stop ε) State α}, Coherent n s → Orderly n s allowed r →
      Post (fun _ => Transparent s) (fun _ => Transparent s) r := fun h hr =>
    hr.imp (fun _ _ ht => ht.transparent h) fun _ _ ht => ht.2.transparent h
  refine ⟨fun f args => hpost h (discreet_idle.call_eq h level f args).2,
    fun es sc pos he frame => hpost h (discreet_idle.body_eq h level he frame).2,
    fun call' hcall => ?_⟩
  have hP : Discreet { Probe.idle with call := fun _ => call' } :=
    { discreet_idle with call := fun hs hr => hcall _ _ _ _ _ hs (hpost hs hr) }
  exact ⟨fun f args => (hP.call_eq h level f args).1, fun hq source => (hq.source hP level source).1⟩

/-- The machine is parked, and its running function waits at `next` for the value of a call with `count`
arguments. -/
def waiting (count next : Nat) (fs : Array Activation) (a : Activation) (s : State) : State :=
  { s with
    machine := .idle
    parked := some { s.machine with
      stack := s.machine.stack.shrink (s.machine.stack.size - (count + 1))
      frames := fs.push { a with ip := next } } }

theorem Running.waits {G : Ground} {fs : Array Activation} {a : Activation} {count next : Nat}
    (h : Running G s) (ha : s.machine.frames = fs.push a)
    (hi : a.closure.proto.chunk.fetch a.ip = .ok ⟨.call, count, next⟩) :
    Coherent G.calls (waiting count next fs a s) := by
  obtain ⟨gs, b, d, hsite, hbetween, hs⟩ := h
  obtain ⟨rfl, rfl⟩ := Array.push_eq_push.mp (ha.symm.trans hs.frames)
  obtain ⟨i, hfetch, hadmits⟩ := hbetween.wellFormed.admits a.ip hbetween.boundary hbetween.inside
  cases hi.symm.trans hfetch
  have hdue : Due G fs a d ⟨.call, count, next⟩ := ⟨hsite, hbetween, hadmits⟩
  have hn : count + 1 ≤ a.outline.height := hadmits.fits.takes
  have hk : ∀ s ∈ a.outline.held, s < a.outline.height - (count + 1) := hadmits.fits.kept
  have hheight := hs.height
  have hmoved : Stands G (fs.push { a with ip := next }) fs a.base d a.outline
      { s with machine := { s.machine with frames := fs.push { a with ip := next } } } :=
    { hs with
      tally := hs.tally.move next
      frames := rfl
      upon := ⟨hs.upon.stack, hs.upon.cells⟩ }
  have hcut := hmoved.mapStack (f := fun stack => stack.shrink (stack.size - (count + 1)))
    (n := a.outline.height - (count + 1))
    (by simp only [Array.size_shrink]; omega) (hmoved.slot_lt hk)
    (fun i hi => getElem?_shrink _ (by dsimp only; omega))
  exact coherent_of_holds (hcut.park (hdue.layered (List.mem_singleton.mpr rfl) rfl hcut))

/-- The literal `(fn [f x] (f (fn [y] (set! x y) (y)) [nil]))`. -/
def passing : FnLiteral Expr :=
  ⟨none, [⟨["f", "x"], false, [.call (.localRef ⟨"f", 0, 1⟩ .unknown)
    [.fn ⟨none, [⟨["y"], false, [.setLocal ⟨"x", 0, 2⟩ (.localRef ⟨"y", 1, 1⟩ .unknown) .unknown,
        .call (.localRef ⟨"y", 1, 1⟩ .unknown) [] .unknown]⟩], .unknown, none⟩ .unknown,
      .vector [.literal .nil .unknown] .unknown] .unknown]⟩], .unknown, none⟩

theorem parsed_passing : passing.Parsed .bare [] := by
  refine ⟨⟨rfl, fun a ha hv => ?_⟩, fun params variadic body h => ?_⟩
  · cases List.mem_singleton.mp ha
    cases hv
  cases List.mem_singleton.mp h
  refine .last (.call (.localRef rfl) (AllParsed.cons (.fn ⟨rfl, fun a ha hv => ?_⟩
    fun params variadic body h => ?_) (AllParsed.cons (.vector ?_) AllParsed.nil)))
  · cases List.mem_singleton.mp ha
    cases hv
  · cases List.mem_singleton.mp h
    exact .cons (.setLocal rfl (.localRef rfl)) (.last (.call (.localRef rfl) nofun))
  · exact AllParsed.cons (.literal fun _ => rfl) AllParsed.nil

def passingCode : Proto :=
  ⟨"fn", 2, ⟨#[6, 1, 26, 0, 0, 1, 2, 1, 29, 0, 1, 25, 2, 28], #[], .replicate 14 0⟩, #[],
    #[⟨"fn", 1, ⟨#[6, 1, 9, 0, 4, 6, 1, 25, 0, 28], #[], .replicate 10 0⟩, #[⟨true, 2⟩], #[]⟩]⟩

theorem ofFn_passing : Proto.ofFn passing = .ok passingCode := by with_unfolding_all rfl

def passingArgs : List Value := [.native 0 .map, .int 6]

theorem begin_passing : begin 0 ⟨passingCode, #[]⟩ passingArgs 0 true
    { compiledState passingCode with
      machine := (compiledState passingCode).parked.getD .idle
      parked := none } = .ok () (calledAfter passingCode passingArgs 0) := rfl

theorem step_passing : ∀ k < 4, step (Engine.ofFuel 9).call 0 (calledAfter passingCode passingArgs k) =
    .ok none (calledAfter passingCode passingArgs (k + 1))
  | 0, _ => rfl
  | 1, _ => rfl
  | 2, _ => rfl
  | 3, _ => rfl

/-- The function waits for the value of its call. -/
def passingState : State :=
  waiting 2 13 #[] ⟨⟨passingCode, #[]⟩, 11, 0, true⟩ (calledAfter passingCode passingArgs 4)

theorem coherent_passing : Coherent 0 passingState := by
  have hp : passingCode.Produced := .literal parsed_passing ofFn_passing
  have hc : passingCode.captures = #[] := rfl
  have ha : passingArgs.length = passingCode.arity := rfl
  have hrun := running_calledAfter hp hc ha begin_passing step_passing
  have hframes : (calledAfter passingCode passingArgs 4).machine.frames =
      #[].push ⟨⟨passingCode, #[]⟩, 11, 0, true⟩ := rfl
  have hcode : passingCode.chunk.fetch 11 = .ok ⟨.call, 2, 13⟩ := rfl
  exact hrun.1.waits hframes hcode

/-- The message of the fault that an action ends in. -/
def messageOf {ε α : Type} (message : ε → String) (a : Act ε α) (s : State) : Option String :=
  match a s with
  | .error (.raised e) _ => some (message e)
  | _ => none

theorem raised_of_messageOf {ε α : Type} {message : ε → String} {a : Act ε α} {text : String}
    (h : messageOf message a s = some text) :
    ∃ e t, a s = .error (.raised e) t ∧ message e = text := by
  unfold messageOf at h
  split at h
  · next e t ha => exact ⟨e, t, ha, Option.some.inj h⟩
  · cases h

theorem ok_of_wordOf {ε : Type} {a : Act ε Value} {w : Int64} (h : wordOf a s = some w) :
    ∃ t, a s = .ok (.int w) t := by
  unfold wordOf at h
  split at h
  · next t ha =>
    cases h
    exact ⟨t, ha⟩
  · cases h

theorem passing_waits : ∃ s m, Coherent 0 s ∧ s.parked = some m ∧ m.frames.size = 1 ∧
    m.openCells = [⟨2, 0⟩] ∧
    messageOf RuntimeError.message
      ((Engine.ofFuel 9).call (.native 0 .map) [.closure 1 "fn", .vector [.nil]]) s =
        some "Nil cannot be called as a function" := by
  have hfault : messageOf RuntimeError.message ((Engine.ofFuel 9).call (.native 0 .map)
      [.closure 1 "fn", .vector [.nil]]) passingState =
        some "Nil cannot be called as a function" := by decide +kernel
  refine ⟨passingState, _, coherent_passing, rfl, rfl, ?_, hfault⟩
  rfl

/-- While a function waits with one of its slots captured, `map` goes back to the machine, where the slot
is assigned and a call fails. -/
theorem transparent_waiting : ∃ s t m e, Coherent 0 s ∧ s.parked = some m ∧
    m.frames.size = 1 ∧ m.openCells = [⟨2, 0⟩] ∧
    (Engine.ofFuel 9).call (.native 0 .map) [.closure 1 "fn", .vector [.nil]] s =
      .error (.raised e) t ∧
    e.message = "Nil cannot be called as a function" ∧ Transparent s t := by
  obtain ⟨s, m, hs, hparked, hframes, hopen, hfault⟩ := passing_waits
  obtain ⟨e, t, hcall, hmessage⟩ := raised_of_messageOf hfault
  have h := (reentry_is_transparent hs 9).1 (.native 0 .map) [.closure 1 "fn", .vector [.nil]]
  rw [hcall] at h
  exact ⟨s, t, m, e, hs, hparked, hframes, hopen, hcall, hmessage, h⟩

/-! ## The depth of calls -/

/-- The frames of the machine, at work or parked. -/
def framesOf (s : State) : Array Activation := s.machine.frames ++ (s.parked.getD idle).frames

/-- All calls are accounted for. The depth of calls is the number of interpreted functions and of
counted frames that are active, and no more than the limit; not more frames than one are
uncounted. -/
structure Accounted (n : Nat) (s : State) : Prop where
  depth : s.depth = n + (framesOf s).countP (·.counted)
  bound : s.depth ≤ s.config.maxDepth
  frames : (framesOf s).size ≤ s.config.maxDepth + 1

/-- A fault is not for want of room for frames if there is room for as many nested calls as are
allowed and a whole form. -/
def Fits (s : State) (e : RuntimeError) : Prop :=
  s.config.maxDepth + 1 ≤ s.config.limits.framesMax → ∀ limit, e.cause ≠ .frameOverflow limit

/-- A probe that does what is usual as long as all calls are accounted for and no room for frames is
wanting. -/
structure Accountant (P : Probe) : Prop where
  call : ∀ {n c f args s}, Accounted n s →
    Post (fun _ => Accounted n) (fun e t => Fits s e ∧ Accounted n t) (c f args s) →
      P.call n c f args s = c f args s
  late : ∀ {n} {c : LateCaller} {v args span s}, Accounted n s →
    Post (fun _ => Accounted n) (fun e t => Fits s e ∧ Accounted n t) (c v args span s) →
      P.late n c v args span s = c v args span s
  assign : ∀ {n v x s}, Accounted n s → P.assign n v x s = Run.assign v x s
  step : ∀ {n c entry s}, Accounted n s →
    Post (fun _ _ => True) (fun e _ => Fits s e) (step c entry s) →
      P.step n c entry s = step c entry s

theorem accounted_of_tally {fs : Array Activation} (h : Tally n s.config.maxDepth fs s.depth)
    (hf : framesOf s = fs) : Accounted n s := by
  subst hf
  have hdepth := h.depth
  have hbound := h.bound
  have hframes := h.frames
  exact ⟨hdepth, hbound, by omega⟩

theorem Coherent.accounted (h : Coherent n s) : Accounted n s := by
  have hm : s.machine = idle := h.parked.machine
  refine accounted_of_tally h.parked.tally ?_
  rw [framesOf, hm]
  exact Array.empty_append

theorem Running.accounted {G : Ground} (h : Running G s) : Accounted G.calls s := by
  obtain ⟨fs, a, d, _, _, hs⟩ := h
  have ht : Tally G.calls s.config.maxDepth s.machine.frames s.depth := by
    rw [hs.maxDepth, hs.frames, hs.depth]
    exact hs.tally
  refine accounted_of_tally ht ?_
  rw [framesOf, hs.parked]
  exact Array.append_empty

theorem Orderly.accounted {ε α : Type} {allowed : ε → Prop} {R : ε → Prop}
    {r : EStateM.Result (Stop ε) State α} (h : Orderly n s allowed r) (hR : ∀ e, allowed e → R e) :
    Post (fun _ => Accounted n) (fun e t => R e ∧ Accounted n t) r :=
  h.imp (fun _ _ ht => ht.coherent.accounted) fun e _ ht => ⟨hR e ht.1, ht.2.coherent.accounted⟩

theorem Accountant.discreet {P : Probe} (hP : Accountant P) : Discreet P where
  call h hr := hP.call h.accounted (hr.accounted fun _ he => he.2)
  late h hr := hP.late h.accounted (hr.accounted fun _ he => he.2)
  assign h := hP.assign h.accounted
  step n G c s hn hc hs := by
    subst hn
    obtain ⟨hlimits, hmax⟩ : s.config.limits = G.limits ∧ s.config.maxDepth = G.maxDepth := by
      obtain ⟨_, _, _, _, _, h⟩ := hs
      exact ⟨h.limits, h.maxDepth⟩
    refine hP.step hs.accounted ((step_alike hc s hs).2.imp (fun _ _ _ => trivial) fun e _ he => ?_)
    rw [Fits, hlimits, hmax]
    exact he.1.2

/-- All calls are accounted for. Between the texts an interpreter evaluates, whatever the programs and
modes are, no call is counted. Whatever a text does, and however it ends, all calls, late macro
calls, assignments and instructions on the way find as many calls counted as are active and not too
many frames, and no fault for want of room for frames is raised if there is room for as many nested
calls as are allowed: nobody notices if all of these are done otherwise where it is not so. Inside any
calls, a body that is evaluated leaves them accounted for. The usual limits have that room. -/
theorem calls_are_accounted {s : State} (h : Reached s) :
    s.depth = 0 ∧
    (∀ level source,
      Post (fun _ t => t.depth = 0 ∧ Accounted 0 t)
        (fun f t => t.depth = 0 ∧ Accounted 0 t ∧ ∀ e, f = .runtime e → Fits s e)
        (Session.evalSource level source s) ∧
      ∀ P, Accountant P → Session.evalSourceBy (Engine.probed P level 0) source s =
        Session.evalSource level source s) ∧
    (∀ (n : Nat) (t : State), Coherent n t → Accounted n t ∧
      ∀ level (es : List Expr) (sc : Scopes) (pos : Position),
        AllParsed (.storing Compiled True) sc pos es → ∀ frame,
          Post (fun _ => Accounted n) (fun e u => Fits t e ∧ Accounted n u)
            (bodyValue (Engine.ofFuel level) .nil es frame t)) ∧
    Config.standard.maxDepth + 1 ≤ Config.standard.limits.framesMax := by
  refine ⟨h.quiet.depth, fun level source => ⟨?_, fun P hP =>
    (h.quiet.source hP.discreet level source).1⟩, fun n t ht => ⟨ht.accounted,
    fun level es sc pos he frame => (discreet_idle.body_eq ht level he frame).2.accounted
      fun _ he => he.2⟩, Nat.le_of_eq Config.standard_framesMax.symm⟩
  have hr := (h.quiet.source discreet_idle level source).2
  refine hr.imp (fun _ t ht => ?_) fun f t ht => ?_
  · exact ⟨(h.quiet.of_returns ht).depth, ht.coherent.accounted⟩
  · exact ⟨(h.quiet.of_returns ht.2).depth, ht.2.coherent.accounted, fun e he => (ht.1 e he).2⟩

theorem accounted_iff : Accounted n s ↔ s.depth = n + (framesOf s).countP (·.counted) ∧
    s.depth ≤ s.config.maxDepth ∧ (framesOf s).size ≤ s.config.maxDepth + 1 :=
  ⟨fun h => ⟨h.depth, h.bound, h.frames⟩, fun h => ⟨h.1, h.2.1, h.2.2⟩⟩

instance (n : Nat) (s : State) : Decidable (Accounted n s) := decidable_of_iff' _ accounted_iff

/-- Everything ends where not all calls are accounted for. -/
def audited {α : Type} (n : Nat) (a : Run α) : Run α := fun s =>
  if Accounted n s then a s else Act.exhausted s

theorem audited_eq {α : Type} {a : Run α} (h : Accounted n s) : audited n a s = a s := if_pos h

def auditor : Probe where
  call n c f args := audited n (c f args)
  late n c v args span := audited n (c v args span)
  assign n v x := audited n (Run.assign v x)
  step n c entry := audited n (step c entry)

theorem accountant_auditor : Accountant auditor where
  call h _ := audited_eq h
  late h _ := audited_eq h
  assign h := audited_eq h
  step h _ := audited_eq h

/-- A compiled function and an interpreted one that call each other. -/
def seesaw : String :=
  "(def up) (def down (fn [n & more] (up n)))
   (def up (fn [n] (if (= n 0) 0 (+ 1 (down (- n 1)))))) (up 2)"

/-- An interpreter in bytecode mode with room for `depth` nested calls. -/
def allowing (depth : Nat) : State :=
  { State.fresh .empty ⟨true, false, depth, ⟨Config.standardStack, depth + 1, none⟩⟩ with
    mode := .bytecode }

theorem reached_allowing (depth : Nat) : Reached (allowing depth) := .mode (.first _) .bytecode

theorem seesaw_five : wordOf (Session.evalSource 40 seesaw) (allowing 5) = some 2 := by
  decide +kernel

theorem seesaw_four : messageOf Failure.message (Session.evalSource 40 seesaw) (allowing 4) =
    some "Runtime error: Stack overflow" := by decide +kernel

/-- Five calls are going on in the end, of both engines in turn, and nothing stops them but the limit;
the auditor finds nothing either way. -/
theorem calls_of_seesaw_are_accounted :
    (∃ t, Session.evalSourceBy (Engine.probed auditor 40 0) seesaw (allowing 5) = .ok (.int 2) t ∧
      t.depth = 0 ∧ Accounted 0 t) ∧
    ∃ f t, Session.evalSourceBy (Engine.probed auditor 40 0) seesaw (allowing 4) =
        .error (.raised f) t ∧
      f.message = "Runtime error: Stack overflow" ∧ t.depth = 0 ∧ Accounted 0 t := by
  have hsound := fun depth => (calls_are_accounted (reached_allowing depth)).2.1 40 seesaw
  rw [(hsound 5).2 auditor accountant_auditor, (hsound 4).2 auditor accountant_auditor]
  obtain ⟨t, hvalue⟩ := ok_of_wordOf seesaw_five
  obtain ⟨f, u, hfault, hmessage⟩ := raised_of_messageOf seesaw_four
  have hfive := (hsound 5).1
  have hfour := (hsound 4).1
  rw [hvalue] at hfive
  rw [hfault] at hfour
  exact ⟨⟨t, hvalue, hfive⟩, f, u, hfault, hmessage, hfour.1, hfour.2.1⟩

end Machine.Typed

end TwinLisp
