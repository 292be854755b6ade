import TwinLisp.Proofs.Machine.Runs

/-! Interpreters whose machine runs code from the compiler only. Whatever they do, calls come back to
the machine as they left it, and a probe that does what is usual under these circumstances goes
unnoticed.

* `Coherent`, `Quiet`: an interpreter inside some calls, and one that has nothing to do.
* `Returns`, `Orderly`: what a call leaves behind.
* `Discreet`: a probe that does what is usual.
* `Coherent.call`, `Quiet.form`, `Quiet.source`: calls, whole forms and texts of programs. -/

namespace TwinLisp

namespace Machine.Typed

open Act

variable {n : Nat} {s t : State} {limits : Limits} {maxDepth : Nat}

/-- An interpreter inside a number of calls of interpreted functions. Its functions come from the
parser, its compiled functions from the compiler; all frames of the machine wait for values, and the
depth of calls is accounted for. -/
structure Coherent (n : Nat) (s : State) : Prop where
  parked : Parked n s.core s.depth
  literate : s.Literate Compiled

/-- What a call from a state leaves behind. -/
structure Returns (n : Nat) (s t : State) : Prop where
  coherent : Coherent n t
  returned : Returned s.core t.core
  depth : t.depth = s.depth

/-- The faults that may be raised under the limits of a state. -/
def Allows (s : State) (e : RuntimeError) : Prop :=
  Sane s.config.limits s.config.maxDepth e.cause

/-- An outcome that leaves behind what a call should. -/
abbrev Orderly {ε α : Type} (n : Nat) (s : State) (allowed : ε → Prop) :
    EStateM.Result (Stop ε) State α → Prop :=
  Post (fun _ => Returns n s) fun e t => allowed e ∧ Returns n s t

theorem Coherent.newClosure (h : Coherent n s) {p : Proto} (hp : p.Produced)
    (hc : p.captures = #[]) :
    Coherent n { s with store := (s.store.newClosure ⟨p, #[]⟩).2 } :=
  ⟨{ h.parked with closures := sound_push h.parked.closures hp (by rw [hc]; rfl) }, h.literate⟩

section Holds

variable {w : State.Core × Nat}

theorem Coherent.holds (h : Coherent n s) :
    (intact s.config.limits s.config.maxDepth).Holds n (s.core, s.depth) s :=
  ⟨⟨h.parked, rfl, rfl⟩, h.literate, (intact s.config.limits s.config.maxDepth).refl _, rfl⟩

theorem coherent_of_holds (h : (intact limits maxDepth).Holds n w s) : Coherent n s :=
  ⟨h.inv.1, h.literate⟩

theorem returns_of_holds (h : (intact limits maxDepth).Holds n (s.core, s.depth) t) :
    Returns n s t := ⟨coherent_of_holds h, h.rel, h.depth⟩

variable {ε α : Type} {A : ε → Prop} {a b : Act ε α}

theorem orderly_of_keeps (h : Coherent n s)
    (hk : (intact s.config.limits s.config.maxDepth).Keeps n A (s.core, s.depth) a b) :
    b s = a s ∧ Orderly n s A (a s) :=
  ⟨(hk s h.holds).1, (hk s h.holds).2.imp (fun _ _ ht => returns_of_holds ht)
    fun _ _ ht => ⟨ht.1, returns_of_holds ht.2⟩⟩

theorem orderly_of_keepsRun {α : Type} {a b : Run α}
    (h : ∀ w, (intact limits maxDepth).KeepsRun n w a b)
    (hs : (intact limits maxDepth).Holds n w s) :
    b s = a s ∧ Orderly n s (Allows s) (a s) := by
  obtain ⟨rfl, rfl⟩ : s.config.limits = limits ∧ s.config.maxDepth = maxDepth := hs.inv.2
  exact orderly_of_keeps (coherent_of_holds hs) (h _)

end Holds

/-! ## Probes -/

/-- A probe that does what is usual as long as calls begin in coherent interpreters and return, and
well-formed code runs. -/
structure Discreet (P : Probe) : Prop where
  call : ∀ {n c f args s}, Coherent n s → Orderly n s (Allows s) (c f args s) →
    P.call n c f args s = c f args s
  late : ∀ {n} {c : LateCaller} {v args span s}, Coherent n s →
    Orderly n s (Allows s) (c v args span s) → P.late n c v args span s = c v args span s
  assign : ∀ {n v x s}, Coherent n s → P.assign n v x s = Run.assign v x s
  step : ∀ n, Usual n (P.step n)

/-- An action may stand for another one that is like a third if it does the same whenever that one
is orderly. -/
theorem keeps_of_orderly {α : Type} {w : State.Core × Nat} {a b b' : Run α}
    (hb : ∀ {s}, Coherent n s → Orderly n s (Allows s) (b s) → b' s = b s)
    (h : ∀ w, (intact limits maxDepth).KeepsRun n w a b) :
    (intact limits maxDepth).KeepsRun n w a b' := by
  intro s hs
  obtain ⟨e, hr⟩ := orderly_of_keepsRun h hs
  refine ⟨?_, (h w s hs).2⟩
  rw [hb (coherent_of_holds hs) (e ▸ hr), e]

namespace Discreet

variable {P : Probe} (hP : Discreet P)

include hP

theorem sound : (intact limits maxDepth).Sound P where
  around hc _ f args := keeps_of_orderly hP.call fun w => hc w f args
  late h _ := keeps_of_orderly hP.late h
  assign n w v x s hs := ⟨hP.assign (coherent_of_holds hs), (Watch.assign_keeps n w v x s hs).2⟩
  call hc w rounds id args := call_intact (hP.step _) hc w rounds id args
  form hc _ hw rounds _ _ he hp := form_intact (hP.step 0) hc hw rounds (.form he hp)
    (Proto.wellFormed_of_ofExpr he hp).2.1

/-- Nobody notices the probe in a call, which returns. -/
theorem call_eq (h : Coherent n s) (level : Nat) (f : Value) (args : List Value) :
    (Engine.probed P level n).call f args s = (Engine.ofFuel level).call f args s ∧
      Orderly n s (Allows s) ((Engine.ofFuel level).call f args s) :=
  orderly_of_keeps h (Watch.call_keeps (exact_intact _ _) hP.sound level n _ f args)

/-- Nobody notices the probe in a body that is evaluated in some frame, which comes back. -/
theorem body_eq (h : Coherent n s) (level : Nat) {es : List Expr} {sc : Scopes} {pos : Position}
    (he : AllParsed (.storing Compiled True) sc pos es) (frame : Option Nat) :
    bodyValue (Engine.probed P level n) .nil es frame s =
        bodyValue (Engine.ofFuel level) .nil es frame s ∧
      Orderly n s (Allows s) (bodyValue (Engine.ofFuel level) .nil es frame s) := by
  have hW := exact_intact s.config.limits s.config.maxDepth
  refine orderly_of_keeps h (Watch.KeepsRun.of_value hW
    (b := fun _ => bodyValue (Engine.probed P level n) .nil es frame) (fun w _ => ?_) 0)
  have hb := Coupling.bodyValue_follows Watch.shared (Watch.engines (hP.sound.runs hW) level n) es he
    (w := w) (i := frame) rfl (.inr trivial) (Watch.value_iff.mpr (rfl : Value.nil = .nil))
  rwa [show (Watch.lexical _ n).erase = id from rfl, mapBytecodeAll_id] at hb

end Discreet

theorem discreet_idle : Discreet .idle := ⟨fun _ _ => rfl, fun _ _ => rfl, fun _ => rfl,
  fun _ _ _ _ _ _ _ => rfl⟩

/-! ## Interpreters that have nothing to do -/

/-- An interpreter between two texts. No call is going on, and nothing is left on the machine. -/
structure Quiet (s : State) : Prop where
  coherent : Coherent 0 s
  rest : Restored idle (s.parked.getD idle)

namespace Quiet

variable {P : Probe}

theorem depth (h : Quiet s) : s.depth = 0 := by
  have hd := h.coherent.parked.tally.depth
  change s.depth = 0 + (s.parked.getD idle).frames.countP _ at hd
  rw [hd, h.rest.frames]
  rfl

theorem of_returns (h : Quiet s) (ht : Returns 0 s t) : Quiet t :=
  ⟨ht.coherent, h.rest.trans ht.returned.restored⟩

theorem form (h : Quiet s) (hP : Discreet P) (level rounds : Nat) {p : Proto} (hp : p.Produced)
    (hc : p.captures = #[]) :
    onParked (executeFormBy (P.step 0 (Engine.probed P level 0).call) rounds p) s =
        onParked (executeForm (Engine.ofFuel level).call rounds p) s ∧
      Orderly 0 s (Allows s) (onParked (executeForm (Engine.ofFuel level).call rounds p) s) := by
  have htop : (intact s.config.limits s.config.maxDepth).Top s.core := h.rest
  exact orderly_of_keeps h.coherent (form_intact (hP.step 0)
    (Watch.call_keeps (exact_intact _ _) hP.sound level 0) htop rounds hp hc)

theorem source (h : Quiet s) (hP : Discreet P) (level : Nat) (source : String) :
    Session.evalSourceBy (Engine.probed P level 0) source s = Session.evalSource level source s ∧
      Orderly 0 s (fun f => ∀ e, f = .runtime e → Allows s e)
        (Session.evalSource level source s) :=
  orderly_of_keeps h.coherent
    (Watch.evalSource_keeps (exact_intact _ _) hP.sound level source h.rest)

end Quiet

/-! ## Sessions -/

theorem define_core (owner : Nat) (ops : List Native) (s : State) :
    (State.define owner s ops).core = s.core ∧ (State.define owner s ops).depth = s.depth ∧
      (State.define owner s ops).store.functions = s.store.functions := by
  induction ops generalizing s with
  | nil => exact ⟨rfl, rfl, rfl⟩
  | cons op rest ih =>
    rw [State.define]
    exact ih _

theorem quiet_fresh {store : Store} (config : Config)
    (hl : (State.bare store config).Literate Compiled)
    (hc : ∀ (i : Nat) c, store.closures[i]? = some c → c.Sound) (hk : Linked store.cells []) :
    Quiet (State.fresh store config) := by
  obtain ⟨hcore, hdepth, hfun⟩ := define_core store.owners Native.all
    (State.bare { store with owners := store.owners + 1 } config)
  have hrest : Restored idle ((State.fresh store config).parked.getD idle) := by
    rw [show (State.fresh store config).parked = none from congrArg State.Core.parked hcore]
    exact .refl _
  refine ⟨⟨?_, fun i g hg => hl i g (hfun ▸ hg)⟩, hrest⟩
  unfold State.fresh
  rw [hcore, hdepth]
  exact {
    machine := rfl
    tally := ⟨rfl, Nat.zero_le _, Nat.zero_le _⟩
    closures := hc
    linked := hk
    low := nofun
    layered := .nil }

theorem Quiet.another (h : Quiet s) (config : Config) : Quiet (State.fresh s.store config) := by
  refine quiet_fresh config h.coherent.literate h.coherent.parked.closures ?_
  have hl : Linked s.store.cells (s.parked.getD idle).openCells := h.coherent.parked.linked
  rwa [h.rest.openCells] at hl

theorem Quiet.inMode (h : Quiet s) (m : Mode) : Quiet { s with mode := m } :=
  ⟨⟨h.coherent.parked, h.coherent.literate⟩, h.rest⟩

/-- States of interpreters between the texts they evaluate, in any modes, on a store that
interpreters may share one after another. -/
inductive Reached : State → Prop
  | first (config : Config) : Reached (State.fresh .empty config)
  | another {s : State} (h : Reached s) (config : Config) : Reached (State.fresh s.store config)
  | mode {s : State} (h : Reached s) (m : Mode) : Reached { s with mode := m }
  | value {s t : State} {v : Value} (h : Reached s) (level : Nat) (source : String)
    (e : Session.evalSource level source s = .ok v t) : Reached t
  | fault {s t : State} {f : Failure} (h : Reached s) (level : Nat) (source : String)
    (e : Session.evalSource level source s = .error (.raised f) t) : Reached t

theorem Reached.quiet (h : Reached s) : Quiet s := by
  induction h with
  | first config => exact quiet_fresh config nofun nofun ⟨Sound.nil, nofun⟩
  | another _ config ih => exact ih.another config
  | mode _ m ih => exact ih.inMode m
  | value _ level source e ih =>
    have hr := (ih.source discreet_idle level source).2
    rw [e] at hr
    exact ih.of_returns hr
  | fault _ level source e ih =>
    have hr := (ih.source discreet_idle level source).2
    rw [e] at hr
    exact ih.of_returns hr.2

end Machine.Typed

end TwinLisp
