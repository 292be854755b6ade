import TwinLisp.Proofs.Coupling.Calls
import TwinLisp.Proofs.Machine.Alike
import TwinLisp.Session

/-! What holds of the machine whenever a program runs. A `Watch` is an invariant of the parts of the
state that the machine works on, and a relation between these parts before and after a call. An
interpreter is coupled with itself, except that the second may do in its own way what evaluation
leaves to its surroundings; it may also have other limits, and run out of fuel earlier.

* `State.Core`: the parts of the state that the machine works on.
* `Watch.coupling`: the coupling of an interpreter with itself, inside a number of calls of
  interpreted functions.
* `Watch.Keeps`: an action that does the same in both and keeps what is watched. -/

namespace TwinLisp

/-- The parts of a state that the machine works on. -/
structure State.Core where
  cells : Array Cell
  closures : Array Closure
  limits : Limits
  maxDepth : Nat
  machine : Machine
  parked : Option Machine

def State.core (s : State) : State.Core :=
  ⟨s.store.cells, s.store.closures, s.config.limits, s.config.maxDepth, s.machine, s.parked⟩

/-- The interpreted functions of a state come from the parser, their literals with such bytecode as
`good` admits. -/
def State.Literate (good : Scopes → FnLiteral Expr → Proto → Prop) (s : State) : Prop :=
  ∀ (i : Nat) (g : Function), s.store.functions[i]? = some g →
    ∃ sc : Scopes, g.literal.Parsed (.storing good True) sc

/-- An invariant of the machine. -/
structure Watch where
  /-- What holds while the machine is not at work, inside a number of calls of interpreted functions
  and at a depth of calls. -/
  Inv : Nat → State.Core → Nat → Prop
  enter : ∀ {n k d}, Inv n k d → d < k.maxDepth → Inv (n + 1) k (d + 1)
  leave : ∀ {n k d}, Inv (n + 1) k (d + 1) → Inv n k d
  /-- What a call changes. -/
  Rel : State.Core → State.Core → Prop
  refl : ∀ k, Rel k k
  trans : ∀ {k l m}, Rel k l → Rel l m → Rel k m
  /-- The bytecode that may be stored beside a literal. -/
  good : Scopes → FnLiteral Expr → Proto → Prop
  stored : ∀ sc f p, f.Parsed .bare sc → f.compilable = true → Proto.ofFn f = .ok p →
    good sc { f with compiled := some p } p
  make : ∀ {n k d sc f p}, Inv n k d → good sc f p →
    Inv n { k with closures := k.closures.push ⟨p, #[]⟩ } d ∧
      Rel k { k with closures := k.closures.push ⟨p, #[]⟩ }
  /-- The faults that may be raised. -/
  allowed : RuntimeFault → Prop
  allowed_of_plain : ∀ {f : RuntimeFault}, f.Plain → allowed f
  allowed_thrown : ∀ text v, allowed (.thrown text v)
  /-- Where whole forms may be run. -/
  Top : State.Core → Prop
  top_mono : ∀ {k l}, Rel k l → Top k → Top l
  /-- The limits of the second, which may depend on the machine that is parked. -/
  limits : Limits → Option Machine → Limits := fun l _ => l
  /-- Whether the second, with some fuel, may run out of it. -/
  lags : State.Core → Nat → Prop := fun _ _ => False
  lags_mono : ∀ {k l m}, Rel k l → lags k m → lags l m := by exact fun _ h => h

namespace Watch

variable (W : Watch) (n : Nat)

/-- The state of the second beside one of the first. -/
def second (s : State) : State := s.limited fun l => W.limits l s.parked

/-- A state in a world, which is its core and its depth of calls. -/
structure At (w : State.Core × Nat) (s : State) : Prop where
  inv : W.Inv n s.core s.depth
  literate : s.Literate W.good
  core : s.core = w.1
  depth : s.depth = w.2

/-- What is watched at a state that was reached from one with the core and depth of `w`. -/
structure Holds (w : State.Core × Nat) (s : State) : Prop where
  inv : W.Inv n s.core s.depth
  literate : s.Literate W.good
  rel : W.Rel w.1 s.core
  depth : s.depth = w.2

/-- An interpreter beside itself. -/
def coupling : Coupling where
  toNearness := .same
  World := State.Core × Nat
  le v w := W.Rel v.1 w.1 ∧ w.2 = v.2
  refl w := ⟨W.refl w.1, rfl⟩
  trans h h' := ⟨W.trans h.1 h'.1, h'.2.trans h.2⟩
  ext _ ρ := ρ = .id
  plain _ := ⟨_, rfl, Renaming.plain_id⟩
  anti _ h := h
  limits _ := id
  related w s t := t = W.second s ∧ W.At n w s
  spent _ s t := (∃ k m, W.lags k m) ∨ t = W.second s
  spent_anti _ h := h
  lags w m := W.lags w.1 m
  lags_mono h := W.lags_mono h.1
  spent_of_related h _ := .inr (congrArg _ h.1)
  spent_of_lags h _ _ _ := .inl ⟨_, _, h⟩
  allowed := W.allowed
  allowed_of_plain := W.allowed_of_plain
  allowed_thrown := W.allowed_thrown

variable {W} {n} {w : State.Core × Nat}

theorem At.holds {s : State} (h : W.At n w s) : W.Holds n w s :=
  ⟨h.inv, h.literate, h.core ▸ W.refl _, h.depth⟩

theorem Holds.at {s : State} (h : W.Holds n w s) : W.At n (s.core, s.depth) s :=
  ⟨h.inv, h.literate, rfl, rfl⟩

theorem Holds.le {s : State} (h : W.Holds n w s) :
    (W.coupling n).le w (s.core, s.depth) := ⟨h.rel, h.depth⟩

theorem at_eq (L : Nat) (s : State) : (W.coupling n).at_ L s = s := rfl

theorem literal : (W.coupling n).Literal := fun h => h

theorem value_iff {x y : Value} : (W.coupling n).value w x y ↔ y = x := literal.value_iff

theorem values_iff {xs ys : List Value} : (W.coupling n).values w xs ys ↔ ys = xs :=
  literal.values_iff

theorem fault_iff {e e' : RuntimeError} :
    (W.coupling n).fault w e e' ↔ e' = e ∧ W.allowed e.cause := literal.fault_iff trivial

/-! ## The parts every coupling needs -/

theorem shared : (W.coupling n).Shared where
  common := by
    rintro w s t ⟨rfl, _⟩
    refine ⟨rfl, rfl, rfl, rfl, fun ρ hρ => ?_⟩
    cases (hρ : ρ = .id)
    rw [Definition.rename_id, Array.map_id]
    rfl
  change := by
    rintro w s t s' t' ⟨rfl, h⟩ hs - ht hc
    have hv := hc.vars .id rfl
    rw [Definition.rename_id, Array.map_id] at hv
    refine ⟨?_, ?_⟩
    · rw [ht, hs, hv, hc.names, hc.gensyms, hc.output, hc.raised]
      rfl
    · rw [hs]
      exact ⟨h.inv, h.literate, h.core, h.depth⟩

theorem At.frames {s : State} (h : W.At n w s) (fs : Array Frame) :
    W.At n w { s with store := { s.store with frames := fs } } :=
  ⟨h.inv, h.literate, h.core, h.depth⟩

theorem At.newFunction {s : State} (h : W.At n w s) {sc : Scopes} {f : FnLiteral Expr}
    (hf : f.Parsed (.storing W.good True) sc) (i : Option Nat) :
    W.At n w { s with store := (s.store.newFunction ⟨f, i⟩).2 } := by
  refine ⟨h.inv, fun j g hg => ?_, h.core, h.depth⟩
  simp only [Store.newFunction, Array.getElem?_push] at hg
  split at hg
  · cases hg
    exact ⟨sc, hf⟩
  · exact h.literate j g hg

theorem At.newClosure {s : State} (h : W.At n w s) {sc : Scopes} {f : FnLiteral Expr}
    {p : Proto} (hp : W.good sc f p) :
    W.At n ({ w.1 with closures := w.1.closures.push ⟨p, #[]⟩ }, w.2)
      { s with store := (s.store.newClosure ⟨p, #[]⟩).2 } := by
  refine ⟨(W.make h.inv hp).1, h.literate, ?_, h.depth⟩
  rw [← h.core]
  rfl

theorem make_follows {short : Nat → Prop} {sc : Scopes} {f : FnLiteral Expr}
    (hf : f.Parsed (.storing W.good True) sc) (i : Option Nat) :
    (W.coupling n).Follows short (W.coupling n).value (W.coupling n).fault w
      (Eval.makeFunction f i) fun _ => Eval.makeFunction f i := by
  refine .of_step fun s t hst => ?_
  obtain ⟨rfl, h⟩ := hst
  unfold Eval.makeFunction
  cases hc : f.compiled with
  | some p =>
    have hp := hf.literal p hc
    have hm := (W.make h.inv hp).2
    rw [h.core] at hm
    exact ⟨({ w.1 with closures := w.1.closures.push ⟨p, #[]⟩ }, w.2), _, _, _, _, ⟨hm, rfl⟩, rfl,
      fun _ _ => rfl, value_iff.mpr rfl, rfl, h.newClosure hp⟩
  | none =>
    exact ⟨w, _, _, _, _, (W.coupling n).refl w, rfl, fun _ _ => rfl, value_iff.mpr rfl, rfl,
      h.newFunction hf i⟩

/-- An action on frames alone, with one fault. It does not see what the machine works on. -/
def OnFrames {α : Type} (a : Run α) : Prop :=
  ∃ f : Store → Option (α × Array Frame), ∃ e : RuntimeError, e.cause.Plain ∧
    (∀ s C K, f { s with cells := C, closures := K } = f s) ∧
    ∀ s, a s = match f s.store with
      | some (x, fs) => .ok x { s with store := { s.store with frames := fs } }
      | none => .error (.raised e) s

theorem onFrames_failAt {α : Type} {e : RuntimeFault} (he : e.Plain) (span : Span) :
    OnFrames (Run.failAt e span : Run α) := ⟨fun _ => none, ⟨e, span⟩, he, fun _ _ _ => rfl, fun _ => rfl⟩

theorem onFrames_scope (i : Option Nat) (names : List String) (xs : List Value) :
    OnFrames (Locals.framed.scope i names xs) :=
  ⟨fun s => some (some (s.newFrame i xs.toArray).1, (s.newFrame i xs.toArray).2.frames),
    ⟨.stackOverflow, .unknown⟩, RuntimeFault.plain_stackOverflow, fun _ _ _ => rfl, fun _ => rfl⟩

theorem onFrames_bind (i : Option Nat) (name : String) (x : Value) :
    OnFrames (Locals.framed.bind i name x) := by
  cases i with
  | none =>
    exact ⟨fun s => some (none, s.frames), ⟨.stackOverflow, .unknown⟩,
      RuntimeFault.plain_stackOverflow, fun _ _ _ => rfl, fun _ => rfl⟩
  | some id =>
    exact ⟨fun s => some (some id, (s.pushSlot id x).frames), ⟨.stackOverflow, .unknown⟩,
      RuntimeFault.plain_stackOverflow, fun _ _ _ => rfl, fun _ => rfl⟩

theorem plain_unboundLocal (b : Binding) :
    (RuntimeFault.general ("Unbound local: " ++ b.name)).Plain :=
  RuntimeFault.plain_general_append _ (by decide) (by decide)

theorem onFrames_read (b : Binding) (span : Span) (i : Option Nat) :
    OnFrames (Locals.framed.read b span i) := by
  cases i with
  | none => exact onFrames_failAt (plain_unboundLocal b) span
  | some id =>
    refine ⟨fun s => (s.local? id b).map fun v => (v, s.frames), ⟨_, span⟩, plain_unboundLocal b,
      fun _ _ _ => rfl, fun s => ?_⟩
    simp only [Locals.framed, Eval.readLocal, Act.bind_apply, Act.askStore]
    cases s.store.local? id b <;> rfl

theorem onFrames_write (b : Binding) (span : Span) (i : Option Nat) (x : Value) :
    OnFrames (Locals.framed.write b span i x) := by
  cases i with
  | none => exact onFrames_failAt (plain_unboundLocal b) span
  | some id =>
    refine ⟨fun s => (s.holder? id b).map fun a => ((), (s.setSlot a b.index x).frames),
      ⟨_, span⟩, plain_unboundLocal b, fun _ _ _ => rfl, fun s => ?_⟩
    simp only [Locals.framed, Eval.writeLocal, Act.bind_apply, Act.askStore]
    cases s.store.holder? id b <;> rfl

theorem OnFrames.follows {α : Type} {a : Run α} (h : OnFrames a) {short : Nat → Prop}
    {V : (W.coupling n).World → α → α → Prop} (hV : ∀ x, V w x x) :
    (W.coupling n).Follows short V (W.coupling n).fault w a fun _ => a := by
  obtain ⟨f, e, he, -, h⟩ := h
  rintro s t ⟨rfl, hs⟩
  have hstore : (W.second s).store = s.store := rfl
  simp only [h, Coupling.at_store, hstore]
  cases f s.store with
  | some r =>
    exact .ok ((W.coupling n).refl w) (hV r.1) ⟨rfl, hs.frames r.2⟩ (.of_eq fun _ _ => rfl)
  | none =>
    exact .raised ((W.coupling n).refl w) (fault_iff.mpr ⟨rfl, W.allowed_of_plain he⟩) ⟨rfl, hs⟩
      (.of_eq fun _ _ => rfl)

/-- What the evaluator needs: both sides have the same frames, whatever is in them. -/
def lexical (W : Watch) (n : Nat) : (W.coupling n).Scoped where
  rules := .storing W.good True
  erase := id
  first := .framed
  second := .framed
  lax := True
  formed := .inl trivial
  env _ _ i j := i = j
  env_mono _ h := h
  growing _ _ i j := i = j
  env_of_growing h := h
  scope := by
    rintro _ w _ i _ xs _ names rfl hx -
    cases values_iff.mp hx
    exact (onFrames_scope i names xs).follows fun _ => rfl
  bind := by
    rintro _ w _ i _ _ x _ name rfl hx
    cases value_iff.mp hx
    exact (onFrames_bind i name x).follows fun _ => rfl
  keeps := by
    rintro _ w _ i _ a b rfl h
    exact (h w ((W.coupling n).refl w) rfl).imp (fun _ _ _ _ hx => ⟨hx, rfl⟩) fun _ _ _ _ he => he
  read := by
    rintro _ w _ i _ b rfl - span
    exact (onFrames_read b span i).follows fun _ => value_iff.mpr rfl
  write := by
    rintro _ w _ i _ b x _ rfl - span hx
    cases value_iff.mp hx
    exact (onFrames_write b span i x).follows fun _ => rfl
  stray := by
    rintro - _ w xs _ - span
    exact .failAt (RuntimeFault.plain_general (by decide)) span
  make := by
    rintro _ w _ i _ f rfl hf
    rw [FnLiteral.mapBytecode_id]
    exact make_follows hf i

/-- Inside a call of an interpreted function. -/
def descent (W : Watch) (n : Nat) : Coupling.Descent (W.lexical n) (W.lexical (n + 1)) where
  rules := rfl
  erase := rfl
  limits := rfl
  allowed h := h
  near h := h
  excused h := h
  deeper w := (w.1, w.2 + 1)
  ext_deeper h := h
  env_deeper h := h
  depth := by
    rintro w s t ⟨rfl, _⟩
    exact ⟨rfl, rfl⟩
  enter := by
    rintro w s t ⟨rfl, h⟩ hd
    exact ⟨rfl, W.enter h.inv hd, h.literate, h.core, congrArg (· + 1) h.depth⟩
  leave := by
    rintro w w' s t hw ⟨rfl, h⟩
    have hd : s.depth = w.2 + 1 := h.depth.trans hw.2
    refine ⟨(w'.1, w.2), ⟨hw.1, rfl⟩, fun _ h => h, fun _ h => h, rfl, ?_, h.literate, h.core, ?_⟩
    · have hinv := h.inv
      rw [hd] at hinv
      show W.Inv n s.core (s.depth - 1)
      rw [hd]
      exact W.leave hinv
    · show s.depth - 1 = w.2
      rw [hd]
      rfl
  leave_spent := by
    rintro w s t (h | rfl)
    · exact .inl h
    · exact .inr rfl

/-! ## Actions that do the same -/

/-- Both interpreters have the same limits, and run out of fuel together. -/
structure Exact (W : Watch) : Prop where
  limits : ∀ l m, W.limits l m = l
  lags : ∀ k m, ¬ W.lags k m

section Keeps

variable {ε α : Type} {A : ε → Prop} {a b : Act ε α}

/-- Both actions do the same and keep what is watched. -/
def Keeps (W : Watch) (n : Nat) (A : ε → Prop) (w : State.Core × Nat) (a b : Act ε α) : Prop :=
  Act.Alike (W.Holds n w) a b (fun _ => W.Holds n w) fun e s => A e ∧ W.Holds n w s

/-- The same value, in every world. -/
def same (W : Watch) (n : Nat) (_ : (W.coupling n).World) (x y : α) : Prop := y = x

/-- The same fault, which `A` admits. -/
def admits (W : Watch) (n : Nat) (A : ε → Prop) (_ : (W.coupling n).World) (e e' : ε) : Prop :=
  e' = e ∧ A e

theorem Exact.second_eq (hW : W.Exact) (s : State) : W.second s = s := by
  rw [second, State.limited]
  simp only [hW.limits]

theorem Exact.related_iff (hW : W.Exact) {s t : State} :
    (W.coupling n).related w s t ↔ t = s ∧ W.At n w s := by
  show t = W.second s ∧ _ ↔ _
  rw [hW.second_eq]

theorem Keeps.follows (hW : W.Exact) {short : Nat → Prop} {b : Nat → Act ε α}
    (h : ∀ m, W.Keeps n A w a (b m)) :
    (W.coupling n).Follows short (W.same n) (W.admits n A) w a b := by
  intro s t hst
  obtain ⟨rfl, hs⟩ := hW.related_iff.mp hst
  have hc : ∀ m L, b m ((W.coupling n).at_ L t) = a t := fun m L => by
    rw [at_eq, (h m t hs.holds).1]
  have hr := (h 0 t hs.holds).2
  simp only [hc]
  generalize a t = r at hr
  match r, hr with
  | .ok x s', hr =>
    refine .ok (y := x) hr.le rfl (hW.related_iff.mpr ⟨rfl, hr.at⟩) (.of_eq fun _ L => ?_)
    rw [at_eq]
  | .error (.raised e) s', hr =>
    refine .raised hr.2.le (show W.admits n A _ e e from ⟨rfl, hr.1⟩)
      (hW.related_iff.mpr ⟨rfl, hr.2.at⟩) (.of_eq fun _ L => ?_)
    rw [at_eq]
  | .error .exhausted s', _ =>
    refine .exhausted (.inr fun m _ => ⟨0, fun L _ => ⟨s', rfl, .inr ?_⟩⟩)
    rw [hW.second_eq]

theorem Keeps.of_follows (hW : W.Exact) {b : Nat → Act ε α} (h : ∀ w', (W.coupling n).le w w' →
      (W.coupling n).Follows (fun _ => True) (W.same n) (W.admits n A) w' a b) (m : Nat) :
    W.Keeps n A w a (b m) := by
  intro s hs
  have h' := h _ hs.le s s (hW.related_iff.mpr ⟨rfl, hs.at⟩)
  simp only [at_eq] at h'
  have hback : ∀ {w' : (W.coupling n).World} {s' : State}, (W.coupling n).le (s.core, s.depth) w' →
      W.At n w' s' → W.Holds n w s' := fun hw hs' =>
    ⟨hs'.inv, hs'.literate, W.trans hs.rel (hs'.core ▸ hw.1),
      (hs'.depth.trans hw.2).trans hs.depth⟩
  generalize a s = r at h'
  cases h' with
  | ok hw hx hs' hc =>
    obtain ⟨rfl, hs'⟩ := hW.related_iff.mp hs'
    obtain ⟨K, hK⟩ := hc
    have e := ((hK K (Nat.le_refl K)).1 m).resolve_right fun h => hW.lags _ _ h.1
    cases hx
    simp only [at_eq] at e
    exact ⟨e, hback hw hs'⟩
  | raised hw he hs' hc =>
    obtain ⟨rfl, hs'⟩ := hW.related_iff.mp hs'
    obtain ⟨K, hK⟩ := hc
    have e := ((hK K (Nat.le_refl K)).1 m).resolve_right fun h => hW.lags _ _ h.1
    obtain ⟨rfl, ha⟩ := he
    simp only [at_eq] at e
    exact ⟨e, ha, hback hw hs'⟩
  | exhausted hc =>
    obtain ⟨K, hK⟩ := hc.resolve_left id m trivial
    obtain ⟨t, e, ht⟩ := hK K (Nat.le_refl K)
    rcases ht with ⟨k, m, hl⟩ | rfl
    · exact absurd hl (hW.lags k m)
    · rw [hW.second_eq] at e
      exact ⟨e, trivial⟩

end Keeps

/-- Actions of a running program that do the same. -/
abbrev KeepsRun {α : Type} (W : Watch) (n : Nat) : State.Core × Nat → Run α → Run α → Prop :=
  W.Keeps n fun e => W.allowed e.cause

theorem KeepsRun.value (hW : W.Exact) {short : Nat → Prop} {a : Run Value} {b : Nat → Run Value}
    (h : ∀ m, W.KeepsRun n w a (b m)) :
    (W.coupling n).Follows short (W.coupling n).value (W.coupling n).fault w a b :=
  (Keeps.follows hW h).imp (fun _ _ _ _ e => value_iff.mpr e) fun _ _ _ _ e => fault_iff.mpr e

theorem KeepsRun.of_value (hW : W.Exact) {a : Run Value} {b : Nat → Run Value}
    (h : ∀ w', (W.coupling n).le w w' →
      (W.coupling n).Follows (fun _ => True) (W.coupling n).value (W.coupling n).fault w' a b)
    (m : Nat) : W.KeepsRun n w a (b m) :=
  .of_follows hW (fun w' hw => (h w' hw).imp (fun _ _ _ _ e => value_iff.mp e)
    fun _ _ _ _ e => fault_iff.mp e) m

end Watch

end TwinLisp
