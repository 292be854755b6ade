import TwinLisp.Proofs.Coupling.Programs
import TwinLisp.Proofs.Variables.Runs

/-! Interpreters on both machines, side by side. All that evaluation does besides running code from the
compiler is the same in both, since it does not look at what the machines work on.

* `Place`: where both are.
* `Mirrors.act`: what does not look at the machines is done alike.
* `coupling`: interpreters side by side, inside a number of calls of interpreted functions.
* `follows_of_reflects`, `answers_of_calls`: what the runs on the machines have to do with it. -/

namespace TwinLisp

/-- The state with other cells and compiled functions, and another machine that is parked. -/
def State.recast (cells : Array Cell) (closures : Array Closure) (parked : Option Machine)
    (s : State) : State :=
  { s with store := { s.store with cells := cells, closures := closures }, parked := parked }

namespace Machine.Ideal

open Act Typed

variable {limits : Limits} {maxDepth n : Nat} {ρ : List Nat} {fs' : Array Activation} {s t : State}

/-! ## Changes that both have in common -/

namespace Mirrors

variable (h : Mirrors ρ fs' s t)

include h

theorem eq_recast : t = s.recast t.store.cells t.store.closures t.parked :=
  h.rest.trans (congrArg (fun k : Store => { s with store := k, parked := t.parked })
    h.doubles.store)

theorem store : t.store = { s.store with cells := t.store.cells, closures := t.store.closures } :=
  h.doubles.store

theorem act {f : State → State}
    (hf : ∀ C K P (s : State), f (s.recast C K P) = (f s).recast C K P) :
    Mirrors ρ fs' (f s) (f t) := by
  have hs : f s = (f s).recast s.store.cells s.store.closures s.parked := hf _ _ _ s
  have ht : f t = (f s).recast t.store.cells t.store.closures t.parked := by
    conv_lhs => rw [h.eq_recast, hf]
  rw [hs, ht]
  exact {
    rest := rfl
    there := h.there
    frames := h.frames
    stacked := h.stacked
    doubles := { h.doubles with store := rfl } }

theorem config : t.config = s.config := by rw [h.eq_recast]; rfl

theorem report (p : Config → Prop) [DecidablePred p] (f : List String → List String) :
    Mirrors ρ fs' (if p s.config then { s with reports := f s.reports } else s)
      (if p t.config then { t with reports := f t.reports } else t) := by
  by_cases hp : p s.config
  · rw [if_pos hp, if_pos (h.config ▸ hp)]
    exact h.act (f := fun s => { s with reports := f s.reports }) fun _ _ _ _ => rfl
  · rw [if_neg hp, if_neg (h.config ▸ hp)]
    exact h

theorem newClosure (p : Proto) :
    Mirrors ρ fs' { s with store := (s.store.newClosure ⟨p, #[]⟩).2 }
      { t with store := (t.store.newClosure ⟨p, #[]⟩).2 } :=
  { h with
    rest := congrArg (fun u : State => { u with
      store := (t.store.newClosure ⟨p, #[]⟩).2
      parked := t.parked }) h.rest
    doubles := h.doubles.newClosure ⟨rfl, rfl, nofun⟩ }

end Mirrors

/-! ## The coupling -/

/-- Where interpreters side by side are: what the machine of the first works on, the depth of calls,
what the cells stand for, and the frames of the second. -/
structure Place where
  core : State.Core
  depth : Nat
  cells : List Nat
  frames : Array Activation

namespace Place

/-- What a call changes. -/
structure Le (v w : Place) : Prop where
  core : Returned v.core w.core
  depth : w.depth = v.depth
  cells : v.cells <+: w.cells
  frames : w.frames = v.frames

variable {u v w : Place}

theorem Le.refl (w : Place) : w.Le w :=
  ⟨⟨rfl, rfl, .refl _, fun h => h⟩, rfl, List.prefix_rfl, rfl⟩

theorem Le.trans (h : u.Le v) (h' : v.Le w) : u.Le w :=
  ⟨⟨h'.core.limits.trans h.core.limits, h'.core.maxDepth.trans h.core.maxDepth,
    h.core.restored.trans h'.core.restored, fun hs => h'.core.there (h.core.there hs)⟩,
    h'.depth.trans h.depth, h.cells.trans h'.cells, h'.frames.trans h.frames⟩

end Place

/-- Interpreters side by side at a place. -/
structure Meeting (limits : Limits) (maxDepth n : Nat) (w : Place) (s t : State) : Prop where
  first : (intact limits maxDepth).At n (w.core, w.depth) s
  mirrors : Mirrors w.cells w.frames s t

/-- Interpreters side by side that have come there from a place. -/
def Met (limits : Limits) (maxDepth n : Nat) (w : Place) (s t : State) : Prop :=
  ∃ w', w.Le w' ∧ Meeting limits maxDepth n w' s t

/-- An interpreter on the machine beside one on the ideal machine. -/
def coupling (limits : Limits) (maxDepth n : Nat) : Coupling where
  toNearness := .same
  World := Place
  le := Place.Le
  refl := .refl
  trans := .trans
  ext _ ρ := ρ = .id
  plain _ := ⟨_, rfl, Renaming.plain_id⟩
  anti _ h := h
  limits _ := id
  related := Meeting limits maxDepth n
  spent _ _ _ := True
  spent_anti _ _ := trivial
  lags _ _ := False
  lags_mono _ h := h
  spent_of_related _ _ := trivial
  spent_of_lags _ _ _ _ := trivial
  allowed _ := True
  allowed_of_plain _ := trivial
  allowed_thrown _ _ := trivial

variable {w : Place}

theorem literal : (coupling limits maxDepth n).Literal := fun h => h

theorem value_iff {w : (coupling limits maxDepth n).World} {x y : Value} :
    (coupling limits maxDepth n).value w x y ↔ y = x := literal.value_iff

theorem values_iff {w : (coupling limits maxDepth n).World} {xs ys : List Value} :
    (coupling limits maxDepth n).values w xs ys ↔ ys = xs := literal.values_iff

theorem fault_iff {w : (coupling limits maxDepth n).World} {e e' : RuntimeError} :
    (coupling limits maxDepth n).fault w e e' ↔ e' = e :=
  (literal.fault_iff trivial).trans (and_iff_left trivial)

@[simp] theorem at_coupling (L : Nat) (t : State) : (coupling limits maxDepth n).at_ L t = t := rfl

/-- What is left of what was watched is a place to go on from. -/
theorem met_of_holds (hs : (intact limits maxDepth).Holds n (w.core, w.depth) s)
    (hm : Mirrored w.cells w.frames s t) : Met limits maxDepth n w s t := by
  obtain ⟨ρ', hρ, hm⟩ := hm
  exact ⟨⟨s.core, s.depth, ρ', w.frames⟩, ⟨hs.rel, hs.depth, hρ, rfl⟩, hs.at, hm⟩

theorem Met.holds (h : Met limits maxDepth n w s t) :
    (intact limits maxDepth).Holds n (w.core, w.depth) s ∧ Mirrored w.cells w.frames s t := by
  obtain ⟨w', hw, hm⟩ := h
  have hrel : Returned w.core s.core := by
    rw [hm.first.core]
    exact hw.core
  exact ⟨⟨hm.first.inv, hm.first.literate, hrel, hm.first.depth.trans hw.depth⟩, w'.cells,
    hw.cells, hw.frames ▸ hm.mirrors⟩

theorem Met.of_le (h : Met limits maxDepth n w s t) {v : Place} (hv : v.Le w) :
    Met limits maxDepth n v s t := by
  obtain ⟨w', hw, hm⟩ := h
  exact ⟨w', hv.trans hw, hm⟩

/-- Actions of interpreters side by side that come to the same follow each other. -/
theorem follows_of_reflects {short : Nat → Prop} {x y : Run Value}
    (h : Reflects (intact limits maxDepth) n (w.core, w.depth) w.cells w.frames x y) :
    (coupling limits maxDepth n).Follows short (coupling limits maxDepth n).value
      (coupling limits maxDepth n).fault w x fun _ => y := by
  intro s t hst
  have hrun := h s t ⟨hst.first.holds, hst.mirrors⟩
  simp only [at_coupling]
  refine hrun.elim (fun u v s' t' hq => ?_) (fun e s' t' hq => ?_) fun s' t' => ?_
  · obtain ⟨rfl, hs, hm⟩ := hq
    obtain ⟨w', hw, hm⟩ := met_of_holds hs hm
    exact .ok hw (value_iff.mpr rfl) hm (.of_eq fun _ _ => rfl)
  · obtain ⟨w', hw, hm⟩ := met_of_holds hq.1 hq.2
    exact .raised hw (fault_iff.mpr rfl) hm (.of_eq fun _ _ => rfl)
  · exact .exhausted (.inr fun _ _ => ⟨0, fun _ _ => ⟨t', rfl, trivial⟩⟩)

theorem joint_of_follows {ε α : Type} {V : Place → α → α → Prop} {X : Place → ε → ε → Prop}
    {x y : Act ε α} (hV : ∀ w u v, V w u v → v = u) (hX : ∀ w e e', X w e e' → e' = e)
    (h : (coupling limits maxDepth n).Follows (fun _ => True) V X w x fun _ => y)
    (hst : Meeting limits maxDepth n w s t) :
    Joint (fun u v s t => v = u ∧ Met limits maxDepth n w s t) (Met limits maxDepth n w) (x s)
      (y t) := by
  have hrun := h s t hst
  simp only [at_coupling] at hrun
  generalize x s = r at hrun
  cases hrun with
  | @ok w' u v s' t' _ hw hx hs hc =>
    obtain ⟨K, hK⟩ := hc
    have e : y t = .ok v t' := (hK K (Nat.le_refl K)).2 K (Nat.le_refl K)
    rw [e]
    exact ⟨hV _ _ _ hx, w', hw, hs⟩
  | @raised w' e e' s' t' _ hw he hs hc =>
    obtain ⟨K, hK⟩ := hc
    have h : y t = .error (.raised e') t' := (hK K (Nat.le_refl K)).2 K (Nat.le_refl K)
    rw [h]
    exact ⟨hX _ _ _ he, w', hw, hs⟩
  | exhausted hc =>
    obtain ⟨K, hK⟩ := hc.resolve_left id 0 trivial
    obtain ⟨t', e, -⟩ := hK K (Nat.le_refl K)
    rw [show y t = .error .exhausted t' from e]
    trivial

theorem answers_of_calls {c c' : Caller}
    (h : (coupling limits maxDepth n).Calls (fun _ => True) c fun _ => c') :
    Answers (intact limits maxDepth) n c c' := by
  rintro v ρ fs' f args s t ⟨hs, hm⟩
  let w : Place := ⟨s.core, s.depth, ρ, fs'⟩
  have hst : Meeting limits maxDepth n w s t := ⟨hs.at, hm⟩
  have hv : (⟨v.1, v.2, ρ, fs'⟩ : Place).Le w := ⟨hs.rel, hs.depth, List.prefix_rfl, rfl⟩
  have hcall := h w f f args args (value_iff.mpr rfl) (values_iff.mpr rfl)
  exact (joint_of_follows (fun _ _ _ => value_iff.mp) (fun _ _ _ => fault_iff.mp) hcall hst).imp
    (fun _ _ _ _ hq => ⟨hq.1, (hq.2.of_le hv).holds⟩) fun _ _ hq => (hq.of_le hv).holds

/-! ## The parts that both have in common -/

theorem related_of_common {s t s' t' : State} (h : (coupling limits maxDepth n).related w s t)
    (hs : s.Besides s') (ht : t.Besides t')
    (hc : (coupling limits maxDepth n).Common w s' t') :
    (coupling limits maxDepth n).related w s' t' := by
  have hv := hc.vars .id rfl
  rw [Definition.rename_id, Array.map_id] at hv
  let f : State → State := fun u => { u with
    store := { u.store with vars := s'.store.vars, raised := s'.store.raised }
    names := s'.names
    gensyms := s'.gensyms
    output := s'.output }
  have hs' : s' = f s := hs
  have ht' : t' = f t := by
    rw [ht, hv, hc.raised, hc.names, hc.gensyms, hc.output]
  refine ⟨?_, ?_⟩
  · rw [hs]
    exact ⟨h.first.inv, h.first.literate, h.first.core, h.first.depth⟩
  · rw [hs', ht']
    exact h.mirrors.act fun _ _ _ _ => rfl

theorem shared : (coupling limits maxDepth n).Shared where
  common := by
    intro w s t h
    have e := h.mirrors.eq_recast
    refine ⟨by rw [e]; rfl, by rw [e]; rfl, by rw [e]; rfl, by rw [e]; rfl, fun ρ hρ => ?_⟩
    cases (hρ : ρ = .id)
    rw [Definition.rename_id, Array.map_id, e]
    rfl
  change h hs _ ht hc := related_of_common h hs ht hc

/-! ## What evaluation does with locals -/

variable {short : Nat → Prop}

/-- Locals whose actions see and change frames alone. -/
structure OnFrames (L : Locals) : Prop where
  scope : ∀ i names xs, Watch.OnFrames (L.scope i names xs)
  bind : ∀ i name x, Watch.OnFrames (L.bind i name x)
  read : ∀ b span i, Watch.OnFrames (L.read b span i)
  write : ∀ b span i x, Watch.OnFrames (L.write b span i x)
  stray : ∀ xs span, Watch.OnFrames (L.stray xs span)

theorem onFrames_framed : OnFrames .framed where
  scope := Watch.onFrames_scope
  bind := Watch.onFrames_bind
  read := Watch.onFrames_read
  write := Watch.onFrames_write
  stray _ span := Watch.onFrames_failAt (RuntimeFault.plain_general (by decide)) span

theorem onFrames_follows {α : Type} {a : Run α} (h : Watch.OnFrames a)
    {V : Place → α → α → Prop} (hV : ∀ x, V w x x) :
    (coupling limits maxDepth n).Follows short V (coupling limits maxDepth n).fault w a
      fun _ => a := by
  obtain ⟨f, e, -, hf, h⟩ := h
  intro s t hst
  have hstore : f t.store = f s.store := by
    rw [hst.mirrors.store]
    exact hf _ _ _
  simp only [h, at_coupling, hstore]
  cases f s.store with
  | some r =>
    have hm := hst.mirrors.act (f := fun s => { s with store := { s.store with frames := r.2 } })
      fun _ _ _ _ => rfl
    exact .ok (.refl w) (hV r.1) ⟨hst.first.frames r.2, hm⟩ (.of_eq fun _ _ => rfl)
  | none => exact .raised (.refl w) (fault_iff.mpr rfl) hst (.of_eq fun _ _ => rfl)

theorem make_follows {sc : Scopes} {f : FnLiteral Expr}
    (hf : f.Parsed (.storing Compiled True) sc) (i : Option Nat) :
    (coupling limits maxDepth n).Follows short (coupling limits maxDepth n).value
      (coupling limits maxDepth n).fault w (Eval.makeFunction f i) fun _ =>
        Eval.makeFunction f i := by
  refine .of_step fun s t hst => ?_
  unfold Eval.makeFunction
  cases hc : f.compiled with
  | some p =>
    have hp : (intact limits maxDepth).good sc f p := hf.literal p hc
    have hm : Returned w.core { w.core with closures := w.core.closures.push ⟨p, #[]⟩ } :=
      ⟨rfl, rfl, .refl _, fun h => h⟩
    have hsize := hst.mirrors.doubles.functions
    refine ⟨{ w with core := { w.core with closures := w.core.closures.push ⟨p, #[]⟩ } }, _, _, _,
      { t with store := (t.store.newClosure ⟨p, #[]⟩).2 }, ⟨hm, rfl, List.prefix_rfl, rfl⟩, rfl,
      fun _ _ => ?_, value_iff.mpr rfl, hst.first.newClosure hp, hst.mirrors.newClosure p⟩
    show EStateM.Result.ok (Value.closure t.store.closures.size p.name) _ = _
    rw [hsize]
    rfl
  | none =>
    have hsize : t.store.functions.size = s.store.functions.size := by rw [hst.mirrors.store]
    refine ⟨w, _, _, _, { t with store := (t.store.newFunction ⟨f, i⟩).2 }, .refl w, rfl,
      fun _ _ => ?_, value_iff.mpr rfl, hst.first.newFunction hf i,
      hst.mirrors.act (f := fun s => { s with store := (s.store.newFunction ⟨f, i⟩).2 })
        fun _ _ _ _ => rfl⟩
    show EStateM.Result.ok (Value.fn t.store.functions.size f.displayName) _ = _
    rw [hsize]
    rfl

variable {L : Locals}

/-- Both have the same frames, whatever is in them. -/
def lexical (hL : OnFrames L) (limits : Limits) (maxDepth n : Nat) :
    (coupling limits maxDepth n).Scoped where
  rules := .storing Compiled True
  erase := id
  first := L
  second := L
  lax := True
  formed := .inl trivial
  env _ _ i j := i = j
  env_mono _ h := h
  growing _ _ i j := i = j
  env_of_growing h := h
  scope := by
    rintro _ w _ i _ xs _ names rfl hx -
    cases values_iff.mp hx
    exact onFrames_follows (hL.scope i names xs) fun _ => rfl
  bind := by
    rintro _ w _ i _ _ x _ name rfl hx
    cases value_iff.mp hx
    exact onFrames_follows (hL.bind i name x) fun _ => rfl
  keeps := by
    rintro _ w _ i _ a b rfl h
    exact (h w (.refl w) rfl).imp (fun _ _ _ _ hx => ⟨hx, rfl⟩) fun _ _ _ _ he => he
  read := by
    rintro _ w _ i _ b rfl - span
    exact onFrames_follows (hL.read b span i) fun _ => value_iff.mpr rfl
  write := by
    rintro _ w _ i _ b x _ rfl - span hx
    cases value_iff.mp hx
    exact onFrames_follows (hL.write b span i x) fun _ => rfl
  stray := by
    rintro - _ w xs _ hx span
    cases values_iff.mp hx
    exact onFrames_follows (hL.stray xs span) fun _ => value_iff.mpr rfl
  make := by
    rintro _ w _ i _ f rfl hf
    rw [FnLiteral.mapBytecode_id]
    exact make_follows hf i

/-- Inside a call of an interpreted function. -/
def descent (hL : OnFrames L) (limits : Limits) (maxDepth n : Nat) :
    Coupling.Descent (lexical hL limits maxDepth n) (lexical hL limits maxDepth (n + 1)) where
  rules := rfl
  erase := rfl
  limits := rfl
  allowed h := h
  near h := h
  excused h := h
  deeper w := { w with depth := w.depth + 1 }
  ext_deeper h := h
  env_deeper h := h
  depth h := by
    rw [h.mirrors.eq_recast]
    exact ⟨rfl, rfl⟩
  enter h hd := ⟨((Watch.descent (intact limits maxDepth) n).enter ⟨rfl, h.first⟩ hd).2,
    h.mirrors.act (f := fun s => { s with depth := s.depth + 1 }) fun _ _ _ _ => rfl⟩
  leave {w w' s t} hw h := by
    have hle : ((intact limits maxDepth).coupling (n + 1)).le
        ((Watch.descent (intact limits maxDepth) n).deeper (w.core, w.depth))
        (w'.core, w'.depth) := ⟨hw.core, hw.depth⟩
    obtain ⟨v, hv, -, -, -, hs⟩ :=
      (Watch.descent (intact limits maxDepth) n).leave hle ⟨rfl, h.first⟩
    exact ⟨⟨v.1, v.2, w'.cells, w'.frames⟩, ⟨hv.1, hv.2, hw.cells, hw.frames⟩, fun _ h => h,
      fun _ h => h, hs,
      h.mirrors.act (f := fun s => { s with depth := s.depth - 1 }) fun _ _ _ _ => rfl⟩
  leave_spent _ := trivial

/-! ## Forms -/

theorem prepared_eq (e : Expr) (s : State) : (State.prepared e : Run Expr) s =
    .ok (if s.config.vmEnabled then (e.annotate.run []).1 else e)
      (if s.config.vmEnabled ∧ s.config.traced then
        { s with reports := (e.annotate.run []).2 ++ s.reports }
      else s) := by
  unfold State.prepared
  by_cases hv : s.config.vmEnabled
  · simp only [hv, if_true, true_and]
    rfl
  · rw [if_neg hv, if_neg hv, if_neg fun h => hv h.1]

theorem prepares (hL : OnFrames L) :
    (coupling limits maxDepth n).Prepares (lexical hL limits maxDepth n) where
  mode h := by rw [h.mirrors.eq_recast]; rfl
  outermost _ := rfl
  bare he := ⟨(Expr.mapBytecode_id _).symm, he.storing⟩
  prepared := by
    intro short e he w
    refine .of_step fun s t hst => ?_
    obtain ⟨e', s', hs, -, hp, hat⟩ := Watch.prepared_at he hst.first
    rw [prepared_eq] at hs
    obtain ⟨he', hs'⟩ := EStateM.Result.ok.inj hs
    have hm := hst.mirrors.report (fun c => c.vmEnabled ∧ c.traced) ((e.annotate.run []).2 ++ ·)
    refine ⟨w, e', e', s', _, .refl w, (prepared_eq e s).trans (by rw [he', hs']), fun _ _ => ?_,
      ⟨(Expr.mapBytecode_id _).symm, hp⟩, hat, hs' ▸ hm⟩
    rw [at_coupling, prepared_eq, hst.mirrors.config, he', at_coupling]

theorem report_follows (e : CompileError) :
    (coupling limits maxDepth n).Follows short (coupling limits maxDepth n).same
      (coupling limits maxDepth n).fault w (Session.reportFallback e)
      fun _ => Session.reportFallback e := by
  refine .update (fun s t hst => ⟨w, .refl w, ⟨?_, ?_⟩, rfl⟩) fun _ _ => rfl
  · split
    · exact ⟨hst.first.inv, hst.first.literate, hst.first.core, hst.first.depth⟩
    · exact hst.first
  · exact hst.mirrors.report (fun c => c.traced = true) (_ :: ·)

end Machine.Ideal

end TwinLisp
