import TwinLisp.Proofs.Coupling.Programs
import TwinLisp.Proofs.Locals.Mirrors

/-! Evaluation with locals in frames and by name, side by side. Both read and change the same bindings,
and no case ever comes up for which frames or names would not do.

* `Chart.mirroring`: the coupling, whose worlds are charts.
* `Chart.lexical`: all that is done with locals.
* `Chart.prepares`: forms, whose literals may be compiled. -/

namespace TwinLisp

namespace Chart

variable {c d : Chart} {sc : Scopes} {i j : Option Nat} {s t : State}

/-- Locals in frames beside locals by name. -/
def mirroring : Coupling where
  toNearness := .same
  World := Chart
  le := Le
  refl := .refl
  trans := .trans
  ext _ ρ := ρ = .id
  plain _ := ⟨_, rfl, Renaming.plain_id⟩
  anti _ h := h
  limits _ := id
  related := Mirrors
  spent _ s t := t.output = s.output
  spent_anti _ h := h
  lags _ _ := False
  lags_mono _ h := h
  spent_of_related h _ := h.agree State.output fun _ => rfl
  spent_of_lags h := h.elim
  allowed _ := True
  allowed_of_plain _ := trivial
  allowed_thrown _ _ := trivial

theorem literal : mirroring.Literal := fun h => h

theorem value_iff {w : mirroring.World} {x y : Value} : mirroring.value w x y ↔ y = x :=
  literal.value_iff

theorem values_iff {w : mirroring.World} {xs ys : List Value} :
    mirroring.values w xs ys ↔ ys = xs := literal.values_iff

theorem fault_iff {w : mirroring.World} {e e' : RuntimeError} :
    mirroring.fault w e e' ↔ e' = e := (literal.fault_iff trivial).trans (and_iff_left trivial)

@[simp] theorem at_mirroring (L : Nat) (t : State) : mirroring.at_ L t = t := rfl

section Agree

variable {ε α : Type} {short : Nat → Prop} {w : mirroring.World} {X : mirroring.World → ε → ε → Prop}
  {a b : Act ε α}

theorem follows_of_agree (hX : ∀ w e, X w e e) (h : ∀ s t, Mirrors w s t → Agree w (a s) (b t)) :
    mirroring.Follows short mirroring.same X w a fun _ => b := by
  intro s t hst
  have hr := h s t hst
  simp only [at_mirroring]
  generalize a s = r at hr
  generalize b t = q at hr
  cases hr with
  | ok hd h => exact .ok hd rfl h (.of_eq fun _ _ => rfl)
  | raised hd h => exact .raised hd (hX _ _) h (.of_eq fun _ _ => rfl)
  | exhausted h => exact .exhausted (.inr fun _ _ => ⟨0, fun _ _ => ⟨_, rfl, h⟩⟩)

theorem agree_of_follows (hX : ∀ w e e', X w e e' → e' = e)
    (h : mirroring.Follows (fun _ => True) mirroring.same X w a fun _ => b)
    (hst : Mirrors w s t) : Agree w (a s) (b t) := by
  have hr := h s t hst
  generalize a s = r at hr
  cases hr with
  | @ok w' x y s' t' _ hw hx hs hc =>
    obtain ⟨K, hK⟩ := hc
    have e : b t = .ok y t' := (hK K (Nat.le_refl K)).2 K (Nat.le_refl K)
    rw [e, show y = x from hx]
    exact .ok hw hs
  | @raised w' e e' s' t' _ hw he hs hc =>
    obtain ⟨K, hK⟩ := hc
    have h : b t = .error (.raised e') t' := (hK K (Nat.le_refl K)).2 K (Nat.le_refl K)
    rw [h, hX _ _ _ he]
    exact .raised hw hs
  | exhausted hc =>
    obtain ⟨K, hK⟩ := hc.resolve_left id 0 trivial
    obtain ⟨t', e, hspent⟩ := hK K (Nat.le_refl K)
    have h : b t = .error .exhausted t' := e
    rw [h]
    exact .exhausted hspent

theorem Mirrors.agree_blind (hst : c.Mirrors s t) (h : ∀ {F G}, a.Blind (.lexical F G)) :
    Agree c (a s) (a t) := by
  have hs : a s = Act.seen (.lexical s.store.frames s.store.functions) (a s) := h s
  have ht : a t = Act.seen (.lexical t.store.frames t.store.functions) (a s) := by
    rw [← h, State.seen_lexical, ← hst.eq_viewing]
  have hm : ∀ s' : State, c.Mirrors (s'.viewing s.store.frames s.store.functions)
      (s'.viewing t.store.frames t.store.functions) := fun s' =>
    hst.change rfl ⟨rfl, rfl⟩ ⟨rfl, rfl⟩
  rw [hs, ht]
  match a s with
  | .ok x s' => exact .ok (.refl c) (hm s')
  | .error (.raised e) s' => exact .raised (.refl c) (hm s')
  | .error .exhausted s' => exact .exhausted rfl

end Agree

/-- Actions of programs that have the same outcomes. -/
abbrev AgreeOn {α : Type} (w : mirroring.World) (a b : Run α) : Prop :=
  mirroring.Follows (fun _ => True) mirroring.same mirroring.fault w a fun _ => b

theorem agreeOn_blind {α : Type} {w : mirroring.World} {a : Run α}
    (h : ∀ {F G}, a.Blind (.lexical F G)) : AgreeOn w a a :=
  follows_of_agree (fun _ _ => fault_iff.mpr rfl) fun _ _ hst => hst.agree_blind h

theorem agreeOn_value {w : mirroring.World} {a b : Run Value} :
    AgreeOn w a b ↔
      mirroring.Follows (fun _ => True) mirroring.value mirroring.fault w a fun _ => b :=
  ⟨fun h => h.imp (fun _ _ _ _ e => value_iff.mpr e) fun _ _ _ _ e => e,
    fun h => h.imp (fun _ _ _ _ e => value_iff.mp e) fun _ _ _ _ e => e⟩

/-! ## The parts that both have in common -/

theorem shared : mirroring.Shared where
  common := by
    intro c s t (h : c.Mirrors s t)
    refine ⟨h.agree State.names fun _ => rfl, h.agree State.gensyms fun _ => rfl,
      h.agree State.output fun _ => rfl, h.agree (fun s => s.store.raised) fun _ => rfl,
      fun ρ hρ => ?_⟩
    cases (hρ : ρ = .id)
    rw [Definition.rename_id, Array.map_id]
    exact h.agree (fun s => s.store.vars) fun _ => rfl
  change := by
    intro c s t s' t' (h : c.Mirrors s t) hs _ ht hc
    have hv := hc.vars .id rfl
    rw [Definition.rename_id, Array.map_id] at hv
    refine h.change ?_ ⟨by rw [hs], by rw [hs]⟩ ⟨by rw [ht], by rw [ht]⟩
    have e := h.apart
    rw [ht, hs, hv, hc.raised, hc.names, hc.gensyms, hc.output]
    simp only [State.apart, State.viewing, State.mk.injEq, Store.mk.injEq] at e ⊢
    tauto

/-! ## Scopes that are not changed for a while -/

/-- The chart in which a frame is finished. -/
def sealed (c : Chart) (k : Nat) : Chart := { c with growing := c.growing.filter (· ≠ k) }

/-- The chart in which a frame may grow again. -/
def opened (c : Chart) (k : Nat) : Chart := { c with growing := k :: c.growing }

theorem not_mem_sealed (c : Chart) (k : Nat) : k ∉ (c.sealed k).growing := fun h => by
  simpa using (List.mem_filter.mp h).2

theorem le_sealed (c : Chart) (k : Nat) : c.Le (c.sealed k) :=
  ⟨List.prefix_rfl, List.prefix_rfl, fun _ _ hg => ⟨rfl, fun h => hg (List.mem_filter.mp h).1⟩⟩

theorem le_opened {k : Nat} (hk : k ∈ c.growing) (h : (c.sealed k).Le d) : c.Le (d.opened k) := by
  have hle := (c.le_sealed k).trans h
  refine ⟨hle.frames, hle.cells, fun a ha hg => ⟨(hle.finished a ha hg).1, fun hmem => ?_⟩⟩
  rcases List.mem_cons.mp hmem with rfl | hmem
  · exact hg hk
  · exact (hle.finished a ha hg).2 hmem

/-- Which frames may grow does not matter for the states. -/
theorem Mirrors.regrow (m : c.Mirrors s t) (g : List Nat) :
    ({ c with growing := g } : Chart).Mirrors s t := by
  have henv : ∀ {sc i j}, c.Env sc i j → ({ c with growing := g } : Chart).Env sc i j := by
    intro sc i j h
    induction h with
    | outermost => exact .outermost
    | scope _ hk ih => exact .scope ih hk
    | name _ hd ih => exact .name ih hd
  refine { m with function := fun hg => ?_ }
  obtain ⟨sc, j, hf, hp, he⟩ := m.function hg
  exact ⟨sc, j, hf, hp, henv he⟩

/-- A scope takes no names while a value is computed inside it. -/
theorem keeps_follows {short : Nat → Prop} {a : Run Value} {b : Nat → Run Value}
    (hg : c.Growing sc i j) (h : ∀ w, c.Le w → w.Env sc i j →
      mirroring.Follows short mirroring.value mirroring.fault w a b) :
    mirroring.Follows short (fun w x y => mirroring.value w x y ∧ Growing w sc i j)
      mirroring.fault c a b := by
  match sc, i, hg with
  | names :: sc, some k, ⟨he, hk, hsize⟩ =>
  have hle := c.le_sealed k
  intro s t hst
  have hrun := h _ hle (he.mono hle) s t (Mirrors.regrow hst _)
  generalize a s = r at hrun
  cases hrun with
  | @ok w x y s' t' _ hw hx hs hc =>
    have hw : (c.sealed k).Le w := hw
    have hopen := le_opened hk hw
    obtain ⟨_, parent, hk', hframe⟩ := he.depth
    cases hk'
    have hfin := hw.finished k (List.getElem?_eq_some_iff.mp hframe).1 (c.not_mem_sealed k)
    refine .ok hopen ⟨hx, he.mono hopen, List.mem_cons_self, ?_⟩ (Mirrors.regrow hs _)
      (hc.carry (fun _ h => h) (fun _ r => r) (fun _ _ => rfl) fun _ t => ⟨t, rfl⟩)
    exact hfin.1.trans hsize
  | raised hw he hs hc => exact .raised (hle.trans hw) he hs hc
  | exhausted hc => exact .exhausted hc

/-! ## Locals -/

theorem scope_follows {short : Nat → Prop} {other other' : Locals} (h : c.Env sc i j)
    (names : List String) {xs : List Value} (hn : xs.length = names.length) :
    mirroring.Follows short (fun w => Growing w (names.reverse :: sc)) mirroring.fault c
      ((Locals.slotted other).scope i names xs) fun _ =>
        (Locals.named other').scope j names xs := by
  refine .of_step fun s t (hst : c.Mirrors s t) => ?_
  obtain ⟨d, t', j', hle, hrun, hm, hg⟩ := hst.names h (names.zip xs)
  rw [List.map_fst_zip (Nat.le_of_eq hn.symm)] at hg
  rw [List.map_snd_zip (Nat.le_of_eq hn)] at hm
  refine ⟨d, _, j', _, t', hle, ?_, fun _ _ => ?_, hg, hm⟩
  · simp only [Locals.slotted, hn, if_true]
    rfl
  · simp only [Locals.named, hn, if_true]
    exact hrun

theorem bind_follows {short : Nat → Prop} {other other' : Locals} {names : List String}
    (h : c.Growing (names :: sc) i j) (name : String) (x : Value) :
    mirroring.Follows short (fun w => Growing w ((name :: names) :: sc)) mirroring.fault c
      ((Locals.slotted other).bind i name x) fun _ => (Locals.named other').bind j name x := by
  refine .of_step fun s t (hst : c.Mirrors s t) => ?_
  obtain ⟨k, rfl, hle, hm, hg⟩ := hst.name h name x
  exact ⟨_, _, _, _, _, hle, rfl, fun _ _ => rfl, hg, hm⟩

theorem read_follows {short : Nat → Prop} {other other' : Locals} (h : c.Env sc i j) {b : Binding}
    (hb : sc.find? b.name = some b) (span : Span) :
    mirroring.Follows short mirroring.value mirroring.fault c
      ((Locals.slotted other).read b span i) fun _ => (Locals.named other').read b span j := by
  refine .of_step fun s t (hst : c.Mirrors s t) => ?_
  obtain ⟨k, d, e, v, rfl, hd, hholder, hindex, hslot, hcell, hvalue⟩ := h.found hst hb
  have hlocal : s.store.local? k b = some v := by
    rw [Store.local?, hholder, Option.bind_some, hindex, hslot]
  have hnamed : t.store.named? b.name j = some v := by
    rw [Store.named?, hcell, Option.bind_some, hvalue]
  refine ⟨c, v, v, s, t, .refl c, ?_, fun _ _ => ?_, value_iff.mpr rfl, hst⟩
  · simp only [Locals.slotted, Act.bind_apply, Act.askStore, Option.bind_some, hlocal]
    rfl
  · simp only [Locals.named, Act.bind_apply, Act.askStore, Coupling.at_store, hnamed]
    rfl

theorem write_follows {short : Nat → Prop} {other other' : Locals} (h : c.Env sc i j) {b : Binding}
    (hb : sc.find? b.name = some b) (span : Span) (x : Value) :
    mirroring.Follows short mirroring.same mirroring.fault c
      ((Locals.slotted other).write b span i x) fun _ =>
        (Locals.named other').write b span j x := by
  refine .of_step fun s t (hst : c.Mirrors s t) => ?_
  obtain ⟨k, d, e, v, rfl, hd, hholder, hindex, -, hcell, -⟩ := h.found hst hb
  refine ⟨c, (), (), _, _, .refl c, ?_, fun _ _ => ?_, rfl, hst.set hd x⟩
  · simp only [Locals.slotted, Act.bind_apply, Act.askStore, Option.bind_some, hholder, hindex]
    rfl
  · simp only [Locals.named, Act.bind_apply, Act.askStore, Coupling.at_store, hcell]
    rfl

theorem make_follows {short : Nat → Prop} (h : c.Env sc i j) {f : FnLiteral Expr}
    (hf : f.Parsed rules sc) :
    mirroring.Follows short mirroring.value mirroring.fault c (Eval.makeFunction f i) fun _ =>
      Eval.makeFunction f j := by
  refine .of_step fun s t (hst : c.Mirrors s t) => ?_
  unfold Eval.makeFunction
  cases f.compiled with
  | some p =>
    have hc := hst.agree (fun s => s.store.closures) fun _ => rfl
    refine ⟨c, _, .closure s.store.closures.size p.name, _,
      { t with store := (t.store.newClosure ⟨p, #[]⟩).2 }, .refl c, rfl, fun _ _ => ?_,
      value_iff.mpr rfl,
      hst.blind (f := fun s => { s with store := (s.store.newClosure ⟨p, #[]⟩).2 }) fun _ _ _ => rfl⟩
    rw [← hc]
    rfl
  | none =>
    refine ⟨c, _, .fn s.store.functions.size f.displayName, _,
      { t with store := (t.store.newFunction ⟨f, j⟩).2 }, .refl c, rfl, fun _ _ => ?_,
      value_iff.mpr rfl, hst.newFunction h hf⟩
    rw [← hst.functions]
    rfl

/-- All that evaluation does with locals. Other locals are never asked. -/
def lexical (other other' : Locals) : mirroring.Scoped where
  rules := rules
  erase := id
  first := .slotted other
  second := .named other'
  lax := False
  formed := .inr fun hf => hf.literal
  env := Env
  env_mono := Env.mono
  growing := Growing
  env_of_growing := Growing.env
  scope := by
    rintro _ w _ _ _ _ _ names h hx hn
    cases values_iff.mp hx
    exact scope_follows h names (hn.resolve_left id)
  bind := by
    rintro _ w _ _ _ _ _ _ name h hx
    cases value_iff.mp hx
    exact bind_follows h name _
  keeps := keeps_follows
  read h hb span := read_follows h hb span
  write := by
    rintro _ w _ _ _ _ _ _ h hb span hx
    cases value_iff.mp hx
    exact write_follows h hb span _
  stray h := h.elim
  make h hf := by
    rw [FnLiteral.mapBytecode_id]
    exact make_follows h hf

/-- A call of an interpreted function. -/
def descent (other other' : Locals) :
    Coupling.Descent (lexical other other') (lexical other other') where
  rules := rfl
  erase := rfl
  limits := rfl
  allowed h := h
  near h := h
  excused h := h
  deeper := id
  ext_deeper h := h
  env_deeper h := h
  depth h := ⟨Mirrors.agree h State.depth fun _ => rfl,
    Mirrors.agree h (fun s => s.config.maxDepth) fun _ => rfl⟩
  enter h _ := Mirrors.blind h (f := fun s => { s with depth := s.depth + 1 }) fun _ _ _ => rfl
  leave {_ w' _ _} hw h := ⟨w', hw, fun _ h => h, fun _ h => h,
    Mirrors.blind h (f := fun s => { s with depth := s.depth - 1 }) fun _ _ _ => rfl⟩
  leave_spent h := h

/-! ## Forms -/

theorem parsed_of_bare {e : Expr} {sc : Scopes} {p : Position} (he : e.Parsed .bare sc p) :
    e.Parsed rules sc p := by
  have hl : ∀ sc f, Expr.Rules.bare.literal sc f → rules.literal sc f := fun _ _ h => h.2
  exact Expr.Parsed.imp hl (fun h => h) e he

/-- Bytecode does not matter for the rules. -/
theorem prepared_parsed {e : Expr} (he : e.Parsed .bare [] .top) (s : State) :
    ∃ e' s', (State.prepared e : Run Expr) s = .ok e' s' ∧ e'.Parsed rules [] .top := by
  have hprep : Traced.Yields e.annotate fun e' => e'.Parsed rules [] .top :=
    (Expr.annotate_parsed (R := .bare) (T := rules) (fun _ _ h => h.1)
      (fun _ _ _ h _ halike => halike.formed h.2) (fun h => h)
      (fun _ _ _ h _ _ => h.literal.2) e he).imp fun _ h => h.1
  unfold State.prepared
  split
  · exact ⟨_, _, rfl, hprep []⟩
  · exact ⟨_, _, rfl, parsed_of_bare he⟩

theorem prepares (other other' : Locals) : mirroring.Prepares (lexical other other') where
  mode h := Mirrors.agree h State.mode fun _ => rfl
  outermost _ := .outermost
  bare he := ⟨(Expr.mapBytecode_id _).symm, parsed_of_bare he⟩
  prepared := by
    intro short e he w s t hst
    have hagree := Mirrors.agree_blind hst (State.blind_prepared rfl e)
    obtain ⟨e', s', hs, hp⟩ := prepared_parsed he s
    simp only [at_mirroring]
    rw [hs] at hagree ⊢
    generalize (State.prepared e : Run Expr) t = q at hagree
    cases hagree with
    | ok hd h => exact .ok hd ⟨(Expr.mapBytecode_id _).symm, hp⟩ h (.of_eq fun _ _ => rfl)

end Chart

end TwinLisp
