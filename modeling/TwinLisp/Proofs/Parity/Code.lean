import TwinLisp.Proofs.Parity.Slots

/-! What compiled code does, beside the expressions it was compiled from.

* `Stands`: where both are between two instructions.
* `Yields`, `Arrives`: where the machine is when the first has a value or an answer.
* `CallsInCode`: calls that compiled code makes.
* `flow_comes`: the code of an expression. -/

namespace TwinLisp

theorem Declares.height {names : List String} {σ τ : Shape} (h : Declares names σ τ) :
    τ.height = σ.height + names.length := by
  induction h with
  | nil => rfl
  | @cons names σ _ v _ _ ih =>
    rw [ih, List.length_cons, show (σ.bind v).height = σ.height + 1 from rfl]
    omega

theorem LaysBindings.declares {q : Proto} {outer : List Scene} {T : Option Target} {σ τ : Shape} {k : Nat}
    {bs : List (Bound Expr)} {a : Nat}
    (h : LaysBindings q outer T σ bs k a τ) : Declares (bs.map Bound.name) σ τ := by
  induction bs generalizing σ k with
  | nil =>
    cases h
    exact .nil
  | cons b rest ih =>
    cases h with
    | cons h hs hr => exact .cons hs (ih hr)

/-- Natives that are instructions are told apart by their texts. -/
theorem Intrinsic.eq_of_text {op op' : Native} {j : Nat} {o : Opcode} (h : Intrinsic op j o)
    (ht : op'.text = op.text) : op' = op := by
  cases h <;> cases op' <;> first | rfl | exact absurd ht (by decide)

namespace Parity

open Machine Machine.Ideal Eval

/-- The engine of the first at a level. -/
def first (text : String) (n : Nat) : Engine := .strict (.named .framed) text n

/-- Fuel that is used up by as many levels of calls, whatever each of them does in rounds. -/
def cost : Nat → Nat
  | 0 => 1
  | m + 1 => cost m + m + 1

/-- Fuel for calls and instructions with which the second does not come further than the first at a
level. -/
def scarce (n m N : Nat) : Prop := cost m + N ≤ n

theorem scarce_fewer {n : Nat} (m N N' : Nat) (h : scarce n m N) (hN : N' ≤ N) : scarce n m N' := by
  unfold scarce at h ⊢
  omega

theorem cost_pos (m : Nat) : 0 < cost m := by
  cases m <;> simp [cost]

/-- Where both are between two instructions. -/
structure Stands (good : Var → Bool) (d : Nat) (w : Ties) (P : Posture)
    (outer : List Scene) (i : Option Nat) (sc : Scopes) (ks : Owned) (σ : Shape) (k : Nat)
    (cs : List Nat) (vs : List Value) (s t : State) : Prop where
  at_ : P.At k cs vs t
  height : cs.length = σ.height
  inside : Inside w P outer i sc ks σ.locals cs
  bonds : Bonds w s t
  natives : ∀ v, good v = true → w.natives v
  depth : s.depth = d
  depth' : t.depth = d

/-- There is one more value on the stack, in a cell about which nothing is known yet. -/
def Yields (P : Posture) (m : Nat) (cs : List Nat) (w : Ties) (x : Value) (t : State) : Prop :=
  ∃ vs c y, P.At m (cs ++ [c]) (vs ++ [y]) t ∧ w.Free c ∧ w.Sends x y

/-- The machine after an expression, or where it jumps back to the beginning of a body. -/
inductive Arrives (P : Posture) (T : Option Target) (m : Nat) (cs : List Nat) (p : Position) (w : Ties) :
    Flow → State → Prop
  | value {x t} (h : Yields P m cs w x t) : Arrives P T m cs p w (.value x) t
  | again {target k d vs ds xs us t} (ht : T = some target) (hp : p.tail = true)
    (ha : p.recurArity = some xs.length) (hi : P.proto.Has k .loop d) (hd : target.start + d = k + 3)
    (hat : P.At k (cs.take target.firstSlot ++ ds) (vs ++ us) t) (hfree : ∀ c ∈ ds, w.Free c)
    (hn : ds.Nodup) (hlen : ds.length = us.length) (hx : w.SendsAll xs us) :
    Arrives P T m cs p w (.again xs) t

/-- The values of several expressions are on the stack. -/
def YieldsAll (P : Posture) (m : Nat) (cs : List Nat) (n : Nat) (acc : List Value) (w : Ties)
    (xs : List Value) (t : State) : Prop :=
  ∃ vs ds xs' us, xs = acc.reverse ++ xs' ∧ xs'.length = n ∧ P.At m (cs ++ ds) (vs ++ us) t ∧
    ds.length = us.length ∧ w.SendsAll xs' us

/-- What a call in compiled code comes to. -/
def CallsInCode (text : String) (n : Nat) : Prop :=
  ∀ {w : Ties} {s t : State} {P : Posture} {entry d k : Nat} {cs ds : List Nat} {vs xs us : List Value}
    {f g : Value} {span : Span}, P.At k (cs ++ ds) (vs ++ g :: us) t → cs.length = vs.length →
    P.proto.Has k .call us.length → P.proto.Placed k span → span.known = true → Bonds w s t →
    s.depth = d → t.depth = d → (∀ c ∈ cs, w.Held c) → w.Sends f g → w.SendsAll xs us →
    entry ≤ P.frames.size →
    Comes text (scarce n) entry P d (Yields P (k + 2) cs) w
      (Act.within span ((first text n).call f xs) s) t

variable {text : String} {n : Nat} {good : Var → Bool} {d entry : Nat}
  {w w' : Ties} {P : Posture} {outer : List Scene} {i : Option Nat} {sc : Scopes} {ks : Owned} {σ τ : Shape}
  {k m : Nat} {cs : List Nat} {vs : List Value} {s t u t' : State} {T : Option Target} {p : Position}

theorem free_of_fresh (h : Bonds w s t) {news : List Value} {c : Nat}
    (hc : c ∈ Posture.fresh news t) : w.Free c :=
  h.free (List.mem_range'_1.mp hc).1

namespace Posture

theorem Lands.yields {y x : Value} (h : P.Lands entry k cs vs [y] t u t') (hb : Bonds w s u)
    (hx : w.Sends x y) : Yields P k cs w x t' :=
  ⟨vs, u.store.cells.size, y, h.at_, hb.free (Nat.le_refl _), hx⟩

theorem Lands.comes {short : Nat → Nat → Prop} {y x : Value}
    (h : P.Lands entry k cs vs [y] t u t') (hb : Bonds w s u) (hx : w.Sends x y)
    (hd : s.depth = d) (hd' : u.depth = d) :
    Comes text short entry P d (Yields P k cs) w (.ok x s) t :=
  .ok (.refl w) (h.steps.leads.weaken (Nat.zero_le _)) (h.yields hb hx) (hb.enlarge h.enlarged) hd
    (h.depth.trans hd')

theorem Lands.flow {short : Nat → Nat → Prop} {y x : Value}
    (h : P.Lands entry k cs vs [y] t u t') (hb : Bonds w s u) (hx : w.Sends x y)
    (hd : s.depth = d) (hd' : u.depth = d) :
    Comes text short entry P d (Arrives P T k cs p) w (.ok (.value x) s) t :=
  .ok (.refl w) (h.steps.leads.weaken (Nat.zero_le _)) (.value (h.yields hb hx)) (hb.enlarge h.enlarged)
    hd (h.depth.trans hd')

end Posture

namespace Comes

variable {α : Type} {U : Ties → α → State → Prop}

theorem bindValue {a : Run Flow} {f : Value → Run α} {span : Span}
    (h : Comes text (scarce n) entry P d (Arrives P T m cs p) w (a s) t) (hp : p.tail = false)
    (hf : ∀ {w' x s' t'}, w.Le w' → Yields P m cs w' x t' → Bonds w' s' t' → s'.depth = d →
      t'.depth = d → Comes text (scarce n) entry P d U w' (f x s') t') :
    Comes text (scarce n) entry P d U w
      ((do f (← (← a).toValue (first text n).locals span)) s) t := by
  refine h.bind scarce_fewer fun {w' x s' t'} hw hx hb hd hd' => ?_
  cases hx with
  | value hx => exact hf hw hx hb hd hd'
  | again _ ht => rw [hp] at ht; cases ht

theorem answer {a : Run Value} {V : Ties → Value → State → Prop}
    (h : Comes text (scarce n) entry P d V w (a s) t)
    (hV : ∀ {w' x t'}, V w' x t' → Yields P m cs w' x t') :
    Comes text (scarce n) entry P d (Arrives P T m cs p) w ((do return Flow.value (← a) : Run Flow) s) t :=
  h.bind scarce_fewer fun _ hx hb hd hd' => .pure (.value (hV hx)) hb hd hd'

end Comes

theorem Stands.mono (h : Stands good d w P outer i sc ks σ k cs vs s t) {s' : State} {k' : Nat}
    {vs' : List Value} (hle : w.Le w') (hat : P.At k' cs vs' t') (hb : Bonds w' s' t')
    (hd : s'.depth = d) (hd' : t'.depth = d) :
    Stands good d w' P outer i sc ks σ k' cs vs' s' t' where
  at_ := hat
  height := h.height
  inside := h.inside.mono hle
  bonds := hb
  natives v hv := hle.natives v (h.natives v hv)
  depth := hd
  depth' := hd'

theorem Stands.pin (h : Stands good d w P outer i sc ks σ k cs vs s t) {s' : State} {k' c : Nat}
    {vs' : List Value} {y : Value} (hle : w.Le w') (hat : P.At k' (cs ++ [c]) (vs' ++ [y]) t')
    (hfree : w'.Free c) (hb : Bonds w' s' t') (hd : s'.depth = d) (hd' : t'.depth = d) :
    Stands good d (w'.pin c y) P outer i sc ks (σ.up 1) k' (cs ++ [c]) (vs' ++ [y]) s' t' := by
  have hlen := hat.length
  have hparts := hat.parts (by simpa using hlen)
  have hc : t'.store.content? c = some y := by simpa using hparts.2
  have hle' := w'.le_pin c y
  exact {
    at_ := hat
    height := by rw [List.length_append, List.length_singleton, h.height]; rfl
    inside := ((h.inside.mono hle).mono hle').push (w'.held_pin c y)
    bonds := hb.pin hc fun l hl e => hfree.1 l hl (by rw [e]; rfl)
    natives := fun v hv => hle'.natives v (hle.natives v (h.natives v hv))
    depth := hd
    depth' := hd' }

/-- A value that stays on the stack is still there below others. -/
theorem pinned_last {c : Nat} {y : Value} {ds : List Nat} {us : List Value} (hb : Bonds w s t)
    (hp : (c, y) ∈ w.pins) (hat : P.At k ((cs ++ [c]) ++ ds) (vs ++ us) t) (hl : ds.length = us.length) :
    ∃ vs', vs = vs' ++ [y] := by
  have hlen := hat.length
  simp only [List.length_append, List.length_singleton] at hlen
  have hparts := (hat.parts (by simp; omega)).1
  have hc := (hb.pinned hp).1
  rw [List.map_append, List.map_singleton, hc] at hparts
  have hne : vs ≠ [] := fun e => by simp [e] at hlen; omega
  refine ⟨vs.dropLast, ?_⟩
  rw [← List.dropLast_concat_getLast hne, List.map_append, List.map_singleton] at hparts
  have := (List.append_inj' hparts rfl).2
  rw [List.cons.injEq, Option.some.injEq] at this
  rw [this.1, List.dropLast_concat_getLast hne]

/-! ## What instructions compute -/

theorem agree_of_renamings {r q : Answer Value}
    (h : ∀ ρ, w.Ext ρ → Answer.Agree ρ.Sends r q) : Answer.Agree w.Sends r q := by
  obtain ⟨ρ, hρ, -⟩ := w.exists_plain
  rcases (h ρ hρ).elim with ⟨x, y, rfl, rfl, -⟩ | ⟨f, hf, rfl, rfl⟩
  · refine .ok fun σ hσ => ?_
    rcases (h σ hσ).elim with ⟨_, _, e, e', hxy⟩ | ⟨_, _, e, _⟩
    · cases e
      cases e'
      exact hxy
    · cases e
  · exact .error hf

theorem operation_agree {op : Native} {o : Opcode} {xs us : List Value} (ho : Intrinsic op xs.length o)
    (hx : w.SendsAll xs us) : Answer.Agree w.Sends (o.operation xs) (o.operation us) := by
  refine agree_of_renamings fun ρ hρ => ?_
  rw [hx ρ hρ]
  generalize hn : xs.length = n at ho
  cases ho with
  | negate | not =>
    obtain ⟨x, rfl⟩ := List.length_eq_one_iff.mp hn
    first
      | exact Number.negate_agree ρ x
      | exact .ok (by simp [Renaming.Sends, Value.rename, Value.truthy_rename])
  | _ =>
    obtain ⟨x, y, rfl⟩ := List.length_eq_two.mp hn
    first
      | exact Number.add_agree ρ x y
      | exact Number.sub_agree ρ x y
      | exact Number.mul_agree ρ x y
      | exact Number.div_agree ρ x y
      | exact Number.ordered_agree ρ _ x y
      | exact .ok (by simp [Renaming.Sends, Value.rename, Value.same_rename])

theorem mapAnswer_agree {xs us : List Value} (h : w.SendsAll xs us) :
    Answer.Agree w.Sends (mapAnswer xs) (mapAnswer us) := by
  obtain ⟨ρ, hρ, hplain⟩ := w.exists_plain
  have hr : Value.repeated? ((Form.pairUp us).map Prod.fst) =
      (Value.repeated? ((Form.pairUp xs).map Prod.fst)).map (·.rename ρ) := by
    rw [h ρ hρ, Form.pairUp_rename, ← Value.repeated?_rename, List.map_map, List.map_map]
    rfl
  unfold mapAnswer
  rw [hr]
  cases Value.repeated? ((Form.pairUp xs).map Prod.fst) with
  | some k =>
    simp only [Option.map_some, Value.readable_rename hplain]
    exact .error (RuntimeFault.plain_general_append _ (by decide) (by decide))
  | none =>
    refine .ok fun σ hσ => ?_
    rw [h σ hσ, Form.pairUp_rename, Renaming.Sends, Value.rename, Value.renameEntries_eq_map]

theorem setAnswer_agree {xs us : List Value} (h : w.SendsAll xs us) :
    Answer.Agree w.Sends (setAnswer xs) (setAnswer us) := by
  obtain ⟨ρ, hρ, hplain⟩ := w.exists_plain
  unfold setAnswer
  rw [show Value.repeated? us = (Value.repeated? xs).map (·.rename ρ) by
    rw [h ρ hρ, Value.repeated?_rename]]
  cases Value.repeated? xs with
  | some k =>
    simp only [Option.map_some, Value.readable_rename hplain]
    exact .error (RuntimeFault.plain_general_append _ (by decide) (by decide))
  | none =>
    refine .ok fun σ hσ => ?_
    rw [h σ hσ, Renaming.Sends, Value.rename, Value.renameItems_eq_map]

theorem sends_vector {xs us : List Value} (h : w.SendsAll xs us) :
    w.Sends (.vector xs) (.vector us) := fun ρ hρ => by
  rw [h ρ hρ, Renaming.Sends, Value.rename, Value.renameItems_eq_map]

theorem Comes.fails {α : Type} {short : Nat → Nat → Prop} {V : Ties → α → State → Prop}
    {e e' : RuntimeError} (hb : Bonds w s t) (hd : s.depth = d) (he : Blames w e e')
    (h : ∃ u, Posture.Fails t e' u ∧ P.Under u ∧ Enlarged t u) :
    Comes text short entry P d V w (.error (.raised e) s) t := by
  obtain ⟨u, hf, hu, ht⟩ := h
  exact .raised (.refl w) he hf.ends (hb.enlarge ht) hd hu

/-- An instruction that computes what the first computes. -/
theorem computes_comes {short : Nat → Nat → Prop} {r q : Answer Value} {span : Span}
    (hrq : Answer.Agree w.Sends r q) (hb : Bonds w s t) (hd : s.depth = d) (hd' : t.depth = d)
    (hplace : P.proto.Placed k span) (hs : span.known = true)
    (h : (∀ v, q = .ok v → ∃ t', P.Lands entry m cs vs [v] t t t') ∧
      ∀ f, q = .error f → ∀ span, P.proto.Placed k span →
        ∃ u, Posture.Fails t ⟨f, .ofLine span.line⟩ u ∧ P.Under u ∧ Enlarged t u) :
    Comes text short entry P d (Yields P m cs) w (Act.within span (Run.ofFault r) s) t := by
  rcases hrq.elim with ⟨x, y, rfl, rfl, hxy⟩ | ⟨f, hf, rfl, rfl⟩
  · obtain ⟨t', ht⟩ := h.1 y rfl
    exact ht.comes hb hxy hd hd'
  · refine Comes.fails hb hd (e := (⟨f, .unknown⟩ : RuntimeError).within span) ?_ (h.2 f rfl span hplace)
    exact .of_plain hf hs w

/-! ## Steps between expressions -/

theorem Posture.Lands.still {us : List Value} (h : P.Lands entry k cs us [] t u t') : P.At k cs us t' := by
  have := h.at_
  rwa [Posture.fresh, List.length_nil, List.range'_zero, List.append_nil, List.append_nil] at this

theorem Posture.Lands.leads {us news : List Value} (h : P.Lands entry k cs us news t u t') :
    Leads entry 0 t t' := h.steps.leads.weaken (Nat.zero_le _)

theorem Comes.afterwards {r : EStateM.Result (Stop RuntimeError) State Flow} {b : Nat} {cs' : List Nat}
    (h : Comes text (scarce n) entry P d (Arrives P T b cs' p) w r t)
    (hcs : ∀ T', T = some T' → cs'.take T'.firstSlot = cs.take T'.firstSlot)
    (hstep : ∀ {w' x s' t'}, Yields P b cs' w' x t' → Bonds w' s' t' → ∃ t'', Leads entry 0 t' t'' ∧
      Enlarged t' t'' ∧ t''.depth = t'.depth ∧ Yields P m cs w' x t'') :
    Comes text (scarce n) entry P d (Arrives P T m cs p) w r t := by
  refine h.andThen fun {w' x s' t'} _ hx hb => ?_
  cases hx with
  | value hx =>
    obtain ⟨t'', hl, ht, hd, hy⟩ := hstep hx hb
    exact ⟨t'', hl, ht, hd, .value hy⟩
  | again hT hp ha hi hd hat hfree hn hlen hsend =>
    rw [hcs _ hT] at hat
    exact ⟨t', .refl entry t', .refl t', rfl, .again hT hp ha hi hd hat hfree hn hlen hsend⟩

theorem jump_yields {b j : Nat} {x : Value} (hi : P.proto.Has b .jump j) (hj : j < 32768)
    (hm : b + 3 + j = m) (hx : Yields P b cs w x t) :
    ∃ t', Leads entry 0 t t' ∧ Enlarged t t' ∧ t'.depth = t.depth ∧ Yields P m cs w x t' := by
  obtain ⟨vs, c, y, hat, hfree, hxy⟩ := hx
  obtain ⟨t', ht⟩ := hat.jump entry hi hj hm
  exact ⟨t', ht.leads, ht.enlarged, ht.depth, vs, c, y, ht.still, hfree, hxy⟩

theorem leaves_yields {b : Nat} {lvs : List LocalVar} {ds : List Nat} {x : Value}
    (h : Leaves P.proto b lvs m) (hl : ds.length = lvs.length) (hx : Yields P b (cs ++ ds) w x t)
    (hb : Bonds w s t) :
    ∃ t', Leads entry 0 t t' ∧ Enlarged t t' ∧ t'.depth = t.depth ∧ Yields P m cs w x t' := by
  -- The values of the scope and the one on top of them go, and that one comes back in a new cell.
  have hpop : ∀ {b : Nat} {t : State}, P.proto.Has b .popN ds.length → Yields P b (cs ++ ds) w x t →
      Bonds w s t → ∃ t', Leads entry 0 t t' ∧ Enlarged t t' ∧ t'.depth = t.depth ∧
        Yields P (b + 2) cs w x t' := by
    intro b t hi ⟨vs, c, y, hat, hfree, hxy⟩ hb
    have hlen := hat.length
    simp only [List.length_append, List.length_singleton] at hlen
    obtain ⟨us, olds, rfl, hus⟩ : ∃ us olds, vs = us ++ olds ∧ olds.length = ds.length :=
      ⟨vs.take cs.length, vs.drop cs.length, (List.take_append_drop ..).symm, by
        rw [List.length_drop]; omega⟩
    have hat' : P.At b (cs ++ (ds ++ [c])) (us ++ (olds ++ [y])) t := by
      rwa [← List.append_assoc, ← List.append_assoc]
    rw [List.length_append] at hlen
    obtain ⟨t', ht⟩ := hat'.popN entry (by omega) rfl (hus ▸ hi)
    exact ⟨t', ht.leads, ht.enlarged, ht.depth, ht.yields hb hxy⟩
  cases h with
  | none =>
    obtain rfl := List.length_eq_zero_iff.mp hl
    rw [List.append_nil] at hx
    exact ⟨t, .refl entry t, .refl t, rfl, hx⟩
  | plain _ _ hi => exact hpop (hl ▸ hi) hx hb
  | closing _ _ hc hi =>
    obtain ⟨vs, c, y, hat, hfree, hxy⟩ := hx
    obtain ⟨t', ht⟩ := hat.closeUpvalue entry hc
    obtain ⟨t'', hl', ht', hd, hy⟩ := hpop (hl ▸ hi) ⟨vs, c, y, ht.still, hfree, hxy⟩
      (hb.enlarge ht.enlarged)
    exact ⟨t'', ht.leads.trans hl', ht.enlarged.trans ht', hd.trans ht.depth, hy⟩

/-! ## Single expressions -/

section Single

variable (hs : Stands good d w P outer i sc ks σ k cs vs s t)

include hs

theorem loads_comes {v : Value} (hi : Loads P.proto k v m) (hv : ∀ ρ : Renaming, v.rename ρ = v) :
    Comes text (scarce n) entry P d (Arrives P T m cs p) w (.ok (.value v) s) t := by
  obtain ⟨t', ht⟩ := hs.at_.loads entry hi
  exact ht.flow hs.bonds (.constant hv) hs.depth hs.depth'

theorem localRef_comes {b : Binding} {span : Span} (hb : sc.find? b.name = some b)
    (ha : Accesses P.proto outer σ.locals b.name .getLocal .getUpvalue k) :
    Comes text (scarce n) entry P d (Arrives P T (k + 2) cs p) w
      ((Expr.localRef b span).flow (first text n) i s) t := by
  obtain ⟨x, y, t', hx, hxy, ht⟩ := hs.inside.read entry hb ha hs.at_ hs.bonds
  have hread : (first text n).locals.read b span i s = .ok x s := by
    simp only [first, Engine.locals_strict, Locals.named, Act.bind_apply, Act.askStore, hx]
    rfl
  simp only [Expr.flow, Act.bind_apply, hread]
  exact ht.flow hs.bonds hxy hs.depth hs.depth'

theorem varRef_comes {x : Var} {span : Span} {j : Nat} (hx : P.proto.chunk.constants[j]? = some (.var x))
    (hi : P.proto.Has k .getVar j) (hp : P.proto.Placed k span) (hsp : span.known = true) :
    Comes text (scarce n) entry P d (Arrives P T (k + 3) cs p) w
      ((Expr.varRef x span).flow (first text n) i s) t := by
  rcases hs.bonds.varValue x with ⟨hv, hv'⟩ | ⟨u, y, hv, hv', hxy⟩
  · simp only [Expr.flow, Run.deref, Act.bind_apply, Act.askStore, hv]
    exact Comes.fails hs.bonds hs.depth (.of_plain (RuntimeFault.plain_unboundVar _) hsp w)
      (hs.at_.getVar_unbound hi hp hx hv')
  · simp only [Expr.flow, Run.deref, Act.bind_apply, Act.askStore, hv]
    obtain ⟨t', ht⟩ := hs.at_.getVar entry hi hx hv'
    exact ht.flow hs.bonds hxy hs.depth hs.depth'

theorem exists_captured {caps : Array Capture}
    (hc : ∀ c ∈ caps, ∃ x, Captured x (⟨P.proto.captures, σ.locals⟩ :: outer) c) :
    ∃ cells : List Nat, cells.length = caps.size ∧
      (∀ {j : Nat} {cap : Capture} {c : Nat}, caps[j]? = some cap → cells[j]? = some c →
        Posture.Reaches P cs cap c) ∧
      w.Captures i sc ks (⟨P.proto.captures, σ.locals⟩ :: outer) caps cells.toArray := by
  have hone : ∀ cap ∈ caps, ∃ c, Posture.Reaches P cs cap c := by
    intro cap hcap
    obtain ⟨x, hx⟩ := hc cap hcap
    cases hx with
    | near hf _ hi =>
      have hlt := hs.inside.slots _ (List.mem_of_find?_eq_some hf)
      rw [← hi] at hlt
      exact ⟨_, List.getElem?_eq_getElem hlt⟩
    | far _ hcap' =>
      have hlt := (Array.getElem?_eq_some_iff.mp hcap').1
      rw [← P.fits] at hlt
      exact ⟨_, List.getElem?_eq_getElem hlt⟩
  have hfun : ∀ c : { c // c ∈ caps.toList }, ∃ k, Posture.Reaches P cs c.1 k :=
    fun c => hone c.1 (Array.mem_toList_iff.mp c.2)
  choose cell hcell using hfun
  have hreach : ∀ {j : Nat} {cap : Capture} {c : Nat}, caps[j]? = some cap →
      (caps.toList.attach.map cell)[j]? = some c → Posture.Reaches P cs cap c := by
    intro j cap c hj hc
    obtain ⟨hlt, rfl⟩ := Array.getElem?_eq_some_iff.mp hj
    obtain ⟨hlt', rfl⟩ := List.getElem?_eq_some_iff.mp hc
    have hj' : j < caps.toList.attach.length := by simpa using hlt
    have := hcell (caps.toList.attach.get ⟨j, hj'⟩)
    simpa using this
  refine ⟨caps.toList.attach.map cell, by simp, hreach, ?_⟩
  intro name b j cap hb hcap hn
  have hlt : j < (caps.toList.attach.map cell).length := by
    simpa using (Array.getElem?_eq_some_iff.mp hcap).1
  obtain ⟨c', hj⟩ : ∃ c', (caps.toList.attach.map cell)[j]? = some c' :=
    ⟨_, List.getElem?_eq_getElem hlt⟩
  refine ⟨c', by rw [List.getElem?_toArray]; exact hj, ?_⟩
  have hr := hreach hcap hj
  cases hn with
  | near hf _ hi =>
    obtain ⟨c, hc, hfind⟩ := hs.inside.near hb hf
    simp only [Posture.Reaches, if_true, hi, hc, Option.some.injEq] at hr
    exact hr ▸ hfind
  | far hf hcap' hn =>
    obtain ⟨c, hc, hfind⟩ := hs.inside.far hb hf hcap' hn
    simp only [Posture.Reaches, Bool.false_eq_true, if_false, hc, Option.some.injEq] at hr
    exact hr ▸ hfind

theorem fn_comes {f : FnLiteral Expr} {span : Span} (hl : Lays P.proto outer T σ (.fn f span) k m)
    (hp : (Expr.fn f span).Parsed .bare sc p) (hk : (Expr.fn f span).steady good ks = true)
    (hline : (Expr.fn f span).Lined) :
    Comes text (scarce n) entry P d (Arrives P T m cs p) w
      ((Expr.fn f span).flow (first text n) i s) t := by
  have hf := FnLiteral.Parsed.of_expr hp
  have hbare : f.compiled = none := hf.literal.1
  cases hl with
  | @fn _ _ _ _ name arities fspan compiled _ _ j q hq hname hlays hc hi hpairs =>
  obtain ⟨cells, hlen, hreach, hcaptures⟩ := exists_captured hs hc
  have hat : P.At k (cs ++ []) (vs ++ []) t := by simpa using hs.at_
  obtain ⟨t', ht⟩ := hat.closure entry hs.at_.length rfl hi hq hpairs hlen hreach
  let f : FnLiteral Expr := ⟨name, arities, fspan, compiled⟩
  let b : Bool × Nat := (true, t.store.closures.size)
  have hb : b ∉ w.functions.map Prod.fst := hs.bonds.new (Nat.le_refl _)
  have hgrows : Enlarged t { t with store := (t.store.newClosure ⟨q, cells.toArray⟩).2 } :=
    ⟨⟨fun h => h, fun h => h, fun h => h, fun h => Array.getElem?_push_of_some h⟩, rfl, rfl, rfl, rfl,
      rfl, rfl⟩
  have htwin : Twin w (t.store.newClosure ⟨q, cells.toArray⟩).2 ⟨f, i⟩ f.displayName b :=
    .compiled (q := q) Array.getElem?_push_size hname hlays
      (by simpa using hlen) hf hcaptures (.inr ⟨good, hs.natives, hk⟩)
      (by cases hline with | fn h => exact h)
  have hbonds := hs.bonds.make hb hgrows htwin
  have hflow : (Expr.fn f span).flow (first text n) i s =
      .ok (.value (.fn s.store.functions.size f.displayName))
        { s with store := (s.store.newFunction ⟨f, i⟩).2 } := by
    simp only [Expr.flow, Eval.makeFunction, show f.compiled = none from hbare]
    rfl
  rw [hflow]
  have hsends := w.sends_make hb f.displayName
  rw [← hs.bonds.functions] at hsends
  have hsends' : (w.make b f.displayName hb).Sends (.fn s.store.functions.size f.displayName)
      (.closure t.store.closures.size q.name) := by
    rw [show q.name = f.displayName from hname]
    exact hsends
  exact Comes.mono (w.le_make hb _) (ht.flow hbonds hsends' hs.depth hs.depth')

end Single

/-! ## Assignments -/

theorem assign_comes {x : Value} {v : Var} {j : Nat} (hy : Yields P m cs w x t) (hb : Bonds w s t)
    (hd : s.depth = d) (hd' : t.depth = d) (hn : P.proto.chunk.constants[j]? = some (.var v))
    (hi : P.proto.Has m .setVar j) :
    Comes text (scarce n) entry P d (fun w' _ t' => Yields P (m + 3) cs w' x t') w
      ((first text n).assign v x s) t := by
  rw [first, Engine.assign_strict]
  by_cases ha : v.admits x = true
  · rw [if_pos ha]
    obtain ⟨vs, c, y, hat, hfree, hxy⟩ := hy
    have hat' : P.At m ((cs ++ [c]) ++ []) ((vs ++ [y]) ++ []) t := by simpa using hat
    obtain ⟨t', ht⟩ := hat'.setVar entry hat.length rfl rfl hi hn
    exact .ok (.refl w) ht.leads ⟨vs, c, y, ht.still, hfree, hxy⟩ ((hb.setVar hxy ha).enlarge ht.enlarged)
      hd (ht.depth.trans hd')
  · rw [if_neg ha]
    exact .leaving

theorem write_comes {x : Value} {b : Binding} {span : Span}
    (hin : Inside w P outer i sc ks σ.locals cs) (hb : sc.find? b.name = some b)
    (hk : ks.owns b.name = false)
    (ha : Accesses P.proto outer σ.locals b.name .setLocal .setUpvalue m) (hy : Yields P m cs w x t)
    (hbonds : Bonds w s t) (hd : s.depth = d) (hd' : t.depth = d) :
    Comes text (scarce n) entry P d (fun w' _ t' => Yields P (m + 2) cs w' x t') w
      ((first text n).locals.write b span i x s) t := by
  obtain ⟨vs, c, y, hat, hfree, hxy⟩ := hy
  obtain ⟨e, vs', t', hcell, hat', hl, hb', hdepth⟩ :=
    hin.write entry hb hk ha hat hfree hbonds hxy
  have hwrite : (first text n).locals.write b span i x s =
      .ok () { s with store := s.store.setSlot e 1 x } := by
    simp only [first, Engine.locals_strict, Locals.named, Act.bind_apply, Act.askStore, hcell]
    rfl
  rw [hwrite]
  exact .ok (.refl w) hl ⟨vs', c, y, hat', hfree, hxy⟩ hb' hd (hdepth.trans hd')

/-! ## Bodies that are run again -/

/-- A body that is run until it has a value. Each round takes an instruction at least. -/
theorem rounds_comes {body : Option Nat → Run Flow} {names : List String} {kept : List Value}
    {a b arity : Nat}
    {sc' : Scopes} {ks' : Owned} {locals : List LocalVar} {h : Option Nat}
    (hbody : ∀ {w' k s' t' ds vs'}, w.Le w' →
      Stands good d w' P outer k sc' ks' τ a (cs ++ ds) vs' s' t' →
      Comes text (scarce n) entry P d
        (Arrives P (some ⟨⟨a, cs.length, arity⟩, locals⟩) b (cs ++ ds) (.body arity)) w' (body k s') t')
    (hagain : ∀ {w' s' t' xs us ds vs'}, w.Le w' → Bonds w' s' t' → s'.depth = d → t'.depth = d →
      P.At a (cs ++ ds) (vs' ++ us) t' → (∀ c ∈ ds, w'.Free c) → ds.Nodup → ds.length = us.length →
      w'.SendsAll xs us → xs.length = arity →
      ∃ w'' k s'', (Locals.named .framed).scope h names (kept ++ xs) s' = .ok k s'' ∧ w'.Le w'' ∧
        Stands good d w'' P outer k sc' ks' τ a (cs ++ ds) (vs' ++ us) s'' t')
    (N : Nat) {ds : List Nat} {k : Option Nat} {vs : List Value} {w₁ : Ties} (hw : w.Le w₁)
    (hs : Stands good d w₁ P outer k sc' ks' τ a (cs ++ ds) vs s t) :
    Comes text (fun m N' => scarce n m N' ∧ N' ≤ N) entry P d
      (fun w' x t' => ∃ ds', (cs ++ ds').length = τ.height ∧ Yields P b (cs ++ ds') w' x t') w₁
      (rounds (.named .framed) body h names kept N k s) t := by
  induction N generalizing ds k vs w₁ s t with
  | zero =>
    refine .exhausted (.inr fun m N' hmN => ⟨0, fun L _ => ?_⟩)
    rw [Nat.le_zero.mp hmN.2]
    exact stuck_zero ..
  | succ N ih =>
    simp only [rounds]
    refine ((hbody hw hs).fewer fun m N' hmN => hmN.1).bind
      (fun m N' N'' hmN hle => ⟨scarce_fewer m N' N'' hmN.1 hle, by omega⟩)
      fun {w' x s' t'} hw' hx hb hd hd' => ?_
    cases hx with
    | value hy => exact .pure ⟨ds, hs.height, hy⟩ hb hd hd'
    | @again target j e vs' ds' xs us _ hT _ ha hi hback hat hfree hn hlen hx =>
      cases hT
      rw [List.take_left] at hat
      obtain ⟨t'', ht⟩ := hat.loop entry hi hback
      have hb' := hb.enlarge ht.enlarged
      obtain ⟨w'', k', s'', hscope, hw'', hs''⟩ := hagain (hw.trans hw') hb' hd (ht.depth.trans hd')
        ht.still hfree hn hlen hx (Option.some.inj ha).symm
      simp only [Act.bind_apply, hscope]
      exact ((ih ((hw.trans hw').trans hw'') hs'').mono hw'').after
        (fun m N' N'' hmN hle => ⟨scarce_fewer m N' N'' hmN.1 (by omega), by omega⟩) ht.steps.leads

/-! ## Expressions -/

theorem YieldsAll.elim {j : Nat} {xs : List Value} (h : YieldsAll P m cs j [] w xs t) :
    ∃ vs ds us, xs.length = j ∧ us.length = j ∧ P.At m (cs ++ ds) (vs ++ us) t ∧
      cs.length = vs.length ∧ ds.length = us.length ∧ w.SendsAll xs us := by
  obtain ⟨vs, ds, xs, us, rfl, hlen, hat, hus, hx⟩ := h
  have hall := hat.length
  simp only [List.length_append] at hall
  exact ⟨vs, ds, us, hlen, hx.length.trans hlen, hat, by omega, hus, hx⟩

theorem scope_nil (i : Option Nat) (s : State) :
    (first text n).locals.scope i [] [] s = .ok i s := by
  rw [first, Engine.locals_strict]
  rfl

theorem scope_named {names : List String} {xs : List Value} (h : xs.length = names.length)
    (i : Option Nat) : (Locals.named .framed).scope i names xs = Locals.cells i (names.zip xs) := by
  simp only [Locals.named, if_pos h]

/-- What has been computed is still on the stack below further values. -/
theorem Stands.inner (h : Stands good d w P outer i sc ks σ k cs vs s t) {b : Nat} {ds : List Nat}
    {vs' : List Value} {i' : Option Nat} {sc' : Scopes} {ks' : Owned} {s' : State} (hle : w.Le w')
    (hat : P.At b (cs ++ ds) vs' t') (hlen : (cs ++ ds).length = τ.height)
    (hin : Inside w' P outer i' sc' ks' τ.locals (cs ++ ds)) (hb : Bonds w' s' t')
    (hd : s'.depth = d) (hd' : t'.depth = d) :
    Stands good d w' P outer i' sc' ks' τ b (cs ++ ds) vs' s' t' where
  at_ := hat
  height := hlen
  inside := hin
  bonds := hb
  natives v hv := hle.natives v (h.natives v hv)
  depth := hd
  depth' := hd'

theorem operator_value (hs : Stands good d w P outer i sc ks σ k cs vs s t) {v : Var} {span : Span}
    {j : Nat} {o : Opcode} (hi : intrinsic? (.varRef v span) j = some o)
    (hk : (Expr.varRef v span).steady good ks = true) :
    ∃ owner op, s.store.varValue? v = some (.native owner op) ∧ Intrinsic op j o := by
  obtain ⟨hns, op, hname, ho⟩ := intrinsic?_eq_some_iff.mp hi
  have hop : v.isOperator = true := by
    have hsome : ∀ n, intrinsic? (.varRef v .unknown) n = intrinsic? (.varRef v span) n := fun _ => rfl
    rw [Var.isOperator, hsome, hsome, Bool.or_eq_true]
    cases ho with
    | negate | not => exact .inl (by rw [hi]; rfl)
    | _ => exact .inr (by rw [hi]; rfl)
  rw [Expr.steady, hop, Bool.not_true, Bool.false_or] at hk
  have hnative := hs.bonds.genuine v (hs.natives v hk)
  unfold Store.isNative at hnative
  split at hnative
  · next op' x _ hx =>
    rw [Bool.and_eq_true, beq_iff_eq, hname] at hnative
    obtain rfl := ho.eq_of_text hnative.1
    cases x with
    | native owner op'' =>
      obtain rfl : op'' = op' := by simpa [Value.isNative] using hnative.2
      exact ⟨owner, op'', hx, ho⟩
    | _ => cases hnative.2
  · cases hnative

section Expressions

variable (hc : CallsInCode text n) (he : entry ≤ P.frames.size)

include hc he

set_option linter.unusedSectionVars false

mutual

/-- What the code of an expression comes to. -/
theorem flow_comes (e : Expr) {outer : List Scene} {T : Option Target} {σ : Shape} {k m : Nat}
    {i : Option Nat}
    {sc : Scopes} {p : Position} {ks : Owned} {w : Ties} {cs : List Nat} {vs : List Value} {s t : State}
    (hl : Lays P.proto outer T σ e k m) (hp : e.Parsed .bare sc p) (hk : e.steady good ks = true)
    (hline : e.Lined) (hT : ∀ T', T = some T' → T'.firstSlot ≤ σ.height)
    (hs : Stands good d w P outer i sc ks σ k cs vs s t) :
    Comes text (scarce n) entry P d (Arrives P T m cs p) w
      (e.flow (first text n) i s) t := by
  cases e with
  | literal v span =>
    cases hl with
    | literal hi =>
      simp only [Expr.flow]
      cases hp with
      | literal hv => exact loads_comes hs hi hv
  | quote v span =>
    cases hl with
    | quote hi =>
      simp only [Expr.flow]
      cases hp with
      | quote hv => exact loads_comes hs hi hv
  | localRef b span =>
    cases hl with
    | localRef ha =>
      cases hp with
      | localRef hb => exact localRef_comes hs hb ha
  | varRef v span =>
    cases hl with
    | varRef hn hi hplace =>
      cases hline with
      | varRef hspan => exact varRef_comes hs hn hi hplace hspan
  | theVar v span =>
    cases hl with
    | theVar hn hi =>
      simp only [Expr.flow]
      exact loads_comes hs (.const hn hi) fun _ => rfl
  | vector items span =>
    cases hl with
    | vector h hi =>
      simp only [Expr.flow]
      cases hp with
      | vector hp =>
      cases hline with
      | vector hline =>
        rw [Expr.steady] at hk
        refine (valuesOnto_comes items [] h hp rfl hk hline hT hs).bind scarce_fewer
          fun {w' x s' t'} hw hx hb hd hd' => ?_
        obtain ⟨vs', ds, us, -, hus, hat, hll, -, hsend⟩ := hx.elim
        obtain ⟨t'', ht⟩ := hat.vector entry hll (hus ▸ hi)
        exact ht.flow hb (sends_vector hsend) hd hd'
  | set items span =>
    cases hl with
    | set h hi hplace =>
      simp only [Expr.flow, setOf_eq]
      cases hp with
      | set hp =>
      cases hline with
      | set hspan hline =>
        rw [Expr.steady] at hk
        refine (valuesOnto_comes items [] h hp rfl hk hline hT hs).bind scarce_fewer
          fun {w' x s' t'} hw hx hb hd hd' => ?_
        obtain ⟨vs', ds, us, -, hus, hat, hll, -, hsend⟩ := hx.elim
        exact (computes_comes (setAnswer_agree hsend) hb hd hd' hplace hspan
          (hat.set entry hll hus hi)).answer
          fun hy => hy
  | map items span =>
    cases hl with
    | map heven h hi hplace =>
      simp only [Expr.flow, mapOf_eq]
      cases hp with
      | map _ hp =>
      cases hline with
      | map hspan hline =>
        rw [Expr.steady] at hk
        refine (valuesOnto_comes items [] h hp rfl hk hline hT hs).bind scarce_fewer
          fun {w' x s' t'} hw hx hb hd hd' => ?_
        obtain ⟨vs', ds, us, -, hus, hat, hll, -, hsend⟩ := hx.elim
        exact (computes_comes (mapAnswer_agree hsend) hb hd hd' hplace hspan
          (hat.map entry hll (by omega) hi)).answer fun hy => hy
  | cond test yes no span =>
    cases hl with
    | cond ht hj hd₁ hd₂ hy hj' he₁ he₂ hno =>
      simp only [Expr.flow]
      cases hp with
      | cond hpt hpy hpn =>
      cases hline with
      | cond hlt hly hln =>
        simp only [Expr.steady, Bool.and_eq_true] at hk
        refine (flow_comes test ht hpt hk.1.1 hlt hT hs).bindValue rfl fun {w' x s' t'} hw hx hb hd hd' => ?_
        obtain ⟨vs', c, y, hat, hfree, hxy⟩ := hx
        have hll : cs.length = vs'.length := by simpa using hat.length
        obtain ⟨t'', ht'⟩ := hat.jumpIfFalse entry hll rfl hj (by omega)
        obtain ⟨ρ, hρ, -⟩ := w'.exists_plain
        rw [hxy ρ hρ, Value.truthy_rename] at ht'
        have hs' := hs.mono hw ht'.still (hb.enlarge ht'.enlarged) hd (ht'.depth.trans hd')
        refine Comes.after scarce_fewer ht'.leads ?_
        cases hx : x.truthy with
        | true =>
          rw [hx] at hs'
          exact (flow_comes yes hy hpy hk.1.2 hly hT hs').afterwards (fun _ _ => rfl)
            fun hx' _ => jump_yields hj' he₂ he₁ hx'
        | false =>
          rw [hx, if_neg (by decide), hd₁] at hs'
          exact flowElse_comes no hno hpn hk.2 hln hT hs'
  | block body span =>
    cases hl with
    | block h =>
      simp only [Expr.flow]
      cases hp with
      | block hp =>
      cases hline with
      | block hline =>
        rw [Expr.steady] at hk
        exact flowBody_comes body h hp hk hline hT hs
  | letIn bindings body span =>
    cases hl with
    | @letIn _ _ _ _ τ _ _ _ _ _ _ _ _ hb hv hlen h hleaves =>
      simp only [Expr.flow]
      cases hp with
      | letIn hpb hp =>
      cases hline with
      | letIn hlb hline =>
        rw [Expr.steady, Bool.and_eq_true] at hk
        have hheight := hb.declares.height
        rw [List.length_map] at hheight
        rw [Act.bind_of_ok (scope_nil i s)]
        have hscope : Stands good d w P outer i ([] :: sc) ks σ k cs vs s t :=
          { hs with inside := hs.inside.scope }
        refine (bindAll_comes bindings hb hpb rfl hk.1 hlb hT hscope).bind scarce_fewer
          fun {w' i' s' t'} hw ⟨ds, vs', hat, hds, hin⟩ hbonds hd hd' => ?_
        have hs' := hs.inner hw hat hds hin hbonds hd hd'
        have hT' : ∀ T', T = some T' → T'.firstSlot ≤ τ.height := fun T' hT' =>
          Nat.le_trans (hT T' hT') (by omega)
        refine (flowBody_comes body h hp hk.2 hline hT' hs').afterwards (fun T' hT' => ?_) fun hx hb' =>
          leaves_yields hleaves ?_ hx hb'
        · exact List.take_append_of_le_length (hs.height ▸ hT T' hT')
        · have := hs.height
          rw [List.length_append] at hds
          omega
  | loop bindings body span =>
    cases hl with
    | @loop _ _ _ _ τ _ _ _ _ _ a b _ hb hv hlen h hleaves =>
      simp only [Expr.flow]
      cases hp with
      | loop hpb hp =>
      cases hline with
      | loop hlb hline =>
        rw [Expr.steady, Bool.and_eq_true] at hk
        have hheight := hb.declares.height
        rw [List.length_map] at hheight
        have hinner := hpb.inner_eq
        rw [List.append_nil] at hinner
        subst hinner
        rw [Act.bind_of_ok (scope_nil i s)]
        have hscope : Stands good d w P outer i ([] :: sc) ks σ k cs vs s t :=
          { hs with inside := hs.inside.scope }
        refine (bindAll_comes bindings hb hpb rfl hk.1 hlb hT hscope).bind scarce_fewer
          fun {w' i' s' t'} hw ⟨ds, vs', hat, hds, hin⟩ hbonds hd hd' => ?_
        have hs' := hs.inner hw hat hds hin hbonds hd hd'
        have hrounds : Comes text (fun m N => scarce n m N ∧ N ≤ n - 1) entry P d
            (fun w' x t' => ∃ ds', (cs ++ ds').length = τ.height ∧ Yields P b (cs ++ ds') w' x t') w'
            (rounds (.named .framed) (flowBody (first text n) body) i (bindings.map Bound.name) [] (n - 1) i'
              s') t' := rounds_comes
          (fun {w' k s' t' ds vs'} _ hs' => by
            rw [hs.height]
            refine flowBody_comes body h hp hk.2 hline (fun T' hT' => ?_) hs'
            cases hT'
            show σ.height ≤ τ.height
            omega)
          (fun {w'' s' t' xs us ds vs'} hw'' hb' hd hd' hat hfree hn hlen hsend hxs => by
            have hlen' : xs.length = (bindings.map Bound.name).length := by rw [hxs, List.length_map]
            have hll : cs.length = vs'.length := by
              have := hat.length
              simp only [List.length_append] at this
              omega
            obtain ⟨w₃, k, s'', hrun, hw₃, hb₃, hd₃, hin₃, hds₃⟩ := cells_link hb.declares hb'
              (hs.inside.scope.mono (hw.trans hw'')) hs.height hfree hn hlen' (hat.parts hll).2 hsend
            rw [List.append_nil] at hin₃
            refine ⟨w₃, k, s'', ?_, hw₃, hs.inner ((hw.trans hw'').trans hw₃) hat hds₃ hin₃ hb₃
              (hd₃.trans hd) hd'⟩
            rw [List.nil_append, scope_named hlen']
            exact hrun)
          (n - 1) (.refl w') hs'
        have hshort : ∀ m N, scarce n m N → scarce n m N ∧ N ≤ n - 1 := fun m N hmN => ⟨hmN, by
          have := cost_pos m
          unfold scarce at hmN
          omega⟩
        rw [show (first text n).locals = .named .framed from Engine.locals_strict ..,
          show (first text n).rounds = n - 1 from Engine.rounds_strict ..]
        refine Comes.answer (Comes.andThen (hrounds.fewer hshort) fun {_ _ _ _} _ hx hb' => ?_) fun hy => hy
        obtain ⟨ds', hds', hx⟩ := hx
        refine leaves_yields hleaves ?_ hx hb'
        have := hs.height
        rw [List.length_append] at hds'
        omega
  | recur args span =>
    cases hl with
    | @recur _ _ target _ _ _ _ m' e hn h hr hslot hloop hback =>
      simp only [Expr.flow]
      cases hp with
      | recur ht ha hp =>
      cases hline with
      | recur hline =>
        rw [Expr.steady] at hk
        refine (valuesOnto_comes args [] h hp rfl hk hline hT hs).bind scarce_fewer
          fun {w' xs s' t'} hw hx hb hd hd' => ?_
        obtain ⟨vs', ds, us, hxs, hus, hat, hll, hdus, hsend⟩ := hx.elim
        have hfirst : target.firstSlot ≤ cs.length := hs.height ▸ hT target rfl
        -- The variables below the loop stay, and the others go with the cells they have had.
        have hsplit : P.At m' (cs.take target.firstSlot ++ (cs.drop target.firstSlot ++ ds))
            (vs'.take target.firstSlot ++ (vs'.drop target.firstSlot ++ us)) t' := by
          rwa [← List.append_assoc, List.take_append_drop, ← List.append_assoc, List.take_append_drop]
        have htake : (vs'.take target.firstSlot).length = target.firstSlot := by
          rw [List.length_take]
          omega
        obtain ⟨t'', ht'⟩ := hsplit.recur entry (by rw [htake, List.length_take]; omega) rfl
          (by rw [htake]; exact hslot) (by rw [htake, hus]; exact hr)
        refine .ok (.refl w') ht'.leads ?_ (hb.enlarge ht'.enlarged) hd (ht'.depth.trans hd')
        refine .again rfl ht (by rw [ha, hxs]) hloop hback ht'.at_ (fun c hc => free_of_fresh hb hc)
          (List.nodup_range' ..) (by simp [Posture.fresh]) hsend
  | fn f span => exact fn_comes hs hl hp hk hline
  | define v value span =>
    cases value with
    | none =>
      cases hl with
      | declared hn hi =>
        simp only [Expr.flow]
        exact loads_comes hs (.const hn hi) fun _ => rfl
    | some e =>
      cases hl with
      | define h hn hi hpop hn' hconst =>
        simp only [Expr.flow]
        cases hp with
        | define hp =>
        cases hline with
        | define hline =>
          rw [Expr.steady, optionSteady] at hk
          refine (flow_comes e h (hp e rfl) hk (hline e rfl) hT hs).bindValue rfl
            fun {w' x s' t'} hw hx hb hd hd' => ?_
          refine (assign_comes hx hb hd hd' hn hi).bind scarce_fewer
            fun {w'' _ s'' t''} hw' hx hb hd hd' => ?_
          obtain ⟨vs', c, y, hat, -, -⟩ := hx
          have hll : cs.length = vs'.length := by simpa using hat.length
          obtain ⟨t₃, ht⟩ := hat.pop entry hll rfl hpop
          have hs' := hs.mono (hw.trans hw') ht.still (hb.enlarge ht.enlarged) hd (ht.depth.trans hd')
          exact (loads_comes (n := n) hs' (.const hn' hconst) fun _ => rfl).after scarce_fewer ht.leads
  | setLocal b e span =>
    cases hl with
    | setLocal h ha =>
      simp only [Expr.flow]
      cases hp with
      | setLocal hb hp =>
      cases hline with
      | setLocal hline =>
        simp only [Expr.steady, Bool.and_eq_true, Bool.not_eq_true'] at hk
        refine (flow_comes e h hp hk.2 hline hT hs).bindValue rfl fun {w' x s' t'} hw hx hb' hd hd' => ?_
        exact (write_comes (hs.inside.mono hw) hb hk.1 ha hx hb' hd hd').bind scarce_fewer
          fun _ hx hb hd hd' => .pure (.value hx) hb hd hd'
  | setVar v e span =>
    cases hl with
    | setVar h hn hi =>
      simp only [Expr.flow]
      cases hp with
      | setVar hp =>
      cases hline with
      | setVar hline =>
        rw [Expr.steady] at hk
        refine (flow_comes e h hp hk hline hT hs).bindValue rfl fun {w' x s' t'} hw hx hb hd hd' => ?_
        exact (assign_comes hx hb hd hd' hn hi).bind scarce_fewer
          fun _ hx hb hd hd' => .pure (.value hx) hb hd hd'
  | call callee args span =>
    simp only [Expr.flow]
    cases hp with
    | call hpc hpa =>
    cases hline with
    | call hspan hlc hla =>
    simp only [Expr.steady, Bool.and_eq_true] at hk
    cases hl with
    | @intrinsic _ _ _ _ _ _ _ _ _ o hi h ho hplace =>
      cases callee with
      | varRef v vspan =>
        obtain ⟨owner, op, hv, hop⟩ := operator_value hs hi hk.1
        have hflow : (Expr.varRef v vspan).flow (first text n) i s =
            .ok (.value (.native owner op)) s := by
          simp only [Expr.flow, Run.deref, Act.bind_apply, Act.askStore, hv]
          rfl
        rw [Act.bind_of_ok hflow]
        show Comes text (scarce n) entry P d _ w
          ((valuesOnto (first text n) [] args i >>= fun xs => do
            return Flow.value (← Act.within span ((first text n).call (.native owner op) xs))) s) t
        refine (valuesOnto_comes args [] h hpa rfl hk.2 hla hT hs).bind scarce_fewer
          fun {w' xs s' t'} hw hx hb hd hd' => ?_
        obtain ⟨vs', ds, us, hxs, hus, hat, hll, -, hsend⟩ := hx.elim
        cases n with
        | zero =>
          refine .exhausted (.inr fun m N hmN => ?_)
          have := cost_pos m
          unfold scarce at hmN
          omega
        | succ n =>
          have hcall : ∀ s, (first text (n + 1)).call (.native owner op) xs s =
              Run.ofFault (o.operation xs) s := fun s =>
            congrFun (Native.call_intrinsic (first text n).call (hxs ▸ hop)) s
          have hwithin : Act.within span ((first text (n + 1)).call (.native owner op) xs) =
              Act.within span (Run.ofFault (o.operation xs)) := by
            funext s
            simp only [Act.within, Act.mapFault, hcall]
          rw [hwithin]
          exact (computes_comes (operation_agree (hxs ▸ hop) hsend) hb hd hd' hplace hspan
            (hat.intrinsic entry hll (hus ▸ hop) ho)).answer fun hy => hy
      | _ => cases hi
    | call hi hf h ho hplace =>
      refine (flow_comes callee hf hpc hk.1 hlc hT hs).bindValue rfl fun {w' f s' t'} hw hx hb hd hd' => ?_
      obtain ⟨vs', c, y, hat, hfree, hfy⟩ := hx
      have hs' := hs.pin hw hat hfree hb hd hd'
      refine Comes.mono (w'.le_pin c y) ((valuesOnto_comes args [] h hpa rfl hk.2 hla
        (fun T' hT' => Nat.le_trans (hT T' hT') (Nat.le_succ _)) hs').bind scarce_fewer
          fun {w'' xs s'' t''} hw' hx hb hd hd' => ?_)
      obtain ⟨vs'', ds, us, -, hus, hat', -, hdus, hsend⟩ := hx.elim
      obtain ⟨vs₃, rfl⟩ := pinned_last hb (hw'.pins _ List.mem_cons_self) hat' hdus
      rw [List.append_assoc, List.append_assoc, List.singleton_append, List.singleton_append] at hat'
      have hall := hat'.length
      simp only [List.length_append, List.length_cons] at hall
      refine (hc hat' (by omega) (hus ▸ ho) hplace hspan hb hd hd' ?_ ?_ hsend he).answer fun hy => hy
      · have hin := hs.inside.mono ((hw.trans (w'.le_pin c y)).trans hw')
        exact hin.held
      · exact hfy.mono ((w'.le_pin c y).trans hw')
  | throw e span => cases hl
  | attempt body catches finish span => cases hl
  | macroCall v args span => cases hl

theorem valuesOnto_comes (es : List Expr) (acc : List Value) {outer : List Scene} {T : Option Target}
    {σ : Shape} {k m : Nat}
    {i : Option Nat} {sc : Scopes} {p : Position} {ks : Owned} {w : Ties} {cs : List Nat} {vs : List Value}
    {s t : State} (hl : LaysAll P.proto outer T σ es k m) (hp : AllParsed .bare sc p es)
    (htail : p.tail = false) (hk : allSteady good ks es = true) (hline : AllLined es)
    (hT : ∀ T', T = some T' → T'.firstSlot ≤ σ.height)
    (hs : Stands good d w P outer i sc ks σ k cs vs s t) :
    Comes text (scarce n) entry P d (YieldsAll P m cs es.length acc) w
      (valuesOnto (first text n) acc es i s) t := by
  cases es with
  | nil =>
    cases hl
    simp only [valuesOnto]
    refine .pure ⟨vs, [], [], [], by simp, rfl, ?_, rfl, .nil w⟩ hs.bonds hs.depth hs.depth'
    simpa using hs.at_
  | cons e rest =>
    cases hl with
    | cons h hr =>
      simp only [valuesOnto]
      rw [allSteady, Bool.and_eq_true] at hk
      refine (flow_comes e h (hp e List.mem_cons_self) hk.1 (hline e List.mem_cons_self) hT hs).bindValue
        htail
        fun {w' x s' t'} hw hx hb hd hd' => ?_
      obtain ⟨vs', c, y, hat, hfree, hxy⟩ := hx
      have hs' := hs.pin hw hat hfree hb hd hd'
      have hrest := valuesOnto_comes rest (x :: acc) hr (fun x hx => hp x (List.mem_cons_of_mem e hx))
        htail hk.2
        (fun x hx => hline x (List.mem_cons_of_mem e hx))
        (fun T' hT' => Nat.le_trans (hT T' hT') (Nat.le_succ _)) hs'
      refine Comes.mono (w'.le_pin c y) (hrest.andThen fun {w'' xs s'' t''} hw' hx hb' => ?_)
      obtain ⟨vs₁, ds, xs', us, rfl, hlen, hat', hdus, hsend⟩ := hx
      obtain ⟨vs₂, rfl⟩ := pinned_last hb' (hw'.pins _ List.mem_cons_self) hat' hdus
      rw [List.append_assoc, List.append_assoc, List.singleton_append, List.singleton_append] at hat'
      have hxy' := hxy.mono ((w'.le_pin c y).trans hw')
      refine ⟨t'', .refl entry t'', .refl t'', rfl, vs₂, c :: ds, x :: xs', y :: us, ?_, ?_, hat', ?_,
        (Ties.SendsAll.singleton hxy').append hsend⟩
      · rw [List.reverse_cons, List.append_assoc, List.singleton_append]
      · rw [List.length_cons, List.length_cons, hlen]
      · rw [List.length_cons, List.length_cons, hdus]

theorem flowBody_comes (es : List Expr) {outer : List Scene} {T : Option Target} {σ : Shape} {k m : Nat}
    {i : Option Nat} {sc : Scopes} {p : Position} {ks : Owned} {w : Ties} {cs : List Nat} {vs : List Value}
    {s t : State} (hl : LaysBody P.proto outer T σ es k m) (hp : BodyParsed .bare sc p es)
    (hk : allSteady good ks es = true) (hline : AllLined es)
    (hT : ∀ T', T = some T' → T'.firstSlot ≤ σ.height)
    (hs : Stands good d w P outer i sc ks σ k cs vs s t) :
    Comes text (scarce n) entry P d (Arrives P T m cs p) w
      (flowBody (first text n) es i s) t := by
  match es with
  | [] =>
    cases hl with
    | nil hi =>
      simp only [flowBody]
      exact loads_comes hs (.nil hi) fun _ => rfl
  | [e] =>
    simp only [flowBody]
    rw [allSteady, Bool.and_eq_true] at hk
    cases hl with
    | last h =>
      cases hp with
      | last hp => exact flow_comes e h hp hk.1 (hline e List.mem_cons_self) hT hs
  | e :: e' :: rest =>
    simp only [flowBody]
    rw [allSteady, Bool.and_eq_true] at hk
    cases hl with
    | cons h hpop hr =>
      cases hp with
      | cons hp hpr =>
        refine (flow_comes e h hp hk.1 (hline e List.mem_cons_self) hT hs).bind scarce_fewer
          fun {w' x s' t'} hw hx hb hd hd' => ?_
        cases hx with
        | again _ ht => cases ht
        | value hx =>
        obtain ⟨vs', c, y, hat, -, -⟩ := hx
        have hll : cs.length = vs'.length := by simpa using hat.length
        obtain ⟨t'', ht⟩ := hat.pop entry hll rfl hpop
        have hs' := hs.mono hw ht.still (hb.enlarge ht.enlarged) hd (ht.depth.trans hd')
        exact (flowBody_comes (e' :: rest) hr hpr hk.2 (fun x hx => hline x (List.mem_cons_of_mem e hx))
          hT hs').after scarce_fewer ht.leads

theorem flowElse_comes (o : Option Expr) {outer : List Scene} {T : Option Target} {σ : Shape} {k m : Nat}
    {i : Option Nat} {sc : Scopes} {p : Position} {ks : Owned} {w : Ties} {cs : List Nat} {vs : List Value}
    {s t : State} (hl : LaysElse P.proto outer T σ o k m) (hp : ∀ e, o = some e → e.Parsed .bare sc p)
    (hk : optionSteady good ks o = true) (hline : ∀ e, o = some e → e.Lined)
    (hT : ∀ T', T = some T' → T'.firstSlot ≤ σ.height)
    (hs : Stands good d w P outer i sc ks σ k cs vs s t) :
    Comes text (scarce n) entry P d (Arrives P T m cs p) w
      (flowElse (first text n) o i s) t := by
  cases o with
  | none =>
    cases hl with
    | none hi =>
      simp only [flowElse]
      exact loads_comes hs (.nil hi) fun _ => rfl
  | some e =>
    cases hl with
    | some h =>
      simp only [flowElse]
      exact flow_comes e h (hp e rfl) hk (hline e rfl) hT hs

theorem bindAll_comes (bs : List (Bound Expr)) {outer : List Scene} {T : Option Target} {σ τ : Shape}
    {k m : Nat} {i : Option Nat} {names : List String} {sc inner : Scopes} {p : Position} {ks : Owned}
    {w : Ties} {cs : List Nat} {vs : List Value} {s t : State}
    (hl : LaysBindings P.proto outer T σ bs k m τ) (hp : BindingsParsed .bare (names :: sc) p bs inner)
    (htail : p.tail = false) (hk : bindingsSteady good ks bs = true) (hline : ∀ b ∈ bs, b.init.Lined)
    (hT : ∀ T', T = some T' → T'.firstSlot ≤ σ.height)
    (hs : Stands good d w P outer i (names :: sc) ks σ k cs vs s t) :
    Comes text (scarce n) entry P d (fun w' i' t' => ∃ ds vs', P.At m (cs ++ ds) vs' t' ∧
        (cs ++ ds).length = τ.height ∧
        Inside w' P outer i' inner (ks.locals (bs.map Bound.name)) τ.locals (cs ++ ds)) w
      (bindAll (first text n) bs i s) t := by
  match bs with
  | [] =>
    cases hl
    cases hp
    simp only [bindAll]
    refine .pure ⟨[], vs, ?_, ?_, ?_⟩ hs.bonds hs.depth hs.depth'
    · simpa using hs.at_
    · simpa using hs.height
    · simpa [Owned.locals] using hs.inside
  | ⟨name, init⟩ :: rest =>
    simp only [bindAll]
    rw [bindingsSteady, Bool.and_eq_true] at hk
    cases hl with
    | @cons _ _ _ _ _ _ _ v _ a _ h hv hr =>
      cases hp with
      | cons hp hpr =>
        refine (flow_comes init h hp hk.1 (hline _ List.mem_cons_self) hT hs).bindValue htail
          fun {w' x s' t'} hw hx hb hd hd' => ?_
        obtain ⟨vs', c, y, hat, hfree, hxy⟩ := hx
        have hll : cs.length = vs'.length := by simpa using hat.length
        have hy : t'.store.content? c = some y := by simpa using (hat.parts hll).2
        obtain ⟨s'', hrun, hb', hd''⟩ := hb.cell_link v.name i hfree hy hxy
        have hle := w'.le_link ⟨v.name, i, .cell c⟩
        have hin := (hs.inside.mono hw).bind (v := v) (b := false) (p := .cell c) (by rw [hv, hs.height])
          (.inl rfl)
        have hrest := bindAll_comes rest hr hpr htail hk.2 (fun b hb => hline b (List.mem_cons_of_mem _ hb))
          (fun T' hT' => Nat.le_trans (hT T' hT') (Nat.le_succ _))
          (hs.inner (hw.trans hle) hat (by simpa [Shape.bind] using hs.height) hin hb' (hd''.trans hd) hd')
        rw [show (first text n).locals.bind = Locals.cell by rw [first, Engine.locals_strict]; rfl,
          Act.bind_apply, hrun]
        refine (hrest.imp fun {w'' i' t''} _ ⟨ds, vs'', hat', hds, hin'⟩ => ?_).mono hle
        rw [List.append_assoc] at hat' hds hin'
        refine ⟨_, vs'', hat', hds, ?_⟩
        rw [List.map_cons, Owned.locals_cons]
        exact hin'

end

end Expressions

end Parity

end TwinLisp
