import TwinLisp.Proofs.Parity.Links

/-! The tree walker and the interpreter of bytecode as coupled evaluators. What interpreted functions
do is alike in both; calls of compiled functions are left open here.

* `Parity.coupling`: the coupling, which compares the lines of faults if all code has lines.
* `Parity.lexical`: variables and functions in both.
* `Parity.descent`: the calls of interpreted functions.
* `Parity.prepared`: programs whose literals have been compiled. -/

namespace TwinLisp

/-! ## Literals without bytecode -/

section Bare

variable {g : Option Proto → Option Proto} (hg : g none = none)

include hg

set_option linter.unusedSectionVars false

mutual

/-- There is no bytecode in what the parser makes. -/
theorem Expr.mapBytecode_bare (e : Expr) {sc : Scopes} {p : Position} (h : e.Parsed .bare sc p) :
    e.mapBytecode g = e := by
  cases h with
  | vector h | set h | recur _ _ h => rw [Expr.mapBytecode, mapBytecodeAll_bare _ h]
  | map _ h => rw [Expr.mapBytecode, mapBytecodeAll_bare _ h]
  | cond ht hy hn =>
    rw [Expr.mapBytecode, Expr.mapBytecode_bare _ ht, Expr.mapBytecode_bare _ hy,
      mapBytecodeOption_bare _ hn]
  | block h => rw [Expr.mapBytecode, mapBytecodeBody_bare _ h]
  | letIn hb h | loop hb h =>
    rw [Expr.mapBytecode, mapBytecodeBindings_bare _ hb, mapBytecodeBody_bare _ h]
  | fn hr h =>
    obtain ⟨hc, -⟩ := hr
    cases hc
    rw [Expr.mapBytecode, mapBytecodeArities_bare _ h, hg]
  | define h => rw [Expr.mapBytecode, mapBytecodeOption_bare _ h]
  | setLocal _ h | setVar h | throw h => rw [Expr.mapBytecode, Expr.mapBytecode_bare _ h]
  | call hc h => rw [Expr.mapBytecode, Expr.mapBytecode_bare _ hc, mapBytecodeAll_bare _ h]
  | attempt h hc hf =>
    rw [Expr.mapBytecode, mapBytecodeAll_bare _ h, mapBytecodeCatches_bare _ hc,
      mapBytecodeFinish_bare _ hf]
  | _ => rw [Expr.mapBytecode]

theorem mapBytecodeAll_bare (es : List Expr) {sc : Scopes} {p : Position}
    (h : AllParsed .bare sc p es) : mapBytecodeAll g es = es := by
  cases es with
  | nil => rfl
  | cons e rest =>
    rw [mapBytecodeAll, Expr.mapBytecode_bare e (h e List.mem_cons_self),
      mapBytecodeAll_bare rest fun x hx => h x (List.mem_cons_of_mem e hx)]

theorem mapBytecodeBody_bare (es : List Expr) {sc : Scopes} {p : Position}
    (h : BodyParsed .bare sc p es) : mapBytecodeAll g es = es := by
  match es, h with
  | [], .nil => rfl
  | [e], .last h => rw [mapBytecodeAll, Expr.mapBytecode_bare e h, mapBytecodeAll]
  | e :: e' :: rest, .cons h hr =>
    rw [mapBytecodeAll, Expr.mapBytecode_bare e h, mapBytecodeBody_bare (e' :: rest) hr]

theorem mapBytecodeOption_bare (o : Option Expr) {sc : Scopes} {p : Position}
    (h : ∀ e, o = some e → e.Parsed .bare sc p) : mapBytecodeOption g o = o := by
  cases o with
  | none => rfl
  | some e => rw [mapBytecodeOption, Expr.mapBytecode_bare e (h e rfl)]

theorem mapBytecodeFinish_bare (o : Option (List Expr)) {sc : Scopes} {p : Position}
    (h : ∀ es, o = some es → AllParsed .bare sc p es) : mapBytecodeBody g o = o := by
  cases o with
  | none => rfl
  | some es => rw [mapBytecodeBody, mapBytecodeAll_bare es (h es rfl)]

theorem mapBytecodeBindings_bare (bs : List (Bound Expr)) {sc inner : Scopes} {p : Position}
    (h : BindingsParsed .bare sc p bs inner) : mapBytecodeBindings g bs = bs := by
  match bs, h with
  | [], .nil => rfl
  | ⟨name, init⟩ :: rest, .cons h hr =>
    rw [mapBytecodeBindings, Expr.mapBytecode_bare init h, mapBytecodeBindings_bare rest hr]

theorem mapBytecodeArities_bare (as : List (Arity Expr)) {sc : Scopes} {name : String}
    (h : ∀ params variadic body, Arity.mk params variadic body ∈ as →
      BodyParsed .bare (sc.enterCall name params) (.body params.length) body) :
    mapBytecodeArities g as = as := by
  cases as with
  | nil => rfl
  | cons a rest =>
    obtain ⟨params, variadic, body⟩ := a
    rw [mapBytecodeArities, mapBytecodeBody_bare body (h _ _ _ List.mem_cons_self),
      mapBytecodeArities_bare rest fun _ _ _ hm => h _ _ _ (List.mem_cons_of_mem _ hm)]

theorem mapBytecodeCatches_bare (cs : List (CatchClause Expr)) {sc : Scopes}
    (h : ∀ cls name body, CatchClause.mk cls name body ∈ cs →
      AllParsed .bare ([name] :: sc) .top body) : mapBytecodeCatches g cs = cs := by
  cases cs with
  | nil => rfl
  | cons c rest =>
    obtain ⟨cls, name, body⟩ := c
    rw [mapBytecodeCatches, mapBytecodeAll_bare body (h _ _ _ List.mem_cons_self),
      mapBytecodeCatches_bare rest fun _ _ _ hm => h _ _ _ (List.mem_cons_of_mem _ hm)]

end

theorem FnLiteral.mapBytecode_bare {f : FnLiteral Expr} {sc : Scopes} (h : f.Parsed .bare sc) :
    f.mapBytecode g = f := by
  rw [FnLiteral.mapBytecode, mapBytecodeArities_bare hg _ h.arities, h.literal.1, hg]
  obtain ⟨name, arities, span, compiled⟩ := f
  rw [show compiled = none from h.literal.1]

end Bare

namespace Parity

open Act

/-! ## The coupling -/

/-- Where both are: what corresponds, the depth of calls, and what is on the machine that is parked. -/
structure World where
  ties : Ties
  depth : Nat
  stack : Array Value
  frames : Array Activation

namespace World

/-- What a call changes. -/
structure Le (v w : World) : Prop where
  ties : v.ties.Le w.ties
  depth : w.depth = v.depth
  stack : w.stack = v.stack
  frames : w.frames = v.frames

theorem Le.refl (w : World) : w.Le w := ⟨.refl _, rfl, rfl, rfl⟩

theorem Le.trans {u v w : World} (h : u.Le v) (h' : v.Le w) : u.Le w :=
  ⟨h.ties.trans h'.ties, h'.depth.trans h.depth, h'.stack.trans h.stack, h'.frames.trans h.frames⟩

def tied (w : World) (ties : Ties) : World := { w with ties := ties }

theorem le_tied {w : World} {ties : Ties} (h : w.ties.Le ties) : w.Le (w.tied ties) :=
  ⟨h, rfl, rfl, rfl⟩

end World

/-- Both at a world. The machine that is parked has no open cells, and is there if any function runs
on it. -/
structure Related (w : World) (s t : State) : Prop where
  bonds : Bonds w.ties s t
  depth : s.depth = w.depth
  depth' : t.depth = w.depth
  stack : (t.parked.getD .idle).stack = w.stack
  frames : (t.parked.getD .idle).frames = w.frames
  openCells : (t.parked.getD .idle).openCells = []
  there : w.frames = #[] ∨ t.parked.isSome

/-- What the machine may use at a level of resources. -/
def ampleLimits (L : Nat) (l : Limits) : Limits := ⟨L + l.stackMax, L + l.framesMax, none⟩

/-- A tree walker beside an interpreter of bytecode with ample limits. The first may leave with a text. The
lines of faults are the same, but for overflows of the stack. -/
def coupling (text : String) : Coupling where
  World := World
  le := World.Le
  refl := .refl
  trans := .trans
  ext w ρ := w.ties.Ext ρ
  plain w := w.ties.exists_plain
  anti h hρ := hρ.anti h.ties
  limits := ampleLimits
  related := Related
  spent _ _ _ := True
  spent_anti _ _ := trivial
  lags _ _ := True
  lags_mono _ _ := trivial
  spent_of_related _ _ := trivial
  spent_of_lags _ _ _ _ := trivial
  allowed _ := True
  allowed_of_plain _ := trivial
  allowed_thrown _ _ := trivial
  near f a b := f = .stackOverflow ∨ b.line = a.line
  near_refl _ _ := .inr rfl
  near_within {f a b} place h := by
    refine h.imp_right fun e => ?_
    by_cases ha : a.line = 0
    · rw [if_pos ha, if_pos (e.trans ha)]
    · rw [if_neg ha, if_neg fun hb => ha (e.symm.trans hb)]
      exact e
  exact := False
  exact_of_near h := h.elim
  excused out := out = text

variable {text : String} {w : World} {s t : State} {short : Nat → Prop}

theorem Related.retie (h : Related w s t) {ties : Ties} {s' t' : State} (hb : Bonds ties s' t')
    (hs : s'.depth = s.depth) (ht : t'.depth = t.depth) (hp : t'.parked = t.parked) :
    Related (w.tied ties) s' t' where
  bonds := hb
  depth := hs.trans h.depth
  depth' := ht.trans h.depth'
  stack := by rw [hp]; exact h.stack
  frames := by rw [hp]; exact h.frames
  openCells := by rw [hp]; exact h.openCells
  there := by rw [hp]; exact h.there

theorem Related.common (h : Related w s t) : (coupling text).Common w s t :=
  ⟨h.bonds.names, h.bonds.gensyms, h.bonds.output, h.bonds.raised, h.bonds.vars⟩

theorem Related.change (h : Related w s t) {s' t' : State} (hs : s.Besides s')
    (hg : ∀ v, w.ties.natives v → s'.store.isNative v = true) (ht : t.Besides t')
    (hc : (coupling text).Common w s' t') : Related w s' t' :=
  h.retie (h.bonds.change hs hg ht hc.names hc.gensyms hc.output hc.raised hc.vars)
    (by rw [hs]) (by rw [ht]) (by rw [ht])

theorem shared : (coupling text).Shared where
  common h := h.common
  change h hs hk ht hc :=
    h.change hs (fun v hv => isNative_of_keeps hk (h.bonds.genuine v hv)) ht hc

/-! ## Leaving -/

theorem leaving_follows {ε α β : Type} {V : World → α → β → Prop} {X : World → ε → ε → Prop}
    {b : Nat → Act ε β} :
    (coupling text).Follows short V X w (Act.leaving text) b :=
  fun _ _ _ => .exhausted (.inl rfl)

/-- The first leaves or goes on as the second does. -/
theorem unlessLeaving_follows {ε α β : Type} {V : World → α → β → Prop} {X : World → ε → ε → Prop}
    {p : State → Bool} {a : Act ε α} {b : Nat → Act ε β}
    (h : ∀ s t, Related w s t → p s = true →
      (coupling text).Match short V X w (a s) fun m L => b m ((coupling text).at_ L t)) :
    (coupling text).Follows short V X w
      (fun s => if p s then a s else Act.leaving text s) b := by
  intro s t hst
  cases hp : p s with
  | true => simpa only [hp, if_true] using h s t hst hp
  | false =>
    simp only [hp, Bool.false_eq_true, if_false]
    exact .exhausted (.inl rfl)

theorem assign_follows (v : Var) {x y : Value} (hx : (coupling text).value w x y) :
    (coupling text).Follows short (coupling text).same (coupling text).fault w
      (if v.admits x then Run.assign v x else Act.leaving text) fun _ => Run.assign v y := by
  by_cases ha : v.admits x = true
  · rw [if_pos ha]
    exact shared.assign w v hx fun {s t} hst hc => Related.change hst rfl
      (fun u hu => isNative_setVar (hst.bonds.genuine u hu) ha) rfl hc
  · rw [if_neg ha]
    exact leaving_follows

/-! ## Variables -/

theorem bind_follows {names : List String} {sc : Scopes} {i j : Option Nat}
    (he : Env w.ties (names :: sc) i j) (name : String) {x y : Value}
    (hx : (coupling text).value w x y) :
    (coupling text).Follows short (fun w' => Env w'.ties ((name :: names) :: sc))
      (coupling text).fault w (Locals.cell i name x) fun _ => Locals.cell j name y := by
  refine .of_step fun s t (hst : Related w s t) => ?_
  have hb := hst.bonds
  let t' : State := { t with store := (t.store.newFrame j #[.symbol name, y]).2 }
  have ht : Enlarged t t' :=
    ⟨⟨fun hf => Array.getElem?_push_of_some hf, fun h => h, fun h => h, fun h => h⟩, rfl, rfl, rfl,
      rfl, rfl, rfl⟩
  let p : Place := .scope t.store.frames.size j
  have hp : p.Holds t'.store name y :=
    ⟨⟨#[.symbol name, y], j, t.store.depthBelow j⟩, Array.getElem?_push_size, rfl, rfl⟩
  have hkey : ∀ l ∈ w.ties.links, l.place.key = p.key → ∃ c, l.place = .self c ∧ p = .self c := by
    intro l hl e
    obtain ⟨d, hd⟩ := List.mem_iff_getElem?.mp hl
    cases hplace : l.place with
    | scope k a =>
      rw [hplace] at e
      have hk : k = t.store.frames.size := congrArg Prod.snd e
      exact absurd (hb.frame_lt hd hplace) (hk ▸ Nat.lt_irrefl _)
    | cell | self => rw [hplace] at e; cases e
  have hnew := hb.link name i ht hp hx hkey fun _ _ => nofun
  have hle := w.ties.le_link ⟨name, i, p⟩
  refine ⟨w.tied _, _, _, _, t', World.le_tied hle, rfl, fun _ _ => rfl, ?_,
    hst.retie hnew rfl rfl rfl⟩
  have hlast : (w.ties.link ⟨name, i, p⟩).links[w.ties.links.length]? = some ⟨name, i, p⟩ := by
    simp [Ties.link]
  rw [hb.frames]
  exact .name (he.mono hle) hlast (fun _ e => (e ▸ he).lt) fun _ e => (e ▸ he).lt' hb

theorem cells_follow {names : List String} {sc : Scopes} {i j : Option Nat}
    (he : Env w.ties (names :: sc) i j) (more : List String) {xs ys : List Value}
    (hx : (coupling text).values w xs ys) (hn : xs.length = more.length) :
    (coupling text).Follows short (fun w' => Env w'.ties ((more.reverse ++ names) :: sc))
      (coupling text).fault w (Locals.cells i (more.zip xs)) fun _ =>
        Locals.cells j (more.zip ys) := by
  induction more generalizing w names i j xs ys with
  | nil => exact .pure he
  | cons name more ih =>
    rcases hx.elim with ⟨rfl, rfl⟩ | ⟨x, xs, y, ys, rfl, rfl, hx, hxs⟩
    · cases hn
    · refine (bind_follows he name hx).bind fun w' i' j' hw he' => ?_
      rw [List.reverse_cons, List.append_assoc]
      exact ih he' (hxs.mono hw) (Nat.succ.inj hn)

theorem scope_follows {sc : Scopes} {i j : Option Nat} (he : Env w.ties sc i j)
    (names : List String) {xs ys : List Value} (hx : (coupling text).values w xs ys)
    (hn : xs.length = names.length) :
    (coupling text).Follows short (fun w' => Env w'.ties (names.reverse :: sc))
      (coupling text).fault w ((Locals.named .framed).scope i names xs) fun _ =>
        (Locals.named .framed).scope j names ys := by
  simp only [Locals.named, hn, hx.length, if_true]
  rw [show names.reverse :: sc = (names.reverse ++ []) :: sc by rw [List.append_nil]]
  exact cells_follow (.scope he) names hx hn

theorem read_follows {sc : Scopes} {i j : Option Nat} (he : Env w.ties sc i j) {b : Binding}
    (hb : sc.find? b.name = some b) (span : Span) :
    (coupling text).Follows short (coupling text).value (coupling text).fault w
      ((Locals.named .framed).read b span i) fun _ => (Locals.named .framed).read b span j := by
  refine .of_step fun s t (hst : Related w s t) => ?_
  obtain ⟨d, l, k, a, hs, hl, hp, hnear⟩ := he.find hst.bonds hb
  obtain ⟨v, v', hv, hv', hx⟩ := hst.bonds.slot_of_link hl
  rw [hp] at hv'
  obtain ⟨f, hf, hslots, -⟩ := hv'
  have hfirst : s.store.named? b.name i = some v := by
    rw [Store.named?, hs.found hst.bonds, Option.bind_some, hv]
  have hsecond : t.store.named? b.name j = some v' := by
    rw [Store.named?, Store.cellOf?, hnear _ (Nat.le_refl _), Option.bind_some, Store.slot?, hf]
    simp [hslots]
  refine ⟨w, v, v', s, t, .refl w, ?_, fun _ _ => ?_, hx, hst⟩
  · simp only [Locals.named, Act.bind_apply, Act.askStore, hfirst]
    rfl
  · simp only [Locals.named, Act.bind_apply, Act.askStore, Coupling.at_store, hsecond]
    rfl

theorem write_follows {sc : Scopes} {i j : Option Nat} (he : Env w.ties sc i j) {b : Binding}
    (hb : sc.find? b.name = some b) (span : Span) {x y : Value}
    (hx : (coupling text).value w x y) :
    (coupling text).Follows short (coupling text).same (coupling text).fault w
      ((Locals.named .framed).write b span i x) fun _ =>
        (Locals.named .framed).write b span j y := by
  refine .of_step fun s t (hst : Related w s t) => ?_
  obtain ⟨d, l, k, a, hs, hl, hp, hnear⟩ := he.find hst.bonds hb
  have hset := hst.bonds.set hl (fun c e => by rw [hp] at e; cases e) hx
  rw [hp] at hset
  refine ⟨w, (), (), _, _, .refl w, ?_, fun _ _ => ?_, rfl, hst.retie hset rfl rfl rfl⟩
  · simp only [Locals.named, Act.bind_apply, Act.askStore, hs.found hst.bonds]
    rfl
  · simp only [Locals.named, Act.bind_apply, Act.askStore, Coupling.at_store, Store.cellOf?,
      hnear _ (Nat.le_refl _)]
    rfl

/-! ## Functions -/

theorem make_follows {sc : Scopes} {i j : Option Nat} (he : Env w.ties sc i j)
    {f : FnLiteral Expr} (hf : f.Parsed rules sc) :
    (coupling text).Follows short (coupling text).value (coupling text).fault w
      (Eval.makeFunction (f.mapBytecode fun _ => none) i) fun _ => Eval.makeFunction f j := by
  refine .of_step fun s t (hst : Related w s t) => ?_
  have hb := hst.bonds
  have hfirst : Eval.makeFunction (f.mapBytecode fun _ => none) i s =
      .ok (.fn s.store.functions.size f.displayName)
        { s with store := (s.store.newFunction ⟨f.mapBytecode fun _ => none, i⟩).2 } := rfl
  -- What both have made stands for each other, be it compiled or not.
  have hmade : ∀ (b : Bool × Nat) (t' : State),
      (if b.1 then t.store.closures.size else t.store.functions.size) ≤ b.2 →
      Enlarged t t' → t'.depth = t.depth → t'.parked = t.parked →
      Twin w.ties t'.store ⟨f.mapBytecode fun _ => none, i⟩ f.displayName b →
      ∃ w', w.Le w' ∧ Related w' { s with
          store := (s.store.newFunction ⟨f.mapBytecode fun _ => none, i⟩).2 } t' ∧
        (coupling text).value w' (.fn s.store.functions.size f.displayName)
          (.ofIdentity b f.displayName) := by
    intro b t' hnew ht hd hp htwin
    refine ⟨w.tied _, World.le_tied (w.ties.le_make (hb.new hnew) f.displayName),
      hst.retie (hb.make (hb.new hnew) ht htwin) rfl hd hp, ?_⟩
    rw [hb.functions]
    exact w.ties.sends_make (hb.new hnew) f.displayName
  cases hc : f.compiled with
  | some p =>
    let t' : State := { t with store := (t.store.newClosure ⟨p, #[]⟩).2 }
    obtain ⟨hbare, hp⟩ := hf.literal.2 p hc
    obtain ⟨hname, hcaptures, hlays, -⟩ := Proto.ofFn_lays hf hp
    have harities : mapBytecodeArities (fun _ => none) f.arities = f.arities :=
      mapBytecodeArities_bare rfl _ hbare.arities
    have hbare' : (f.mapBytecode fun _ => none).Parsed .bare sc := by
      rw [FnLiteral.mapBytecode, harities]
      exact hbare
    have htwin : Twin w.ties t'.store ⟨f.mapBytecode fun _ => none, i⟩ f.displayName
        (true, t.store.closures.size) := by
      have hclosure : t'.store.closures[t.store.closures.size]? = some ⟨p, #[]⟩ :=
        Array.getElem?_push_size
      rw [← harities] at hlays
      refine .compiled hclosure hname hlays ?_ hbare' ?_ (.inl rfl) hf.literal.1.2
      · rw [hcaptures]
        rfl
      · intro _ _ _ _ _ _ hn
        cases hn
    obtain ⟨w', hw, hrel, hval⟩ := hmade (true, t.store.closures.size) t' (Nat.le_refl _)
      ⟨⟨fun h => h, fun h => h, fun h => h, fun hf => Array.getElem?_push_of_some hf⟩, rfl, rfl, rfl,
        rfl, rfl, rfl⟩ rfl rfl htwin
    refine ⟨w', _, _, _, t', hw, hfirst, fun _ _ => ?_, hval, hrel⟩
    unfold Eval.makeFunction
    rw [hc]
    show EStateM.Result.ok (Value.closure t.store.closures.size p.name) _ = _
    rw [hname]
    rfl
  | none =>
    let t' : State := { t with store := (t.store.newFunction ⟨f, j⟩).2 }
    have htwin : Twin w.ties t'.store ⟨f.mapBytecode fun _ => none, i⟩ f.displayName
        (false, t.store.functions.size) :=
      .interpreted (g := f) (l := j) Array.getElem?_push_size rfl hf he
    obtain ⟨w', hw, hrel, hval⟩ := hmade (false, t.store.functions.size) t' (Nat.le_refl _)
      ⟨⟨fun h => h, fun h => h, fun hf => Array.getElem?_push_of_some hf, fun h => h⟩, rfl, rfl, rfl,
        rfl, rfl, rfl⟩ rfl rfl htwin
    refine ⟨w', _, _, _, t', hw, hfirst, fun _ _ => ?_, hval, hrel⟩
    unfold Eval.makeFunction
    rw [hc]
    rfl

/-- Variables and functions in both. -/
def lexical (text : String) : (coupling text).Scoped where
  rules := rules
  erase _ := none
  first := .named .framed
  second := .named .framed
  lax := False
  formed := .inr fun hf => hf.literal.1.1
  env w := Env w.ties
  env_mono hw he := he.mono hw.ties
  growing w := Env w.ties
  env_of_growing h := h
  scope names he hx hn := scope_follows he names hx (hn.resolve_left id)
  bind name he hx := bind_follows he name hx
  keeps {_ w _ _ _ _ _} he h := (h w (.refl w) he).imp
    (fun _ _ _ hw hx => ⟨hx, he.mono hw.ties⟩) fun _ _ _ _ hx => hx
  read he hb span := read_follows he hb span
  write he hb span hx := write_follows he hb span hx
  stray h := h.elim
  make he hf := make_follows he hf

def descent (text : String) :
    Coupling.Descent (lexical text) (lexical text) where
  rules := rfl
  erase := rfl
  limits := rfl
  allowed h := h
  near h := h
  excused h := h
  deeper w := { w with depth := w.depth + 1 }
  ext_deeper h := h
  env_deeper h := h
  depth h := ⟨h.depth'.trans h.depth.symm, congrArg Config.maxDepth h.bonds.config⟩
  enter h _ := { h with
    bonds := { h.bonds with }
    depth := congrArg (· + 1) h.depth
    depth' := congrArg (· + 1) h.depth' }
  leave {w w' _ _} hw h := ⟨{ w' with depth := w.depth }, ⟨hw.ties, rfl, hw.stack, hw.frames⟩,
    fun _ h => h, fun _ h => h, { h with
      bonds := { h.bonds with }
      depth := congrArg (· - 1) (h.depth.trans hw.depth)
      depth' := congrArg (· - 1) (h.depth'.trans hw.depth) }⟩
  leave_spent h := h

/-! ## Programs -/

/-- What the pass that compiles literals makes of a program. -/
theorem annotate_parsed {e : Expr} {sc : Scopes} {p : Position} (he : e.Parsed .bare sc p)
    (hline : e.Lined) :
    e = ((Expr.annotate e).run []).1.mapBytecode (fun _ => none) ∧
      ((Expr.annotate e).run []).1.Parsed rules sc p := by
  have h := Expr.annotate_parsed (R := .lined) (T := rules) (fun _ _ h => h.1.literal.1)
    (fun _ f g h hc halike => ⟨⟨halike.formed h.1.literal.2, ?_⟩, fun p hp => by rw [hc] at hp; cases hp⟩)
    (fun h => h) (fun _ f p h _ hp => ⟨⟨h.literal.1.literal.2, ?_⟩, fun q hq => ?_⟩) e (he.lined e hline) []
  · exact ⟨(h.2.trans (Expr.mapBytecode_bare rfl e he)).symm, h.1⟩
  · rw [halike, FnLiteral.mapBytecode_bare rfl h.1]
    exact h.2
  · rw [show ({ f with compiled := some p } : FnLiteral Expr).mapBytecode (fun _ => none) =
      f.mapBytecode fun _ => none from rfl, FnLiteral.mapBytecode_bare rfl h.literal.1]
    exact h.literal.2
  · cases hq
    refine ⟨?_, hp⟩
    have hbare := h.literal.1
    obtain ⟨name, arities, span, compiled⟩ := f
    rw [show compiled = none from hbare.literal.1] at hbare
    exact hbare

theorem parsed_of_bare {e : Expr} {sc : Scopes} {p : Position} (he : e.Parsed .bare sc p)
    (hline : e.Lined) : e = e.mapBytecode (fun _ => none) ∧ e.Parsed rules sc p := by
  have hl : ∀ sc f, Expr.Rules.lined.literal sc f → rules.literal sc f := fun _ f h => by
    refine ⟨⟨h.1.literal.2, ?_⟩, fun p hp => by rw [h.1.literal.1] at hp; cases hp⟩
    rw [FnLiteral.mapBytecode_bare rfl h.1]
    exact h.2
  exact ⟨(Expr.mapBytecode_bare rfl e he).symm, Expr.Parsed.imp hl (fun h => h) e (he.lined e hline)⟩

end Parity

end TwinLisp
