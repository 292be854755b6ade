import TwinLisp.Proofs.Coupling.Evaluation
import TwinLisp.Proofs.Coupling.Parsing
import TwinLisp.Proofs.Expr.Prepared

/-! Calls of values by two engines that are coupled. How compiled functions are called, and which
function stands for which, is left open; all other values are called alike.

* `Coupling.callFunction_follows`: interpreted functions with corresponding literals.
* `Coupling.apply_follows`: the call of a value, given the calls of functions.
* `Coupling.lateCall_follows`: a macro that is called late. -/

namespace TwinLisp

open Eval

namespace Coupling

variable {C : Coupling} {short : Nat → Prop} {S : Scoped C} {E : Engine} {F : Nat → Engine}

/-- What two interpreted functions stand for: nothing, or literals that correspond. -/
def Twins (S : Scoped C) (w : C.World) (i j : Nat) (s t : State) : Prop :=
  (i = j ∧ s.store.functions[i]? = none ∧ t.store.functions[j]? = none) ∨
    ∃ f k l, ∃ sc : Scopes, s.store.functions[i]? = some ⟨f.mapBytecode S.erase, k⟩ ∧
      t.store.functions[j]? = some ⟨f, l⟩ ∧ f.Parsed S.rules sc ∧ S.env w sc k l

theorem callSlots_values (S : Scoped C) {w : C.World} {x y : Value} (h : C.value w x y)
    (a : Arity Expr) {xs ys : List Value} (hx : C.values w xs ys) :
    C.values w (callSlots x (a.mapBytecode S.erase) xs) (callSlots y a ys) := by
  intro ρ hρ
  have e := hx ρ hρ
  rw [Renaming.SendsAll] at e ⊢
  subst e
  have hr : (a.mapBytecode S.erase).required = a.required := rfl
  have hv : (a.mapBytecode S.erase).variadic = a.variadic := rfl
  rw [h ρ hρ]
  unfold callSlots
  rw [hr, hv]
  split
  · simp only [List.map_append, List.map_cons, List.map_take, ← List.map_drop, List.isEmpty_map]
    split <;> simp [Value.rename]
  · rfl

theorem takes_of_arityFor? {f : FnLiteral Expr} {count : Nat} {a : Arity Expr}
    (h : f.arityFor? count = some a) :
    (a.variadic = false ∧ a.params.length = count) ∨
      (a.variadic = true ∧ a.params.length ≤ count + 1) := by
  unfold FnLiteral.arityFor? at h
  split at h
  · next b hb =>
    cases h
    have := List.find?_some hb
    simp only [Bool.and_eq_true, Bool.not_eq_true', beq_iff_eq] at this
    exact .inl this
  · have := List.find?_some h
    simp only [Bool.and_eq_true, decide_eq_true_eq] at this
    exact .inr this

theorem length_callSlots {f : FnLiteral Expr} (hf : f.Formed) {self : Value} {args : List Value}
    {a : Arity Expr} (ha : f.arityFor? args.length = some a) :
    (callSlots self a args).length = a.params.length + 1 := by
  unfold callSlots Arity.required
  rcases takes_of_arityFor? ha with ⟨hv, hlen⟩ | ⟨hv, hlen⟩
  · simp [hv, hlen]
  · have hpos := List.length_pos_iff.mpr (hf a (FnLiteral.mem_of_arityFor? ha) hv)
    simp only [hv, if_true, List.cons_append, List.length_cons, List.length_append,
      List.length_take, List.length_nil]
    omega

theorem callFunction_follows {D : Coupling} {T : Scoped D} (N : Descent S T) (H : D.Shared)
    (hE : D.Engines T short E F) {w : C.World} {i j : Nat} {name : String} (hv : C.value w (.fn i name) (.fn j name))
    (hf : ∀ s t, C.related w s t → Twins S w i j s t) {xs ys : List Value}
    (hx : C.values w xs ys) :
    C.Follows short C.value C.fault w (callFunction E i name xs) fun m =>
      callFunction (F m) j name ys := by
  have hask : C.Follows short (fun w' o o' => C.le w w' ∧ ((i = j ∧ o = none ∧ o' = none) ∨
      ∃ f k l, ∃ sc : Scopes, o = some ⟨f.mapBytecode S.erase, k⟩ ∧ o' = some ⟨f, l⟩ ∧
        f.Parsed S.rules sc ∧ S.env w' sc k l)) C.fault w
      (Act.askStore fun s => s.functions[i]?) fun _ => Act.askStore fun s => s.functions[j]? :=
    .askStore fun s t hs => ⟨C.refl w, hf s t hs⟩
  refine hask.bind fun w₁ o o' hw₁ ho => ?_
  rcases ho with ⟨_, ⟨rfl, rfl, rfl⟩ | ⟨f, k, l, sc, rfl, rfl, hp, he⟩⟩
  · exact .fail (RuntimeFault.plain_general_append _ (by decide) (by decide))
  · rw [hx.length]
    simp only [FnLiteral.arityFor?_mapBytecode]
    cases ha : f.arityFor? xs.length with
    | none => exact .fail (RuntimeFault.plain_wrongArity _ _)
    | some a =>
      refine counted_follows N ?_
      have he' := N.env_deeper he
      have hv' : D.value (N.deeper w₁) (.fn i name) (.fn j name) := fun ρ hρ =>
        hv ρ (C.anti hw₁ (N.ext_deeper hρ))
      have hx' : D.values (N.deeper w₁) xs ys := fun ρ hρ => hx ρ (C.anti hw₁ (N.ext_deeper hρ))
      rw [← N.erase]
      rw [hE.first]
      simp only [hE.second]
      refine (T.scope (f.name.getD "" :: a.params) he' (callSlots_values T hv' a hx')
        ?_).bind fun w₂ b c hw₂ hbc => ?_
      · refine T.formed.imp_right fun hformed => ?_
        rw [← N.rules] at hp
        have ha' : (f.mapBytecode T.erase).arityFor? xs.length = some (a.mapBytecode T.erase) := by
          rw [FnLiteral.arityFor?_mapBytecode, ha]
          rfl
        exact length_callSlots ((f.formed_mapBytecode T.erase).mpr (hformed hp)) ha'
      refine rounds_follows (f.name.getD "" :: a.params) (n := a.params.length) hE.enough hE.few hE.prompt
        (fun w' k' l' _ hkl => ?_) (T.env_mono hw₂ he') (values.cons (hv'.mono hw₂) (values.nil w₂))
        (Nat.add_comm 1 a.params.length) (T.env_of_growing hbc)
      obtain ⟨params, variadic, body⟩ := a
      have hbody := hp.arities params variadic body (FnLiteral.mem_of_arityFor? ha)
      rw [← N.rules] at hbody
      exact flowBody_follows H hE body hbody hkl

/-! ## Values that are no functions -/

theorem misusedValue_follows {w : C.World} {f g : Value} (hf : C.value w f g) {xs ys : List Value}
    (hx : C.values w xs ys) :
    C.Follows short C.value C.fault w (misused f xs) fun _ => misused g ys := by
  rw [misused, misused, hf.readable, hx.length]
  exact .fail (RuntimeFault.plain_wrongArity _ _)

/-- A call that looks something up, with a value for what is absent. -/
def lookups (look : Value → Value → Value) (f : Value) (args : List Value) : Run Value :=
  match args with
  | [k] => pure (look k .nil)
  | [k, d] => pure (look k d)
  | _ => misused f args

theorem lookups_follow {w : C.World} {f g : Value} (hf : C.value w f g) {xs ys : List Value}
    (hx : C.values w xs ys) (look look' : Value → Value → Value)
    (hl : ∀ k k' d d', C.value w k k' → C.value w d d' → C.value w (look k d) (look' k' d')) :
    C.Follows short C.value C.fault w (lookups look f xs) fun _ => lookups look' g ys := by
  rcases hx.elim with ⟨rfl, rfl⟩ | ⟨k, xs, k', ys, rfl, rfl, hk, hx'⟩
  · exact misusedValue_follows hf hx
  rcases hx'.elim with ⟨rfl, rfl⟩ | ⟨d, xs, d', ys, rfl, rfl, hd, hx''⟩
  · exact .pure (hl k k' .nil .nil hk (value.steady w fun _ => rfl))
  rcases hx''.elim with ⟨rfl, rfl⟩ | ⟨_, _, _, _, rfl, rfl, _, _⟩
  · exact .pure (hl k k' d d' hk hd)
  · exact misusedValue_follows hf hx

theorem callSet_follows {w : C.World} {items items' : List Value}
    (hi : C.values w items items') (hf : C.value w (.set items) (.set items'))
    {xs ys : List Value} (hx : C.values w xs ys) (E E' : Engine) :
    C.Follows short C.value C.fault w ((Value.set items).apply E xs) fun _ =>
      (Value.set items').apply E' ys := by
  rcases hx.elim with ⟨rfl, rfl⟩ | ⟨k, xs, k', ys, rfl, rfl, hk, hx'⟩
  · exact misusedValue_follows hf hx
  rcases hx'.elim with ⟨rfl, rfl⟩ | ⟨_, _, _, _, rfl, rfl, _, _⟩
  · refine .pure fun ρ hρ => ?_
    rw [hi ρ hρ, hk ρ hρ, Value.has_rename, Renaming.Sends]
    split <;> rfl
  · exact misusedValue_follows hf hx

theorem callVector_many (items : List Value) (x y : Value) (rest : List Value) :
    callVector items (x :: y :: rest) = misused (.vector items) (x :: y :: rest) := by
  cases x <;> rfl

theorem callVector_follows {w : C.World} {items items' : List Value}
    (hi : C.values w items items') (hf : C.value w (.vector items) (.vector items'))
    {xs ys : List Value} (hx : C.values w xs ys) :
    C.Follows short C.value C.fault w (callVector items xs) fun _ => callVector items' ys := by
  obtain ⟨ρ, hρ⟩ := C.inhabited w
  rcases hx.elim with ⟨rfl, rfl⟩ | ⟨k, xs, k', ys, rfl, rfl, hk, hx'⟩
  · exact misusedValue_follows hf hx
  rcases hx'.elim with ⟨rfl, rfl⟩ | ⟨_, _, _, _, rfl, rfl, _, _⟩
  · have e := hk ρ hρ
    have hkey : ∀ u : Value, (RuntimeFault.typeError
        ("Key must be integer, got " ++ u.typeName)).Plain := fun _ =>
      RuntimeFault.plain_typeError _
    cases k with
    | int n =>
      subst e
      simp only [callVector, Value.rename]
      have hat := fun σ hσ => (congrArg (Answer.at? · n) (hi σ hσ)).trans (Answer.at?_rename σ items n)
      cases h : Answer.at? items n with
      | some v =>
        have e := hat ρ hρ
        rw [h, Option.map_some] at e
        simp only [e]
        refine .pure fun σ hσ => ?_
        have e' := e.symm.trans (hat σ hσ)
        rw [h] at e'
        exact Option.some.inj e'
      | none =>
        have e := hat ρ hρ
        rw [h, Option.map_none] at e
        simp only [e, hi.length]
        exact .ofFault (Answer.outOfBounds_agree n _)
    | fn id m | closure id m =>
      rcases Value.ofIdentity_cases (ρ.map (_, id)) (ρ.label (_, id) m) with ⟨k, h⟩ | ⟨k, h⟩ <;>
        rw [Renaming.Sends, Value.rename, h] at e <;> subst e <;> exact .fail (hkey _)
    | _ => subst e; exact .fail (hkey _)
  · rw [callVector_many, callVector_many]
    exact misusedValue_follows hf hx

theorem apply_follows (H : C.Shared) (hE : C.Engines S short E F) {w : C.World} {f g : Value}
    (hf : C.value w f g) {xs ys : List Value} (hx : C.values w xs ys)
    (hfn : f.movable = true → C.Follows short C.value C.fault w (f.apply E xs) fun m =>
      g.apply (F m) ys) :
    C.Follows short C.value C.fault w (f.apply E xs) fun m => g.apply (F m) ys := by
  obtain ⟨ρ, hρ⟩ := C.inhabited w
  have e := hf ρ hρ
  cases f with
  | fn | closure => exact hfn rfl
  | native owner op =>
    subst e
    exact native_follows hE.call H op hx
  | keyword k =>
    subst e
    exact lookups_follow hf hx (Answer.lookup · (.keyword k) ·) (Answer.lookup · (.keyword k) ·)
      fun u u' d d' hu hd σ hσ => by
        rw [hu σ hσ, hd σ hσ, Renaming.Sends, ← Answer.lookup_rename]
        rfl
  | map es =>
    rw [Renaming.Sends, Value.rename] at e
    subst e
    refine lookups_follow hf hx (Answer.lookup (.map es)) (Answer.lookup (.map _))
      fun k k' d d' hk hd σ hσ => ?_
    rw [hk σ hσ, hd σ hσ, Renaming.Sends, ← Answer.lookup_rename, ← hf σ hσ]
  | set items =>
    rw [Renaming.Sends, Value.rename, Value.renameItems_eq_map] at e
    subst e
    refine callSet_follows (fun σ hσ => ?_) hf hx E E
    have e := hf σ hσ
    rw [Renaming.Sends, Value.rename, Value.renameItems_eq_map] at e
    injection e
  | vector items =>
    rw [Renaming.Sends, Value.rename, Value.renameItems_eq_map] at e
    subst e
    refine callVector_follows (fun σ hσ => ?_) hf hx
    have e := hf σ hσ
    rw [Renaming.Sends, Value.rename, Value.renameItems_eq_map] at e
    injection e
  | var v =>
    subst e
    refine (H.deref w v .unknown).bind fun w' x y hw hxy => ?_
    exact hE.call w' x y xs ys hxy (hx.mono hw)
  | _ => subst e; exact .fail ⟨nofun, nofun, nofun⟩

/-! ## Whole forms -/

theorem eval_follows (H : C.Shared) (hE : C.Engines S short E F) {e e' : Expr} {sc : Scopes}
    {p : Position} (h : e'.Parsed S.rules sc p) (hp : S.Settled p) (he : e = e'.mapBytecode S.erase)
    {w : C.World} {i j : Option Nat} (hi : S.env w sc i j) :
    C.Follows short C.value C.fault w (e.eval E i) fun m => e'.eval (F m) j := by
  subst he
  rw [Expr.eval, Expr.span_mapBytecode, hE.first]
  simp only [Expr.eval, hE.second]
  exact (flow_follows H hE e' h hi).bind fun w' u v _ hu => toValue_follows hu hp e'.span

/-- What the evaluation of a form needs besides: both compile its literals, or both do not. -/
structure Prepares (C : Coupling) (S : Scoped C) : Prop where
  mode : ∀ {w s t}, C.related w s t → t.mode = s.mode
  outermost : ∀ w, S.env w [] none none
  bare : ∀ {e : Expr}, e.Parsed .bare [] .top → e = e.mapBytecode S.erase ∧ e.Parsed S.rules [] .top
  prepared : ∀ {short e}, e.Parsed .bare [] .top → ∀ w,
    C.Follows short (fun _ x y => x = y.mapBytecode S.erase ∧ y.Parsed S.rules [] .top) C.fault w
      (State.prepared e) fun _ => State.prepared e

theorem mode_follows (hp : C.Prepares S) (w : C.World) :
    C.Follows short C.same C.fault w (Act.ask fun s => s.mode) fun _ => Act.ask fun s => s.mode :=
  .ask (fun _ _ h => hp.mode h) fun _ _ => rfl

theorem interpreted_follows (H : C.Shared) (hE : C.Engines S short E F) (hp : C.Prepares S)
    {e : Expr} (he : e.Parsed .bare [] .top) (w : C.World) :
    C.Follows short C.value C.fault w (do (← State.prepared e).eval E none) fun m => (do
      (← State.prepared e).eval (F m) none) :=
  (hp.prepared he w).bind fun w' _ _ _ hxy => eval_follows H hE hxy.2 (.inl rfl) hxy.1 (hp.outermost w')

theorem lateCall_follows (H : C.Shared) (hE : C.Engines S short E F) (hp : C.Prepares S)
    (hx : C.exact) (v : Var) {args : List Form} (ha : Form.AllProper args) (span : Span)
    (w : C.World) :
    C.Follows short C.value C.fault w (E.lateCall v args span) fun m =>
      (F m).lateCall v args span := by
  refine (H.deref w v span).bind fun w₁ f g _ hf => ?_
  refine (expandUser_follows hE.call hf ha span).bind fun w₂ x y _ hxy => ?_
  obtain ⟨rfl, hproper⟩ := hxy
  have hform : C.Follows short (C.parsed [] .top) C.fault w₂
      (Act.mapFault (fun e : ParseError => ⟨.general e.message, span⟩) (Expr.ofForm E.call y))
      fun m => Act.mapFault (fun e : ParseError => ⟨.general e.message, span⟩)
        (Expr.ofForm (F m).call y) :=
    (ofForm_follows H hE.call hproper w₂).mapFault fun w' e e' he => by
      rw [show e'.message = e.message by
        rw [ParseError.message, ParseError.message, he.2.1, he.2.2 hx]]
      exact fault.plain w' (ParseFault.Plain.message he.1) span
  refine hform.bind fun w₃ e e' _ he => ?_
  obtain ⟨rfl, he⟩ := he
  refine (mode_follows hp w₃).bind fun w₄ m m' _ hm => ?_
  cases hm
  by_cases ht : m = .treeWalk
  · simp only [ht, if_true]
    exact eval_follows H hE (hp.bare he).2 (.inl rfl) (hp.bare he).1 (hp.outermost w₄)
  · simp only [ht, if_false]
    exact interpreted_follows H hE hp he w₄

end Coupling

end TwinLisp
