import TwinLisp.Proofs.Coupling.Natives
import TwinLisp.Proofs.Expr.Bytecode
import TwinLisp.Proofs.Expr.Parsed

/-! Two evaluators that are coupled. Expressions of the second may have bytecode where those of the
first have other bytecode or none; everything else is evaluated alike, in frames that correspond.

* `Coupling.Scoped`: what evaluation needs of related states besides their common parts.
* `Coupling.Engines`: the engines of the second do what that of the first does.
* `Coupling.flow_follows`: the answer of an expression. -/

namespace TwinLisp

open Eval Machine

namespace Coupling

/-- What evaluation needs of related states: how both keep their locals, which scopes correspond,
what bytecode the literals of the first lack, and how functions are made. -/
structure Scoped (C : Coupling) where
  rules : Expr.Rules
  /-- The bytecode that a literal of the first has. -/
  erase : Option Proto → Option Proto
  first : Locals
  second : Locals
  /-- Whether both do the same even with values that do not fit where they are to go. -/
  lax : Prop
  formed : lax ∨ ∀ {sc} {f : FnLiteral Expr}, f.Parsed rules sc → f.Formed
  /-- Scopes that correspond, inside each other with certain names. -/
  env : C.World → Scopes → Option Nat → Option Nat → Prop
  env_mono : ∀ {v w sc i j}, C.le v w → env v sc i j → env w sc i j
  /-- Such scopes that may take further names. -/
  growing : C.World → Scopes → Option Nat → Option Nat → Prop
  env_of_growing : ∀ {w sc i j}, growing w sc i j → env w sc i j
  scope : ∀ {short w sc i j xs ys} (names : List String), env w sc i j → C.values w xs ys →
    (lax ∨ xs.length = names.length) →
    C.Follows short (fun w' => growing w' (names.reverse :: sc)) C.fault w (first.scope i names xs)
      fun _ => second.scope j names ys
  bind : ∀ {short w sc i j names x y} (name : String), growing w (names :: sc) i j →
    C.value w x y →
    C.Follows short (fun w' => growing w' ((name :: names) :: sc)) C.fault w (first.bind i name x)
      fun _ => second.bind j name y
  /-- Nothing else adds names to a scope while a value is computed inside it. -/
  keeps : ∀ {short w sc i j} {a : Run Value} {b : Nat → Run Value}, growing w sc i j →
    (∀ w', C.le w w' → env w' sc i j → C.Follows short C.value C.fault w' a b) →
    C.Follows short (fun w' x y => C.value w' x y ∧ growing w' sc i j) C.fault w a b
  read : ∀ {short w sc i j b}, env w sc i j → Scopes.find? b.name sc = some b → ∀ span,
    C.Follows short C.value C.fault w (first.read b span i) fun _ => second.read b span j
  write : ∀ {short w sc i j b x y}, env w sc i j → Scopes.find? b.name sc = some b → ∀ span,
    C.value w x y →
    C.Follows short C.same C.fault w (first.write b span i x) fun _ => second.write b span j y
  stray : lax → ∀ {short w xs ys}, C.values w xs ys → ∀ span,
    C.Follows short C.value C.fault w (first.stray xs span) fun _ => second.stray ys span
  make : ∀ {short w sc i j f}, env w sc i j → f.Parsed rules sc →
    C.Follows short C.value C.fault w (makeFunction (f.mapBytecode erase) i) fun _ =>
      makeFunction f j

/-- Where no body ends there are no new values for one, or both do the same with them. -/
def Scoped.Settled {C : Coupling} (S : Scoped C) (p : Position) : Prop := p.tail = false ∨ S.lax

theorem Scoped.settled_nonTail {C : Coupling} (S : Scoped C) (p : Position) :
    S.Settled p.nonTail := .inl rfl

/-- Two interpreters outside of a call and inside it, where one more call is counted. -/
structure Descent {C D : Coupling} (S : Scoped C) (T : Scoped D) where
  rules : T.rules = S.rules
  erase : T.erase = S.erase
  limits : D.limits = C.limits
  allowed : ∀ {f}, D.allowed f → C.allowed f
  near : ∀ {f a b}, D.near f a b → C.near f a b
  excused : ∀ {text}, D.excused text → C.excused text
  /-- The world inside. -/
  deeper : C.World → D.World
  ext_deeper : ∀ {w ρ}, D.ext (deeper w) ρ → C.ext w ρ
  env_deeper : ∀ {w sc i j}, S.env w sc i j → T.env (deeper w) sc i j
  depth : ∀ {w s t}, C.related w s t → t.depth = s.depth ∧ t.config.maxDepth = s.config.maxDepth
  enter : ∀ {w s t}, C.related w s t → s.depth < s.config.maxDepth →
    D.related (deeper w) { s with depth := s.depth + 1 } { t with depth := t.depth + 1 }
  leave : ∀ {w w' s t}, D.le (deeper w) w' → D.related w' s t → ∃ w'', C.le w w'' ∧
    (∀ ρ, C.ext w'' ρ → D.ext w' ρ) ∧ (∀ m, D.lags w' m → C.lags w'' m) ∧
    C.related w'' { s with depth := s.depth - 1 } { t with depth := t.depth - 1 }
  leave_spent : ∀ {w s t}, D.spent (deeper w) s t →
    C.spent w { s with depth := s.depth - 1 } { t with depth := t.depth - 1 }

/-- The engines of the second, one for each fuel, do what the engine of the first does. -/
structure Engines (C : Coupling) (S : Scoped C) (short : Nat → Prop) (E : Engine)
    (F : Nat → Engine) : Prop where
  first : E.locals = S.first
  second : ∀ m, (F m).locals = S.second
  call : C.Calls short E.call fun m => (F m).call
  late : S.rules.late → ∀ w v args span, Form.AllProper args →
    C.Follows short C.value C.fault w (E.late v args span) fun m => (F m).late v args span
  assign : ∀ w v x y, C.value w x y →
    C.Follows short C.same C.fault w (E.assign v x) fun m => (F m).assign v y
  enough : ∃ K, ∀ m ≥ K, E.rounds ≤ (F m).rounds
  few : ∀ m, short m → (F m).rounds ≤ E.rounds
  prompt : ∀ m, E.rounds ≤ (F m).rounds ∨ ∀ w, C.lags w m

/-- Answers of expressions at a position. -/
def flow {C : Coupling} (p : Position) (w : C.World) : Flow → Flow → Prop
  | .value x, .value y => C.value w x y
  | .again xs, .again ys => p.tail = true ∧ p.recurArity = some xs.length ∧ C.values w xs ys
  | _, _ => False

variable {C : Coupling} {short : Nat → Prop}

theorem Follows.lag {ε α β : Type} {V : C.World → α → β → Prop} {X : C.World → ε → ε → Prop}
    {w : C.World} {a : Act ε α} {b b' : Nat → Act ε β} (h : C.Follows short V X w a b)
    (hb : ∀ m, b' m = b m ∨ (∀ w, C.lags w m) ∧ ∀ t, ∃ t', b' m t = .error .exhausted t')
    (hK : ∃ K, ∀ m ≥ K, b' m = b m) : C.Follows short V X w a b' := by
  have settles : ∀ {w : C.World} {t : State} {r}, C.Settles w (fun m L => b m (C.at_ L t)) r →
      C.Settles w (fun m L => b' m (C.at_ L t)) r := by
    rintro w t r ⟨K, hc⟩
    obtain ⟨K', hK⟩ := hK
    refine ⟨max K K', fun L hL => ⟨fun m => ?_, fun m hm => ?_⟩⟩
    · rcases hb m with e | ⟨hl, h0⟩
      · simpa only [e] using (hc L (by omega)).1 m
      · exact .inr ⟨hl w, h0 _⟩
    · simpa only [hK m (by omega)] using (hc L (by omega)).2 m (by omega)
  intro s t hst
  have h' := h s t hst
  generalize a s = r at h'
  cases h' with
  | ok hw hx hs' hc => exact .ok hw hx hs' (settles hc)
  | raised hw he hs' hc => exact .raised hw he hs' (settles hc)
  | exhausted hc =>
    refine .exhausted (hc.imp_right fun hc m hm => ?_)
    rcases hb m with e | ⟨hl, h0⟩
    · simpa only [e] using hc m hm
    · refine ⟨0, fun L _ => ?_⟩
      obtain ⟨t', e⟩ := h0 (C.at_ L t)
      exact ⟨t', e, C.spent_of_lags (hl w) _ _ _⟩

variable (S : Scoped C)

/-- A body that counts as one more nested call until it has ended in any way. -/
theorem counted_follows {S : Scoped C} {D : Coupling} {T : Scoped D} (N : Descent S T) {w : C.World}
    {span : Span} {a : Run Value} {b : Nat → Run Value}
    (h : D.Follows short D.value D.fault (N.deeper w) a b) :
    C.Follows short C.value C.fault w (do
        Run.enter span
        Act.ending a fun s => { s with depth := s.depth - 1 }) fun m => (do
      Run.enter span
      Act.ending (b m) fun s => { s with depth := s.depth - 1 }) := by
  intro s t hs
  obtain ⟨hd, hm⟩ := N.depth hs
  simp only [Act.bind_apply, Run.enter, at_depth, at_maxDepth, hd, hm]
  by_cases hc : s.depth ≥ s.config.maxDepth
  · simp only [if_pos hc]
    exact .raised (C.refl w) (fault.plain w RuntimeFault.plain_stackOverflow span) hs
      (.of_eq fun _ _ => rfl)
  · have h' := h _ _ (N.enter hs (Nat.lt_of_not_le hc))
    rw [hd] at h'
    have hat : ∀ L, ({ C.at_ L t with depth := s.depth + 1 } : State) =
        D.at_ L { t with depth := s.depth + 1 } := fun L => by
      rw [Coupling.at_, Coupling.at_, N.limits]
      rfl
    have hback : ∀ L (t : State), ({ D.at_ L t with depth := t.depth - 1 } : State) =
        C.at_ L { t with depth := t.depth - 1 } := fun L t => by
      rw [Coupling.at_, Coupling.at_, N.limits]
      rfl
    simp only [if_neg hc, Act.ending, hat]
    generalize a { s with depth := s.depth + 1 } = r at h'
    cases h' with
    | ok hw hx hs' hc =>
      obtain ⟨w'', hw'', hext, hlag, hs''⟩ := N.leave hw hs'
      refine .ok hw'' (fun ρ hρ => hx ρ (hext ρ hρ)) hs'' ?_
      exact hc.carry hlag (fun _ r => Act.ending (fun _ => r) (fun s => { s with depth := s.depth - 1 }) s)
        (fun _ L => congrArg _ (hback L _)) fun _ t => ⟨_, rfl⟩
    | raised hw he hs' hc =>
      obtain ⟨w'', hw'', hext, hlag, hs''⟩ := N.leave hw hs'
      refine .raised hw'' ⟨N.allowed he.1, fun ρ hρ => he.2.1 ρ (hext ρ hρ), N.near he.2.2⟩ hs'' ?_
      exact hc.carry hlag (fun _ r => Act.ending (fun _ => r) (fun s => { s with depth := s.depth - 1 }) s)
        (fun _ L => congrArg _ (hback L _)) fun _ t => ⟨_, rfl⟩
    | exhausted hc =>
      refine .exhausted (hc.imp N.excused fun hc m hm => ?_)
      obtain ⟨K, hK⟩ := hc m hm
      refine ⟨K, fun L hL => ?_⟩
      obtain ⟨t', e, hsp⟩ := hK L hL
      exact ⟨_, by simp only [e], N.leave_spent hsp⟩

/-! ## Loops and calls -/

section Engines

variable {S} {E : Engine} {F : Nat → Engine}

theorem rounds_follows {sc : Scopes} {i j : Option Nat} (names : List String) {n : Nat}
    {first first' : List Value} {N : Nat} {M : Nat → Nat} (enough : ∃ K, ∀ m ≥ K, N ≤ M m)
    (few : ∀ m, short m → M m ≤ N) (prompt : ∀ m, N ≤ M m ∨ ∀ w, C.lags w m)
    {body : Option Nat → Run Flow} {body' : Nat → Option Nat → Run Flow} {w : C.World}
    (hb : ∀ w' k l, C.le w w' → S.env w' (names.reverse :: sc) k l →
      C.Follows short (flow (.body n)) C.fault w' (body k) fun m => body' m l)
    (hp : S.env w sc i j) (hf : C.values w first first') (hn : first.length + n = names.length)
    {k l : Option Nat} (he : S.env w (names.reverse :: sc) k l) :
    C.Follows short C.value C.fault w (rounds S.first body i names first N k) fun m =>
      rounds S.second (body' m) j names first' (M m) l := by
  induction N generalizing M w k l with
  | zero =>
    refine .exhausted fun m hm t => ?_
    rw [Nat.le_zero.mp (few m hm)]
    rfl
  | succ N ih =>
    have hnext : C.Follows short C.value C.fault w (rounds S.first body i names first (N + 1) k)
        fun m => rounds S.second (body' m) j names first' (M m - 1 + 1) l := by
      simp only [rounds]
      refine (hb w k l (C.refl w) he).bind fun w₁ u v hw₁ hu => ?_
      cases u with
      | value u =>
        cases v with
        | value v => exact .pure hu
        | again vs => cases hu
      | again us =>
        cases v with
        | value v => cases hu
        | again vs =>
        obtain ⟨_, hlen, hu⟩ := hu
        have hlen : us.length = n := (Option.some.inj hlen).symm
        refine (S.scope names (S.env_mono hw₁ hp) (values.append (hf.mono hw₁) hu)
          (.inr (by rw [List.length_append, hlen, hn]))).bind fun w₂ a b hw₂ hab => ?_
        have hw := C.trans hw₁ hw₂
        obtain ⟨K, hK⟩ := enough
        refine ih ⟨K, fun m hm => ?_⟩ (fun m hm => ?_)
          (fun m => (prompt m).imp (fun h => by omega) fun h => h)
          (fun w' k l hw' => hb w' k l (C.trans hw hw')) (S.env_mono hw hp) (hf.mono hw)
          (S.env_of_growing hab)
        · have := hK m hm
          omega
        · have := few m hm
          omega
    obtain ⟨K, hK⟩ := enough
    refine hnext.lag (fun m => ?_) ⟨K, fun m hm => ?_⟩
    · cases hM : M m with
      | zero =>
        refine .inr ⟨(prompt m).resolve_left fun h => ?_, fun t => ⟨t, rfl⟩⟩
        omega
      | succ n => exact .inl rfl
    · obtain ⟨n, hn⟩ := Nat.exists_eq_add_of_le' (show 1 ≤ M m from by have := hK m hm; omega)
      rw [hn]
      rfl

theorem toValue_follows {w : C.World} {p : Position} {u v : Flow} (h : flow p w u v)
    (hp : S.Settled p) (span : Span) :
    C.Follows short C.value C.fault w (u.toValue S.first span) fun _ =>
      v.toValue S.second span := by
  match u, v, h with
  | .value u, .value v, h => exact .pure h
  | .again us, .again vs, ⟨ht, _, h⟩ =>
    rcases hp with hp | hp
    · rw [hp] at ht
      cases ht
    · exact S.stray hp h span

theorem throwValue_follows {w : C.World} {x y : Value} (h : C.value w x y) (span : Span) :
    C.Follows short C.value C.fault w (throwValue x span) fun _ => throwValue y span := by
  have hplain : ∀ u : Value, (RuntimeFault.typeError
      ("Cannot throw " ++ u.typeName ++ ": use ex-info")).Plain := fun _ =>
    RuntimeFault.plain_typeError _
  obtain ⟨ρ, hρ⟩ := C.inhabited w
  have e := h ρ hρ
  cases x with
  | exInfo id message data =>
    rw [Renaming.Sends, Value.rename] at e
    subst e
    refine .raise ⟨C.allowed_thrown _ _, fun σ hσ => ?_, C.near_refl _ _⟩
    rw [RuntimeFault.rename, ← h σ hσ]
  | fn id n | closure id n =>
    rcases Value.ofIdentity_cases (ρ.map (_, id)) (ρ.label (_, id) n) with ⟨k, hk⟩ | ⟨k, hk⟩ <;>
      rw [Renaming.Sends, Value.rename, hk] at e <;> subst e <;> exact .failAt (hplain _) span
  | _ => subst e; exact .failAt (hplain _) span

theorem takes_eq {w : C.World} {e e' : RuntimeError} (h : C.fault w e e') (c : CatchClass) :
    c.takes e' = c.takes e := by
  obtain ⟨ρ, hρ⟩ := C.inhabited w
  unfold CatchClass.takes
  rw [h.2.1 ρ hρ]
  cases c <;> cases e.cause <;> rfl

theorem caughtValue_follows (H : C.Shared) {w : C.World} {e e' : RuntimeError}
    (h : C.fault w e e') :
    C.Follows short C.value C.fault w (Run.caughtValue e) fun _ => Run.caughtValue e' := by
  have hm : C.Follows short C.value C.fault w (newExInfo e.message .nil) fun _ =>
      newExInfo e'.message .nil := by
    rw [h.message]
    exact H.newExInfo w e.message (value.steady w fun _ => rfl)
  obtain ⟨ρ, hρ⟩ := C.inhabited w
  have hc := h.2.1 ρ hρ
  unfold Run.caughtValue
  cases hf : e.cause with
  | thrown text v =>
    rw [hf] at hc
    simp only [hc, RuntimeFault.rename]
    refine .pure fun σ hσ => ?_
    have := hc.symm.trans (h.2.1 σ hσ)
    rw [hf] at this
    injection this
  | _ =>
    rw [hf] at hc
    simp only [hc, RuntimeFault.rename]
    exact hm

theorem mapOf_follows {w : C.World} {xs ys : List Value} (h : C.values w xs ys) :
    C.Follows short C.value C.fault w (Machine.mapOf xs) fun _ => Machine.mapOf ys := by
  have hr : ∀ ρ, C.ext w ρ → Value.repeated? ((Form.pairUp ys).map Prod.fst) =
      (Value.repeated? ((Form.pairUp xs).map Prod.fst)).map (·.rename ρ) := by
    intro ρ hρ
    rw [h ρ hρ, Form.pairUp_rename, ← Value.repeated?_rename, List.map_map, List.map_map]
    rfl
  obtain ⟨ρ, hρ, hplain⟩ := C.plain w
  unfold Machine.mapOf
  dsimp only
  cases hk : Value.repeated? ((Form.pairUp xs).map Prod.fst) with
  | some k =>
    rw [hr ρ hρ, hk]
    simp only [Option.map_some, Value.readable_rename hplain]
    exact .fail (RuntimeFault.plain_general_append _ (by decide) (by decide))
  | none =>
    rw [hr ρ hρ, hk]
    refine .pure fun σ hσ => ?_
    rw [h σ hσ, Form.pairUp_rename, Renaming.Sends, Value.rename, Value.renameEntries_eq_map]

theorem setOf_follows {w : C.World} {xs ys : List Value} (h : C.values w xs ys) :
    C.Follows short C.value C.fault w (Machine.setOf xs) fun _ => Machine.setOf ys := by
  have hr : ∀ ρ, C.ext w ρ → Value.repeated? ys = (Value.repeated? xs).map (·.rename ρ) :=
    fun ρ hρ => by rw [h ρ hρ, Value.repeated?_rename]
  obtain ⟨ρ, hρ, hplain⟩ := C.plain w
  unfold Machine.setOf
  cases hk : Value.repeated? xs with
  | some k =>
    rw [hr ρ hρ, hk]
    simp only [Option.map_some, Value.readable_rename hplain]
    exact .fail (RuntimeFault.plain_general_append _ (by decide) (by decide))
  | none =>
    rw [hr ρ hρ, hk]
    refine .pure fun σ hσ => ?_
    rw [h σ hσ, Renaming.Sends, Value.rename, Value.renameItems_eq_map]

/-! ## Expressions -/

variable (H : C.Shared) (hE : C.Engines S short E F)

theorem bindValue {α β : Type} {V : C.World → α → β → Prop} {w : C.World} {p : Position}
    {a : Run Flow} {b : Nat → Run Flow} (h : C.Follows short (flow p) C.fault w a b)
    (hp : S.Settled p) {e : Expr} {f : Value → Run α} {g : Nat → Value → Run β}
    (hf : ∀ w' x y, C.le w w' → C.value w' x y →
      C.Follows short V C.fault w' (f x) fun m => g m y) :
    C.Follows short V C.fault w
      (do f (← (← a).toValue S.first (e.mapBytecode S.erase).span)) fun m =>
        (do g m (← (← b m).toValue S.second e.span)) := by
  rw [Expr.span_mapBytecode]
  refine h.bind fun w₁ u v hw₁ hu => ?_
  exact (toValue_follows hu hp _).bind fun w₂ x y hw₂ hx => hf w₂ x y (C.trans hw₁ hw₂) hx

/-- What is done with the value of an expression in a scope that may take names afterwards. -/
theorem bindGrowing {α β : Type} {V : C.World → α → β → Prop} {w : C.World} {p : Position}
    {sc : Scopes} {i j : Option Nat} {a : Run Flow} {b : Nat → Run Flow} (hg : S.growing w sc i j)
    (h : ∀ w', C.le w w' → S.env w' sc i j → C.Follows short (flow p) C.fault w' a b)
    (hp : S.Settled p) {e : Expr} {f : Value → Run α} {g : Nat → Value → Run β}
    (hf : ∀ w' x y, C.value w' x y → S.growing w' sc i j →
      C.Follows short V C.fault w' (f x) fun m => g m y) :
    C.Follows short V C.fault w
      (do f (← (← a).toValue S.first (e.mapBytecode S.erase).span)) fun m =>
        (do g m (← (← b m).toValue S.second e.span)) := by
  have hvalue : ∀ w', C.le w w' → S.env w' sc i j →
      C.Follows short C.value C.fault w' (do (← a).toValue S.first e.span) fun m => (do
        (← b m).toValue S.second e.span) := fun w' hw he =>
    (h w' hw he).bind fun _ u v _ hu => toValue_follows hu hp _
  have hall := (S.keeps hg hvalue).bind fun w' x y _ hxy => hf w' x y hxy.1 hxy.2
  rw [Expr.span_mapBytecode]
  simpa only [bind_assoc] using hall

theorem answer {w : C.World} {p : Position} {a : Run Value} {b : Nat → Run Value}
    (h : C.Follows short C.value C.fault w a b) :
    C.Follows short (flow p) C.fault w (do return .value (← a)) fun m => (do
      return .value (← b m)) :=
  h.bind_pure fun _ _ _ _ hx => hx

include H hE

set_option linter.unusedSectionVars false

mutual

/-- The answers of an expression. -/
theorem flow_follows (e : Expr) {sc : Scopes} {p : Position} (h : e.Parsed S.rules sc p)
    {w : C.World} {i j : Option Nat} (he : S.env w sc i j) :
    C.Follows short (flow p) C.fault w ((e.mapBytecode S.erase).flow E i) fun m =>
      e.flow (F m) j := by
  cases e with
  | literal v span =>
    simp only [Expr.mapBytecode, Expr.flow]
    cases h with
    | literal h => exact .pure (value.steady w h)
  | quote v span =>
    simp only [Expr.mapBytecode, Expr.flow]
    cases h with
    | quote h => exact .pure (value.steady w h)
  | localRef b span =>
    simp only [Expr.mapBytecode, Expr.flow, hE.first, hE.second]
    cases h with
    | localRef h => exact answer (S.read he h span)
  | varRef v span =>
    simp only [Expr.mapBytecode, Expr.flow]
    exact answer (H.deref w v span)
  | theVar v span =>
    simp only [Expr.mapBytecode, Expr.flow]
    exact .pure (value.steady w fun _ => rfl)
  | vector items span =>
    simp only [Expr.mapBytecode, Expr.flow]
    cases h with
    | vector h =>
      refine (valuesOnto_follows items h he (S.settled_nonTail p) (values.nil w)).bind_pure
        fun _ xs ys _ hx ρ hρ => ?_
      rw [hx.2 ρ hρ, Renaming.Sends, Value.rename, Value.renameItems_eq_map]
  | set items span =>
    simp only [Expr.mapBytecode, Expr.flow]
    cases h with
    | set h =>
      refine (valuesOnto_follows items h he (S.settled_nonTail p) (values.nil w)).bind
        fun _ xs ys _ hx => ?_
      exact answer ((setOf_follows hx.2).within span)
  | map items span =>
    simp only [Expr.mapBytecode, Expr.flow]
    cases h with
    | map _ h =>
      refine (valuesOnto_follows items h he (S.settled_nonTail p) (values.nil w)).bind
        fun _ xs ys _ hx => ?_
      exact answer ((mapOf_follows hx.2).within span)
  | cond test yes no span =>
    simp only [Expr.mapBytecode, Expr.flow, hE.first, hE.second]
    cases h with
    | cond ht hy hn =>
      refine bindValue (flow_follows test ht he) (S.settled_nonTail p) fun w' x y hw hx => ?_
      have he' := S.env_mono hw he
      rw [hx.truthy]
      cases x.truthy with
      | true => exact flow_follows yes hy he'
      | false => exact flowElse_follows no hn he'
  | block body span =>
    simp only [Expr.mapBytecode, Expr.flow]
    cases h with
    | block h => exact flowBody_follows body h he
  | letIn bindings body span =>
    simp only [Expr.mapBytecode, Expr.flow, hE.first, hE.second]
    cases h with
    | letIn hb h =>
      refine (S.scope [] he (values.nil w) (.inr rfl)).bind fun w₁ a b _ hab => ?_
      refine (bindAll_follows bindings hb hab (S.settled_nonTail p)).bind fun w₂ k l _ hkl => ?_
      exact flowBody_follows body h (S.env_of_growing hkl)
  | loop bindings body span =>
    simp only [Expr.mapBytecode, Expr.flow, hE.first, hE.second]
    cases h with
    | loop hb h =>
      refine (S.scope [] he (values.nil w) (.inr rfl)).bind fun w₁ a b hw₁ hab => ?_
      refine (bindAll_follows bindings hb hab (S.settled_nonTail p)).bind fun w₂ k l hw₂ hkl => ?_
      rw [hb.inner_eq, List.append_nil] at h hkl
      rw [mapBytecodeBindings_names]
      refine answer (rounds_follows (bindings.map Bound.name) (n := bindings.length) hE.enough hE.few hE.prompt
        (fun w' k l _ hkl => flowBody_follows body h hkl) (S.env_mono (C.trans hw₁ hw₂) he)
        (values.nil w₂) ?_ (S.env_of_growing hkl))
      rw [List.length_nil, Nat.zero_add, List.length_map]
  | recur args span =>
    simp only [Expr.mapBytecode, Expr.flow]
    cases h with
    | recur ht ha h =>
      refine (valuesOnto_follows args h he (S.settled_nonTail p) (values.nil w)).bind_pure ?_
      exact fun _ xs ys _ hx => ⟨ht, by rw [ha, hx.1, List.length_nil, Nat.zero_add], hx.2⟩
  | fn f span =>
    rw [Expr.mapBytecode_fn]
    simp only [Expr.flow]
    exact answer (S.make he (.of_expr h))
  | define v value span =>
    cases value with
    | none =>
      simp only [Expr.mapBytecode, mapBytecodeOption, Expr.flow]
      exact .pure (value.steady w fun _ => rfl)
    | some e =>
      simp only [Expr.mapBytecode, mapBytecodeOption, Expr.flow, hE.first, hE.second]
      cases h with
      | define h =>
        refine bindValue (flow_follows e (h e rfl) he) (S.settled_nonTail p) fun w' x y _ hx => ?_
        exact (hE.assign w' v x y hx).bind_pure fun w' _ _ _ _ => value.steady w' fun _ => rfl
  | setLocal b e span =>
    simp only [Expr.mapBytecode, Expr.flow, hE.first, hE.second]
    cases h with
    | setLocal hb h =>
      refine bindValue (flow_follows e h he) (S.settled_nonTail p) fun w' x y hw hx => ?_
      exact (S.write (S.env_mono hw he) hb span hx).bind_pure fun w'' _ _ hw' _ =>
        hx.mono hw'
  | setVar v e span =>
    simp only [Expr.mapBytecode, Expr.flow, hE.first, hE.second]
    cases h with
    | setVar h =>
      refine bindValue (flow_follows e h he) (S.settled_nonTail p) fun w' x y _ hx => ?_
      exact (hE.assign w' v x y hx).bind_pure fun w'' _ _ hw' _ => hx.mono hw'
  | call callee args span =>
    simp only [Expr.mapBytecode, Expr.flow, hE.first, hE.second]
    cases h with
    | call hc h =>
      refine bindValue (flow_follows callee hc he) (S.settled_nonTail p) fun w₁ f g hw₁ hf => ?_
      refine (valuesOnto_follows args h (S.env_mono hw₁ he) (S.settled_nonTail p)
        (values.nil w₁)).bind fun w₂ xs ys hw₂ hx => ?_
      exact answer ((hE.call w₂ f g xs ys (hf.mono hw₂) hx.2).within span)
  | throw e span =>
    simp only [Expr.mapBytecode, Expr.flow, hE.first, hE.second]
    cases h with
    | throw h =>
      exact bindValue (flow_follows e h he) (S.settled_nonTail p) fun w' x y _ hx => answer (throwValue_follows hx span)
  | attempt body catches finish span =>
    simp only [Expr.mapBytecode, Expr.flow]
    cases h with
    | attempt h hc hf =>
      have htried : C.Follows short C.value C.fault w (do
          match ← Act.caught (bodyValue E .nil (mapBytecodeAll S.erase body) i) with
          | .ok v => pure v
          | .error e => handle E e (mapBytecodeCatches S.erase catches) i) fun m => (do
          match ← Act.caught (bodyValue (F m) .nil body j) with
          | .ok v => pure v
          | .error e => handle (F m) e catches j) := by
        have hbody : C.Follows short (outcome C.value C.fault) C.fault w
            (Act.caught (bodyValue E .nil (mapBytecodeAll S.erase body) i)) fun m =>
            Act.caught (bodyValue (F m) .nil body j) :=
          (bodyValue_follows body h he (.inl rfl) (value.steady w fun _ => rfl)).caught
        refine hbody.bind fun w₁ r q hw₁ hr => ?_
        match r, q, hr with
        | .ok _, .ok _, hr => exact .pure hr
        | .error _, .error _, hr => exact handle_follows catches hc (S.env_mono hw₁ he) hr
      have hcaught : C.Follows short (outcome C.value C.fault) C.fault w _ _ := htried.caught
      refine hcaught.bind fun w₁ r q hw₁ hr => ?_
      have he₁ := S.env_mono hw₁ he
      refine (finishWith_follows finish hf he₁).bind fun w₂ _ _ hw₂ _ => ?_
      refine answer (.ofExcept ?_)
      match r, q, hr with
      | .ok _, .ok _, hr => exact hr.mono hw₂
      | .error _, .error _, hr => exact hr.mono hw₂
  | macroCall v args span =>
    simp only [Expr.mapBytecode, Expr.flow]
    cases h with
    | macroCall hr h => exact answer (hE.late hr w v args span h)

theorem valuesOnto_follows (es : List Expr) {sc : Scopes} {p : Position}
    (h : AllParsed S.rules sc p es) {w : C.World} {i j : Option Nat}
    (he : S.env w sc i j) (hp : S.Settled p) {acc acc' : List Value} (ha : C.values w acc acc') :
    C.Follows short (fun w' xs ys => xs.length = acc.length + es.length ∧ C.values w' xs ys) C.fault
      w (valuesOnto E acc (mapBytecodeAll S.erase es) i) fun m => valuesOnto (F m) acc' es j := by
  cases es with
  | nil =>
    simp only [mapBytecodeAll, valuesOnto]
    exact .pure ⟨List.length_reverse, ha.reverse⟩
  | cons e rest =>
    simp only [mapBytecodeAll, valuesOnto, hE.first, hE.second]
    refine bindValue (flow_follows e (h e List.mem_cons_self) he) hp fun w' x y hw hx => ?_
    have hrest := valuesOnto_follows rest (fun e' h' => h e' (List.mem_cons_of_mem e h'))
      (S.env_mono hw he) hp (values.cons hx (ha.mono hw))
    refine hrest.imp (fun _ _ _ _ hx => ⟨?_, hx.2⟩) fun _ _ _ _ he => he
    rw [hx.1, List.length_cons, List.length_cons]
    omega

theorem flowBody_follows (es : List Expr) {sc : Scopes} {p : Position}
    (h : BodyParsed S.rules sc p es) {w : C.World} {i j : Option Nat}
    (he : S.env w sc i j) :
    C.Follows short (flow p) C.fault w (flowBody E (mapBytecodeAll S.erase es) i) fun m =>
      flowBody (F m) es j := by
  match es with
  | [] =>
    simp only [mapBytecodeAll, flowBody]
    exact .pure (value.steady w fun _ => rfl)
  | [e] =>
    simp only [mapBytecodeAll, flowBody]
    cases h with
    | last h => exact flow_follows e h he
  | e :: e' :: rest =>
    simp only [mapBytecodeAll, flowBody, hE.first, hE.second]
    cases h with
    | cons h hr =>
      rw [Expr.span_mapBytecode]
      refine (flow_follows e h he).bind fun w₁ u v hw₁ hu => ?_
      refine ((toValue_follows hu (S.settled_nonTail p) _).discard fun _ => rfl).bind
        fun w₂ _ _ hw₂ (_ : _ = _) => ?_
      exact flowBody_follows (e' :: rest) hr (S.env_mono (C.trans hw₁ hw₂) he)

theorem bodyValue_follows (es : List Expr) {sc : Scopes} {p : Position}
    (h : AllParsed S.rules sc p es) {w : C.World} {i j : Option Nat}
    (he : S.env w sc i j) (hp : S.Settled p) {last last' : Value} (hl : C.value w last last') :
    C.Follows short C.value C.fault w (bodyValue E last (mapBytecodeAll S.erase es) i) fun m =>
      bodyValue (F m) last' es j := by
  cases es with
  | nil =>
    simp only [mapBytecodeAll, bodyValue]
    exact .pure hl
  | cons e rest =>
    simp only [mapBytecodeAll, bodyValue, hE.first, hE.second]
    refine bindValue (flow_follows e (h e List.mem_cons_self) he) hp fun w' x y hw hx => ?_
    exact bodyValue_follows rest (fun e' h' => h e' (List.mem_cons_of_mem e h'))
      (S.env_mono hw he) hp hx

theorem flowElse_follows (o : Option Expr) {sc : Scopes} {p : Position}
    (h : ∀ e, o = some e → e.Parsed S.rules sc p) {w : C.World} {i j : Option Nat}
    (he : S.env w sc i j) :
    C.Follows short (flow p) C.fault w (flowElse E (mapBytecodeOption S.erase o) i) fun m =>
      flowElse (F m) o j := by
  cases o with
  | none =>
    simp only [mapBytecodeOption, flowElse]
    exact .pure (value.steady w fun _ => rfl)
  | some e =>
    simp only [mapBytecodeOption, flowElse]
    exact flow_follows e (h e rfl) he

theorem bindAll_follows (bs : List (Bound Expr)) {names : List String} {sc inner : Scopes}
    {p : Position} (h : BindingsParsed S.rules (names :: sc) p bs inner) {w : C.World}
    {i j : Option Nat} (hg : S.growing w (names :: sc) i j) (hp : S.Settled p) :
    C.Follows short (fun w' => S.growing w' inner) C.fault w
      (bindAll E (mapBytecodeBindings S.erase bs) i) fun m => bindAll (F m) bs j := by
  match bs, h with
  | [], .nil =>
    simp only [mapBytecodeBindings, bindAll]
    exact .pure hg
  | ⟨name, init⟩ :: rest, .cons h hr =>
    simp only [mapBytecodeBindings, bindAll, hE.first, hE.second]
    refine bindGrowing hg (fun w' _ he => flow_follows init h he) hp fun w₁ x y hx hg₁ => ?_
    exact (S.bind name hg₁ hx).bind fun w₂ k l _ hg₂ => bindAll_follows rest hr hg₂ hp

theorem handle_follows (cs : List (CatchClause Expr)) {sc : Scopes}
    (h : ∀ cls name body, CatchClause.mk cls name body ∈ cs →
      AllParsed S.rules ([name] :: sc) .top body) {w : C.World} {i j : Option Nat}
    (he : S.env w sc i j) {e e' : RuntimeError} (hf : C.fault w e e') :
    C.Follows short C.value C.fault w (handle E e (mapBytecodeCatches S.erase cs) i) fun m =>
      handle (F m) e' cs j := by
  match cs with
  | [] =>
    simp only [mapBytecodeCatches, handle]
    exact .raise hf
  | ⟨cls, name, body⟩ :: rest =>
    simp only [mapBytecodeCatches, handle, hE.first, hE.second, takes_eq hf]
    split
    · refine (caughtValue_follows H hf).bind fun w₁ x y hw₁ hx => ?_
      refine (S.scope [name] (S.env_mono hw₁ he) (values.cons hx (values.nil w₁))
        (.inr rfl)).bind fun w₂ a b _ hab => ?_
      exact bodyValue_follows body (h cls name body List.mem_cons_self) (S.env_of_growing hab)
        (.inl rfl) (value.steady w₂ fun _ => rfl)
    · exact handle_follows rest (fun c n b hm => h c n b (List.mem_cons_of_mem _ hm)) he hf

theorem finishWith_follows (o : Option (List Expr)) {sc : Scopes}
    (h : ∀ body, o = some body → AllParsed S.rules sc .top body) {w : C.World}
    {i j : Option Nat} (he : S.env w sc i j) :
    C.Follows short C.same C.fault w (finishWith E (mapBytecodeBody S.erase o) i) fun m =>
      finishWith (F m) o j := by
  cases o with
  | none =>
    simp only [mapBytecodeBody, finishWith]
    exact .pure rfl
  | some body =>
    simp only [mapBytecodeBody, finishWith]
    exact (bodyValue_follows body (h body rfl) he (.inl rfl) (value.steady w fun _ => rfl)).discard
      fun _ => rfl

end

end Engines

end Coupling

end TwinLisp
