import TwinLisp.Proofs.Coupling.Shared
import TwinLisp.Proofs.Macro.Builtin
import TwinLisp.Proofs.Native.Call

/-! Macros and natives of two interpreters that are coupled. If calls follow calls, then the natives
of the second follow those of the first: those that compute an answer give related answers, the
others call functions, print, or use Vars and counters.

* `Coupling.Calls`: the calls of the second follow those of the first.
* `Coupling.expandBuiltin_follows`, `expandUser_follows`: macros.
* `Coupling.native_follows`: the call of a native. -/

namespace TwinLisp

namespace Coupling

variable {C : Coupling} {short : Nat → Prop}

/-- The calls `d` of the second, one for each fuel, follow the calls `c` of the first. -/
def Calls (C : Coupling) (short : Nat → Prop) (c : Caller) (d : Nat → Caller) : Prop :=
  ∀ w f g xs ys, C.value w f g → C.values w xs ys →
    C.Follows short C.value C.fault w (c f xs) fun m => d m g ys

/-! ## Macros -/

/-- The same proper form. -/
def form (_ : C.World) (f g : Form) : Prop := g = f ∧ f.Proper

def forms (_ : C.World) (fs gs : List Form) : Prop := gs = fs ∧ Form.AllProper fs

/-- The same expansion, if any. -/
def form? (avoid : String → Prop) (_ : C.World) (f g : Option Form) : Prop :=
  g = f ∧ ∀ x, f = some x → Macro.Written avoid x

/-- The same plain fault at the same place. -/
def sameFault (_ : C.World) (e e' : ParseError) : Prop := e' = e ∧ e.cause.Plain

theorem parseFault_of_sameFault {w : C.World} {e e' : ParseError} (h : C.sameFault w e e') :
    C.parseFault w e e' := by
  obtain ⟨rfl, h⟩ := h
  exact ⟨h, rfl, fun _ => rfl⟩

section Builtin

variable {avoid : String → Prop}

theorem expands_follows {r : Except ParseError Form} (h : Macro.Expands avoid r) (w : C.World) :
    C.Follows short (C.form? avoid) C.sameFault w (some <$> Act.ofExcept r) fun _ =>
      some <$> Act.ofExcept r := by
  cases r with
  | ok f => exact .pure ⟨rfl, fun x e => by cases e; exact .plain h⟩
  | error e => exact .raise ⟨rfl, h⟩

theorem logical_follows (H : C.Shared) (w : C.World) (conjunction : Bool) {args : List Form}
    (h : Form.AllFit avoid args) (span : Span) :
    C.Follows short (fun _ f g => g = f ∧ Macro.Written avoid f) C.sameFault w
      (Macro.logical conjunction args span) fun _ => Macro.logical conjunction args span := by
  match args with
  | [] => exact .pure ⟨rfl, .plain (by cases conjunction <;> exact ⟨.atom fun _ => rfl, nofun⟩)⟩
  | [only] => exact .pure ⟨rfl, .plain h.head⟩
  | first :: second :: rest =>
    refine (H.gensym w _).bind_pure fun w' x y _ he => ?_
    obtain ⟨rfl, n, hn⟩ := he
    refine ⟨rfl, .step ⟨_, ?_, n, hn⟩ h.head h.tail⟩
    cases conjunction <;> decide

theorem expandBuiltin_follows (H : C.Shared) (hw : Macro.Spares avoid) (w : C.World) {f : Form}
    (h : f.Fit avoid) :
    C.Follows short (C.form? avoid) C.sameFault w (Macro.expandBuiltin f) fun _ =>
      Macro.expandBuiltin f := by
  have hlogical : ∀ conjunction args span, Form.AllFit avoid args →
      C.Follows short (C.form? avoid) C.sameFault w (some <$> Macro.logical conjunction args span)
        fun _ => some <$> Macro.logical conjunction args span := by
    intro conjunction args span ha
    rw [map_eq_pure_bind]
    exact (logical_follows H w conjunction ha span).bind_pure fun w' x y _ e =>
      ⟨by rw [e.1], fun z hz => by cases hz; exact e.2⟩
  unfold Macro.expandBuiltin
  split
  · rename_i name place args span
    have ha : Form.AllFit avoid args := (Form.fit_list.mp h).tail
    have hdo : ∀ body, Form.AllFit avoid body → (Macro.headedBy "do" body span).Fit avoid :=
      fun _ hb => Macro.fit_headedBy hw (by decide) span hb
    split
    · exact expands_follows (Macro.expands_defn hw ha span) w
    · cases args with
      | nil => exact .raise ⟨rfl, ParseFault.plain_wrongArity _ _⟩
      | cons test body =>
        refine .pure ⟨rfl, fun x e => ?_⟩
        cases e
        exact .plain (Macro.fit_headedBy hw (by decide) _ (Form.AllFit.cons ha.head
          (Form.AllFit.cons (hdo body ha.tail) Form.AllFit.nil)))
    · cases args with
      | nil => exact .raise ⟨rfl, ParseFault.plain_wrongArity _ _⟩
      | cons test body =>
        refine .pure ⟨rfl, fun x e => ?_⟩
        cases e
        exact .plain (Macro.fit_headedBy hw (by decide) _ (Form.AllFit.cons ha.head
          (Form.AllFit.cons (Form.fit_nil span)
            (Form.AllFit.cons (hdo body ha.tail) Form.AllFit.nil))))
    · exact expands_follows (Macro.expands_ifNot hw ha span) w
    · exact expands_follows (Macro.expands_cond hw ha span) w
    · exact hlogical true args span ha
    · exact hlogical false args span ha
    · exact expands_follows (Macro.expands_threaded false ha span) w
    · exact expands_follows (Macro.expands_threaded true ha span) w
    · exact .pure ⟨rfl, fun x e => by cases e; exact .plain (Form.fit_nil span)⟩
    · exact .pure ⟨rfl, nofun⟩
  · exact .pure ⟨rfl, nofun⟩

end Builtin

theorem ofValue_follows {w : C.World} {x y : Value} (h : C.value w x y) (span : Span) :
    C.Follows short C.form C.fault w (Act.ofExcept (Form.ofValue span x)) fun _ =>
      Act.ofExcept (Form.ofValue span y) := by
  obtain ⟨ρ, hρ, hplain⟩ := C.plain w
  rw [h ρ hρ, Form.ofValue_rename hplain]
  cases hx : Form.ofValue span x with
  | ok f => exact .pure ⟨rfl, Form.proper_of_ofValue hx⟩
  | error e => exact .raise (fault.plain w (Form.plain_of_ofValue hx) e.span)

theorem expandUser_follows {c : Caller} {d : Nat → Caller} (hc : C.Calls short c d) {w : C.World}
    {f g : Value} (h : C.value w f g) {args : List Form} (ha : Form.AllProper args) (span : Span) :
    C.Follows short C.form C.fault w (Macro.expandUser c f args span) fun m =>
      Macro.expandUser (d m) g args span := by
  have hv : C.values w (Form.toValues args) (Form.toValues args) := fun ρ _ =>
    (ha.toValues_steady ρ).symm
  exact ((hc w f g _ _ h hv).within span).bind fun w' x y _ hx => ofValue_follows hx span

/-! ## Walking sequences -/

/-- Answers that agree under every renaming of a world. -/
theorem agree_of_forall {α β : Type} {w : C.World} {R : Renaming → α → β → Prop} {r : Answer α}
    {q : Answer β} (h : ∀ ρ, C.ext w ρ → Answer.Agree (R ρ) r q) :
    Answer.Agree (fun x y => ∀ ρ, C.ext w ρ → R ρ x y) r q := by
  obtain ⟨ρ, hρ⟩ := C.inhabited w
  rcases (h ρ hρ).elim with ⟨x, y, rfl, rfl, _⟩ | ⟨f, hf, rfl, rfl⟩
  · refine .ok fun σ hσ => ?_
    cases h σ hσ with
    | ok h => exact h
  · exact .error hf

theorem ofFault_follows {w : C.World} {r q : Answer Value}
    (h : ∀ ρ, C.ext w ρ → Answer.Agree ρ.Sends r q) :
    C.Follows short C.value C.fault w (Run.ofFault r) fun _ => Run.ofFault q :=
  .ofFault (agree_of_forall h)

theorem itemsFor_follows (name : String) {w : C.World} {x y : Value} (h : C.value w x y) :
    C.Follows short C.values C.fault w (Run.ofFault (Answer.itemsFor name x)) fun _ =>
      Run.ofFault (Answer.itemsFor name y) :=
  .ofFault (agree_of_forall fun ρ hρ => by
    rw [h ρ hρ]
    exact Answer.itemsFor_agree ρ name x)

/-- Lists of lists whose functions are renamed. -/
def rows (w : C.World) (xss yss : List (List Value)) : Prop :=
  ∀ ρ, C.ext w ρ → yss = xss.map fun xs => xs.map (·.rename ρ)

theorem rows_of_forall₂ {ρ : Renaming} {xss yss : List (List Value)}
    (h : List.Forall₂ ρ.SendsAll xss yss) : yss = xss.map fun xs => xs.map (·.rename ρ) := by
  induction h with
  | nil => rfl
  | cons h _ ih => rw [List.map_cons, ← ih, ← h]

theorem firsts?_rename (ρ : Renaming) (xss : List (List Value)) :
    firsts? (xss.map fun xs => xs.map (·.rename ρ)) = (firsts? xss).map fun p =>
      (p.1.map (·.rename ρ), p.2.map fun xs => xs.map (·.rename ρ)) := by
  induction xss with
  | nil => rfl
  | cons xs rest ih =>
    cases xs with
    | nil => rfl
    | cons x xs =>
      rw [List.map_cons, List.map_cons, firsts?, ih, firsts?, Option.map_map, Option.map_map]
      rfl

variable {c : Caller} {d : Nat → Caller} (hc : C.Calls short c d)

include hc

theorem mapRows_follows {w : C.World} {f g : Value} (hf : C.value w f g) {acc acc' : List Value}
    (ha : C.values w acc acc') {xs ys : List Value} (hx : C.values w xs ys)
    {xss yss : List (List Value)} (hr : C.rows w xss yss) :
    C.Follows short C.values C.fault w (mapRows c f acc xs xss) fun m =>
      mapRows (d m) g acc' ys yss := by
  induction xs generalizing w acc acc' ys xss yss with
  | nil =>
    rcases hx.elim with ⟨_, rfl⟩ | ⟨_, _, _, _, e, _⟩
    · simp only [mapRows]
      exact .pure ha.reverse
    · cases e
  | cons x xs ih =>
    rcases hx.elim with ⟨e, _⟩ | ⟨_, _, y, ys, e, rfl, hx', hxs⟩
    · cases e
    · cases e
      simp only [mapRows]
      obtain ⟨ρ, hρ⟩ := C.inhabited w
      have hrow := fun σ hσ => (congrArg firsts? (hr σ hσ)).trans (firsts?_rename σ xss)
      cases hfs : firsts? xss with
      | none =>
        rw [hrow ρ hρ, hfs]
        exact .pure ha.reverse
      | some p =>
        obtain ⟨hs, ts⟩ := p
        rw [hrow ρ hρ, hfs]
        simp only [Option.map_some]
        have hboth : ∀ σ, C.ext w σ → hs.map (·.rename ρ) = hs.map (·.rename σ) ∧
            ts.map (fun xs => xs.map (·.rename ρ)) = ts.map fun xs => xs.map (·.rename σ) := by
          intro σ hσ
          have e := (hrow ρ hρ).symm.trans (hrow σ hσ)
          rw [hfs] at e
          have e := Option.some.inj e
          exact ⟨congrArg Prod.fst e, congrArg Prod.snd e⟩
        have hhs : C.values w hs (hs.map (·.rename ρ)) := fun σ hσ => (hboth σ hσ).1
        refine (hc w f g _ _ hf (values.cons hx' hhs)).bind fun w' u v hw hu => ?_
        exact ih (hf.mono hw) (values.cons hu (ha.mono hw)) (hxs.mono hw) fun σ hσ =>
          (hboth σ (C.anti hw hσ)).2

theorem filterItems_follows {w : C.World} {f g : Value} (hf : C.value w f g) {acc acc' : List Value}
    (ha : C.values w acc acc') {xs ys : List Value} (hx : C.values w xs ys) :
    C.Follows short C.values C.fault w (filterItems c f acc xs) fun m =>
      filterItems (d m) g acc' ys := by
  induction xs generalizing w acc acc' ys with
  | nil =>
    rcases hx.elim with ⟨_, rfl⟩ | ⟨_, _, _, _, e, _⟩
    · simp only [filterItems]
      exact .pure ha.reverse
    · cases e
  | cons x xs ih =>
    rcases hx.elim with ⟨e, _⟩ | ⟨_, _, y, ys, e, rfl, hx', hxs⟩
    · cases e
    · cases e
      simp only [filterItems]
      refine (hc w f g _ _ hf (values.cons hx' (values.nil w))).bind fun w' u v hw hu => ?_
      rw [hu.truthy]
      cases u.truthy with
      | true => exact ih (hf.mono hw) (values.cons (hx'.mono hw) (ha.mono hw)) (hxs.mono hw)
      | false => exact ih (hf.mono hw) (ha.mono hw) (hxs.mono hw)

theorem reduceItems_follows {w : C.World} {f g : Value} (hf : C.value w f g) {acc acc' : Value}
    (ha : C.value w acc acc') {xs ys : List Value} (hx : C.values w xs ys) :
    C.Follows short C.value C.fault w (reduceItems c f acc xs) fun m =>
      reduceItems (d m) g acc' ys := by
  induction xs generalizing w acc acc' ys with
  | nil =>
    rcases hx.elim with ⟨_, rfl⟩ | ⟨_, _, _, _, e, _⟩
    · simp only [reduceItems]
      exact .pure ha
    · cases e
  | cons x xs ih =>
    rcases hx.elim with ⟨e, _⟩ | ⟨_, _, y, ys, e, rfl, hx', hxs⟩
    · cases e
    · cases e
      simp only [reduceItems]
      refine (hc w f g _ _ hf (values.cons ha (values.cons hx' (values.nil w)))).bind fun w' u v hw hu => ?_
      exact ih (hf.mono hw) hu (hxs.mono hw)

theorem reduceAll_follows {w : C.World} {f g : Value} (hf : C.value w f g) {xs ys : List Value}
    (hx : C.values w xs ys) :
    C.Follows short C.value C.fault w (reduceAll c f xs) fun m => reduceAll (d m) g ys := by
  rcases hx.elim with ⟨rfl, rfl⟩ | ⟨x, xs, y, ys, rfl, rfl, hx, hxs⟩
  · exact hc w f g _ _ hf (values.nil w)
  · exact reduceItems_follows hc hf hx hxs

/-! ## Natives -/

omit hc in
theorem spread_agree (ρ : Renaming) (args : List Value) :
    Answer.Agree ρ.SendsAll (spread args) (spread (args.map (·.rename ρ))) := by
  match args with
  | [] => exact .ok rfl
  | [last] => exact Answer.itemsFor_agree ρ "apply" last
  | v :: u :: rest =>
    exact (spread_agree ρ (u :: rest)).map fun xs ys (e : ys = _) => by
      rw [e, Renaming.SendsAll, List.map_cons]

omit hc in
/-- Natives that only compute an answer. -/
theorem computing_follows {op : Native} (h : op.computing = true) {w : C.World}
    {xs ys : List Value} (hx : C.values w xs ys) :
    C.Follows short C.value C.fault w (op.call c xs) fun m => op.call (d m) ys := by
  obtain ⟨ρ, hρ, hplain⟩ := C.plain w
  obtain ⟨r, q, hr, hq, -⟩ := Native.computes_agree ρ h (hplain.shows xs)
  rw [← hx ρ hρ] at hq
  have hd : (fun m => op.call (d m) ys) = fun _ => Run.ofFault q := funext fun m => hq (d m)
  rw [hr c, hd]
  refine ofFault_follows fun σ hσ => ?_
  obtain ⟨r', q', hr', hq', ha⟩ := Native.computes_agree σ h
    ⟨ρ, hplain, (hx σ hσ).symm.trans (hx ρ hρ)⟩
  rw [← hx σ hσ] at hq'
  rwa [hr.unique hr', hq.unique hq']

omit hc in
theorem misused_follows (op : Native) {w : C.World} {xs ys : List Value} (hx : C.values w xs ys) :
    C.Follows short C.value C.fault w (op.misused xs) fun _ => op.misused ys := by
  rw [Native.misused, Native.misused, hx.length]
  exact .fail (RuntimeFault.plain_wrongArity _ _)

omit hc in
theorem expects_follows (name expected : String) {w : C.World} {x y : Value} (h : C.value w x y) :
    C.Follows short C.value C.fault w (Run.ofFault (Answer.expects name expected x)) fun _ =>
      Run.ofFault (Answer.expects name expected y) :=
  ofFault_follows fun ρ hρ => by
    rw [h ρ hρ]
    exact Answer.expects_agree ρ name expected x

omit hc in
theorem joined_eq (readable : Bool) {w : C.World} {xs ys : List Value} (hx : C.values w xs ys) :
    Value.joined readable ys = Value.joined readable xs := by
  obtain ⟨ρ, hρ, hplain⟩ := C.plain w
  rw [hx ρ hρ, Value.joined_rename hplain]

omit hc in
theorem print_follows (H : C.Shared) (text : List Value → String)
    (ht : ∀ w xs ys, C.values w xs ys → text ys = text xs) {w : C.World} {xs ys : List Value}
    (hx : C.values w xs ys) :
    C.Follows short C.value C.fault w (do
        Run.print (text xs)
        return .nil) fun _ => do
      Run.print (text ys)
      return .nil := by
  rw [ht w xs ys hx]
  exact (H.print w _).bind_pure fun _ _ _ _ _ => value.steady _ fun _ => rfl

omit hc in
theorem mapM_ofValue_rename {ρ : Renaming} (hρ : ρ.Plain) (span : Span) (vs : List Value) :
    (vs.map (·.rename ρ)).mapM (Form.ofValue span) = vs.mapM (Form.ofValue span) := by
  rw [List.mapM_map]
  simp only [Function.comp_def, Form.ofValue_rename hρ]

omit hc in
theorem mapM_ofValue_cases (span : Span) (vs : List Value) :
    (∃ fs, vs.mapM (Form.ofValue span) = .ok fs ∧ Form.AllProper fs) ∨
      ∃ e, vs.mapM (Form.ofValue span) = .error e ∧ e.cause.Plain := by
  induction vs with
  | nil => exact .inl ⟨[], rfl, Form.AllProper.nil⟩
  | cons v rest ih =>
    rw [List.mapM_cons]
    cases hv : Form.ofValue span v with
    | error e => exact .inr ⟨e, rfl, Form.plain_of_ofValue hv⟩
    | ok f =>
      rcases ih with ⟨fs, e, hfs⟩ | ⟨e', e, he⟩
      · exact .inl ⟨f :: fs, by rw [e]; rfl, Form.AllProper.cons (Form.proper_of_ofValue hv) hfs⟩
      · exact .inr ⟨e', by rw [e]; rfl, he⟩

omit hc in
theorem mapM_ofValue_follows {w : C.World} {xs ys : List Value} (hx : C.values w xs ys)
    (span : Span) :
    C.Follows short C.forms C.fault w (Act.ofExcept (xs.mapM (Form.ofValue span))) fun _ =>
      Act.ofExcept (ys.mapM (Form.ofValue span)) := by
  obtain ⟨ρ, hρ, hplain⟩ := C.plain w
  rw [hx ρ hρ, mapM_ofValue_rename hplain]
  rcases mapM_ofValue_cases span xs with ⟨fs, e, hfs⟩ | ⟨e, he, hp⟩
  · rw [e]
    exact .pure ⟨rfl, hfs⟩
  · rw [he]
    exact .raise (fault.plain w hp e.span)

theorem expandNamed_follows (H : C.Shared) {w : C.World} {name : String} {xs ys : List Value}
    (hx : C.values w xs ys) {v u : Value} (hv : C.value w v u) :
    C.Follows short C.value C.fault w (do
        let some var ← Act.resolve? name | return v
        unless ← Act.askStore (Store.isMacro var) do return v
        let some f ← Act.askStore (Store.varValue? var) | return v
        let forms ← Act.ofExcept (xs.mapM (Form.ofValue .unknown))
        return (← Macro.expandUser c f forms .unknown).toValue) fun m => do
      let some var ← Act.resolve? name | return u
      unless ← Act.askStore (Store.isMacro var) do return u
      let some f ← Act.askStore (Store.varValue? var) | return u
      let forms ← Act.ofExcept (ys.mapM (Form.ofValue .unknown))
      return (← Macro.expandUser (d m) f forms .unknown).toValue := by
  refine (H.resolve? w name).bind fun w₁ o o' hw₁ (e : o' = o) => ?_
  subst e
  cases o' with
  | none => exact .pure (hv.mono hw₁)
  | some var =>
    refine (H.isMacro w₁ var).bind fun w₂ b b' hw₂ (e : b' = b) => ?_
    subst e
    have hw₂ := C.trans hw₁ hw₂
    cases b' with
    | false => exact .pure (hv.mono hw₂)
    | true =>
      refine (H.varValue? w₂ var).bind fun w₃ o o' hw₃ ho => ?_
      have hw₃ := C.trans hw₂ hw₃
      rcases ho with ⟨rfl, rfl⟩ | ⟨f, g, rfl, rfl, hf⟩
      · exact .pure (hv.mono hw₃)
      · refine (mapM_ofValue_follows (hx.mono hw₃) .unknown).bind fun w₄ fs gs hw₄ hfs => ?_
        obtain ⟨rfl, hfs⟩ := hfs
        refine (expandUser_follows hc (hf.mono hw₄) hfs .unknown).bind_pure fun w₅ a b _ hab => ?_
        obtain ⟨rfl, hab⟩ := hab
        exact fun ρ _ => (hab.toValue_steady ρ).symm

theorem expandOnce_follows (H : C.Shared) {w : C.World} {x y : Value} (h : C.value w x y) :
    C.Follows short C.value C.fault w (expandOnce c x) fun m => expandOnce (d m) y := by
  unfold expandOnce
  refine (ofValue_follows h .unknown).bind fun w₁ f g hw₁ hf => ?_
  obtain ⟨rfl, hf⟩ := hf
  have hb : C.Follows short (C.form? fun _ => False) C.fault w₁
      (Act.mapFault (fun e : ParseError => (RuntimeFault.general e.message).bare)
        (Macro.expandBuiltin g)) fun _ =>
      Act.mapFault (fun e : ParseError => (RuntimeFault.general e.message).bare)
        (Macro.expandBuiltin g) :=
    (expandBuiltin_follows H Macro.spares_none w₁ hf.fit).mapFault fun w' e e' he => by
      obtain ⟨rfl, hp⟩ := he
      exact fault.plain w' hp.message _
  refine hb.bind fun w₂ o o' hw₂ ho => ?_
  · obtain ⟨rfl, ho⟩ := ho
    have hw := C.trans hw₁ hw₂
    cases o' with
    | some expansion =>
      exact .pure fun ρ _ => ((ho expansion rfl).proper.toValue_steady ρ).symm
    | none =>
      have hv := h.mono hw
      obtain ⟨ρ, hρ⟩ := C.inhabited w
      have e := h ρ hρ
      cases x with
      | list xs =>
        have hxs : C.values w xs (xs.map (·.rename ρ)) := fun σ hσ => by
          have e' := e.symm.trans (h σ hσ)
          simp only [Value.rename, Value.renameItems_eq_map] at e'
          injection e'
        rw [Renaming.Sends, Value.rename, Value.renameItems_eq_map] at e
        subst e
        cases xs with
        | nil => exact .pure hv
        | cons x₀ rest =>
          rcases hxs.elim with ⟨e, _⟩ | ⟨_, _, y₀, ys, e, e', hx₀, hrest⟩
          · cases e
          · cases e
            rw [e'] at hv ⊢
            have e₀ := hx₀ ρ hρ
            cases x₀ with
            | symbol name =>
              rw [e₀]
              rw [e₀] at hv
              exact expandNamed_follows hc H (hrest.mono hw) hv
            | fn id n | closure id n =>
              rcases Value.ofIdentity_cases (ρ.map (_, id)) (ρ.label (_, id) n) with ⟨k, hk⟩ | ⟨k, hk⟩ <;>
                rw [Renaming.Sends, Value.rename, hk] at e₀ <;> subst e₀ <;> exact .pure hv
            | _ => subst e₀; exact .pure hv
      | fn id n | closure id n =>
        rcases Value.ofIdentity_cases (ρ.map (_, id)) (ρ.label (_, id) n) with ⟨k, hk⟩ | ⟨k, hk⟩ <;>
          rw [Renaming.Sends, Value.rename, hk] at e <;> subst e <;> exact .pure hv
      | _ => subst e; exact .pure hv

omit hc in
theorem exInfo_follows (H : C.Shared) {w : C.World} {m n x y : Value} (hm : C.value w m n)
    (hx : C.value w x y) (c c' : Caller) :
    C.Follows short C.value C.fault w (Native.exInfo.call c [m, x]) fun _ =>
      Native.exInfo.call c' [n, y] := by
  obtain ⟨ρ, hρ⟩ := C.inhabited w
  have em := hm ρ hρ
  have ex := hx ρ hρ
  cases m with
  | str s =>
    subst em
    cases x with
    | map es =>
      rw [Renaming.Sends, Value.rename] at ex
      subst ex
      exact H.newExInfo w s hx
    | nil =>
      subst ex
      exact H.newExInfo w s hx
    | fn id name | closure id name =>
      rcases Value.ofIdentity_cases (ρ.map (_, id)) (ρ.label (_, id) name) with ⟨k, hk⟩ | ⟨k, hk⟩ <;>
        rw [Renaming.Sends, Value.rename, hk] at ex <;> subst ex <;> exact expects_follows _ _ hx
    | _ => subst ex; exact expects_follows _ _ hx
  | fn id name | closure id name =>
    rcases Value.ofIdentity_cases (ρ.map (_, id)) (ρ.label (_, id) name) with ⟨k, hk⟩ | ⟨k, hk⟩ <;>
      rw [Renaming.Sends, Value.rename, hk] at em <;> subst em <;> exact expects_follows _ _ hm
  | _ => subst em; exact expects_follows _ _ hm

omit hc in
theorem inNs_follows (H : C.Shared) {w : C.World} {x y : Value} (hx : C.value w x y)
    (c c' : Caller) :
    C.Follows short C.value C.fault w (Native.inNs.call c [x]) fun _ => Native.inNs.call c' [y] := by
  obtain ⟨ρ, hρ⟩ := C.inhabited w
  have e := hx ρ hρ
  cases x with
  | symbol ns =>
    subst e
    exact (H.enterNs w ns).bind_pure fun w' _ _ hw _ => hx.mono hw
  | fn id name | closure id name =>
    rcases Value.ofIdentity_cases (ρ.map (_, id)) (ρ.label (_, id) name) with ⟨k, hk⟩ | ⟨k, hk⟩ <;>
      rw [Renaming.Sends, Value.rename, hk] at e <;> subst e <;> exact expects_follows _ _ hx
  | _ => subst e; exact expects_follows _ _ hx

omit hc in
theorem gensym_follows (H : C.Shared) {w : C.World} {x y : Value} (hx : C.value w x y)
    (c c' : Caller) :
    C.Follows short C.value C.fault w (Native.gensym.call c [x]) fun _ =>
      Native.gensym.call c' [y] := by
  obtain ⟨ρ, hρ⟩ := C.inhabited w
  have e := hx ρ hρ
  cases x with
  | str stem =>
    subst e
    exact (H.gensym w stem).bind_pure fun w' a b _ e => by
      rw [e.1]
      exact value.steady _ fun _ => rfl
  | fn id name | closure id name =>
    rcases Value.ofIdentity_cases (ρ.map (_, id)) (ρ.label (_, id) name) with ⟨k, hk⟩ | ⟨k, hk⟩ <;>
      rw [Renaming.Sends, Value.rename, hk] at e <;> subst e <;> exact expects_follows _ _ hx
  | _ => subst e; exact expects_follows _ _ hx

omit hc in
theorem derefNative_follows (H : C.Shared) {w : C.World} {x y : Value} (hx : C.value w x y)
    (c c' : Caller) :
    C.Follows short C.value C.fault w (Native.deref.call c [x]) fun _ =>
      Native.deref.call c' [y] := by
  obtain ⟨ρ, hρ⟩ := C.inhabited w
  have e := hx ρ hρ
  cases x with
  | var v =>
    subst e
    exact H.deref w v .unknown
  | fn id name | closure id name =>
    rcases Value.ofIdentity_cases (ρ.map (_, id)) (ρ.label (_, id) name) with ⟨k, hk⟩ | ⟨k, hk⟩ <;>
      rw [Renaming.Sends, Value.rename, hk] at e <;> subst e <;> exact expects_follows _ _ hx
  | _ => subst e; exact expects_follows _ _ hx

theorem mapNative_follows {w : C.World} {f g x y : Value} (hf : C.value w f g) (hx : C.value w x y)
    {more more' : List Value} (hm : C.values w more more') :
    C.Follows short C.value C.fault w (Native.map.call c (f :: x :: more)) fun m =>
      Native.map.call (d m) (g :: y :: more') := by
  refine (itemsFor_follows "map" hx).bind fun w₁ xs ys hw₁ hxs => ?_
  have hrows : C.Follows short C.rows C.fault w₁
      (Run.ofFault (more.mapM (Answer.itemsFor "map"))) fun _ =>
      Run.ofFault (more'.mapM (Answer.itemsFor "map")) := by
    refine .ofFault (agree_of_forall fun ρ hρ => ?_)
    rw [hm ρ (C.anti hw₁ hρ)]
    exact (Answer.mapM_agree ρ (Answer.itemsFor_agree ρ "map") more).mono fun _ _ => rows_of_forall₂
  refine hrows.bind fun w₂ xss yss hw₂ hxss => ?_
  refine (mapRows_follows hc (hf.mono (C.trans hw₁ hw₂)) (values.nil w₂) (hxs.mono hw₂) hxss).bind_pure
    fun w₃ us vs _ hu ρ hρ => ?_
  rw [hu ρ hρ, Renaming.Sends, Value.rename, Value.renameItems_eq_map]

theorem filterNative_follows {w : C.World} {f g x y : Value} (hf : C.value w f g)
    (hx : C.value w x y) :
    C.Follows short C.value C.fault w (Native.filter.call c [f, x]) fun m =>
      Native.filter.call (d m) [g, y] := by
  refine (itemsFor_follows "filter" hx).bind fun w₁ xs ys hw₁ hxs => ?_
  refine (filterItems_follows hc (hf.mono hw₁) (values.nil w₁) hxs).bind_pure
    fun w₂ us vs _ hu ρ hρ => ?_
  rw [hu ρ hρ, Renaming.Sends, Value.rename, Value.renameItems_eq_map]

theorem native_follows (H : C.Shared) (op : Native) {w : C.World} {xs ys : List Value}
    (hx : C.values w xs ys) :
    C.Follows short C.value C.fault w (op.call c xs) fun m => op.call (d m) ys := by
  cases op with
  | print => exact print_follows H (Value.joined false) (fun _ _ _ h => joined_eq _ h) hx
  | println =>
    exact print_follows H (Value.joined false · ++ "\n") (fun _ _ _ h => by rw [joined_eq _ h]) hx
  | prn =>
    exact print_follows H (Value.joined true · ++ "\n") (fun _ _ _ h => by rw [joined_eq _ h]) hx
  | apply =>
    rcases hx.elim with ⟨rfl, rfl⟩ | ⟨f, xs, g, ys, rfl, rfl, hf, hx'⟩
    · exact misused_follows _ hx
    rcases hx'.elim with ⟨rfl, rfl⟩ | ⟨x, xs, y, ys, rfl, rfl, hx₀, hxs⟩
    · exact misused_follows _ hx
    have hs : C.Follows short C.values C.fault w (Run.ofFault (spread (x :: xs))) fun _ =>
        Run.ofFault (spread (y :: ys)) := .ofFault (agree_of_forall fun ρ hρ => by
      rw [hx' ρ hρ]
      exact spread_agree ρ _)
    exact hs.bind fun w' us vs hw hu => hc w' f g us vs (hf.mono hw) hu
  | map =>
    rcases hx.elim with ⟨rfl, rfl⟩ | ⟨f, xs, g, ys, rfl, rfl, hf, hx'⟩
    · exact misused_follows _ hx
    rcases hx'.elim with ⟨rfl, rfl⟩ | ⟨x, xs, y, ys, rfl, rfl, hx₀, hxs⟩
    · exact misused_follows _ hx
    exact mapNative_follows hc hf hx₀ hxs
  | filter =>
    rcases hx.elim with ⟨rfl, rfl⟩ | ⟨f, xs, g, ys, rfl, rfl, hf, hx'⟩
    · exact misused_follows _ hx
    rcases hx'.elim with ⟨rfl, rfl⟩ | ⟨x, xs, y, ys, rfl, rfl, hx₀, hxs⟩
    · exact misused_follows _ hx
    rcases hxs.elim with ⟨rfl, rfl⟩ | ⟨u, xs, v, ys, rfl, rfl, _, _⟩
    · exact filterNative_follows hc hf hx₀
    · exact misused_follows _ hx
  | reduce =>
    rcases hx.elim with ⟨rfl, rfl⟩ | ⟨f, xs, g, ys, rfl, rfl, hf, hx'⟩
    · exact misused_follows _ hx
    rcases hx'.elim with ⟨rfl, rfl⟩ | ⟨x, xs, y, ys, rfl, rfl, hx₀, hxs⟩
    · exact misused_follows _ hx
    rcases hxs.elim with ⟨rfl, rfl⟩ | ⟨u, xs, v, ys, rfl, rfl, hu, hxs'⟩
    · exact (itemsFor_follows "reduce" hx₀).bind fun w' us vs hw hu =>
        reduceAll_follows hc (hf.mono hw) hu
    rcases hxs'.elim with ⟨rfl, rfl⟩ | ⟨_, xs, _, ys, rfl, rfl, _, _⟩
    · exact (itemsFor_follows "reduce" hu).bind fun w' us vs hw hu =>
        reduceItems_follows hc (hf.mono hw) (hx₀.mono hw) hu
    · exact misused_follows _ hx
  | exInfo =>
    rcases hx.elim with ⟨rfl, rfl⟩ | ⟨m, xs, n, ys, rfl, rfl, hm, hx'⟩
    · exact misused_follows _ hx
    rcases hx'.elim with ⟨rfl, rfl⟩ | ⟨x, xs, y, ys, rfl, rfl, hx₀, hxs⟩
    · exact misused_follows _ hx
    rcases hxs.elim with ⟨rfl, rfl⟩ | ⟨u, xs, v, ys, rfl, rfl, _, _⟩
    · exact exInfo_follows H hm hx₀ _ c
    · exact misused_follows _ hx
  | inNs =>
    rcases hx.elim with ⟨rfl, rfl⟩ | ⟨x, xs, y, ys, rfl, rfl, hx₀, hxs⟩
    · exact misused_follows _ hx
    rcases hxs.elim with ⟨rfl, rfl⟩ | ⟨u, xs, v, ys, rfl, rfl, _, _⟩
    · exact inNs_follows H hx₀ _ c
    · exact misused_follows _ hx
  | gensym =>
    rcases hx.elim with ⟨rfl, rfl⟩ | ⟨x, xs, y, ys, rfl, rfl, hx₀, hxs⟩
    · exact (H.gensym w "G").bind_pure fun w' a b _ e => by
        rw [e.1]
        exact value.steady _ fun _ => rfl
    rcases hxs.elim with ⟨rfl, rfl⟩ | ⟨u, xs, v, ys, rfl, rfl, _, _⟩
    · exact gensym_follows H hx₀ _ c
    · exact misused_follows _ hx
  | deref =>
    rcases hx.elim with ⟨rfl, rfl⟩ | ⟨x, xs, y, ys, rfl, rfl, hx₀, hxs⟩
    · exact misused_follows _ hx
    rcases hxs.elim with ⟨rfl, rfl⟩ | ⟨u, xs, v, ys, rfl, rfl, _, _⟩
    · exact derefNative_follows H hx₀ _ c
    · exact misused_follows _ hx
  | macroexpand =>
    rcases hx.elim with ⟨rfl, rfl⟩ | ⟨x, xs, y, ys, rfl, rfl, hx₀, hxs⟩
    · exact misused_follows _ hx
    rcases hxs.elim with ⟨rfl, rfl⟩ | ⟨u, xs, v, ys, rfl, rfl, _, _⟩
    · exact expandOnce_follows hc H hx₀
    · exact misused_follows _ hx
  | _ => exact computing_follows (by rfl) hx

end Coupling

end TwinLisp
