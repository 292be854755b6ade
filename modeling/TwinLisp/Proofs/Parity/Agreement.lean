import Mathlib
import TwinLisp.Proofs.Parity.Engines

/-! Sessions in which each text has a mode of its own come to the same whatever the modes are. A text is
walked by the first and run by the second, which may compile forms as a whole.

* `form_comes`, `evalExpr_match`, `source_follows`: the code of a form, a form in any mode, and a text.
* `Session.talk`: texts one after another.
* `Session.Steady`, `Session.Unlimited`: sessions that both engines handle alike.
* `engines_agree`: the outcomes, and the states that are left.
* `lines_agree`: the lines of the faults. -/

namespace TwinLisp

namespace Parity

open Machine Machine.Ideal Eval

variable {text : String} {n : Nat} {w : World} {s t : State} {e : Expr}

/-! ## Forms -/

/-- The code of a form, on a machine that has just begun it. -/
theorem form_comes {Q : Posture} (hc : CallsInCode text n) (hl : LaysForm Q.proto e)
    (hp : e.Parsed .bare [] .top) {good : Var → Bool} (hk : e.steady good [] = true) (hline : e.Lined)
    {ties : Ties} (hg : ∀ v, good v = true → ties.natives v) {c d : Nat} {y : Value}
    (hat : Q.At 0 [c] [y] t)
    (hfree : ties.Free c) (hb : Bonds ties s t) (hd : s.depth = d) (hd' : t.depth = d) :
    Comes text (scarce n) Q.frames.size Q d
      (fun w' x t' => ∃ k cs, Q.proto.Has k .ret 0 ∧ Yields Q k cs w' x t') ties
        (e.eval (first text n) none s) t := by
  obtain ⟨v, m, hslot, hlays, hret, -⟩ := hl.code
  have hcontent : t.store.content? c = some y := by
    have := hat.shown
    rw [List.map_singleton, List.map_singleton] at this
    exact (List.cons.inj this).1
  have hpin := hb.pin hcontent fun l hl e => hfree.1 l hl (by rw [e]; rfl)
  have hin : Inside (ties.pin c y) Q [] none [] [] [v] [c] := {
    near := fun hb _ => nomatch hb
    far := fun hb _ => nomatch hb
    slots := fun u hu => by
      rw [List.mem_singleton.mp hu, hslot]
      exact Nat.one_pos
    held := fun e he => by
      rw [List.mem_singleton.mp he]
      exact ties.held_pin c y }
  have hs : Stands good d (ties.pin c y) Q [] none [] [] ⟨1, [v]⟩ 0 [c] [y] s t :=
    ⟨hat, rfl, hin, hpin, fun v hv => hg v hv, hd, hd'⟩
  have hflow := flow_comes (T := none) hc (Nat.le_refl _) e hlays hp hk hline (fun _ h => nomatch h) hs
  refine (hflow.bind (f := fun f => f.toValue (first text n).locals e.span) scarce_fewer
    fun {w' x s' t'} _ hx hb hd hd' => ?_).mono (ties.le_pin c y)
  cases hx with
  | value hx => exact .pure ⟨m, [c], hret, hx⟩ hb hd hd'
  | again hT => cases hT

theorem executeForm_match (hc : CallsInCode text n) (hst : Related w s t)
    (he : e.Parsed .bare [] .top) {p : Proto} (hp : Proto.ofExpr "top-level" e = .ok p)
    (hk : e.steady s.store.isNative [] = true) (hline : e.Lined) :
    (coupling text).Match (fun m => cost m + m ≤ n) (coupling text).value
      (coupling text).fault w (e.eval (first text n) none s) fun m L =>
        onParked (executeFormBy (second m).cycle (second m).rounds p) ((coupling text).at_ L t) := by
  obtain ⟨hcaptures, hl, -⟩ := Proto.ofExpr_lays he hp
  let t' : State := { t with store := (t.store.newClosure ⟨p, #[]⟩).2 }
  let id := t.store.closures.size
  have hst' : Related w s t' := { hst with
    bonds := hst.bonds.enlarge ⟨⟨fun h => h, fun h => h, fun h => h,
      fun h => Array.getElem?_push_of_some h⟩, rfl, rfl, rfl, rfl, rfl, rfl⟩ }
  have hfits : ([] : List Nat).length = p.captures.size := by rw [hcaptures]; rfl
  let Q : Posture := ⟨w.stack, w.frames, p, [], hfits, false⟩
  have hbonds : Bonds (w.ties.trust s.store.isNative) s (ready Q t' (.closure id p.name) []) :=
    (hst'.bonds.enlarge (enlarged_ready Q t' (.closure id p.name) [])).trust fun _ h => h
  have hfree : (w.ties.trust s.store.isNative).Free
      (Q.begun (Q.restarted (Posture.inside t'))).store.cells.size :=
    (hst'.bonds.enlarge (enlarged_begun Q t')).free (Nat.le_refl _)
  have hgood : ∀ v, s.store.isNative v = true → (w.ties.trust s.store.isNative).natives v :=
    fun _ h => Or.inr h
  have hcomes := form_comes (Q := Q) (d := w.depth) hc hl he hk hline hgood
    (ready_at Q t' (.closure id p.name) []) hfree hbonds hst.depth (by rw [depth_ready]; exact hst'.depth')
  have harity : ([] : List Value).length = Q.proto.arity := hl.arity.symm
  have hmatch := started_match text id hst' rfl rfl harity (fun h => nomatch h)
    (hcomes.mono (w.ties.le_trust _))
  rw [show ∀ r : EStateM.Result (Stop RuntimeError) State Value, ended Q.counted r = r from
    fun r => by cases r <;> rfl] at hmatch
  exact hmatch

theorem Related.reported (hst : Related w s t) (reports : List String) :
    Related w s { t with reports := reports } := { hst with bonds := { hst.bonds with } }

/-- A form that is interpreted, its functions perhaps compiled. -/
theorem interpret_match (hE : (coupling text).Engines (lexical text) (fun m => cost m ≤ n)
      (first text n) second) (hst : Related w s t) (he : e.Parsed .bare [] .top)
    (hline : e.Lined) :
    (coupling text).Match (fun m => cost m ≤ n) (coupling text).value
      (coupling text).fault w (e.eval (first text n) none s) fun m L =>
        Session.interpret (second m) e ((coupling text).at_ L t) := by
  obtain ⟨e', reports, hprep, herase, he'⟩ : ∃ e' reports,
      (∀ L, (State.prepared e : Run Expr) ((coupling text).at_ L t) =
        .ok e' ((coupling text).at_ L { t with reports := reports })) ∧
      e = e'.mapBytecode (fun _ => none) ∧ e'.Parsed rules [] .top := by
    cases hc : t.config.vmEnabled with
    | false =>
      refine ⟨e, t.reports, fun L => ?_, parsed_of_bare he hline⟩
      have hc' : ((coupling text).at_ L t).config.vmEnabled = false := hc
      simp only [State.prepared, hc', Bool.false_eq_true, if_false]
    | true =>
      refine ⟨_, if t.config.traced then ((Expr.annotate e).run []).2 ++ t.reports else t.reports,
        fun L => ?_, annotate_parsed he hline⟩
      have hc' : ((coupling text).at_ L t).config.vmEnabled = true := hc
      simp only [State.prepared, hc', if_true]
      have ht : ((coupling text).at_ L t).config.traced = t.config.traced := rfl
      rw [ht]
      cases t.config.traced <;> rfl
  have heval := Coupling.eval_follows shared hE he' (.inl rfl) herase (w := w) .outermost s _
    (hst.reported reports)
  have hrun : ∀ m L, Session.interpret (second m) e ((coupling text).at_ L t) =
      e'.eval (second m) none ((coupling text).at_ L { t with reports := reports }) := fun m L =>
    Act.bind_of_ok (hprep L) _
  simp only [hrun]
  exact heval

theorem evalExpr_eq (engine : Engine) (e : Expr) (t : State) :
    Session.evalExpr engine e t =
      (match t.mode with
        | .treeWalk => e.eval engine none
        | .hybrid => Session.interpret engine e
        | .bytecode =>
          if e.compilable then
            match Proto.ofExpr "top-level" e with
            | .ok p => onParked (executeFormBy engine.cycle engine.rounds p)
            | .error fault => do
              Session.reportFallback fault
              Session.interpret engine e
          else Session.interpret engine e : Run Value) t := rfl

theorem evalExpr_match (hE : (coupling text).Engines (lexical text) (fun m => cost m ≤ n)
      (first text n) second) (hc : CallsInCode text n) (hst : Related w s t)
    (he : e.Parsed .bare [] .top) (hk : e.steady s.store.isNative [] = true) (hline : e.Lined) :
    (coupling text).Match (fun m => cost m + m ≤ n) (coupling text).value
      (coupling text).fault w (e.eval (first text n) none s) fun m L =>
        Session.evalExpr (second m) e ((coupling text).at_ L t) := by
  have hfewer : ∀ m, cost m + m ≤ n → cost m ≤ n := fun m hm => Nat.le_trans (Nat.le_add_right ..) hm
  simp only [evalExpr_eq, Coupling.at_mode]
  cases t.mode with
  | treeWalk =>
    obtain ⟨herase, he'⟩ := parsed_of_bare he hline
    exact Match.fewer (Coupling.eval_follows shared hE he' (.inl rfl) herase (w := w) .outermost s t hst)
      hfewer
  | hybrid => exact Match.fewer (interpret_match hE hst he hline) hfewer
  | bytecode =>
    dsimp only
    split
    · cases hp : Proto.ofExpr "top-level" e with
      | ok p => exact executeForm_match hc hst he hp hk hline
      | error fault =>
        let reports := if t.config.traced then
          ("[vm] fallback top-level: " ++ fault.message) :: t.reports else t.reports
        have hreport : ∀ m L, (do
            Session.reportFallback fault
            Session.interpret (second m) e : Run Value) ((coupling text).at_ L t) =
            Session.interpret (second m) e ((coupling text).at_ L { t with reports := reports }) := by
          intro m L
          have hrun : Session.reportFallback fault ((coupling text).at_ L t) =
              .ok () ((coupling text).at_ L { t with reports := reports }) := by
            have ht : ((coupling text).at_ L t).config.traced = t.config.traced := rfl
            simp only [Session.reportFallback, Act.update, reports, ht]
            cases t.config.traced <;> rfl
          exact Act.bind_of_ok hrun _
        simp only [hreport]
        exact Match.fewer (interpret_match hE (hst.reported reports) he hline) hfewer
    · exact Match.fewer (interpret_match hE hst he hline) hfewer

/-! ## Texts -/

/-- What the values of the first have in common. -/
theorem Follows.gives {ε α β : Type} {C : Coupling} {short : Nat → Prop} {V : C.World → α → β → Prop}
    {X : C.World → ε → ε → Prop} {w : C.World} {a : Act ε α} {b : Nat → Act ε β}
    (h : C.Follows short V X w a b) {p : α → Prop} (hp : Act.Gives p a) :
    C.Follows short (fun w x y => V w x y ∧ p x) X w a b := by
  intro s t hst
  have hm := h s t hst
  have hgives := hp s
  generalize a s = r at hm hgives
  cases hm with
  | ok hw hx hs hc => exact .ok hw ⟨hx, hgives _ _ rfl⟩ hs hc
  | raised hw he hs hc => exact .raised hw he hs hc
  | exhausted hc => exact .exhausted hc

theorem form_follows {f : Form} (hf : f.Proper) (hline : f.Lined) (w : World) :
    (coupling text).Follows (fun m => cost m + m ≤ n) (coupling text).value
      (coupling text).failure w (Session.strictForm (.named .framed) text n f) fun m =>
        Session.evalForm (second m) f := by
  obtain ⟨hE, hc⟩ := engines text n
  have hparse : (coupling text).Follows (fun m => cost m ≤ n)
      (fun w e e' => (coupling text).parsed [] .top w e e' ∧ e.Lined) (coupling text).failure w
      (Session.parseBy (first text n) f) fun m => Session.parseBy (second m) f :=
    (Follows.gives (Coupling.ofForm_follows shared hE.call hf w) fun _ _ _ he =>
      Expr.lined_of_ofForm hline he).mapFault fun _ _ _ h => h
  have hparse : (coupling text).Follows (fun m => cost m + m ≤ n)
      (fun w e e' => (coupling text).parsed [] .top w e e' ∧ e.Lined) (coupling text).failure w
      (Session.parseBy (first text n) f) fun m => Session.parseBy (second m) f := fun s t hst =>
    Match.fewer (hparse s t hst) fun m hm => Nat.le_trans (Nat.le_add_right ..) hm
  refine hparse.bind fun w₁ e e' _ he => ?_
  obtain ⟨⟨rfl, he⟩, hlined⟩ := he
  refine Coupling.Follows.mapFault ?_ fun _ _ _ h => h
  exact unlessLeaving_follows fun s t hst hk => evalExpr_match hE hc hst he hk hlined

theorem forms_follow {fs : List Form} (hf : Form.AllProper fs) (hline : Form.AllLined fs) {last last' : Value}
    (hl : (coupling text).value w last last') :
    (coupling text).Follows (fun m => cost m + m ≤ n) (coupling text).value
      (coupling text).failure w (Session.strictForms (.named .framed) text n last fs) fun m =>
        Session.evalForms (second m) last' fs := by
  induction fs generalizing w last last' with
  | nil => exact .pure hl
  | cons f rest ih => exact 
    (form_follows hf.head hline.head w).bind fun w₁ x y _ hxy => ih hf.tail hline.tail hxy

theorem source_follows (source : String) (w : World) :
    (coupling text).Follows (fun m => cost m + m ≤ n) (coupling text).value
      (coupling text).failure w (Session.strictSource (.named .framed) text n source) fun m =>
        Session.evalSourceBy (second m) source := by
  have hread : (coupling text).Follows (fun m => cost m + m ≤ n)
      (fun _ fs gs => gs = fs ∧ Form.AllProper fs ∧ Form.AllLined fs) (coupling text).failure w
        (Session.readSource source) fun _ => Session.readSource source := by
    unfold Session.readSource
    cases hf : Form.read source with
    | ok forms => exact .pure ⟨rfl, Form.proper_of_read hf, Form.lined_of_read hf⟩
    | error e => exact .raise (show (coupling text).failure w (.reader e) (.reader e) from rfl)
  refine hread.bind fun w₁ fs gs _ hfs => ?_
  obtain ⟨rfl, hfs, hline⟩ := hfs
  exact forms_follow hfs hline (Coupling.value.steady w₁ fun _ => rfl)

end Parity

open Machine

namespace Session

/-- Texts one after another, each in a mode of its own. One that fails leaves what was done before it. -/
def talk (run : String → Session Value) : List (Mode × String) → Session (List (Except Failure Value))
  | [] => pure []
  | (mode, source) :: rest => do
    Act.update fun s => { s with mode := mode }
    let outcome ← Act.caught (run source)
    return outcome :: (← talk run rest)

/-- The same texts, each of them interpreted. -/
def walked (texts : List (Mode × String)) : List (Mode × String) := texts.map fun p => (.treeWalk, p.2)

/-- In the session no macro is called late, no code assigns to the own name of a function, and the Vars of
the operators keep their natives: a walker that leaves at once where this is not so, whatever text it
leaves behind, does what the interpreter does. -/
def Steady (config : Config) (texts : List (Mode × String)) : Prop :=
  ∀ text n, talk (strictSource .framed text n) (walked texts) (.fresh .empty config) =
    talk (evalSource n) (walked texts) (.fresh .empty config)

def withLimits {ε α : Type} (f : Limits → Limits) : EStateM.Result ε State α → EStateM.Result ε State α
  | .ok x s => .ok x (s.limited f)
  | .error e s => .error e (s.limited f)

/-- The session does not come to a limit that only the machine has: with higher limits and no budget of
instructions it does the same. The depth of calls stays limited as it is. -/
def Unlimited (config : Config) (texts : List (Mode × String)) : Prop :=
  ∀ L m, talk (evalSource m) texts ((State.fresh .empty config).limited (Parity.ampleLimits L)) =
    withLimits (Parity.ampleLimits L) (talk (evalSource m) texts (.fresh .empty config))

end Session

namespace Coupling

variable {C : Coupling} {short : Nat → Prop}

theorem failure.mono {v w : C.World} (h : C.le v w) {f f' : Failure} (hf : C.failure v f f') :
    C.failure w f f' := by
  match f, f', hf with
  | .runtime _, .runtime _, hf => exact fault.mono h hf
  | .parser _, .parser _, hf => exact hf
  | .lexer _, _, rfl | .reader _, _, rfl | .compile _, _, rfl | .exhausted, _, rfl => rfl

def outcomes (w : C.World) : List (Except Failure Value) → List (Except Failure Value) → Prop :=
  List.Forall₂ (outcome C.value C.failure w)

theorem outcome.mono {v w : C.World} (h : C.le v w) {r r' : Except Failure Value}
    (hr : outcome C.value C.failure v r r') : outcome C.value C.failure w r r' := by
  match r, r', hr with
  | .ok _, .ok _, hr => exact value.mono h hr
  | .error _, .error _, hr => exact failure.mono h hr

/-- Sessions of interpreters that are coupled, if texts are; the modes of the first are certain ones. -/
theorem talk_follows {run : String → Session Value} {run' : Nat → String → Session Value}
    (hrun : ∀ w source, C.Follows short C.value C.failure w (run source) fun m => run' m source)
    {g : Mode → Mode} (hmode : ∀ {w s t} m, C.related w s t →
      C.related w { s with mode := g m } { t with mode := m })
    {X : C.World → Failure → Failure → Prop} (texts : List (Mode × String)) (w : C.World) :
    C.Follows short C.outcomes X w (Session.talk run (texts.map fun p => (g p.1, p.2))) fun m =>
      Session.talk (run' m) texts := by
  induction texts generalizing w with
  | nil => exact .pure .nil
  | cons p rest ih =>
    have hset : C.Follows short (fun _ _ _ => True) X w (Act.update fun s => { s with mode := g p.1 })
        fun _ => Act.update fun s => { s with mode := p.1 } :=
      .update (fun s t h => ⟨w, C.refl w, hmode p.1 h, trivial⟩) fun _ _ => rfl
    refine hset.bind fun w₁ _ _ _ _ => ?_
    refine (hrun w₁ p.2).caught.bind fun w₂ r r' _ hr => ?_
    exact (ih w₂).bind_pure fun w₃ rs rs' hw hrs => .cons (hr.mono hw) hrs

theorem Literal.outcomes (h : C.Literal) (hx : C.exact) {w : C.World} {rs rs' : List (Except Failure Value)}
    (hr : C.outcomes w rs rs') : rs' = rs := by
  induction hr with
  | nil => rfl
  | @cons r r' _ _ hr _ ih =>
    rw [ih]
    match r, r', hr with
    | .ok _, .ok _, hr => rw [h.value_iff.mp hr]
    | .error _, .error _, hr => rw [(h.failure hx hr).1]

end Coupling

namespace Parity

open Machine.Ideal

variable {text : String} {n : Nat} {w : World} {s t : State}

/-! ## Interpreters that have just begun -/

def World.start : World where
  ties := {
    links := []
    functions := []
    distinct := List.nodup_nil
    pins := []
    natives := fun _ => False }
  depth := 0
  stack := #[]
  frames := #[]

theorem related_bare (config : Config) :
    Related .start (State.bare { Store.empty with owners := 1 } config)
      (State.bare { Store.empty with owners := 1 } config) where
  bonds := {
    frames := rfl
    linked := fun h => nomatch h
    apart := fun h => nomatch h
    pinned := fun h => nomatch h
    functions := rfl
    function := fun h => nomatch h
    genuine := fun _ h => nomatch h
    names := rfl
    gensyms := rfl
    output := rfl
    raised := rfl
    vars := fun _ _ => Array.map_empty.symm
    config := rfl }
  depth := rfl
  depth' := rfl
  stack := rfl
  frames := rfl
  openCells := rfl
  there := .inl rfl

theorem Related.define (h : Related .start s s) (owner : Nat) (ops : List Native) :
    Related .start (State.define owner s ops) (State.define owner s ops) := by
  induction ops generalizing s with
  | nil => exact h
  | cons op rest ih =>
    refine ih (h.retie (h.bonds.change rfl (fun _ h => nomatch h) rfl rfl rfl rfl rfl fun ρ hρ => ?_) rfl rfl
      rfl)
    exact Store.setVar_vars_of_vars (Store.newVar_of_vars (h.bonds.vars ρ hρ) coreNamespace op.text).2 _
      (.native owner op)

theorem related_fresh (config : Config) :
    Related .start (State.fresh .empty config) (State.fresh .empty config) :=
  (related_bare config).define 0 Native.all

theorem limited_define (f : Limits → Limits) (owner : Nat) (s : State) (ops : List Native) :
    State.define owner (s.limited f) ops = (State.define owner s ops).limited f := by
  induction ops generalizing s with
  | nil => rfl
  | cons op rest ih =>
    exact ih { s with
      store := (s.store.newVar coreNamespace op.text).2.setVar (s.store.newVar coreNamespace op.text).1
        (.native owner op)
      names := s.names.add (s.store.newVar coreNamespace op.text).1 }

theorem limited_fresh (f : Limits → Limits) (config : Config) :
    (State.fresh .empty config).limited f =
      State.fresh .empty { config with limits := f config.limits } :=
  (limited_define f 0 (State.bare { Store.empty with owners := 1 } config) Native.all).symm

/-! ## The same engine on other locals and on the machine itself -/

section Same

variable {texts : List (Mode × String)}

theorem mirrors_mode {c : Chart} (h : c.Mirrors s t) (m : Mode) :
    c.Mirrors { s with mode := m } { t with mode := m } :=
  h.blind (f := fun s => { s with mode := m }) fun _ _ _ => rfl

theorem talk_agrees {run run' : String → Session Value}
    (hrun : ∀ w source, Chart.mirroring.Follows (fun _ => True) Chart.mirroring.value
      Chart.mirroring.failure w
      (run source) fun _ => run' source) {c : Chart} (h : c.Mirrors s t) (texts : List (Mode × String)) :
    c.Agree (Session.talk run texts s) (Session.talk run' texts t) := by
  have htalk := Coupling.talk_follows (g := id) (X := Chart.mirroring.failure) hrun
    (fun m hst => mirrors_mode hst m) texts c
  rw [show (texts.map fun p => (id p.1, p.2)) = texts from List.map_id _] at htalk
  exact Chart.agree_of_follows (fun _ _ _ hf => (Chart.literal.failure trivial hf).1)
    (htalk.imp (fun _ _ _ _ hr => Chart.literal.outcomes trivial hr) fun _ _ _ _ hf => hf) h

theorem talk_tandem {step₁ step₂ : Caller → Nat → Run (Option Value)} (hobs : Observed step₁ step₂)
    {L : Locals}
    (hL : OnFrames L) (level : Nat) (texts : List (Mode × String)) :
    Act.Tandem Resting (Session.talk (Session.evalSourceBy (Engine.built L Run.assign step₁ level)) texts)
      (Session.talk (Session.evalSourceBy (Engine.built L Run.assign step₂ level)) texts)
      (fun rs rs' s t => rs' = rs ∧ Resting s t) Resting := by
  induction texts with
  | nil => exact .pure fun s t h => ⟨rfl, h⟩
  | cons p rest ih =>
    have hset : Act.Tandem (ε := Failure) Resting (Act.update fun s => { s with mode := p.1 })
        (Act.update fun s => { s with mode := p.1 }) (fun _ _ => Resting) Resting :=
      .update fun s t h => h.inMode p.1
    refine hset.bind fun _ _ => ?_
    have hsource : Act.Tandem Resting
        (Act.caught (Session.evalSourceBy (Engine.built L Run.assign step₁ level) p.2))
        (Act.caught (Session.evalSourceBy (Engine.built L Run.assign step₂ level) p.2))
        (fun r r' s t => r' = r ∧ Resting s t) Resting := fun s t h => by
      simp only [Act.caught]
      exact (h.source hobs hL level p.2).elim (fun v v' s t h => ⟨by rw [h.1], h.2⟩)
        (fun e s t h => ⟨rfl, h⟩) fun _ _ => trivial
    refine hsource.bind_same fun r => ?_
    exact ih.bind_same fun rs => .pure fun s t h => ⟨rfl, h⟩

/-- States that show the same: the text that has been printed, the namespaces and the Vars. -/
structure Shows (s t : State) : Prop where
  output : t.output = s.output
  names : t.names = s.names
  vars : t.store.vars = s.store.vars

theorem Shows.of_chart {c : Chart} (h : c.Mirrors s t) : Shows s t where
  output := h.agree State.output fun _ => rfl
  names := h.agree State.names fun _ => rfl
  vars := h.agree (fun s => s.store.vars) fun _ => rfl

theorem Shows.of_resting (h : Resting s t) : Shows s t := by
  obtain ⟨-, ρ, hm⟩ := h
  have hstore := hm.doubles.store
  exact ⟨by rw [hm.rest], by rw [hm.rest], by rw [hstore]⟩

theorem Shows.trans {u : State} (h : Shows s t) (h' : Shows t u) : Shows s u :=
  ⟨h'.output.trans h.output, h'.names.trans h.names, h'.vars.trans h.vars⟩

/-- A session has outcomes or does not end. -/
theorem talk_ends (run : String → Session Value) (texts : List (Mode × String)) (s : State) :
    (∃ rs t, Session.talk run texts s = .ok rs t) ∨ ∃ t, Session.talk run texts s = .error .exhausted t := by
  induction texts generalizing s with
  | nil => exact .inl ⟨[], s, rfl⟩
  | cons p rest ih =>
    have hnext : ∀ r t, (∃ rs u, (do return r :: (← Session.talk run rest) : Session _) t = .ok rs u) ∨
        ∃ u, (do return r :: (← Session.talk run rest) : Session _) t = .error .exhausted u := fun r t => by
      rcases ih t with ⟨rs, u, e⟩ | ⟨u, e⟩
      · exact .inl ⟨_, u, Act.bind_of_ok e _⟩
      · exact .inr ⟨u, by simp only [Act.bind_apply, e]⟩
    simp only [Session.talk, Act.bind_apply (Act.update _), Act.update, Act.bind_apply (Act.caught _),
      Act.caught]
    cases run p.2 { s with mode := p.1 } with
    | ok x t => exact hnext _ t
    | error e t =>
      cases e with
      | raised e => exact hnext _ t
      | exhausted => exact .inr ⟨t, rfl⟩

theorem blank_mirrors (config : Config) :
    Chart.blank.Mirrors (State.fresh .empty config) (State.fresh .empty config) :=
  (Chart.mirrors_bare config).fresh config

/-- The session of the second with ample limits is that of the interpreter. -/
theorem talk_second (config : Config) (texts : List (Mode × String)) (m L : Nat) :
    (∃ rs s t, Session.talk (Session.evalSource m) texts (ample L (.fresh .empty config)) = .ok rs s ∧
      Session.talk (Session.evalSourceBy (second m)) texts (ample L (.fresh .empty config)) = .ok rs t ∧
        Shows s t) ∨
    ∃ s t, Session.talk (Session.evalSource m) texts (ample L (.fresh .empty config)) = .error .exhausted s ∧
      Session.talk (Session.evalSourceBy (second m)) texts (ample L (.fresh .empty config)) =
        .error .exhausted t := by
  have hfresh : ample L (.fresh .empty config) = _ := limited_fresh (ampleLimits L) config
  rw [hfresh]
  have hsources : ∀ w source, Chart.mirroring.Follows (fun _ => True) Chart.mirroring.value
      Chart.mirroring.failure w (Session.evalSourceBy (Engine.framing .framed m) source) fun _ =>
        Session.evalSourceBy (Engine.naming .framed m) source := fun w source =>
    Coupling.evalSource_follows (w := w) Chart.shared (Chart.engines .framed .framed m)
      (Chart.prepares .framed .framed) (Chart.texts .framed .framed m w) source
  have hnames := talk_agrees hsources
    (blank_mirrors { config with limits := ampleLimits L config.limits }) texts
  have hcells := talk_tandem observed_usual Locals.onFrames_named m texts _ _
    (Resting.first { config with limits := ampleLimits L config.limits })
  rw [Engine.framing_framed] at hnames
  change Act.Joint _ _ (Session.talk (Session.evalSourceBy (Engine.naming .framed m)) texts _)
    (Session.talk (Session.evalSourceBy (second m)) texts _) at hcells
  change (∃ rs s t, Session.talk (Session.evalSourceBy (Engine.ofFuel m)) texts _ = _ ∧ _) ∨
    ∃ s t, Session.talk (Session.evalSourceBy (Engine.ofFuel m)) texts _ = _ ∧ _
  generalize State.fresh .empty { config with limits := ampleLimits L config.limits } = s₀ at hnames hcells ⊢
  generalize Session.talk (Session.evalSourceBy (Engine.naming .framed m)) texts s₀ = q at hnames hcells
  rcases talk_ends (Session.evalSourceBy (Engine.ofFuel m)) texts s₀ with ⟨rs, s, e⟩ | ⟨s, e⟩
  · rw [e] at hnames
    cases hnames with
    | @ok d _ _ t hd h =>
      rcases talk_ends (Session.evalSourceBy (second m)) texts s₀ with ⟨rs', u, e'⟩ | ⟨u, e'⟩
      · rw [e'] at hcells
        obtain ⟨rfl, hu⟩ := hcells
        exact .inl ⟨rs', s, u, e, e', (Shows.of_chart h).trans (.of_resting hu)⟩
      · rw [e'] at hcells
        exact (show False from hcells).elim
  · rw [e] at hnames
    cases hnames with
    | @exhausted _ t h =>
      rcases talk_ends (Session.evalSourceBy (second m)) texts s₀ with ⟨rs', u, e'⟩ | ⟨u, e'⟩
      · rw [e'] at hcells
        exact (show False from hcells).elim
      · exact .inr ⟨s, u, e, e'⟩

/-- A session that is walked, with locals in frames and by name. -/
theorem talk_first (text : String) (config : Config) (n : Nat)
    (texts : List (Mode × String)) :
    Chart.blank.Agree
      (Session.talk (Session.strictSource .framed text n) texts (.fresh .empty config))
      (Session.talk (Session.strictSource (.named .framed) text n) texts (.fresh .empty config)) := by
  have hsources : ∀ w source, Chart.mirroring.Follows (fun _ => True) Chart.mirroring.value
      Chart.mirroring.failure w (Session.strictSource (.slotted .framed) text n source) fun _ =>
        Session.strictSource (.named .framed) text n source := fun w source =>
    Chart.strictSource_follows n source w
  have h := talk_agrees hsources (blank_mirrors config) texts
  rwa [Locals.slotted_framed] at h

theorem talk_match (text : String) (config : Config) (n : Nat)
    (texts : List (Mode × String)) :
    (coupling text).Match (fun m => cost m + m ≤ n) (coupling text).outcomes
      (coupling text).failure .start
      (Session.talk (Session.strictSource (.named .framed) text n) (Session.walked texts)
        (.fresh .empty config)) fun m L =>
      Session.talk (Session.evalSourceBy (second m)) texts (ample L (.fresh .empty config)) :=
  Coupling.talk_follows (C := coupling text) (g := fun _ => .treeWalk)
    (fun w source => source_follows source w) (fun _ h => { h with bonds := { h.bonds with } }) texts
    .start _ _
    (related_fresh config)

theorem talk_forward {config : Config} {rs : List (Except Failure Value)}
    (hs : Session.Steady config texts) (hl : Session.Unlimited config texts)
    (h : Session.talk (Session.evalSource n) (Session.walked texts) (.fresh .empty config) = .ok rs s) :
    ∃ (w : World) (rs' : List (Except Failure Value)), (coupling "").outcomes w rs rs' ∧
      (∃ m t, Session.talk (Session.evalSource m) texts (.fresh .empty config) = .ok rs' t) ∧
      ∀ m rs₁ t, Session.talk (Session.evalSource m) texts (.fresh .empty config) = .ok rs₁ t →
        rs₁ = rs' ∧ t.output = s.output ∧ t.names = s.names ∧
          ∀ ρ, w.ties.Ext ρ → t.store.vars = s.store.vars.map (Definition.rename ρ) := by
  have hfirst := talk_first "" config n (Session.walked texts)
  have hmatch := talk_match "" config n texts
  rw [hs "" n, h] at hfirst
  generalize Session.talk (Session.strictSource (.named .framed) "" n) (Session.walked texts)
    (.fresh .empty config) = r at hfirst hmatch
  cases hfirst with
  | @ok d _ _ s₁ hd hmirrors =>
    cases hmatch with
    | @ok w' _ rs' _ t' _ hw hx hst hc =>
      obtain ⟨K, hK⟩ := hc
      have hparts : ∀ m rs₁ t, Session.talk (Session.evalSource m) texts (.fresh .empty config) = .ok rs₁ t →
          rs₁ = rs' ∧ t.output = s.output ∧ t.names = s.names ∧
            ∀ ρ, w'.ties.Ext ρ → t.store.vars = s.store.vars.map (Definition.rename ρ) := by
        intro m rs₁ t ht
        have hlim : Session.talk (Session.evalSource m) texts (ample K (.fresh .empty config)) =
            .ok rs₁ (ample K t) := by rw [ample, hl K m, ht]; rfl
        rcases talk_second config texts m K with ⟨rs₂, u, v, eu, ev, hshows⟩ | ⟨u, v, eu, -⟩
        · rw [hlim] at eu
          cases eu
          rcases (hK K (Nat.le_refl K)).1 m with e | ⟨-, u, e⟩
          · cases ev.symm.trans e
            have hst' := Shows.of_chart hmirrors
            exact ⟨rfl, hshows.output.symm.trans (hst.bonds.output.trans hst'.output),
              hshows.names.symm.trans (hst.bonds.names.trans hst'.names), fun ρ hρ => by
                rw [← hst'.vars]
                exact hshows.vars.symm.trans (hst.bonds.vars ρ hρ)⟩
          · cases ev.symm.trans e
        · rw [hlim] at eu
          cases eu
      refine ⟨w', rs', hx, ⟨K, ?_⟩, hparts⟩
      have hend := (hK K (Nat.le_refl K)).2 K (Nat.le_refl K)
      rcases talk_ends (Session.evalSource K) texts (.fresh .empty config) with ⟨rs₁, t, e⟩ | ⟨t, e⟩
      · exact ⟨t, (hparts K rs₁ t e).1 ▸ e⟩
      · have hlim : Session.talk (Session.evalSource K) texts (ample K (.fresh .empty config)) =
            .error .exhausted (ample K t) := by rw [ample, hl K K, e]; rfl
        rcases talk_second config texts K K with ⟨_, _, _, eu, -, -⟩ | ⟨_, _, -, ev⟩
        · rw [hlim] at eu
          cases eu
        · cases ev.symm.trans hend

/-- A session that ends also ends when it is walked. -/
theorem talk_back {config : Config} {m : Nat} {rs : List (Except Failure Value)}
    (hs : Session.Steady config texts) (hl : Session.Unlimited config texts)
    (h : Session.talk (Session.evalSource m) texts (.fresh .empty config) = .ok rs t) :
    ∃ n rs s,
      Session.talk (Session.evalSource n) (Session.walked texts) (.fresh .empty config) = .ok rs s := by
  rcases talk_ends (Session.evalSource (cost m + m)) (Session.walked texts) (.fresh .empty config) with
    ⟨rs, s, e⟩ | ⟨s, e⟩
  · exact ⟨_, rs, s, e⟩
  exfalso
  -- The walker leaves with a text that is not the one that has been printed.
  let text := s.output ++ "x"
  have hfirst := talk_first text config (cost m + m) (Session.walked texts)
  have hmatch := talk_match text config (cost m + m) texts
  rw [hs text (cost m + m), e] at hfirst
  generalize Session.talk (Session.strictSource (.named .framed) text (cost m + m))
    (Session.walked texts) (.fresh .empty config) = r at hfirst hmatch
  cases hfirst with
  | @exhausted _ s₁ hout =>
    cases hmatch with
    | exhausted hc =>
      rcases hc with hc | hc
      · have hlen := congrArg String.length (hout.symm.trans hc)
        simp [text] at hlen
      · obtain ⟨K, hK⟩ := hc m (Nat.le_refl _)
        obtain ⟨u, eu, -⟩ := hK K (Nat.le_refl K)
        have hlim : Session.talk (Session.evalSource m) texts (ample K (.fresh .empty config)) =
            .ok rs (ample K t) := by rw [ample, hl K m, h]; rfl
        rcases talk_second config texts m K with ⟨_, _, _, -, ev, -⟩ | ⟨_, _, ev, -⟩
        · cases ev.symm.trans eu
        · rw [hlim] at ev
          cases ev

end Same

end Parity

/-! ## Agreement -/

namespace Session

/-- Outcomes that are the same but for places and for the engine of functions. -/
inductive Alike (ρ : Renaming) : Except Failure Value → Except Failure Value → Prop
  | value {x y} (h : y = x.rename ρ) (ht : y.typeName = x.typeName) (hr : y.readable = x.readable) :
    Alike ρ (.ok x) (.ok y)
  | lexer {e} : Alike ρ (.error (.lexer e)) (.error (.lexer e))
  | reader {e} : Alike ρ (.error (.reader e)) (.error (.reader e))
  | parser {e e'} (h : e'.cause = e.cause) : Alike ρ (.error (.parser e)) (.error (.parser e'))
  | compile {e} : Alike ρ (.error (.compile e)) (.error (.compile e))
  | runtime {e e'} (h : e'.cause = e.cause.rename ρ) (hm : e'.message = e.message) :
    Alike ρ (.error (.runtime e)) (.error (.runtime e'))
  | exhausted : Alike ρ (.error .exhausted) (.error .exhausted)

/-- Faults of running programs have the same line, but for overflows of the stack. -/
def SameLine : Except Failure Value → Except Failure Value → Prop
  | .error (.runtime e), .error (.runtime e') =>
    e.cause = .stackOverflow ∧ e'.cause = .stackOverflow ∨ e'.span.line = e.span.line
  | .error (.runtime _), _ | _, .error (.runtime _) => False
  | _, _ => True

theorem Alike.of_outcome {text : String} {w : Parity.World} {r r' : Except Failure Value}
    (h : Coupling.outcome (Parity.coupling text).value (Parity.coupling text).failure w r r')
    {ρ : Renaming} (hρ : w.ties.Ext ρ) (hplain : ρ.Plain) : Alike ρ r r' := by
  match r, r', h with
  | .ok x, .ok y, h =>
    have hy : y = x.rename ρ := h ρ hρ
    exact .value hy (by rw [hy, Value.typeName_rename]) (by rw [hy, Value.readable_rename hplain])
  | .error (.lexer _), .error _, rfl => exact .lexer
  | .error (.reader _), .error _, rfl => exact .reader
  | .error (.compile _), .error _, rfl => exact .compile
  | .error .exhausted, .error _, rfl => exact .exhausted
  | .error (.parser _), .error (.parser _), h => exact .parser h.2.1
  | .error (.runtime e), .error (.runtime e'), h => exact .runtime (h.2.1 ρ hρ) h.message

theorem SameLine.of_outcome {text : String} {w : Parity.World} {r r' : Except Failure Value}
    (h : Coupling.outcome (Parity.coupling text).value (Parity.coupling text).failure w r r') :
    SameLine r r' := by
  match r, r', h with
  | .ok _, .ok _, _ | .error (.lexer _), .error _, rfl | .error (.reader _), .error _, rfl
  | .error (.compile _), .error _, rfl | .error .exhausted, .error _, rfl => trivial
  | .error (.parser _), .error (.parser _), _ => trivial
  | .error (.runtime e), .error (.runtime e'), h =>
    refine h.2.2.imp_left fun hcause => ⟨hcause, ?_⟩
    obtain ⟨ρ, hρ⟩ := (Parity.coupling text).inhabited w
    rw [h.2.1 ρ hρ, hcause]
    rfl

end Session

/-! ## A sample -/

theorem State.exists_fresh (config : Config) : ∃ vars names, State.fresh .empty config =
    ⟨⟨vars, #[], #[], #[], #[], 0, 1⟩, names, config, config.mode, .idle, none, 0, 0, "", []⟩ := by
  have hdefine : ∀ owner (s : State) ops, ∃ vars names, State.define owner s ops =
      { s with store := { s.store with vars := vars }, names := names } := fun owner s ops => by
    induction ops generalizing s with
    | nil => exact ⟨_, _, rfl⟩
    | cons op rest ih =>
      have ⟨vars, names, h⟩ := ih { s with
        store := (s.store.newVar coreNamespace op.text).2.setVar
          (s.store.newVar coreNamespace op.text).1 (.native owner op)
        names := s.names.add (s.store.newVar coreNamespace op.text).1 }
      exact ⟨vars, names, h⟩
  exact hdefine 0 (State.bare { Store.empty with owners := 1 } config) Native.all

namespace Session

/-- A function that assigns to its variable, and a call of a number in the second line of a text. -/
def sample : List (Mode × String) :=
  [(.hybrid, "((fn [x] (set! x [x]) x) 1)"), (.bytecode, "((fn [f]\n (f 2)) 1)")]

def sampleConfig : Config := ⟨true, false, 5, ⟨20, 6, none⟩⟩

set_option maxRecDepth 100000 in
theorem steady_sample : Steady sampleConfig sample := by
  intro text n
  obtain ⟨vars, names, h⟩ := State.exists_fresh sampleConfig
  rw [h]
  match n with
  | 0 | 1 | 2 | 3 | n + 4 => cbv

set_option maxRecDepth 100000 in
theorem unlimited_sample : Unlimited sampleConfig sample := by
  intro L m
  obtain ⟨vars, names, h⟩ := State.exists_fresh sampleConfig
  rw [h]
  match m with
  | 0 | 1 | 2 | 3 | 4 | 5 | 6 | 7 | m + 8 => cbv

set_option maxRecDepth 100000 in
theorem walked_sample : ∃ s, talk (evalSource 4) (walked sample) (.fresh .empty sampleConfig) =
    .ok [.ok (.vector [.int 1]), .error (.runtime ⟨.notCallable "Int", ⟨10, 11, 2, 2⟩⟩)] s := by
  have hstart : (start (talk (evalSource 4) (walked sample)) (.fresh .empty sampleConfig)).1 =
      .ok [.ok (.vector [.int 1]), .error (.runtime ⟨.notCallable "Int", ⟨10, 11, 2, 2⟩⟩)] := by
    obtain ⟨vars, names, h⟩ := State.exists_fresh sampleConfig
    rw [h]
    cbv
  unfold start at hstart
  split at hstart
  · next e =>
    cases hstart
    exact ⟨_, e⟩
  · cases hstart
  · cases hstart

end Session

/-! ## Outcomes and lines -/

section Agreement

variable {config : Config} {texts : List (Mode × String)}

/-- Whatever the modes of the texts are, a session ends if and only if it ends when every text is walked.
Then the values are of the same types and read the same, or the faults are of the same kind with the same
message; what has been printed and the namespaces are the same, and so are the Vars but for the engine of
functions. -/
theorem engines_agree (hs : Session.Steady config texts) (hl : Session.Unlimited config texts) :
    ((∃ n rs s,
        Session.talk (Session.evalSource n) (Session.walked texts) (.fresh .empty config) = .ok rs s) ↔
      ∃ m rs t, Session.talk (Session.evalSource m) texts (.fresh .empty config) = .ok rs t) ∧
    ∀ {n m rs rs' s t},
      Session.talk (Session.evalSource n) (Session.walked texts) (.fresh .empty config) = .ok rs s →
      Session.talk (Session.evalSource m) texts (.fresh .empty config) = .ok rs' t →
        ∃ ρ : Renaming, ρ.Plain ∧ List.Forall₂ (Session.Alike ρ) rs rs' ∧ t.output = s.output ∧
          t.names = s.names ∧ t.store.vars = s.store.vars.map (Definition.rename ρ) := by
  refine ⟨⟨fun ⟨n, rs, s, h⟩ => ?_, fun ⟨m, rs, t, h⟩ => Parity.talk_back hs hl h⟩, fun h h' => ?_⟩
  · obtain ⟨-, rs', -, ⟨m, t, h'⟩, -⟩ := Parity.talk_forward hs hl h
    exact ⟨m, rs', t, h'⟩
  · obtain ⟨w, rs', houtcomes, -, hparts⟩ := Parity.talk_forward hs hl h
    obtain ⟨rfl, hout, hnames, hvars⟩ := hparts _ _ _ h'
    obtain ⟨ρ, hρ, hplain⟩ := w.ties.exists_plain
    exact ⟨ρ, hplain, houtcomes.imp fun r r' hr => .of_outcome hr hρ hplain, hout, hnames, hvars ρ hρ⟩

theorem engines_agree_sample : ∃ ρ : Renaming, ρ.Plain ∧ ∃ m rs t,
    Session.talk (Session.evalSource m) Session.sample (.fresh .empty Session.sampleConfig) = .ok rs t ∧
      List.Forall₂ (Session.Alike ρ)
        [.ok (.vector [.int 1]), .error (.runtime ⟨.notCallable "Int", ⟨10, 11, 2, 2⟩⟩)] rs := by
  obtain ⟨s, h⟩ := Session.walked_sample
  have hagree := engines_agree Session.steady_sample Session.unlimited_sample
  obtain ⟨m, rs, t, h'⟩ := hagree.1.mp ⟨4, _, s, h⟩
  obtain ⟨ρ, hplain, halike, -⟩ := hagree.2 h h'
  exact ⟨ρ, hplain, m, rs, t, h', halike⟩

/-- A fault that ends a text has the same line in both, unless the stack has overflown. -/
theorem lines_agree (hs : Session.Steady config texts) (hl : Session.Unlimited config texts) {n m : Nat}
    {rs rs' : List (Except Failure Value)} {s t : State}
    (h : Session.talk (Session.evalSource n) (Session.walked texts) (.fresh .empty config) = .ok rs s)
    (h' : Session.talk (Session.evalSource m) texts (.fresh .empty config) = .ok rs' t) :
    List.Forall₂ Session.SameLine rs rs' := by
  obtain ⟨w, rs', houtcomes, -, hparts⟩ := Parity.talk_forward hs hl h
  obtain ⟨rfl, -⟩ := hparts _ _ _ h'
  exact houtcomes.imp fun r r' hr => .of_outcome hr

theorem lines_agree_sample : ∃ m r e t,
    Session.talk (Session.evalSource m) Session.sample (.fresh .empty Session.sampleConfig) =
      .ok [r, .error (.runtime e)] t ∧ e.span.line = 2 := by
  obtain ⟨s, h⟩ := Session.walked_sample
  obtain ⟨-, rs, -, ⟨m, t, h'⟩, -⟩ := Parity.talk_forward Session.steady_sample Session.unlimited_sample h
  have hlines := lines_agree Session.steady_sample Session.unlimited_sample h h'
  match rs, hlines with
  | [r, .error (.runtime e)], .cons _ (.cons hline .nil) =>
    exact ⟨m, r, e, t, h', hline.resolve_left fun hover => nomatch hover.1⟩

end Agreement

end TwinLisp
