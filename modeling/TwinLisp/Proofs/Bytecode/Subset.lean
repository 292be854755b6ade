import TwinLisp.Proofs.Bytecode.Compilable

/-! The compiled subset is what the compiler compiles. A program of the parser outside of the subset is
refused, one inside of it is compiled unless there is no room for it, and a function literal inside of
it can stand alone exactly if it refers to no binder around it.

* `Expr.compile_compiles`: the code of an expression succeeds for members of the subset alone, and
  where it fails there is an excuse.
* `Proto.ofExpr_judged`, `Proto.ofFn_judged`: whole forms and function literals.
* `Proto.subset_is_compiled`: what this says of a form that has been parsed. -/

namespace TwinLisp

/-- What `recur` asks for at a position is the target of the function being built. -/
def Position.Met (p : Position) (t : Option RecurTarget) : Prop :=
  ∀ n, p.recurArity = some n → ∃ u, t = some u ∧ u.arity = n

theorem Position.met_body {t : RecurTarget} {n : Nat} (h : t.arity = n) :
    (Position.body n).Met (some t) := by
  rintro _ ⟨⟩
  exact ⟨t, rfl, h⟩

theorem varRef_of_intrinsic {callee : Expr} {n : Nat} {o : Opcode}
    (h : intrinsic? callee n = some o) : ∃ v span, callee = .varRef v span := by
  cases callee with
  | varRef v span => exact ⟨v, span, rfl⟩
  | _ => cases h

open Build

variable {R : Expr.Rules}

mutual

theorem Expr.compile_compiles (e : Expr) {sc outer : Scopes} {pos : Position} {f : Cells}
    {fs : List Cells} {h : Nat} {ks : List Sketch} {t : Option RecurTarget}
    {ts : List (Option RecurTarget)} (hp : e.Parsed R sc pos)
    (hsc : sc ++ [[""]] = scopesOf (f :: fs) ++ (Sketch.scopes ks ++ outer))
    (hb : Below (f :: fs) h) (ht : pos.Met t) :
    Compiles (List.length outer) (Aiming (t :: ts) (As (⟨f :: fs, h⟩ :: ks))) (e.compile byName)
      e.compilable e.mentions fun _ => Aiming (t :: ts) (As (⟨f :: fs, h + 1⟩ :: ks)) := by
  have ended : ∀ {n : Nat} {x : Build Unit} {c : Bool} {xs : List Binding},
      Compiles (List.length outer) (Aiming (t :: ts) (As (⟨f :: fs, n⟩ :: ks))) x c xs
        (fun _ => Aiming (t :: ts) (As (⟨f :: fs, n⟩ :: ks))) →
      Compiles (List.length outer) (Aiming (t :: ts) (As (⟨f :: fs, n⟩ :: ks))) x c xs
        fun _ => Aiming (t :: ts) fun b => ∃ h', As (⟨f :: fs, h'⟩ :: ks) b :=
    fun hx => hx.imp fun _ b hb => ⟨⟨_, hb.1⟩, hb.2⟩
  have name : ∀ (n : Nat) (x : Binding) (span : Span), sc.find? x.name = some x →
      Compiles (List.length outer) (Aiming (t :: ts) (As (⟨f :: fs, n⟩ :: ks))) (byName x span) true
        [x] fun _ => Aiming (t :: ts) (As (⟨f :: fs, n⟩ :: ks)) := by
    intro n x span hx
    have := Scopes.find?_within [""] hx
    rw [hsc, ← Sketch.scopes_cons ⟨f :: fs, n⟩] at this
    exact byName_compiles this
  cases e with
  | literal v span =>
    exact leavingOne_compiles (ended (roomy_literal.compiles (quiet_literal.agree _) _))
  | quote v span =>
    exact leavingOne_compiles (ended (roomy_literal.compiles (quiet_literal.agree _) _))
  | vector items span =>
    cases hp with
    | vector hp =>
      exact leavingOne_compiles ((compileAll_compiles items hp hsc hb ht).before fun _ =>
        ended (roomy_collect.compiles (quiet_collect.agree _) _))
  | set items span =>
    cases hp with
    | set hp =>
      exact leavingOne_compiles ((compileAll_compiles items hp hsc hb ht).before fun _ =>
        ended (roomy_collect.compiles (quiet_collect.agree _) _))
  | map items span =>
    cases hp with
    | map _ hp =>
      exact leavingOne_compiles ((compileAll_compiles items hp hsc hb ht).before fun _ =>
        ended (roomy_collect.compiles (quiet_collect.agree _) _))
  | localRef x span =>
    cases hp with
    | localRef hx =>
      refine leavingOne_compiles ((name h x span hx).before fun a => ?_)
      cases a <;> exact ended (roomy_opByte.compiles (quiet_opByte.agree _) _)
  | varRef v span =>
    exact leavingOne_compiles (ended (roomy_opConstant.compiles (quiet_opConstant.agree _) _))
  | theVar v span =>
    exact leavingOne_compiles (ended (roomy_opConstant.compiles (quiet_opConstant.agree _) _))
  | cond test yes no span =>
    cases hp with
    | cond hpt hpy hpn =>
      rw [Expr.compilable, Expr.mentions, Bool.and_assoc]
      refine leavingOne_compiles ((test.compile_compiles hpt hsc hb ht).bind fun _ => ?_)
      refine (roomy_jump.compiles (quiet_jump.agree _) _).after fun i => ?_
      refine (roomy_dropped.compiles dropped_agree _).after fun _ => ?_
      refine (yes.compile_compiles hpy hsc hb ht).bind fun _ => ?_
      refine (roomy_jump.compiles (quiet_jump.agree _) _).after fun j => ?_
      refine (roomy_land.compiles (quiet_land.agree _) _).after fun _ => ?_
      refine (roomy_dropped.compiles dropped_agree _).after fun _ => ?_
      refine (compileElse_compiles no hpn hsc hb ht).before fun _ => ?_
      rintro b ⟨⟨h', hb'⟩, htb⟩
      exact (roomy_land.compiles (quiet_land.agree _) _).imp (fun _ b hb => ⟨⟨_, hb.1⟩, hb.2⟩) b
        ⟨hb', htb⟩
  | block body span =>
    cases hp with
    | block hp => exact leavingOne_compiles (compileBody_compiles body hp hsc hb ht)
  | letIn bindings body span =>
    cases hp with
    | letIn hpb hp =>
      obtain ⟨g, rfl, hbelow, hbind⟩ :=
        compileBindings_compiles bindings ts (f := []) hpb hsc hb.frame ht
      refine leavingOne_compiles ((roomy_openScope.compiles openScope_agree _).after fun _ => ?_)
      refine hbind.bind fun _ => ?_
      refine (compileBody_compiles body hp (congrArg (_ :: ·) hsc) hbelow ht).before fun _ => ?_
      rintro b ⟨⟨h', hb'⟩, htb⟩
      exact roomy_closeScope.compiles closeScope_agree _ b ⟨hb', htb⟩
  | loop bindings body span =>
    cases hp with
    | loop hpb hp =>
      obtain ⟨g, rfl, hbelow, hbind⟩ :=
        compileBindings_compiles bindings ts (f := []) hpb hsc hb.frame ht
      refine leavingOne_compiles ((roomy_openScope.compiles openScope_agree _).after fun _ => ?_)
      refine Compiles.ask.after fun slot => hbind.bind fun _ => ?_
      refine Compiles.ask.after fun start => ?_
      refine askTarget_compiles.after fun found => ?_
      rintro b ⟨rfl, hb'⟩
      refine (setTarget_compiles (quiet_setTarget.agree _)).after (fun _ => ?_) b hb'
      refine (compileBody_compiles body hp (congrArg (_ :: ·) hsc) hbelow
        (Position.met_body rfl)).before fun _ => ?_
      rintro b ⟨⟨h', hb'⟩, htb⟩
      refine (setTarget_compiles (quiet_setTarget.agree _)).after (fun _ => ?_) b ⟨hb', htb⟩
      exact roomy_closeScope.compiles closeScope_agree _
  | recur args span =>
    cases hp with
    | recur _ ha hp =>
      obtain ⟨u, rfl, hu⟩ := ht _ ha
      rw [Expr.compile, ← hu]
      refine leavingOne_compiles (recurTarget_compiles.after fun a => ?_)
      refine (compileAll_compiles args hp hsc hb ht).before fun _ => ?_
      exact ended (roomy_recurTo.compiles (quiet_recurTo.agree _) _)
  | fn g span =>
    obtain ⟨self, arities, fspan, compiled⟩ := g
    cases hp with
    | fn _ hp =>
      have hsc' : sc ++ [[""]] = Sketch.scopes (⟨f :: fs, h⟩ :: ks) ++ outer :=
        hsc.trans (Sketch.scopes_cons ⟨f :: fs, h⟩ ks outer).symm
      refine leavingOne_compiles (enter_compiles.after fun _ => ?_)
      refine (compileArities_compiles arities hp hsc').before fun _ => ?_
      rintro b ⟨u, hb'⟩
      refine leave_compiles.after (fun p => ?_) b hb'
      exact ended (roomy_closure.compiles (quiet_closure.agree _) _)
  | define v value span =>
    cases hp with
    | define hp =>
      cases value with
      | none =>
        exact leavingOne_compiles (ended (roomy_opConstant.compiles (quiet_opConstant.agree _) _))
      | some e =>
        refine leavingOne_compiles ((e.compile_compiles (hp e rfl) hsc hb ht).before fun _ => ?_)
        refine (roomy_opConstant.compiles (quiet_opConstant.agree _) _).after fun _ => ?_
        refine (roomy_op.compiles (quiet_op.agree _) _).after fun _ => ?_
        refine (roomy_dropped.compiles dropped_agree _).after fun _ => ?_
        exact ended (roomy_opConstant.compiles (quiet_opConstant.agree _) _)
  | setLocal x value span =>
    cases hp with
    | setLocal hx hp =>
      rw [Expr.compilable, ← Bool.and_true value.compilable]
      refine leavingOne_compiles ((value.compile_compiles hp hsc hb ht).bind fun _ => ?_)
      refine (name (h + 1) x span hx).before fun a => ?_
      cases a <;> exact (roomy_opByte.compiles (quiet_opByte.agree _) _).imp fun _ b hb =>
        ⟨⟨_, hb.1⟩, hb.2⟩
  | setVar v value span =>
    cases hp with
    | setVar hp =>
      refine leavingOne_compiles ((value.compile_compiles hp hsc hb ht).before fun _ => ?_)
      exact (roomy_opConstant.compiles (quiet_opConstant.agree _) _).imp fun _ b hb =>
        ⟨⟨_, hb.1⟩, hb.2⟩
  | call callee args span =>
    cases hp with
    | call hpc hp =>
      refine leavingOne_compiles ?_
      split
      · next o ho =>
        obtain ⟨v, vspan, rfl⟩ := varRef_of_intrinsic ho
        refine (compileAll_compiles args hp hsc hb ht).before fun _ => ?_
        exact (roomy_op.compiles (quiet_op.agree _) _).imp fun _ b hb => ⟨⟨_, hb.1⟩, hb.2⟩
      · refine (callee.compile_compiles hpc hsc hb ht).bind fun _ => ?_
        refine (compileAll_compiles args hp hsc (Below.up hb 1) ht).before fun _ => ?_
        exact (roomy_call.compiles (quiet_call.agree _) _).imp fun _ b hb => ⟨⟨_, hb.1⟩, hb.2⟩
  | throw value span => exact .unsupported
  | attempt body catches finish span => exact .unsupported
  | macroCall v args span => exact .unsupported

theorem compileAll_compiles (es : List Expr) {sc outer : Scopes} {pos : Position} {f : Cells}
    {fs : List Cells} {h : Nat} {ks : List Sketch} {t : Option RecurTarget}
    {ts : List (Option RecurTarget)} (hp : AllParsed R sc pos es)
    (hsc : sc ++ [[""]] = scopesOf (f :: fs) ++ (Sketch.scopes ks ++ outer))
    (hb : Below (f :: fs) h) (ht : pos.Met t) :
    Compiles (List.length outer) (Aiming (t :: ts) (As (⟨f :: fs, h⟩ :: ks)))
      (compileAll byName es) (allCompilable es) (mentionsAll es) fun _ =>
        Aiming (t :: ts) (As (⟨f :: fs, h + es.length⟩ :: ks)) := by
  cases es with
  | nil => exact .pure fun b hb => hb
  | cons e rest =>
    refine (e.compile_compiles (hp e List.mem_cons_self) hsc hb ht).bind fun _ => ?_
    rw [List.length_cons, Nat.add_comm rest.length 1, ← Nat.add_assoc]
    exact compileAll_compiles rest (fun x hx => hp x (List.mem_cons_of_mem e hx)) hsc
      (Below.up hb 1) ht

theorem compileBody_compiles (es : List Expr) {sc outer : Scopes} {pos : Position} {f : Cells}
    {fs : List Cells} {h : Nat} {ks : List Sketch} {span : Span} {t : Option RecurTarget}
    {ts : List (Option RecurTarget)} (hp : BodyParsed R sc pos es)
    (hsc : sc ++ [[""]] = scopesOf (f :: fs) ++ (Sketch.scopes ks ++ outer))
    (hb : Below (f :: fs) h) (ht : pos.Met t) :
    Compiles (List.length outer) (Aiming (t :: ts) (As (⟨f :: fs, h⟩ :: ks)))
      (compileBody byName span es) (allCompilable es) (mentionsAll es) fun _ =>
        Aiming (t :: ts) fun b => ∃ h', As (⟨f :: fs, h'⟩ :: ks) b := by
  match es, hp with
  | [], .nil =>
    exact (roomy_op.compiles (quiet_op.agree _) _).imp fun _ b hb => ⟨⟨_, hb.1⟩, hb.2⟩
  | [e], .last hp =>
    rw [allCompilable, allCompilable, Bool.and_true, mentionsAll, mentionsAll, List.append_nil]
    exact (e.compile_compiles hp hsc hb ht).imp fun _ b hb => ⟨⟨_, hb.1⟩, hb.2⟩
  | e :: e' :: rest, .cons hp hr =>
    refine (e.compile_compiles hp hsc hb ht).bind fun _ => ?_
    refine (roomy_op.compiles (quiet_op.agree _) _).after fun _ => ?_
    refine (roomy_dropped.compiles dropped_agree _).after fun _ => ?_
    exact compileBody_compiles (e' :: rest) hr hsc hb ht

theorem compileElse_compiles (e : Option Expr) {sc outer : Scopes} {pos : Position} {f : Cells}
    {fs : List Cells} {h : Nat} {ks : List Sketch} {span : Span} {t : Option RecurTarget}
    {ts : List (Option RecurTarget)} (hp : ∀ x, e = some x → x.Parsed R sc pos)
    (hsc : sc ++ [[""]] = scopesOf (f :: fs) ++ (Sketch.scopes ks ++ outer))
    (hb : Below (f :: fs) h) (ht : pos.Met t) :
    Compiles (List.length outer) (Aiming (t :: ts) (As (⟨f :: fs, h⟩ :: ks)))
      (compileElse byName span e) (noneOrCompilable e) (mentionsOption e) fun _ =>
        Aiming (t :: ts) fun b => ∃ h', As (⟨f :: fs, h'⟩ :: ks) b := by
  cases e with
  | none => exact (roomy_op.compiles (quiet_op.agree _) _).imp fun _ b hb => ⟨⟨_, hb.1⟩, hb.2⟩
  | some e => exact (e.compile_compiles (hp e rfl) hsc hb ht).imp fun _ b hb => ⟨⟨_, hb.1⟩, hb.2⟩

theorem compileBindings_compiles (bs : List (Bound Expr)) (ts : List (Option RecurTarget))
    {sc outer inner : Scopes} {pos : Position} {f : Cells} {fs : List Cells} {h : Nat}
    {ks : List Sketch} {t : Option RecurTarget}
    (hp : BindingsParsed R (f.map Prod.fst :: sc) pos bs inner)
    (hsc : sc ++ [[""]] = scopesOf fs ++ (Sketch.scopes ks ++ outer))
    (hb : Below (f :: fs) h) (ht : pos.Met t) :
    ∃ g : Cells, inner = g.map Prod.fst :: sc ∧ Below (g :: fs) (h + bs.length) ∧
      Compiles (List.length outer) (Aiming (t :: ts) (As (⟨f :: fs, h⟩ :: ks)))
        (compileBindings byName bs) (bindingsCompilable bs) (mentionsBindings bs) fun _ =>
          Aiming (t :: ts) (As (⟨g :: fs, h + bs.length⟩ :: ks)) := by
  match bs, hp with
  | [], .nil => exact ⟨f, rfl, hb, .pure fun b hb => hb⟩
  | ⟨name, init⟩ :: rest, .cons hp hr =>
    obtain ⟨g, rfl, hbelow, hrest⟩ :=
      compileBindings_compiles rest ts (f := (name, h) :: f) hr hsc (hb.declare name) ht
    rw [List.length_cons, Nat.add_comm rest.length 1, ← Nat.add_assoc]
    refine ⟨g, rfl, hbelow, (init.compile_compiles hp (congrArg (_ :: ·) hsc) hb ht).bind fun _ => ?_⟩
    exact (roomy_declare.compiles (declare_agree hb) _).after fun _ => hrest

theorem compileArities_compiles (as : List (Arity Expr)) {sc outer : Scopes} {self : String}
    {ks : List Sketch} {span : Span} {ts : List (Option RecurTarget)}
    (hp : ∀ params variadic body, Arity.mk params variadic body ∈ as →
      BodyParsed R (sc.enterCall self params) (.body params.length) body)
    (hsc : sc ++ [[""]] = Sketch.scopes ks ++ outer) :
    Compiles (List.length outer) (Aiming (none :: ts) (As (.start self :: ks)))
      (compileArities byName span as) (aritiesCompilable as) (mentionsArities as) fun _ b =>
        ∃ u, Aiming (u :: ts) (fun b => ∃ k, As (k :: ks) b) b := by
  match as with
  | [] => exact .unsupported
  | ⟨params, true, body⟩ :: [] => exact .unsupported
  | ⟨params, v, body⟩ :: a :: rest => cases v <;> exact .unsupported
  | [⟨params, false, body⟩] =>
    obtain ⟨g, hnames, hg, hparams⟩ := parameters_compiles span ks ts self params
    have hsc' : sc.enterCall self params ++ [[""]] =
        scopesOf [g] ++ (Sketch.scopes ks ++ outer) := by
      rw [Scopes.enterCall, List.cons_append, hsc, scopesOf, List.map_singleton, hnames,
        List.reverse_cons]
      rfl
    have hbody := hp params false body List.mem_cons_self
    rw [mentionsArities, mentionsArities, List.append_nil]
    refine hparams.after fun _ => ?_
    refine (compileBody_compiles body hbody hsc' hg (Position.met_body rfl)).before fun _ => ?_
    rintro b ⟨⟨h', hb⟩, htb⟩
    exact (roomy_op.compiles (quiet_op.agree _) _).imp (fun _ b hb => ⟨_, ⟨_, hb.1⟩, hb.2⟩) b
      ⟨hb, htb⟩

end

/-! ## Whole functions -/

/-- A function comes out for members of the subset alone, and only where no local is bound in the
frames around; where none comes out there is an excuse. -/
structure Proto.Judged (around : Nat) (fits : Bool) (xs : List Binding)
    (r : Except CompileError Proto) : Prop where
  belongs : ∀ p, r = .ok p → fits = true
  inside : ∀ p, r = .ok p → ∀ x ∈ xs, around ≤ x.frame + 1
  excuse : ∀ e, r = .error e → e.Excused around fits xs

theorem Build.Compiles.run {around : Nat} {P : Builder → Prop} {x : Build Proto} {fits : Bool}
    {xs : List Binding} {Q : Proto → Builder → Prop} {b : Builder}
    (h : Compiles around P x fits xs Q) (hb : P b) : Proto.Judged around fits xs (x.run' b) := by
  have hok : ∀ p, x.run' b = .ok p → fits = true ∧ ∀ y ∈ xs, around ≤ y.frame + 1 := fun p hp =>
    let ⟨b', hx⟩ := run'_eq_ok hp
    ((h b hb).1 p b' hx).2
  refine ⟨fun p hp => (hok p hp).1, fun p hp => (hok p hp).2, fun e he => (h b hb).2 e ?_⟩
  change (x b).map Prod.fst = .error e at he
  cases hx : x b with
  | ok r =>
    rw [hx] at he
    cases he
  | error e' =>
    rw [hx] at he
    cases he
    rfl

namespace Proto

theorem ofExpr_judged (name : String) {e : Expr} (he : e.Parsed R [] .top) :
    Judged 0 e.compilable e.mentions (ofExpr name e) := by
  have hbody : Compiles (List.length ([] : Scopes)) (Aiming [none] (As [.start ""]))
      (e.compile byName) e.compilable e.mentions fun _ => Aiming [none] (As [⟨[[("", 0)]], 2⟩]) :=
    e.compile_compiles he rfl (Below.start "") nofun
  exact (hbody.before fun _ => (roomy_op.compiles (quiet_op.agree _) _).after fun _ => .ask).run
    ⟨.cons (Sketch.start_of name "") .nil, rfl⟩

theorem ofFn_judged {g : FnLiteral Expr} {sc : Scopes} (hg : g.Parsed R sc) :
    Judged (sc.length + 1) g.compilable g.mentions (ofFn g) := by
  have hbody : Compiles (List.length (sc ++ [[""]])) (Aiming [none] (As [.start (g.name.getD "")]))
      (compileArities byName g.span g.arities) g.compilable g.mentions fun _ b =>
        ∃ u, Aiming [u] (fun b => ∃ k, As [k] b) b :=
    compileArities_compiles g.arities hg.arities rfl
  rw [List.length_append] at hbody
  exact (hbody.before fun _ => .ask).run
    ⟨.cons (Sketch.start_of g.displayName (g.name.getD "")) .nil, rfl⟩

/-- No function comes out, for want of room. -/
def Crowded (r : Except CompileError Proto) : Prop := ∃ err, r = .error err ∧ err.cause.Capacity

theorem not_refersOutside {g : FnLiteral Expr} {sc : Scopes} {p : Proto} (hg : g.Parsed R sc)
    (h : ofFn g = .ok p) : ¬ g.RefersOutside sc.length := by
  rintro ⟨x, hx, hlt⟩
  have := (ofFn_judged hg).inside p h x hx
  omega

/-- There are three ways for a literal of the subset: it finds no room, or it is compiled and refers
to nothing around it, or it is not compiled, for a binder around it. -/
theorem ofFn_cases {g : FnLiteral Expr} {sc : Scopes} (hg : g.Parsed R sc)
    (hc : g.compilable = true) :
    Crowded (ofFn g) ∨ (¬ g.RefersOutside sc.length ∧ ∃ p, ofFn g = .ok p) ∨
      g.RefersOutside sc.length ∧ ∃ x ∈ g.mentions, x.frame < sc.length ∧
        ∃ span, ofFn g = .error ⟨.unresolvedBinding x.name, span⟩ := by
  cases hr : ofFn g with
  | ok p => exact .inr (.inl ⟨not_refersOutside hg hr, p, rfl⟩)
  | error err =>
    obtain ⟨cause, span⟩ := err
    rcases (ofFn_judged hg).excuse _ hr with h | ⟨x, hx, hlt, h⟩ | ⟨h, -⟩
    · exact .inl ⟨_, rfl, h⟩
    · cases h
      have hout : x.frame < sc.length := Nat.lt_of_succ_lt_succ hlt
      exact .inr (.inr ⟨⟨x, hx, hout⟩, x, hx, hout, span, rfl⟩)
    · rw [hc] at h
      cases h

end Proto

/-- Literals have no bytecode, or what the compiler makes of them. -/
def Expr.Rules.cached : Expr.Rules := .storing (fun _ f p => Proto.ofFn f = .ok p) True

theorem Expr.Parsed.cached {e : Expr} {sc : Scopes} {pos : Position} (h : e.Parsed .bare sc pos)
    (lines : List String) : (e.annotate.run lines).1.Parsed .cached sc pos := by
  have hbare : ∀ sc f, Expr.Rules.bare.literal sc f → f.compiled = none := fun _ _ h => h.1
  refine (e.annotate_parsed (T := .cached) hbare (fun _ _ f' _ hf' _ p hp => ?_)
    (fun _ => trivial) (fun _ f p _ _ hp q hq => ?_) h lines).1
  · rw [hf'] at hp
    cases hp
  · cases hq
    exact hp

namespace Proto

/-- A form that has been parsed is compiled exactly if it belongs to the subset, room permitting. So
is each function literal in it that refers to no binder around it; for the others a binder is
missing. Hence bytecode that is stored beside a literal has no use for what is around it. -/
theorem subset_is_compiled {call : Caller} {f : Form} {s s' : State} {e : Expr} (hf : f.Proper)
    (h : Expr.ofForm call f s = .ok e s') :
    (∀ name, (∀ p, ofExpr name e = .ok p → e.compilable = true) ∧
      (e.compilable = true → (∃ p, ofExpr name e = .ok p) ∨ Crowded (ofExpr name e))) ∧
    (∀ g ∈ e.literals, (∃ sc, g.Parsed .bare sc) ∧
      ∀ sc, g.Parsed .bare sc → g.compilable = true →
        Crowded (ofFn g) ∨ (¬ g.RefersOutside sc.length ∧ ∃ p, ofFn g = .ok p) ∨
          g.RefersOutside sc.length ∧ ∃ x ∈ g.mentions, x.frame < sc.length ∧
            ∃ span, ofFn g = .error ⟨.unresolvedBinding x.name, span⟩) ∧
    ∀ lines, ∀ g ∈ (e.annotate.run lines).1.literals, (∃ sc, g.Parsed .cached sc) ∧
      ∀ p, g.compiled = some p → ofFn g = .ok p ∧ p.captures = #[] ∧
        ∀ sc, g.Parsed .cached sc → ¬ g.RefersOutside sc.length := by
  have he := Expr.parsed_of_ofForm hf h
  refine ⟨fun name => ?_, fun g hg => ⟨he.literals e g hg, fun sc hp hc => ofFn_cases hp hc⟩, ?_⟩
  · have hjudged := ofExpr_judged name he
    refine ⟨hjudged.belongs, fun hc => ?_⟩
    cases hr : ofExpr name e with
    | ok p => exact .inl ⟨p, rfl⟩
    | error err =>
      rcases hjudged.excuse err hr with h | ⟨x, -, hlt, -⟩ | ⟨h, -⟩
      · exact .inr ⟨err, rfl, h⟩
      · exact absurd hlt (Nat.not_lt_zero _)
      · rw [hc] at h
        cases h
  · intro lines g hg
    obtain ⟨sc, hp⟩ := (he.cached lines).literals _ g hg
    refine ⟨⟨sc, hp⟩, fun p hc => ?_⟩
    have hfn : ofFn g = .ok p := hp.literal p hc
    exact ⟨hfn, (wellFormed_of_ofFn hp hfn).2, fun sc hp => not_refersOutside hp hfn⟩

/-- A local and two functions, one of which refers to it. -/
def neighbours : Form :=
  .list [.symbol "let" .unknown, .vector [.symbol "a" .unknown, .atom (.bool true) .unknown] .unknown,
    .list [.symbol "fn" .unknown, .vector [.symbol "x" .unknown] .unknown,
      .symbol "x" .unknown] .unknown,
    .list [.symbol "fn" .unknown, .vector [] .unknown, .symbol "a" .unknown] .unknown] .unknown

theorem proper_neighbours : neighbours.Proper := by
  have hbindings : Form.AllProper [.symbol "a" .unknown, .atom (.bool true) .unknown] :=
    .cons .symbol (.cons (.atom fun _ => rfl) .nil)
  have hparams : Form.AllProper [.symbol "x" .unknown] := .cons .symbol .nil
  have hclosed : Form.AllProper [.symbol "fn" .unknown, .vector [.symbol "x" .unknown] .unknown,
      .symbol "x" .unknown] :=
    .cons .symbol (.cons (.vector hparams) (.cons .symbol .nil))
  have hopen : Form.AllProper [.symbol "fn" .unknown, .vector [] .unknown, .symbol "a" .unknown] :=
    .cons .symbol (.cons (.vector Form.AllProper.nil) (.cons .symbol .nil))
  exact .list (Form.AllProper.cons .symbol (.cons (.vector hbindings)
    (.cons (.list hclosed) (.cons (.list hopen) .nil))))

theorem subset_of_neighbours : ∃ e s' g k,
    Expr.ofForm (fun _ _ => Act.exhausted) neighbours (State.bare .empty .standard) = .ok e s' ∧
      e.compilable = true ∧ ((∃ p, ofExpr "form" e = .ok p) ∨ Crowded (ofExpr "form" e)) ∧
      g ∈ e.literals ∧ k ∈ e.literals ∧
      (∃ sc, g.Parsed .bare sc ∧ ¬ g.RefersOutside sc.length ∧ ∃ p, ofFn g = .ok p) ∧
      ∃ sc, k.Parsed .bare sc ∧ k.RefersOutside sc.length ∧
        ofFn k = .error ⟨.unresolvedBinding "a", .unknown⟩ := by
  have h := @subset_is_compiled (fun _ _ => Act.exhausted) neighbours
    (State.bare .empty .standard) _ _ proper_neighbours rfl
  obtain ⟨⟨sc, hg⟩, hg'⟩ := h.2.1 _ List.mem_cons_self
  obtain ⟨⟨sc', hk⟩, hk'⟩ := h.2.1 _ (List.mem_cons_of_mem _ List.mem_cons_self)
  refine ⟨_, _, _, _, rfl, rfl, (h.1 "form").2 rfl, List.mem_cons_self,
    List.mem_cons_of_mem _ List.mem_cons_self, ⟨sc, hg, ?_⟩, sc', hk, ?_, rfl⟩
  · rcases hg' sc hg rfl with ⟨_, he, -⟩ | hin | ⟨-, _, -, -, _, he⟩
    · cases he
    · exact hin
    · cases he
  · rcases hk' sc' hk rfl with ⟨_, he, hroom⟩ | ⟨-, _, he⟩ | ⟨hout, -⟩
    · cases he
      cases hroom
    · cases he
    · exact hout

end Proto

end TwinLisp
