import TwinLisp.Proofs.Gensym.Evaluation

/-! No name is made twice. An interpreter may be asked for names directly, by calls of `gensym` and by
expansions of `and` and `or`; all of this may happen while it parses, compiles and evaluates programs,
which are asked for in any order. The names are made one after the other, and their numbers tell them
apart whatever stands before the numbers. The count of names has no bound here; one of 64 bits is the same
as long as fewer than 2 ^ 64 names are made.

* `Session.journaled_evalSource` and its kin: what an interpreter does with source text.
* `Gensym.Task`: what an interpreter may be asked to do.
* `Gensym.Runs`: tasks one after the other, and the names made meanwhile.
* `Gensym.names_are_never_repeated`: the names of a run differ. -/

namespace TwinLisp

open Act (Journaled Makes left)

/-! ## Source text -/

namespace Session

theorem journaled_readSource (source : String) : Journaled (readSource source) := by
  unfold readSource
  split
  · exact .pure _
  · exact .raise _

section Forms

variable {E : Engine} (hE : E.Journaled)

include hE

theorem journaled_parseBy (f : Form) : Journaled (parseBy E f) :=
  (Expr.journaled_ofForm hE.call f).mapFault _

theorem journaled_interpret (e : Expr) : Journaled (interpret E e) :=
  Journaled.after (fun _ => State.blind_prepared rfl e) fun e => e.journaled_eval hE none

theorem journaled_evalExpr (e : Expr) : Journaled (evalExpr E e) := by
  unfold evalExpr
  refine Journaled.after (fun _ => .ask fun _ => rfl) fun mode => ?_
  cases mode with
  | treeWalk => exact e.journaled_eval hE none
  | hybrid => exact journaled_interpret hE e
  | bytecode =>
    dsimp only
    split
    · cases Proto.ofExpr "top-level" e with
      | ok p => exact Machine.journaled_onParked (Machine.journaled_executeFormBy hE.cycle E.rounds p)
      | error fault =>
        exact Journaled.after (fun _ => blind_reportFallback rfl fault) fun _ =>
          journaled_interpret hE e
    · exact journaled_interpret hE e

theorem journaled_evalForms (last : Value) (fs : List Form) : Journaled (evalForms E last fs) := by
  induction fs generalizing last with
  | nil => exact .pure _
  | cons f rest ih =>
    have hform : Journaled (evalForm E f) :=
      (journaled_parseBy hE f).bind fun e => (journaled_evalExpr hE e).mapFault _
    exact hform.bind fun v => ih v

end Forms

variable (fuel : Nat) (source : String)

theorem journaled_evalSource : Journaled (evalSource fuel source) :=
  (journaled_readSource source).bind fun fs =>
    journaled_evalForms (Engine.journaled_ofFuel fuel) .nil fs

theorem journaled_parseForms (acc : List Expr) (fs : List Form) :
    Journaled (parseForms fuel acc fs) := by
  induction fs generalizing acc with
  | nil => exact .pure _
  | cons f rest ih =>
    exact (journaled_parseBy (Engine.journaled_ofFuel fuel) f).bind fun e => ih (e :: acc)

theorem journaled_parseSource : Journaled (parseSource fuel source) :=
  (journaled_readSource source).bind fun fs => journaled_parseForms fuel [] fs

theorem journaled_compileSource : Journaled (compileSource fuel source) := by
  refine (journaled_parseSource fuel source).bind fun es => ?_
  have hform : ∀ e, Journaled (compileForm "top-level" e) := fun e => by
    unfold compileForm
    split
    · exact .pure _
    · exact .raise _
  induction es with
  | nil => exact .pure _
  | cons e rest ih =>
    rw [List.mapM_cons]
    exact (hform e).bind fun p => ih.bind fun ps => .pure _

theorem journaled_listSource : Journaled (listSource fuel source) := by
  refine (journaled_readSource source).bind fun fs => ?_
  have hE := Engine.journaled_ofFuel fuel
  suffices h : ∀ acc, Journaled (listForms fuel acc fs) from h []
  intro acc
  induction fs generalizing acc with
  | nil => exact .pure _
  | cons f rest ih =>
    refine (journaled_parseBy hE f).bind fun e => ?_
    exact ((journaled_evalExpr hE e).mapFault Failure.runtime).discard.bind fun _ => ih _

end Session

/-! ## Tasks -/

namespace Gensym

/-- What an interpreter may be asked to do: to make a name from a text, to expand a macro of the
language, to call a value, and to handle source text. -/
inductive Task where
  | name (stem : String)
  | expand (f : Form)
  | call (fuel : Nat) (f : Value) (args : List Value)
  | eval (fuel : Nat) (source : String)
  | parse (fuel : Nat) (source : String)
  | compile (fuel : Nat) (source : String)
  | list (fuel : Nat) (source : String)

namespace Task

def act : Task → Session Unit
  | name stem => discard (Act.gensym stem)
  | expand f => discard (Act.mapFault .parser (Macro.expandBuiltin f))
  | call fuel f args => discard (Act.mapFault .runtime ((Engine.ofFuel fuel).call f args))
  | eval fuel source => discard (Session.evalSource fuel source)
  | parse fuel source => discard (Session.parseSource fuel source)
  | compile fuel source => discard (Session.compileSource fuel source)
  | list fuel source => discard (Session.listSource fuel source)

theorem journaled (task : Task) : Journaled task.act := by
  cases task with
  | name stem => exact (Journaled.gensym stem).discard
  | expand f => exact ((Macro.journaled_expandBuiltin f).mapFault _).discard
  | call fuel f args =>
    exact (((Engine.journaled_ofFuel fuel).call f args).mapFault _).discard
  | eval fuel source => exact (Session.journaled_evalSource fuel source).discard
  | parse fuel source => exact (Session.journaled_parseSource fuel source).discard
  | compile fuel source => exact (Session.journaled_compileSource fuel source).discard
  | list fuel source => exact (Session.journaled_listSource fuel source).discard

/-- What a request for a name is answered with: the name alone, the symbol of the name, or a form that
binds it. -/
inductive Answers : Task → State → String → Prop
  | name {stem name s t} (h : (Act.gensym stem : Session String) s = .ok name t) :
    Answers (.name stem) s name
  | symbol {fuel owner args name s t}
    (h : (Engine.ofFuel fuel).call (.native owner .gensym) args s = .ok (.symbol name) t) :
    Answers (.call fuel (.native owner .gensym) args) s name
  | logical (conjunction : Bool) {head : String} {first second : Form} {rest : List Form}
    {place span : Span} {name s t} (hc : head = if conjunction then "and" else "or")
    (h : Macro.expandBuiltin (.list (.symbol head place :: first :: second :: rest) span) s =
      .ok (some (Macro.logicalStep conjunction name first (second :: rest) span)) t) :
    Answers (.expand (.list (.symbol head place :: first :: second :: rest) span)) s name

namespace Answers

variable {task : Task} {name name' : String} {s : State}

theorem makes_symbol {c : Caller} {args : List Value} {t : State}
    (h : Native.gensym.call c args s = .ok (.symbol name) t) :
    Makes (Native.gensym.call c args) s [name] := by
  match args with
  | [] =>
    cases h
    exact (Makes.gensym rfl).bind_pure Value.symbol
  | [x] =>
    cases x with
    | str stem =>
      cases h
      exact (Makes.gensym rfl).bind_pure Value.symbol
    | _ => cases h
  | _ :: _ :: _ => cases h

/-- The fresh name is read off the form that binds it. -/
theorem name_of_logicalStep {conjunction other : Bool} {first : Form} {rest : List Form}
    {span : Span} (h : Macro.logicalStep conjunction name first rest span =
      Macro.logicalStep other name' first rest span) : name = name' := by
  simp only [Macro.logicalStep, Macro.headedBy, Form.list.injEq, List.cons.injEq,
    Form.vector.injEq, Form.symbol.injEq] at h
  exact h.1.2.1.1.1.1

theorem makes_logical {conjunction : Bool} {first second : Form} {rest : List Form}
    {place span : Span} {t : State}
    (h : Macro.expandBuiltin
        (.list (.symbol (if conjunction then "and" else "or") place :: first :: second :: rest) span)
          s =
      .ok (some (Macro.logicalStep conjunction name first (second :: rest) span)) t) :
    Makes (Macro.expandBuiltin
      (.list (.symbol (if conjunction then "and" else "or") place :: first :: second :: rest) span))
      s [name] := by
  have hexpand : Macro.expandBuiltin
      (.list (.symbol (if conjunction then "and" else "or") place :: first :: second :: rest) span) =
        some <$> Macro.logical conjunction (first :: second :: rest) span := by
    cases conjunction <;> rfl
  rw [hexpand] at h ⊢
  have hname := name_of_logicalStep (Option.some.inj (EStateM.Result.ok.inj h).1)
  rw [← hname]
  exact ((Makes.gensym rfl).bind_pure _).map some

theorem makes (h : task.Answers s name) : task.act.Makes s [name] := by
  cases h with
  | name h => exact (Makes.gensym h).discard
  | @symbol fuel _ _ _ _ _ h =>
    cases fuel with
    | zero => cases h
    | succ fuel => exact ((makes_symbol h).mapFault _).discard
  | logical _ hc h =>
    subst hc
    exact ((makes_logical h).mapFault _).discard

/-- A request has one answer. -/
theorem unique (h : task.Answers s name) (h' : task.Answers s name') : name = name' := by
  cases h with
  | name h =>
    cases h' with
    | name h' =>
      rw [h] at h'
      cases h'
      rfl
  | symbol h =>
    cases h' with
    | symbol h' =>
      rw [h] at h'
      cases h'
      rfl
  | logical _ _ h =>
    cases h' with
    | logical _ _ h' =>
      rw [h] at h'
      exact name_of_logicalStep (Option.some.inj (EStateM.Result.ok.inj h').1)

end Answers

end Task

/-! ## Runs -/

/-- Tasks one after the other, and the names made in them. In between the surroundings may change
anything but the number of names made. A request makes the name that it is answered with. -/
inductive Runs : State → List Task → List String → State → Prop
  | done {s t : State} (hs : t.gensyms = s.gensyms) : Runs s [] [] t
  | next {s t u : State} {task : Task} {tasks : List Task} {names more : List String}
    (hs : t.gensyms = s.gensyms) (h : task.act.Makes t names)
    (ha : ∀ name, task.Answers t name → names = [name])
    (hr : Runs (left (task.act t)) tasks more u) : Runs s (task :: tasks) (names ++ more) u

namespace Runs

variable {s t : State} {tasks : List Task} {names : List String}

theorem request {task : Task} {name : String} (h : task.Answers s name)
    (hr : Runs (left (task.act s)) tasks names t) : Runs s (task :: tasks) (name :: names) t :=
  .next rfl h.makes (fun _ h' => by rw [h.unique h']) hr

theorem exists_run (s : State) (tasks : List Task) : ∃ names t, Runs s tasks names t := by
  induction tasks generalizing s with
  | nil => exact ⟨[], s, .done rfl⟩
  | cons task tasks ih =>
    obtain ⟨more, t, hr⟩ := ih (left (task.act s))
    by_cases ha : ∃ name, task.Answers s name
    · obtain ⟨name, hname⟩ := ha
      exact ⟨name :: more, t, .request hname hr⟩
    · obtain ⟨names, h⟩ := task.journaled s
      exact ⟨names ++ more, t, .next rfl h (fun name h => absurd ⟨name, h⟩ ha) hr⟩

/-- The numbers of the names follow each other, from one task to the next. -/
theorem numbers (h : Runs s tasks names t) :
    names.map numberIn = List.range' (s.gensyms + 1) names.length ∧
      t.gensyms = s.gensyms + names.length := by
  induction h with
  | done hs => exact ⟨rfl, hs⟩
  | @next s t u task tasks names more hs h _ _ ih =>
    obtain ⟨hnames, hleft⟩ := h.numbers
    rw [hs] at hnames hleft
    rw [hleft] at ih
    obtain ⟨hmore, hu⟩ := ih
    constructor
    · rw [List.map_append, hnames, hmore, List.length_append, Nat.add_right_comm,
        List.range'_append_1]
    · rw [hu, List.length_append, Nat.add_assoc]

end Runs

/-- The names that an interpreter makes differ, whatever it is asked to do and whatever the texts are
that it makes them from; and they are all the names it counts. Every request is answered: the
interpreter's own, that of the native with any text or with none, and that of a conjunction or
disjunction of two or more operands. -/
theorem names_are_never_repeated (s : State) (tasks : List Task) :
    (∃ names t, Runs s tasks names t) ∧
    (∀ names t, Runs s tasks names t → names.Nodup ∧ t.gensyms = s.gensyms + names.length) ∧
    (∀ stem, ∃ name, (Task.name stem).Answers s name) ∧
    (∀ fuel owner, ∃ name, (Task.call (fuel + 1) (.native owner .gensym) []).Answers s name) ∧
    (∀ fuel owner stem, ∃ name,
      (Task.call (fuel + 1) (.native owner .gensym) [.str stem]).Answers s name) ∧
    ∀ head ∈ ["and", "or"], ∀ place first second rest span, ∃ name,
      (Task.expand (.list (.symbol head place :: first :: second :: rest) span)).Answers s name := by
  refine ⟨Runs.exists_run s tasks, fun names t h => ?_, fun stem => ⟨_, .name rfl⟩,
    fun fuel owner => ⟨_, .symbol rfl⟩, fun fuel owner stem => ⟨_, .symbol rfl⟩, ?_⟩
  · obtain ⟨hnumbers, ht⟩ := h.numbers
    have hnodup : (names.map numberIn).Nodup := hnumbers ▸ List.nodup_range'
    -- Names with different numbers differ.
    exact ⟨List.Pairwise.of_map numberIn (fun _ _ hne he => hne (congrArg numberIn he)) hnodup, ht⟩
  · intro head hhead place first second rest span
    have hcases : head = "and" ∨ head = "or" := by simpa using hhead
    rcases hcases with rfl | rfl
    · exact ⟨_, .logical true rfl rfl⟩
    · exact ⟨_, .logical false rfl rfl⟩

/-- Requests whose texts look like names, or like the beginning of one. -/
def lookalikes : List Task :=
  [.name "x", .call 1 (.native 0 .gensym) [.str "x__1__auto"],
    .expand (.list [.symbol "or" default, .symbol "a" default, .symbol "b" default] default),
    .name "x__1__auto__2", .call 1 (.native 0 .gensym) [.str "x__"]]

theorem lookalikes_differ : ∃ names t, Runs (State.bare .empty .standard) lookalikes names t ∧
    names = ["x__1__auto", "x__1__auto__2__auto", "or__3__auto", "x__1__auto__2__4__auto",
      "x____5__auto"] ∧ names.Nodup ∧ t.gensyms = 5 := by
  have hrun : Runs (State.bare .empty .standard) lookalikes
      ["x__1__auto", "x__1__auto__2__auto", "or__3__auto", "x__1__auto__2__4__auto",
        "x____5__auto"] _ :=
    .request (.name rfl) <| .request (.symbol rfl) <| .request (.logical false rfl rfl) <|
      .request (.name rfl) <| .request (.symbol rfl) <| .done rfl
  obtain ⟨-, hdiffer, -⟩ := names_are_never_repeated (State.bare .empty .standard) lookalikes
  obtain ⟨hnodup, hcount⟩ := hdiffer _ _ hrun
  exact ⟨_, _, hrun, rfl, hnodup, hcount⟩

end Gensym

end TwinLisp
