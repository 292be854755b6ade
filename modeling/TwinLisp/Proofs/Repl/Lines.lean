import TwinLisp.Proofs.Spots.Sessions

/-! Forms that are typed over several lines. Blanks at the ends of lines are not heard, and every
line is followed by a newline. As long as no line ends inside a token this makes no difference, so
the lines are evaluated as one text, and not before the last of them.

* `unlines`, `joined`: lines as one text.
* `Intact`: a line whose end may be edited.
* `Heard`: texts that are typed and heard; they are scanned alike up to offsets.
* `Repl.opened`: a conversation inside a form.
* `Repl.lines_are_one_text`: what lines lead to that are one text. -/

namespace TwinLisp

open Text (trimEnd exists_trimEnd Blanks)
open Token (faultOf scanSpots)

/-! ## Lines -/

def unlines (lines : List String) : String := lines.foldl (fun text line => text ++ line ++ "\n") ""

/-- Lines with newlines between them. -/
def joined (lines : List String) : String := "\n".intercalate lines

theorem unlines_concat (lines : List String) (line : String) :
    unlines (lines ++ [line]) = unlines lines ++ line ++ "\n" := by
  rw [unlines, List.foldl_append]
  rfl

theorem joined_concat (lines : List String) (line : String) :
    joined (lines ++ [line]) = unlines lines ++ line := by
  induction lines using List.reverseRecOn generalizing line with
  | nil => simp [joined, unlines]
  | append_singleton lines last ih =>
    rw [unlines_concat, ← ih last, joined, String.intercalate_append_of_ne_nil (by simp) (by simp),
      String.intercalate_singleton]
    rfl

theorem joined_concat_newline (lines : List String) (line : String) :
    joined (lines ++ [line]) ++ "\n" = unlines (lines ++ [line]) := by
  rw [joined_concat, unlines_concat]

/-! ## The ends of lines -/

/-- A line behind others whose end may be edited. It does not end behind the backslash of a
character. If it ends inside a string it has no blanks at its end, and the newline does not belong
to an escape. -/
structure Intact (earlier : List String) (line : String) : Prop where
  literal : faultOf (joined (earlier ++ [trimEnd line])) ≠ some (.invalidCharacter "")
  string : faultOf (joined (earlier ++ [trimEnd line])) = some .unterminatedString →
    trimEnd line = line ∧ faultOf (unlines (earlier ++ [line])) = some .unterminatedString

theorem Intact.of_none {earlier : List String} {line : String}
    (h : faultOf (joined (earlier ++ [trimEnd line])) = none) : Intact earlier line :=
  ⟨by rw [h]; nofun, by rw [h]; nofun⟩

theorem Intact.not_cut {earlier : List String} {line : String} (h : Intact earlier line)
    (hs : faultOf (joined (earlier ++ [trimEnd line])) ≠ some .unterminatedString) :
    ∀ f ∈ faultOf (joined (earlier ++ [trimEnd line])), ¬ f.Cut := by
  rintro f hf (rfl | rfl)
  · exact hs hf
  · exact h.literal hf

/-- Two texts behind which everything is scanned alike, up to offsets. -/
def Heard (typed heard : String) : Prop :=
  ∀ rest, scanSpots (typed ++ rest) = scanSpots (heard ++ rest)

theorem Heard.faultOf_eq {typed heard : String} (h : Heard typed heard) (rest : String) :
    faultOf (typed ++ rest) = faultOf (heard ++ rest) := Token.faultOf_eq (h rest)

theorem exists_blanks (line : String) : ∃ bs : String, line = trimEnd line ++ bs ∧
    Blanks bs.toList ∧ (trimEnd line = line → bs = "") := by
  obtain ⟨bs, hline, hbs⟩ := exists_trimEnd line
  refine ⟨String.ofList bs, ?_, by rwa [String.toList_ofList], fun hsame => ?_⟩
  · rw [← String.toList_inj, String.toList_append, String.toList_ofList]
    exact hline
  · rw [hsame, List.self_eq_append_right] at hline
    rw [hline, String.ofList_nil]

theorem Heard.concat {earlier heard : List String} {line : String}
    (h : Heard (unlines earlier) (unlines heard)) (hl : Intact earlier line)
    (hn : '\n' ∉ line.toList) :
    Heard (unlines (earlier ++ [line])) (unlines (heard ++ [trimEnd line])) := by
  intro rest
  obtain ⟨bs, hline, hbs, hnone⟩ := exists_blanks line
  have htyped : unlines (earlier ++ [line]) ++ rest =
      unlines earlier ++ (trimEnd line ++ (bs ++ ("\n" ++ rest))) := by
    conv_lhs => rw [unlines_concat, hline]
    simp only [String.append_assoc]
  have hheard : unlines (heard ++ [trimEnd line]) ++ rest =
      unlines heard ++ trimEnd line ++ ("\n" ++ rest) := by
    simp only [unlines_concat, String.append_assoc]
  rw [htyped, h, hheard, ← String.append_assoc]
  by_cases hopen : faultOf (joined (earlier ++ [trimEnd line])) = some .unterminatedString
  · rw [hnone (hl.string hopen).1, String.empty_append]
  · refine Token.scanSpots_newline ?_ hbs (fun hmem => hn ?_) rest
    · rw [← h.faultOf_eq, ← joined_concat]
      exact hl.not_cut hopen
    · rw [hline, String.toList_append]
      exact List.mem_append_right _ hmem

/-! ## Reading -/

namespace Form

/-- Blanks at the end of a text make no difference, unless it ends in a token. -/
theorem readSpots_blanks {source : String} (hs : ∀ f ∈ faultOf source, ¬ f.Cut) {bs : String}
    (hb : Blanks bs.toList) : readSpots (source ++ bs) = readSpots source := by
  have hspots : ∀ source,
      readSpots source = ((read source).mapError Located.spot).map spotsAll := by
    intro source
    unfold readSpots Reading.outcome
    cases read source <;> rfl
  rw [hspots, hspots, read_blanks hs hb]

/-- Whether a text cannot be read only because it ends inside a form. -/
def Incomplete (source : String) : Prop :=
  ∃ e, read source = .error e ∧ (Failure.reader e).isIncomplete = true

theorem incomplete_of_readSpots {a b : String} (h : readSpots a = readSpots b)
    (ha : Incomplete a) : Incomplete b := by
  obtain ⟨e, he, hinc⟩ := ha
  unfold readSpots Reading.outcome at h
  rw [he] at h
  cases hb : read b with
  | ok fs =>
    rw [hb] at h
    cases h
  | error e' =>
    rw [hb] at h
    have hspot : e.spot = e'.spot := Except.error.inj h
    have hcause : e.cause = e'.cause := (congrArg Located.cause hspot :)
    refine ⟨e', hb, ?_⟩
    rw [← hinc, Failure.isIncomplete, Failure.isIncomplete, hcause]

theorem incomplete_of_open {source : String} (h : faultOf source = some .unterminatedString) :
    Incomplete source := by
  obtain ⟨e, he, hcause⟩ := Option.map_eq_some_iff.mp h
  refine ⟨.ofLex e, ?_, ?_⟩
  · unfold read Token.tokens
    cases hs : Token.scan source with
    | mk ts f =>
      rw [hs] at he
      cases he
      rfl
  · rw [Failure.isIncomplete, ReadError.ofLex, hcause]

end Form

open Form (Incomplete readSpots)

/-- A line at which a form is complete does not end inside a string. -/
theorem Intact.closed {earlier : List String} {line : String} (h : Intact earlier line)
    (hi : ¬ Incomplete (joined (earlier ++ [line]))) :
    faultOf (joined (earlier ++ [trimEnd line])) ≠ some .unterminatedString := by
  intro hs
  refine hi (Form.incomplete_of_open ?_)
  rwa [(h.string hs).1] at hs

section

variable {earlier heard : List String} {line : String}
  (h : Heard (unlines earlier) (unlines heard)) (hl : Intact earlier line)

include h hl

/-- Unless the last line ends inside a string, what has been heard is read as what has been
typed. -/
theorem Heard.reads (hs : faultOf (joined (earlier ++ [trimEnd line])) ≠ some .unterminatedString) :
    readSpots (unlines (heard ++ [trimEnd line])) = readSpots (joined (earlier ++ [line])) := by
  have hcut := hl.not_cut hs
  obtain ⟨bs, hline, hbs, -⟩ := exists_blanks line
  calc readSpots (unlines (heard ++ [trimEnd line]))
      = readSpots (joined (heard ++ [trimEnd line]) ++ "\n") := by rw [joined_concat_newline]
    _ = readSpots (joined (heard ++ [trimEnd line])) := by
        refine Form.readSpots_blanks ?_ (List.forall_mem_singleton.mpr rfl)
        rw [joined_concat, ← h.faultOf_eq, ← joined_concat]
        exact hcut
    _ = readSpots (joined (earlier ++ [trimEnd line])) := by
        rw [joined_concat, joined_concat]
        exact (Form.readSpots_eq (h _)).symm
    _ = readSpots (joined (earlier ++ [trimEnd line]) ++ bs) :=
        (Form.readSpots_blanks hcut hbs).symm
    _ = readSpots (joined (earlier ++ [line])) := by
        conv_rhs => rw [joined_concat, hline]
        rw [joined_concat, String.append_assoc]

theorem Heard.incomplete (hi : Incomplete (joined (earlier ++ [line]))) :
    Incomplete (unlines (heard ++ [trimEnd line])) := by
  by_cases hs : faultOf (joined (earlier ++ [trimEnd line])) = some .unterminatedString
  · obtain ⟨hsame, hopen⟩ := hl.string hs
    refine Form.incomplete_of_open ?_
    rw [hsame, unlines_concat, String.append_assoc, ← h.faultOf_eq, ← String.append_assoc,
      ← unlines_concat]
    exact hopen
  · exact Form.incomplete_of_readSpots (h.reads hl hs).symm hi

end

/-! ## Evaluation -/

theorem Act.exists_of_mapFault {ε ζ α : Type} {g : ε → ζ} {a : Act ε α} {s t : State} {e : ζ}
    (h : Act.mapFault g a s = .error (.raised e) t) : ∃ e₀, e = g e₀ := by
  unfold Act.mapFault at h
  split at h <;> cases h
  exact ⟨_, rfl⟩

namespace Session

variable {E : Engine} {fuel : Nat} {s : State}

theorem complete_of_evalForm {form : Form} {t : State} {f : Failure}
    (h : evalForm E form s = .error (.raised f) t) : f.isIncomplete = false := by
  rw [evalForm, Act.bind_apply] at h
  split at h
  · obtain ⟨e, rfl⟩ := Act.exists_of_mapFault h
    rfl
  · rename_i hparse
    cases h
    obtain ⟨e, rfl⟩ := Act.exists_of_mapFault hparse
    rfl

theorem complete_of_evalForms {forms : List Form} {last : Value} {t : State} {f : Failure}
    (h : evalForms E last forms s = .error (.raised f) t) : f.isIncomplete = false := by
  induction forms generalizing last s with
  | nil => cases h
  | cons form rest ih =>
    rw [evalForms, Act.bind_apply] at h
    split at h
    · exact ih h
    · rename_i hform
      cases h
      exact complete_of_evalForm hform

theorem start_of_unread {source : String} {e : ReadError} (h : Form.read source = .error e) :
    start (evalSource fuel source) s = (.error (.reader e), s) := by
  rw [start, evalSource, evalSourceBy, Act.bind_apply, readSource, h]
  rfl

theorem start_of_read {source : String} {forms : List Form} (h : Form.read source = .ok forms) :
    start (evalSource fuel source) s = start (evalForms (Engine.ofFuel fuel) .nil forms) s := by
  rw [start, evalSource, evalSourceBy, Act.bind_apply, readSource, h]
  rfl

theorem start_of_atom {source : String} {v : Value} {span : Span}
    (h : Form.read source = .ok [.atom v span]) (hm : s.mode = .treeWalk) :
    start (evalSource fuel source) s = (.ok v, s) := by
  have hform : evalForm (Engine.ofFuel fuel) (.atom v span) s = .ok v s := by
    have hparse : parseBy (Engine.ofFuel fuel) (.atom v span) s = .ok (.literal v span) s := rfl
    have heval : evalExpr (Engine.ofFuel fuel) (.literal v span) s = .ok v s := by
      rw [evalExpr, Act.bind_apply]
      dsimp only [Act.ask]
      rw [hm]
      rfl
    rw [evalForm, Act.bind_apply, hparse]
    dsimp only [Act.mapFault]
    rw [heval]
  have hforms : evalForms (Engine.ofFuel fuel) .nil [.atom v span] s = .ok v s := by
    rw [evalForms, Act.bind_apply, hform]
    rfl
  rw [start_of_read h, start, hforms]

/-- A text fails as incomplete only if it cannot be read for that reason. -/
theorem complete_of_start {source : String} (h : ¬ Incomplete source) {f : Failure}
    (hf : (start (evalSource fuel source) s).1 = .error f) : f.isIncomplete = false := by
  cases hr : Form.read source with
  | error e =>
    rw [start_of_unread hr] at hf
    cases hf
    exact Bool.not_eq_true _ ▸ fun hinc => h ⟨e, hr, hinc⟩
  | ok forms =>
    rw [start_of_read hr, start] at hf
    split at hf
    · cases hf
    · rename_i he
      cases hf
      exact complete_of_evalForms he
    · cases hf
      rfl

end Session

namespace Repl

/-! ## Answers -/

variable {fuel : Nat} {p : Palette} {s : State} {history : List String}

/-- What is said of the outcome of a form that was complete. -/
def answer (p : Palette) (history : List String) (result : Except Failure Value × State) :
    Reaction :=
  let (printed, state) := drain result.2
  match result.1 with
  | .ok v => ⟨⟨state, history, ""⟩, printed ++ p.paint .result v.readable ++ "\n", false⟩
  | .error e => ⟨⟨state, history, ""⟩, printed ++ errorLine p e.message, false⟩

theorem answer_ended (p : Palette) (history : List String) (result : Except Failure Value × State) :
    (answer p history result).ended = false := by
  obtain ⟨outcome, s⟩ := result
  cases outcome <;> rfl

theorem output_of_value (hout : s.output = "") (v : Value) :
    (answer ⟨false⟩ history (.ok v, s)).output = v.readable ++ "\n" := by
  change s.output ++ v.readable ++ "\n" = _
  rw [hout, String.empty_append]

theorem submit_complete {r : Repl} (h : ¬ Incomplete r.pending) :
    submit fuel p r =
      answer p r.history (Session.start (Session.evalSource fuel r.pending) r.state) := by
  have hcomplete := fun f => @Session.complete_of_start fuel r.state _ h f
  unfold submit answer
  generalize Session.start (Session.evalSource fuel r.pending) r.state = result at hcomplete
  obtain ⟨outcome, t⟩ := result
  cases outcome with
  | ok v => rfl
  | error e =>
    have he := hcomplete e rfl
    simp only [he, Bool.false_eq_true, if_false]

theorem submit_incomplete {r : Repl} (h : Incomplete r.pending) (hout : r.state.output = "") :
    submit fuel p r = ⟨r, "", false⟩ := by
  obtain ⟨e, he, hinc⟩ := h
  obtain ⟨s, history, pending⟩ := r
  unfold submit
  rw [Session.start_of_unread he]
  simp only [drain, hinc, if_true]
  have hs : { s with output := "" } = s := by
    obtain ⟨⟩ := s
    cases hout
    rfl
  rw [hs]
  exact congrArg (fun out => Reaction.mk ⟨s, history, pending⟩ out false) hout

theorem answer_spots {x y : Except Failure Value × State} (h : Session.spots x = Session.spots y) :
    (answer p history x).spots = (answer p history y).spots := by
  rcases Session.spots_cases h with ⟨v, s, t, rfl, rfl, hst⟩ | ⟨e, e', s, t, rfl, rfl, he, hst⟩
  · simp only [answer, drain, Reaction.spots, spots, output_of_spots hst, drained_of_spots hst]
  · simp only [answer, drain, Reaction.spots, spots, Failure.message_of_spot he,
      output_of_spots hst, drained_of_spots hst]

/-! ## The conversation -/

/-- A conversation in which lines of an open form have been heard. -/
def opened (r : Repl) (lines : List String) : Repl :=
  ⟨r.state, (lines.map trimEnd).reverse ++ r.history, unlines (lines.map trimEnd)⟩

/-- What is said while lines of a form are typed. -/
def prompts (p : Palette) (r : Repl) : List String → String
  | [] => ""
  | _ :: rest => r.prompt p ++ String.join (rest.map fun _ => "   ")

/-- Lines, of which the first is neither blank nor a command, that are a complete text together and
an open one before that. -/
structure OneForm (lines : List String) : Prop where
  nonempty : lines ≠ []
  single : ∀ line ∈ lines, '\n' ∉ line.toList
  first : ∀ line ∈ lines.head?, isBlankLine line = false ∧ line.toList.head? ≠ some '.'
  incomplete : ∀ before after, lines = before ++ after → before ≠ [] → after ≠ [] →
    Incomplete (joined before)
  complete : ¬ Incomplete (joined lines)

variable {r : Repl} {lines earlier later : List String} {line : String}

theorem opened_nil (hr : r.pending = "") : r.opened [] = r := by
  obtain ⟨s, history, pending⟩ := r
  cases hr
  rfl

theorem gather_opened (r : Repl) (earlier : List String) (line : String) :
    (r.opened earlier).gather (trimEnd line) = r.opened (earlier ++ [line]) := by
  simp only [gather, opened, List.map_append, List.map_singleton, unlines_concat,
    List.reverse_append, List.reverse_singleton, List.cons_append, List.nil_append]

theorem opened_pending (h : earlier ≠ []) : (r.opened earlier).pending.isEmpty = false := by
  obtain ⟨init, last, rfl⟩ := (List.eq_nil_or_concat' earlier).resolve_left h
  simp [opened, unlines_concat]

theorem prompts_concat (hr : r.pending = "") :
    prompts p r (earlier ++ [line]) = prompts p r earlier ++ (r.opened earlier).prompt p := by
  cases earlier with
  | nil =>
    rw [opened_nil hr]
    simp [prompts]
  | cons first rest =>
    have hprompt : (r.opened (first :: rest)).prompt p = "   " := by
      rw [prompt, opened_pending (List.cons_ne_nil _ _)]
      rfl
    rw [hprompt]
    simp [prompts, String.append_assoc]

theorem not_command (h : line.toList.head? ≠ some '.') :
    (trimEnd line == ".exit" || trimEnd line == ".quit") = false ∧
      (trimEnd line).startsWith "." = false := by
  obtain ⟨bs, hline, -⟩ := exists_blanks line
  have hdot : ¬ (trimEnd line).startsWith "." := by
    rw [String.startsWith_string_iff]
    rintro ⟨more, hmore⟩
    rw [hline, String.toList_append, ← hmore] at h
    exact h rfl
  refine ⟨?_, Bool.not_eq_true _ ▸ hdot⟩
  rw [Bool.or_eq_false_iff, beq_eq_false_iff_ne, beq_eq_false_iff_ne]
  constructor <;> intro hcommand <;> rw [hcommand, String.startsWith_string_iff] at hdot <;>
    exact hdot (List.cons_prefix_cons.mpr ⟨rfl, List.nil_prefix⟩)

theorem isBlankLine_trimEnd (line : String) : isBlankLine (trimEnd line) = isBlankLine line := by
  obtain ⟨bs, hline, hbs, -⟩ := exists_blanks line
  have hall : bs.toList.all Text.isBlank = true := List.all_eq_true.mpr hbs
  conv_rhs => rw [isBlankLine, hline, String.toList_append, List.all_append, hall, Bool.and_true]
  rfl

theorem hear_line (hr : r.pending = "") (h : OneForm lines)
    (hlines : lines = earlier ++ line :: later) :
    hear fuel p (.text line) (r.opened earlier) = submit fuel p (r.opened (earlier ++ [line])) := by
  rw [← gather_opened]
  unfold hear
  dsimp only
  cases earlier with
  | cons first rest =>
    rw [opened_pending (List.cons_ne_nil _ _)]
    rfl
  | nil =>
    obtain ⟨hblank, hdot⟩ := h.first line (by rw [hlines]; rfl)
    obtain ⟨hexit, hstarts⟩ := not_command hdot
    have hpending : (r.opened []).pending.isEmpty = true := by rw [opened_nil hr, hr]; rfl
    rw [hpending, isBlankLine_trimEnd, hblank, hexit, hstarts]
    rfl

/-! ## All lines -/

section

variable (hi : ∀ earlier line later, lines = earlier ++ line :: later → Intact earlier line)

include hi

theorem heard_lines (hn : ∀ line ∈ lines, '\n' ∉ line.toList) {before after : List String}
    (hlines : lines = before ++ after) :
    Heard (unlines before) (unlines (before.map trimEnd)) := by
  induction before using List.reverseRecOn generalizing after with
  | nil => exact fun _ => rfl
  | append_singleton before line ih =>
    have hsplit : lines = before ++ line :: after := by rw [hlines, List.append_assoc]; rfl
    rw [List.map_append, List.map_singleton]
    exact (ih hsplit).concat (hi before line after hsplit) (hn line (by simp [hsplit]))

variable (hr : r.pending = "") (hout : r.state.output = "") (h : OneForm lines)

include hr hout h

/-- As long as the form is open, lines are gathered and nothing is evaluated. -/
theorem converse_open {before after : List String} (hlines : lines = before ++ after)
    (hafter : after ≠ []) (said : String) (more : List Line) :
    converse fuel p said r (before.map .text ++ more) =
      converse fuel p (said ++ prompts p r before) (r.opened before) more := by
  induction before using List.reverseRecOn generalizing after more with
  | nil =>
    rw [opened_nil hr]
    simp [prompts]
  | append_singleton before line ih =>
    have hsplit : lines = before ++ line :: after := by rw [hlines, List.append_assoc]; rfl
    have hincomplete : Incomplete (r.opened (before ++ [line])).pending := by
      have := (heard_lines hi h.single hsplit).incomplete (hi before line after hsplit)
        (h.incomplete _ after hlines (by simp) hafter)
      simpa only [opened, List.map_append, List.map_singleton] using this
    have hreaction : hear fuel p (.text line) (r.opened before) = _ := hear_line hr h hsplit
    rw [submit_incomplete hincomplete hout] at hreaction
    rw [List.map_append, List.map_singleton, List.append_assoc, List.singleton_append,
      ih hsplit (List.cons_ne_nil _ _), converse, hreaction, prompts_concat hr]
    simp [String.append_assoc]

end

/-- What is said, and what becomes of the conversation, if a text is evaluated behind lines that
have been heard. -/
def reply (fuel : Nat) (p : Palette) (r : Repl) (lines : List String) (text : String) : Reaction :=
  answer p (r.opened lines).history (Session.start (Session.evalSource fuel text) r.state)

/-- What is heard of lines that are one form is read as what was typed, to the line and column of
every place and of a fault. -/
theorem readSpots_heard {lines : List String} (h : OneForm lines)
    (hi : ∀ earlier line later, lines = earlier ++ line :: later → Intact earlier line) :
    readSpots (unlines (lines.map trimEnd)) = readSpots (joined lines) := by
  obtain ⟨earlier, line, rfl⟩ := (List.eq_nil_or_concat' lines).resolve_left h.nonempty
  have hline : Intact earlier line := hi earlier line [] rfl
  rw [List.map_append, List.map_singleton]
  exact (heard_lines hi h.single rfl).reads hline (hline.closed h.complete)

/-- Lines that are one form are evaluated as one text, unless the end of a line is edited inside a
token. Before the last line nothing is evaluated. At the last line what was typed is evaluated: the
conversation goes on behind the answer to it, but for the offsets that interpreted functions
remember. -/
theorem lines_are_one_text (fuel : Nat) (p : Palette) {r : Repl} (hr : r.pending = "")
    (hout : r.state.output = "") {lines : List String} (h : OneForm lines)
    (hi : ∀ earlier line later, lines = earlier ++ line :: later → Intact earlier line) :
    (∀ before after, lines = before ++ after → after ≠ [] → ∀ said more,
      converse fuel p said r (before.map .text ++ more) =
        converse fuel p (said ++ prompts p r before) (r.opened before) more) ∧
    ∀ said more,
      let reaction := reply fuel p r lines (joined lines)
      (converse fuel p said r (lines.map .text ++ more)).map id spots =
        (converse fuel p (said ++ prompts p r lines ++ reaction.output) reaction.repl more).map id
          spots := by
  refine ⟨fun before after hlines hafter said more =>
    converse_open hi hr hout h hlines hafter said more, fun said more => ?_⟩
  have hspots := readSpots_heard h hi
  obtain ⟨earlier, line, rfl⟩ := (List.eq_nil_or_concat' lines).resolve_left h.nonempty
  have hcomplete : ¬ Incomplete (r.opened (earlier ++ [line])).pending := fun hinc =>
    h.complete (Form.incomplete_of_readSpots hspots hinc)
  have hreaction : (hear fuel p (.text line) (r.opened earlier)).spots =
      (reply fuel p r (earlier ++ [line]) (joined (earlier ++ [line]))).spots := by
    rw [hear_line hr h rfl, submit_complete hcomplete]
    exact answer_spots (Session.start_of_readSpots hspots fuel rfl)
  obtain ⟨houtput, hended, hrepl⟩ := Reaction.of_spots hreaction
  have hgoes : (reply fuel p r (earlier ++ [line]) (joined (earlier ++ [line]))).ended = false :=
    answer_ended ..
  rw [List.map_append, List.append_assoc, converse_open hi hr hout h rfl (List.cons_ne_nil _ _),
    List.map_singleton, List.singleton_append, converse, hended, hgoes, houtput, prompts_concat hr]
  simp only [Bool.false_eq_true, if_false, String.append_assoc]
  exact converse_spots fuel p _ hrepl more

/-- A comment with blanks behind it, and a string over two lines. -/
theorem comment_and_string :
    let lines := ["[ ; one ", "\"a", "b\"]\t"]
    let r := start (State.fresh .empty .standard) none
    ∀ fuel p,
      let reaction := reply fuel p r lines (joined lines)
      (converse fuel p "" r (lines.map .text ++ [])).map id spots =
        (converse fuel p ("" ++ prompts p r lines ++ reaction.output) reaction.repl []).map id
          spots := by
  intro lines r
  have hone : OneForm ["[ ; one ", "\"a", "b\"]\t"] := {
    nonempty := List.cons_ne_nil _ _
    single := by decide
    first := by
      rintro _ ⟨⟩
      exact ⟨by decide, by decide⟩
    incomplete := by
      rintro (_ | ⟨_, _ | ⟨_, _ | ⟨_, before⟩⟩⟩) after hlines hbefore hafter
      · exact absurd rfl hbefore
      · cases hlines
        exact ⟨⟨.unexpectedEof, ⟨0, 1, 1, 1⟩⟩, by cbv, rfl⟩
      · cases hlines
        exact ⟨⟨.scan .unterminatedString, ⟨9, 11, 2, 1⟩⟩, by cbv, rfl⟩
      · simp only [List.cons_append, List.cons.injEq, List.nil_eq, List.append_eq_nil_iff] at hlines
        exact absurd hlines.2.2.2.2 hafter
    complete := by
      have hread : ∃ fs, Form.read (joined ["[ ; one ", "\"a", "b\"]\t"]) = .ok fs := ⟨_, by cbv⟩
      rintro ⟨e, he, -⟩
      rw [hread.choose_spec] at he
      cases he }
  have hintact : ∀ earlier line later, ["[ ; one ", "\"a", "b\"]\t"] = earlier ++ line :: later →
      Intact earlier line := by
    rintro (_ | ⟨_, _ | ⟨_, _ | ⟨_, earlier⟩⟩⟩) line later hlines
    · cases hlines
      exact .of_none (by cbv)
    · cases hlines
      exact ⟨by cbv; decide, fun _ => ⟨by cbv, by cbv⟩⟩
    · cases hlines
      exact .of_none (by cbv)
    · simp at hlines
  exact fun fuel p => (lines_are_one_text fuel p (r := r) rfl rfl hone hintact).2 "" []

/-- Blanks at the end of a line inside a string are lost. -/
theorem blanks_of_string_are_lost :
    let r := start (State.fresh .empty { Config.standard with vmEnabled := false }) none
    OneForm ["\"a ", "b\""] ∧
      hear 0 ⟨false⟩ (.text "\"a ") (r.opened []) = ⟨r.opened ["\"a "], "", false⟩ ∧
      (hear 0 ⟨false⟩ (.text "b\"") (r.opened ["\"a "])).output = "\"a\\nb\"\n" ∧
      (reply 0 ⟨false⟩ r ["\"a ", "b\""] (joined ["\"a ", "b\""])).output = "\"a \\nb\"\n" := by
  intro r
  have htyped : Form.read (joined ["\"a ", "b\""]) = .ok [.atom (.str "a \nb") ⟨0, 6, 1, 1⟩] := by
    cbv
  have hheard : Form.read "\"a\nb\"\n" = .ok [.atom (.str "a\nb") ⟨0, 5, 1, 1⟩] := by cbv
  have hone : OneForm ["\"a ", "b\""] := {
    nonempty := List.cons_ne_nil _ _
    single := by decide
    first := by
      rintro _ ⟨⟩
      exact ⟨by decide, by decide⟩
    incomplete := by
      rintro (_ | ⟨_, _ | ⟨_, before⟩⟩) after hlines hbefore hafter
      · exact absurd rfl hbefore
      · cases hlines
        exact ⟨⟨.scan .unterminatedString, ⟨0, 3, 1, 1⟩⟩, by cbv, rfl⟩
      · simp only [List.cons_append, List.cons.injEq, List.nil_eq, List.append_eq_nil_iff] at hlines
        exact absurd hlines.2.2.2 hafter
    complete := by
      rintro ⟨e, he, -⟩
      rw [htyped] at he
      cases he }
  have hpending : unlines (["\"a ", "b\""].map trimEnd) = "\"a\nb\"\n" := by cbv
  have hcomplete : ¬ Incomplete (r.opened ["\"a ", "b\""]).pending := by
    rintro ⟨e, he, -⟩
    rw [opened, hpending, hheard] at he
    cases he
  have hopen : unlines (["\"a "].map trimEnd) = "\"a\n" := by cbv
  have hfirst : Incomplete (r.opened ["\"a "]).pending := by
    rw [opened, hopen]
    exact ⟨⟨.scan .unterminatedString, ⟨0, 3, 1, 1⟩⟩, by cbv, rfl⟩
  have hout : r.state.output = "" := rfl
  have hmode : r.state.mode = .treeWalk := rfl
  refine ⟨hone, ?_, ?_, ?_⟩
  · rw [hear_line rfl hone rfl]
    exact submit_incomplete hfirst hout
  · rw [hear_line rfl hone rfl]
    change (submit 0 ⟨false⟩ (r.opened ["\"a ", "b\""])).output = _
    rw [submit_complete hcomplete]
    change (answer _ _ (Session.start (Session.evalSource 0 (unlines _)) r.state)).output = _
    rw [hpending, Session.start_of_atom hheard hmode, output_of_value hout, Token.readable_str,
      ← String.toList_inj, String.toList_append, Token.toList_quoted]
    decide +kernel
  · rw [reply, Session.start_of_atom htyped hmode, output_of_value hout, Token.readable_str,
      ← String.toList_inj, String.toList_append, Token.toList_quoted]
    decide +kernel

end Repl

end TwinLisp
