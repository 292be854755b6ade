import TwinLisp.CommandLine.Palette
import TwinLisp.Session
import TwinLisp.Text.Blank
/-!
The conversation with a user. Lines are gathered until they hold complete forms, which are then
evaluated; a line that begins with a dot is a command, unless a form is still open.

* `Failure.isIncomplete`: the input ends inside a form.
* `Repl.hear`: what a line leads to.
* `Repl.converse`: a whole conversation.
-/

namespace TwinLisp

/-- Whether reading failed only because the input ends inside a form. -/
def Failure.isIncomplete : Failure → Bool
  | .reader e =>
    match e.cause with
    | .unexpectedEof | .scan .unterminatedString => true
    | _ => false
  | .lexer e => e.cause == .unterminatedString
  | _ => false

/-- What the next line of input is. -/
inductive Line where
  | text (s : String)
  | finished
  | undecodable

structure Repl where
  state : State
  /-- The latest entry first. -/
  history : List String
  /-- The lines of a form that is still open. -/
  pending : String

/-- What has been said in answer to a line, and whether the conversation is over. -/
structure Reaction where
  repl : Repl
  output : String
  ended : Bool

namespace Repl

def banner : String := "Jolt 0.3.0 REPL\nType .help for available commands.\n\n"

/-- Text without a carriage return at its end. -/
def dropReturn (line : String) : String :=
  match line.toList.reverse with
  | '\r' :: rest => String.ofList rest.reverse
  | _ => line

/-- The lines of a text, without their ends; what follows the last end is a line if it is not
empty. -/
def linesOf (text : String) : List String :=
  let pieces := text.splitOn "\n"
  let last := pieces.getLast?.getD ""
  pieces.dropLast.map dropReturn ++ (if last.isEmpty then [] else [last])

def isBlankLine (line : String) : Bool := line.toList.all Text.isBlank

/-- A conversation that has not begun, with the entries of an earlier one. -/
def start (state : State) (saved : Option String) : Repl :=
  ⟨state, ((linesOf (saved.getD "")).filter fun l => !isBlankLine l).reverse, ""⟩

def savedHistory (r : Repl) : String := String.intercalate "\n" r.history.reverse

def prompt (p : Palette) (r : Repl) : String :=
  if r.pending.isEmpty then p.paint .good (r.state.names.current ++ "=> ") else "   "

def errorLine (p : Palette) (message : String) : String :=
  p.paint .alarm "Error:" ++ " " ++ message ++ "\n"

/-- What the program has printed, and a state that has printed nothing. -/
def drain (s : State) : String × State := (s.output, { s with output := "" })

/-- Evaluates the pending lines unless their last form is still open. -/
def submit (fuel : Nat) (p : Palette) (r : Repl) : Reaction :=
  let (outcome, state) := Session.start (Session.evalSource fuel r.pending) r.state
  let (printed, state) := drain state
  match outcome with
  | .ok v => ⟨⟨state, r.history, ""⟩, printed ++ p.paint .result v.readable ++ "\n", false⟩
  | .error e =>
    if e.isIncomplete then ⟨⟨state, r.history, r.pending⟩, printed, false⟩
    else ⟨⟨state, r.history, ""⟩, printed ++ errorLine p e.message, false⟩

/-! ## Commands -/

def help : String :=
  "\nJolt REPL Commands\n\n" ++
  ".help          - Show this help message\n" ++
  ".vm on|off     - Enable or disable bytecode compilation\n" ++
  ".dis <expr>    - Show the bytecode for an expression\n" ++
  ".history       - Show command history\n" ++
  ".exit / Ctrl+D - Exit the REPL\n"

def setCompilation (enabled : Bool) (s : State) : State :=
  { s with
    config := { s.config with vmEnabled := enabled }
    mode := if enabled then .hybrid else .treeWalk }

def compilationLine (p : Palette) (s : State) : String :=
  "VM " ++ (if s.config.vmEnabled then p.paint .good "on" else p.paint .muted "off") ++ "\n"

def compilationCommand (p : Palette) (arg : String) (r : Repl) : Reaction :=
  let done (s : State) : Reaction := ⟨{ r with state := s }, compilationLine p s, false⟩
  match arg with
  | "on" => done (setCompilation true r.state)
  | "off" => done (setCompilation false r.state)
  | "" => done r.state
  | _ => ⟨r, "Usage: .vm on|off\n", false⟩

/-- The listing of the first form of a source. -/
def listFirst (fuel : Nat) (source : String) : Session String := do
  match ← Session.parseSource fuel source with
  | [] => return ""
  | e :: _ => return (← Session.compileForm "repl" e).listing.foldl (fun out l => out ++ l ++ "\n") ""

def listingCommand (fuel : Nat) (p : Palette) (source : String) (r : Repl) : Reaction :=
  if source.isEmpty then ⟨r, "Usage: .dis <expr>\n", false⟩
  else
    let (outcome, state) := Session.start (listFirst fuel source) r.state
    let (printed, state) := drain state
    match outcome with
    | .ok listing => ⟨{ r with state := state }, printed ++ listing, false⟩
    | .error e => ⟨{ r with state := state }, printed ++ errorLine p e.message, false⟩

def historyLines (number : Nat) : List String → String
  | [] => ""
  | entry :: rest =>
    Text.padLeft 4 ' ' (toString number) ++ "  " ++ entry ++ "\n" ++ historyLines (number + 1) rest

/-- A command and its argument. -/
def splitCommand (line : String) : String × String :=
  let cs := line.toList
  let name := cs.takeWhile (· != ' ')
  (String.ofList name, Text.trim (String.ofList (cs.drop (name.length + 1))))

def command (fuel : Nat) (p : Palette) (line : String) (r : Repl) : Reaction :=
  let (name, arg) := splitCommand line
  match name with
  | ".help" => ⟨r, help, false⟩
  | ".vm" => compilationCommand p arg r
  | ".dis" => listingCommand fuel p arg r
  | ".history" => ⟨r, "History:\n" ++ historyLines 1 r.history.reverse, false⟩
  | _ => ⟨r, "Unknown command: " ++ line ++ ". Type .help for available commands.\n", false⟩

/-! ## The conversation -/

/-- Adds a line to those of the open form. -/
def gather (line : String) (r : Repl) : Repl :=
  { r with history := line :: r.history, pending := r.pending ++ line ++ "\n" }

/-- What a line leads to. -/
def hear (fuel : Nat) (p : Palette) (line : Line) (r : Repl) : Reaction :=
  match line with
  | .finished => ⟨r, "\nGoodbye!\n", true⟩
  | .undecodable => ⟨r, errorLine p "stream did not contain valid UTF-8", true⟩
  | .text raw =>
    let line := Text.trimEnd raw
    if !r.pending.isEmpty then submit fuel p (gather line r)
    else if isBlankLine line then ⟨r, "", false⟩
    else if line == ".exit" || line == ".quit" then
      ⟨{ r with history := line :: r.history }, "Goodbye!\n", true⟩
    else if line.startsWith "." then command fuel p line { r with history := line :: r.history }
    else submit fuel p (gather line r)

/-- A conversation over lines of input, behind what has been said already. -/
def converse (fuel : Nat) (p : Palette) (said : String) (r : Repl) : List Line → String × Repl
  | [] =>
    let reaction := hear fuel p .finished r
    (said ++ r.prompt p ++ reaction.output, reaction.repl)
  | line :: rest =>
    let reaction := hear fuel p line r
    let said := said ++ r.prompt p ++ reaction.output
    if reaction.ended then (said, reaction.repl) else converse fuel p said reaction.repl rest

end Repl

end TwinLisp
