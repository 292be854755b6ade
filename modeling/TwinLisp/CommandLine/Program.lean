import TwinLisp.CommandLine.Options
import TwinLisp.Config.Environment
import TwinLisp.Expr.Printing
import TwinLisp.Repl
import TwinLisp.Text.Quoted
/-!
The program as a whole, without its effects. `Program.plan` says what the arguments and settings ask
for; a plan is an outcome, a file to be read, or a conversation.

* `Program.execute`: a source taken as far as asked.
* `Program.outcome`: what a plan comes to when files and input are known.
-/

namespace TwinLisp

/-- What the program writes, and its exit status. -/
structure Outcome where
  code : Nat
  stdout : String
  stderr : String
  deriving DecidableEq, Repr

/-- Why a file has no text. -/
inductive FileFault where
  | missing
  | directory
  | undecodable
  | other (reason : String)
  deriving DecidableEq, Repr

def FileFault.text : FileFault → String
  | missing => "No such file or directory (os error 2)"
  | directory => "Is a directory (os error 21)"
  | undecodable => "stream did not contain valid UTF-8"
  | other reason => reason

inductive Plan where
  | done (o : Outcome)
  /-- A file is read, and its text or the reason why it has none decides. -/
  | script (file : String) (next : Except FileFault String → Outcome)
  /-- A conversation; `warnings` have been written to the error output. -/
  | converse (state : State) (palette : Palette) (warnings : String)

namespace Program

def usage : String :=
  "Jolt 0.3.0 - a Clojure dialect with a bytecode VM\n\n" ++
  "Usage: jolt [options] [script.clj]\n\n" ++
  "Options:\n" ++
  "  -e <code>        Evaluate code and print the result\n" ++
  "  --read           Print the forms read and stop\n" ++
  "  --parse          Print the parsed expressions and stop\n" ++
  "  --disassemble    Print the bytecode of each top-level form that compiles\n" ++
  "  --no-vm          Disable compilation; tree-walk everything\n" ++
  "  --help, -h       Show this help message\n" ++
  "  --version, -v    Show the version\n\n" ++
  "Environment:\n" ++
  "  JOLT_VM=0             Same as --no-vm\n" ++
  "  JOLT_VM_TRACE=1       Log compile and fallback decisions to stderr\n" ++
  "  JOLT_VM_STACK_MAX     VM value-stack limit (default 16384)\n" ++
  "  JOLT_VM_FRAMES_MAX    VM call-frame limit (default JOLT_MAX_DEPTH + 1)\n" ++
  "  JOLT_VM_STEP_BUDGET   Instructions allowed per execution\n" ++
  "  JOLT_MAX_DEPTH        Call-depth limit for both engines (default 512)\n\n" ++
  "Examples:\n" ++
  "  jolt                          Start interactive REPL\n" ++
  "  jolt script.clj               Run a script file\n" ++
  "  jolt -e '(+ 1 2)'             Evaluate code directly\n" ++
  "  jolt --disassemble fib.clj    Show the bytecode for fib.clj\n"

def misuse (before message : String) : Outcome := ⟨64, "", before ++ message ++ "\n" ++ usage⟩

def earlyExit : EarlyExit → Outcome
  | .help => ⟨0, "", usage⟩
  | .version => ⟨0, "jolt 0.3.0\n", ""⟩
  | .misuse message => misuse "" message

/-- Lines of text, each with its end. -/
def joinLines (lines : List String) : String := lines.foldl (fun out l => out ++ l ++ "\n") ""

def warningLine (p : Palette) (w : Warning) : String :=
  p.paint .caution "warning:" ++ " ignoring invalid " ++ w.key ++ "=" ++ Text.quoted w.text ++
    ", using default"

/-- What a source has to show when it is taken as far as asked. -/
def work (fuel : Nat) (stage : Stage) (shown : Bool) (source : String) : Session String := do
  match stage with
  | .read => return joinLines ((← Session.readSource source).map Form.text)
  | .parse => return joinLines ((← Session.parseSource fuel source).map Expr.text)
  | .disassemble => return joinLines (← Session.listSource fuel source)
  | .run =>
    let v ← Session.evalSource fuel source
    return if shown then v.readable ++ "\n" else ""

/-- Takes a source as far as asked; what it prints itself stands before what it has to show. -/
def execute (fuel : Nat) (p : Palette) (config : Config) (warnings : String) (stage : Stage)
    (shown : Bool) (source : String) : Outcome :=
  let (outcome, state) := Session.start (work fuel stage shown source) (.fresh .empty config)
  let reports := warnings ++ joinLines state.reports.reverse
  match outcome with
  | .ok text => ⟨0, state.output ++ text, reports⟩
  | .error e => ⟨e.exitCode, state.output, reports ++ Repl.errorLine p e.message⟩

/-- The outcome of a file that cannot be read. -/
def unreadable (p : Palette) (warnings file reason : String) : Outcome :=
  ⟨74, "", warnings ++ Repl.errorLine p ("could not read " ++ file ++ ": " ++ reason)⟩

/-- What arguments and settings ask for. -/
def plan (fuel : Nat) (args : List String) (lookup : String → Option String) (terminal : Bool) :
    Plan :=
  match Options.initial.read args with
  | .error e => .done (earlyExit e)
  | .ok o =>
    let p := Palette.ofSettings lookup terminal
    let (config, ignored) := Config.ofSettings lookup
    let config := if o.noVm then { config with vmEnabled := false } else config
    let warnings := joinLines (ignored.map (warningLine p))
    match o.task with
    | .snippet code => .done (execute fuel p config warnings o.stage true code)
    | .script file => .script file fun content =>
      match content with
      | .ok source => execute fuel p config warnings o.stage false source
      | .error fault => unreadable p warnings file fault.text
    | .interactive =>
      if o.stage ≠ .run then
        .done (misuse warnings "--read, --parse and --disassemble need a file or -e")
      else .converse (.fresh .empty config) p warnings

/-- What a plan comes to, given the contents of files, the saved history and the input. The history
is saved only by a conversation. -/
def outcome (fuel : Nat) (file : String → Except FileFault String) (saved : Option String)
    (input : List Line) : Plan → Outcome × Option String
  | .done o => (o, none)
  | .script name next => (next (file name), none)
  | .converse state p warnings =>
    let (said, repl) := Repl.converse fuel p Repl.banner (Repl.start state saved) input
    (⟨0, said, warnings ++ joinLines repl.state.reports.reverse⟩, some repl.savedHistory)

end Program

end TwinLisp
