/-!
The arguments of the program, read from left to right. A request for help or for the version, and
the first fault, end the reading.
-/

namespace TwinLisp

/-- What the program is to work on. -/
inductive Task where
  | script (file : String)
  | snippet (code : String)
  | interactive
  deriving DecidableEq, Repr

/-- How far a source is taken. -/
inductive Stage where
  | read
  | parse
  | disassemble
  | run
  deriving DecidableEq, Repr

structure Options where
  task : Task
  stage : Stage
  noVm : Bool
  deriving DecidableEq, Repr

/-- Why the program ends before it has begun. -/
inductive EarlyExit where
  | help
  | version
  | misuse (message : String)
  deriving DecidableEq, Repr

namespace Options

def initial : Options := ⟨.interactive, .run, false⟩

/-- Reads arguments behind those that were read already. -/
def read (o : Options) : List String → Except EarlyExit Options
  | [] => .ok o
  | "-e" :: rest =>
    match rest with
    | [] => .error (.misuse "-e requires code to evaluate")
    | code :: rest => read { o with task := .snippet code } rest
  | "--read" :: rest => read { o with stage := .read } rest
  | "--parse" :: rest => read { o with stage := .parse } rest
  | "--disassemble" :: rest => read { o with stage := .disassemble } rest
  | "--no-vm" :: rest => read { o with noVm := true } rest
  | "--help" :: _ | "-h" :: _ => .error .help
  | "--version" :: _ | "-v" :: _ => .error .version
  | arg :: rest =>
    if arg.startsWith "-" then .error (.misuse ("Unknown option: " ++ arg))
    else match o.task with
      | .interactive => read { o with task := .script arg } rest
      | _ => .error (.misuse ("Unexpected argument: " ++ arg))

end Options

end TwinLisp
