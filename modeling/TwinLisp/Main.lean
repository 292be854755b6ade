import TwinLisp.CommandLine.Program
/-!
The command line: arguments and environment are turned into a plan, which is carried out.
-/

namespace TwinLisp.Main

/-- The text of a file, or the reason why it has none. -/
def readText (file : String) : IO (Except FileFault String) := do
  try
    match String.fromUTF8? (← IO.FS.readBinFile file) with
    | some s => return .ok s
    | none => return .error .undecodable
  catch e =>
    match e with
    | .noFileOrDirectory .. => return .error .missing
    | .inappropriateType .. => return .error .directory
    | e => return .error (.other (toString e))

/-- Writes what an outcome says and gives its exit status. -/
def report (o : Outcome) : IO UInt32 := do
  IO.print o.stdout
  IO.eprint o.stderr
  return UInt32.ofNat o.code

/-- The next line of the standard input. -/
def nextLine (input : IO.FS.Stream) : IO Line := do
  try
    let line ← input.getLine
    return if line.isEmpty then .finished else .text line
  catch _ =>
    return .undecodable

/-- Carries on a conversation until it is over. -/
partial def converse (p : Palette) (input output : IO.FS.Stream) (r : Repl) : IO Repl := do
  output.putStr (r.prompt p)
  output.flush
  let reaction := r.hear Session.ample p (← nextLine input)
  output.putStr reaction.output
  IO.eprint (Program.joinLines reaction.repl.state.reports.reverse)
  let repl := { reaction.repl with state := { reaction.repl.state with reports := [] } }
  if reaction.ended then return repl else converse p input output repl

/-- The settings the program looks at. -/
def settingNames : List String :=
  ["JOLT_VM", "JOLT_VM_TRACE", "JOLT_MAX_DEPTH", "JOLT_VM_STACK_MAX", "JOLT_VM_FRAMES_MAX",
    "JOLT_VM_STEP_BUDGET", "CLICOLOR_FORCE", "CLICOLOR", "NO_COLOR"]

def readSettings : IO (List (String × String)) :=
  settingNames.filterMapM fun name => return (← IO.getEnv name).map fun text => (name, text)

/-- The file that keeps the entries of conversations. -/
def historyFile : IO String := do
  match ← IO.getEnv "HOME" with
  | some home => return home ++ "/.jolt_history"
  | none => return ".jolt_history"

def run (args : List String) : IO UInt32 := do
  let settings ← readSettings
  let output ← IO.getStdout
  match Program.plan Session.ample args (settings.lookup ·) (← output.isTty) with
  | .done o => report o
  | .script file next => report (next (← readText file))
  | .converse state p warnings =>
    IO.eprint warnings
    let history ← historyFile
    output.putStr Repl.banner
    let repl ← converse p (← IO.getStdin) output (Repl.start state (← readText history).toOption)
    try IO.FS.writeFile history repl.savedHistory catch _ => pure ()
    return 0

end TwinLisp.Main

def main (args : List String) : IO UInt32 := TwinLisp.Main.run args
