import TwinLisp.Config.Basic
import TwinLisp.Number.Power
import TwinLisp.Text.Blank
import TwinLisp.Text.Digits
/-!
Configuration by named settings. A limit is a positive number that fits a machine word; text that is
no such number is ignored with a warning. A switch is on unless its text says off.

* `Config.limit`: a limit as it is written, or a default.
* `Config.ofSettings`: the configuration, and what was ignored.
-/

namespace TwinLisp

/-- A setting whose text was ignored. -/
structure Warning where
  key : String
  text : String
  deriving DecidableEq, Repr

namespace Config

/-- The numbers of a machine word are below this one. -/
def wordLimit : Nat := twoTo 64

def isOff (text : String) : Bool :=
  let word := (Text.trim text).map Char.toLower
  word == "0" || word == "false" || word == "off" || word == "no"

/-- A positive number of a machine word. -/
def positive? (text : String) : Option Nat :=
  match Text.countOfDigits? (Text.trim text).toList with
  | some n => if 0 < n ∧ n < wordLimit then some n else none
  | none => none

/-- A setting as a positive number; text that is none counts as missing and is reported. -/
def limit? (lookup : String → Option String) (key : String) : Option Nat × List Warning :=
  match lookup key with
  | none => (none, [])
  | some text =>
    match positive? text with
    | some n => (some n, [])
    | none => (none, [⟨key, text⟩])

def switch (lookup : String → Option String) (key : String) (default : Bool) : Bool :=
  match lookup key with
  | none => default
  | some text => !isOff text

/-- The configuration that settings describe. The number of frames follows the depth of calls unless
it is set; it is a machine word like all limits. -/
def ofSettings (lookup : String → Option String) : Config × List Warning :=
  let (depth, w₁) := limit? lookup "JOLT_MAX_DEPTH"
  let (stack, w₂) := limit? lookup "JOLT_VM_STACK_MAX"
  let (frames, w₃) := limit? lookup "JOLT_VM_FRAMES_MAX"
  let (budget, w₄) := limit? lookup "JOLT_VM_STEP_BUDGET"
  let maxDepth := depth.getD standardDepth
  let limits : Limits :=
    ⟨stack.getD standardStack, frames.getD ((maxDepth + 1) % wordLimit), budget⟩
  (⟨switch lookup "JOLT_VM" true, switch lookup "JOLT_VM_TRACE" false, maxDepth, limits⟩,
    w₁ ++ w₂ ++ w₃ ++ w₄)

end Config

end TwinLisp
