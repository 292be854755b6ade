/-!
Limits and switches of an interpreter.

* `Mode`: which engine runs a form.
* `Limits`: what the bytecode machine may use; its frames suffice for every counted call and one
  uncounted form (`Config.standard_framesMax`).
-/

namespace TwinLisp

/-- How forms are run. -/
inductive Mode where
  /-- Every form is interpreted. -/
  | treeWalk
  /-- Function literals of the compiled subset run as bytecode. -/
  | hybrid
  /-- Whole forms of the compiled subset run as bytecode as well. -/
  | bytecode
  deriving DecidableEq, Repr

/-- What one bytecode machine may use. -/
structure Limits where
  stackMax : Nat
  framesMax : Nat
  /-- Instructions allowed for one outermost run. -/
  stepBudget : Option Nat
  deriving DecidableEq, Repr

structure Config where
  vmEnabled : Bool
  /-- Whether compilation reports what it does. -/
  traced : Bool
  /-- Nested calls allowed in both engines together. -/
  maxDepth : Nat
  limits : Limits
  deriving DecidableEq, Repr

namespace Config

def standardDepth : Nat := 512

/-- 256 slots for each of 64 frames. -/
def standardStack : Nat := 256 * 64

def standard : Config := ⟨true, false, standardDepth, ⟨standardStack, standardDepth + 1, none⟩⟩

theorem standard_framesMax : standard.limits.framesMax = standard.maxDepth + 1 := rfl

def mode (c : Config) : Mode := if c.vmEnabled then .hybrid else .treeWalk

end Config

end TwinLisp
