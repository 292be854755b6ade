import TwinLisp.Names.Qualified
import TwinLisp.Value.Basic
/-!
Namespaces. Each has its Vars in the order of their definition; one namespace is current, and the
names of the core namespace can be used in all.

* `Names.find?`, `Names.lookup?`, `Names.resolve?`: the Var of a qualified name, of an unqualified
  one, and of a symbol as written.
* `Names.add`: a new Var.
-/

namespace TwinLisp

/-- The namespace in which natives are defined. -/
def coreNamespace : String := "core"

/-- The namespace a program begins in. -/
def userNamespace : String := "user"

structure Namespace where
  name : String
  vars : List Var

structure Names where
  spaces : List Namespace
  current : String

namespace Namespace

def find? (name : String) (n : Namespace) : Option Var := n.vars.find? fun v => v.name == name

end Namespace

namespace Names

def start : Names := ⟨[⟨coreNamespace, []⟩, ⟨userNamespace, []⟩], userNamespace⟩

def space? (ns : String) (t : Names) : Option Namespace := t.spaces.find? fun n => n.name == ns

def ensure (ns : String) (t : Names) : Names :=
  if (t.space? ns).isSome then t else { t with spaces := t.spaces ++ [⟨ns, []⟩] }

/-- Makes a namespace the current one, creating it if need be. -/
def enter (ns : String) (t : Names) : Names := { t.ensure ns with current := ns }

/-- The Var of a name in a namespace. -/
def find? (ns name : String) (t : Names) : Option Var :=
  match t.space? ns with
  | some n => n.find? name
  | none => none

/-- The Var of an unqualified name: that of the current namespace, or else the core's. -/
def lookup? (name : String) (t : Names) : Option Var :=
  match t.find? t.current name with
  | some v => some v
  | none => t.find? coreNamespace name

/-- The Var of a symbol as written. -/
def resolve? (symbol : String) (t : Names) : Option Var :=
  match splitQualified symbol with
  | some (ns, name) => t.find? ns name
  | none => t.lookup? symbol

/-- Adds a Var to its namespace, which must exist. -/
def add (v : Var) (t : Names) : Names :=
  { t with spaces := t.spaces.map fun n =>
      if n.name == v.ns then { n with vars := v :: n.vars } else n }

/-- The names of a namespace in the order of their definition. -/
def namesIn? (ns : String) (t : Names) : Option (List String) :=
  (t.space? ns).map fun n => (n.vars.map Var.name).reverse

end Names

end TwinLisp
