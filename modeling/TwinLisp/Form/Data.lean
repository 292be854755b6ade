import TwinLisp.Error.Running
import TwinLisp.Form.Basic
import TwinLisp.Value.Equality
/-!
Code as data. `Form.toValue` is the quoted form; `Form.ofValue` reads data back as code at one place.
Functions, Vars and raised values have no source text and cannot be embedded.
-/

namespace TwinLisp.Form

/-- Alternating keys and values as entries; of equal keys the first keeps its place and the last
its value. -/
def pairUp : List Value → List (Value × Value)
  | k :: v :: rest => (k, v) :: pairUp rest
  | _ => []

mutual

/-- The form as quoted data. -/
def toValue : Form → Value
  | atom v _ => v
  | symbol name _ => .symbol name
  | list items _ => .list (toValuesOnto [] items)
  | vector items _ => .vector (toValuesOnto [] items)
  | map items _ => .map (Value.entriesOf (pairUp (toValuesOnto [] items)))
  | set items _ => .set (Value.itemsOf (toValuesOnto [] items))

/-- The data of forms behind those already converted, which stand in reverse. -/
def toValuesOnto (acc : List Value) : List Form → List Value
  | [] => acc.reverse
  | f :: rest => toValuesOnto (toValue f :: acc) rest

end

def toValues (fs : List Form) : List Value := toValuesOnto [] fs

/-- Data that no code can contain. -/
def unembeddable (v : Value) (span : Span) : RuntimeError :=
  ⟨.typeError ("Cannot embed " ++ v.typeName ++ " in code: " ++ v.readable), span⟩

mutual

/-- Data as code at a place. -/
def ofValue (span : Span) : Value → Except RuntimeError Form
  | .symbol name => .ok (.symbol name span)
  | .list items => (ofValuesOnto span [] items).map (.list · span)
  | .vector items => (ofValuesOnto span [] items).map (.vector · span)
  | .set items => (ofValuesOnto span [] items).map (.set · span)
  | .map entries => (ofEntriesOnto span [] entries).map (.map · span)
  | .nil => .ok (.atom .nil span)
  | .bool b => .ok (.atom (.bool b) span)
  | .int n => .ok (.atom (.int n) span)
  | .ratio r => .ok (.atom (.ratio r) span)
  | .double d => .ok (.atom (.double d) span)
  | .decimal d => .ok (.atom (.decimal d) span)
  | .str s => .ok (.atom (.str s) span)
  | .char c => .ok (.atom (.char c) span)
  | .keyword k => .ok (.atom (.keyword k) span)
  | v => .error (unembeddable v span)

/-- Code of data behind the forms already made, which stand in reverse. -/
def ofValuesOnto (span : Span) (acc : List Form) : List Value → Except RuntimeError (List Form)
  | [] => .ok acc.reverse
  | v :: rest =>
    match ofValue span v with
    | .ok f => ofValuesOnto span (f :: acc) rest
    | .error e => .error e

/-- Code of entries, keys and values alternating. -/
def ofEntriesOnto (span : Span) (acc : List Form) :
    List (Value × Value) → Except RuntimeError (List Form)
  | [] => .ok acc.reverse
  | (k, v) :: rest =>
    match ofValue span k with
    | .error e => .error e
    | .ok fk =>
      match ofValue span v with
      | .error e => .error e
      | .ok fv => ofEntriesOnto span (fv :: fk :: acc) rest

end

end TwinLisp.Form
