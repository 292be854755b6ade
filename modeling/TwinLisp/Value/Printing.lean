import TwinLisp.Number.Double.Shortest
import TwinLisp.Text.Quoted
import TwinLisp.Value.Basic
/-!
The text of values, in two forms: readable, with strings quoted and characters named, which the
reader takes back, and display, with strings and characters as they are.

* `Value.write`: appends the text of a value (`write_append`).
* `Value.readable`, `Value.display`: the two forms.
-/

namespace TwinLisp.Value

/-- A character behind a backslash, blanks by name. -/
def charLiteral (c : Char) : String :=
  if c = '\n' then "\\newline"
  else if c = ' ' then "\\space"
  else if c = '\t' then "\\tab"
  else if c = '\r' then "\\return"
  else if c = '\x08' then "\\backspace"
  else if c = '\x0c' then "\\formfeed"
  else "\\" ++ String.singleton c

/-- The text of a value without parts. -/
def atomText (readable : Bool) : Value → String
  | nil => "nil"
  | bool b => if b then "true" else "false"
  | int n => toString n.toInt
  | ratio r => toString r.num.toInt ++ "/" ++ toString r.den.toInt
  | double d => Double.display d
  | decimal d => if readable then d.text ++ "M" else d.text
  | str s => if readable then Text.quoted s else s
  | char c => if readable then charLiteral c else String.singleton c
  | keyword k => ":" ++ k
  | symbol s => s
  | fn _ name | closure _ name => "#<fn " ++ name ++ ">"
  | native _ op => "#<native " ++ op.text ++ ">"
  | var v => "#'" ++ v.qualified
  | _ => ""

mutual

def write (readable : Bool) (out : String) : Value → String
  | list items => writeItems readable (out ++ "(") false items ++ ")"
  | vector items => writeItems readable (out ++ "[") false items ++ "]"
  | set items => writeItems readable (out ++ "#\x7b") false items ++ "\x7d"
  | map entries => writeEntries readable (out ++ "\x7b") false entries ++ "\x7d"
  | exInfo _ message data =>
    write true (out ++ "#error \x7b:message " ++ Text.quoted message ++ ", :data ") data ++ "\x7d"
  | v => out ++ atomText readable v

/-- Appends values with blanks between them; `more` says that one stands before. -/
def writeItems (readable : Bool) (out : String) (more : Bool) : List Value → String
  | [] => out
  | v :: rest =>
    writeItems readable (write readable (if more then out ++ " " else out) v) true rest

/-- Appends keys and values, with a comma between entries. -/
def writeEntries (readable : Bool) (out : String) (more : Bool) : List (Value × Value) → String
  | [] => out
  | (k, v) :: rest =>
    let out := write readable (if more then out ++ ", " else out) k ++ " "
    writeEntries readable (write readable out v) true rest

end

mutual

theorem write_append (r : Bool) (out : String) (v : Value) :
    write r out v = out ++ write r "" v := by
  cases v with
  | list items | vector items | set items =>
    simp only [write]
    rw [writeItems_append r _ false items]
    conv => rhs; rw [writeItems_append r _ false items]
    simp [String.append_assoc]
  | map entries =>
    simp only [write]
    rw [writeEntries_append r _ false entries]
    conv => rhs; rw [writeEntries_append r _ false entries]
    simp [String.append_assoc]
  | exInfo id message data =>
    simp only [write]
    rw [write_append true _ data]
    conv => rhs; rw [write_append true _ data]
    simp [String.append_assoc]
  | _ => simp [write]

theorem writeItems_append (r : Bool) (out : String) (more : Bool) (vs : List Value) :
    writeItems r out more vs = out ++ writeItems r "" more vs := by
  cases vs with
  | nil => simp [writeItems]
  | cons v rest =>
    simp only [writeItems]
    rw [writeItems_append r _ true rest, write_append r _ v]
    conv => rhs; rw [writeItems_append r _ true rest, write_append r _ v]
    cases more <;> simp [String.append_assoc]

theorem writeEntries_append (r : Bool) (out : String) (more : Bool) (es : List (Value × Value)) :
    writeEntries r out more es = out ++ writeEntries r "" more es := by
  cases es with
  | nil => simp [writeEntries]
  | cons e rest =>
    obtain ⟨k, v⟩ := e
    simp only [writeEntries]
    rw [writeEntries_append r _ true rest, write_append r _ v, write_append r _ k]
    conv => rhs; rw [writeEntries_append r _ true rest, write_append r _ v, write_append r _ k]
    cases more <;> simp [String.append_assoc]

end

/-- The form the reader takes back. -/
def readable (v : Value) : String := write true "" v

/-- The form in which strings and characters stand as they are. -/
def display (v : Value) : String := write false "" v

def joined (readable : Bool) (vs : List Value) : String := writeItems readable "" false vs

end TwinLisp.Value
