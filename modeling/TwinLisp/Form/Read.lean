import TwinLisp.Error.Reading
import TwinLisp.Form.Basic
import TwinLisp.Number.Tower
import TwinLisp.Token.Scan
/-!
From tokens to forms. The reader keeps a stack of what is open: sequences that wait for more items,
and marks that wait for a datum. Each token either opens something, closes a sequence, or is a datum
by itself; a finished datum is handed to what is open on top (`complete`).

* a quote or an at-sign wraps its datum in a list;
* a caret drops its first datum and passes on the second;
* a discard drops its datum.
-/

namespace TwinLisp.Form

/-- The kinds of sequences. -/
inductive Bracket where
  | round
  | square
  | brace
  | set
  deriving DecidableEq, Repr

/-- What waits for a datum. -/
inductive Open where
  /-- A sequence and its items in reverse. -/
  | seq (kind : Bracket) (span : Span) (items : List Form)
  | wrap (name : String) (span : Span)
  | metadata (span : Span)
  | described (span : Span)
  | drop (span : Span)

/-- Where the thing was opened. -/
def Open.span : Open → Span
  | seq _ s _ | wrap _ s | metadata s | described s | drop s => s

/-- A reader between two tokens: what is open, the innermost first, and the finished top-level
forms in reverse. -/
structure Reading where
  stack : List Open
  done : List Form

namespace Reading

def start : Reading := ⟨[], []⟩

/-- Puts something to be completed on top. -/
def push (o : Open) (r : Reading) : Reading := ⟨o :: r.stack, r.done⟩

/-- A datum with its mark written out. -/
def wrapped (name : String) (mark : Span) (f : Form) : Form :=
  .list [.symbol name mark, f] (mark.merge f.span)

/-- Hands a datum to what is open. -/
def complete (f : Form) (done : List Form) : List Open → Reading
  | [] => ⟨[], f :: done⟩
  | .seq kind span items :: rest => ⟨.seq kind span (f :: items) :: rest, done⟩
  | .wrap name span :: rest => complete (wrapped name span f) done rest
  | .metadata span :: rest => ⟨.described span :: rest, done⟩
  | .described _ :: rest => complete f done rest
  | .drop _ :: rest => ⟨rest, done⟩

/-- A datum that needs no closing. -/
def atom (f : Form) (r : Reading) : Except ReadError Reading := .ok (complete f r.done r.stack)

/-- The form of a closed sequence. -/
def sequence (kind : Bracket) (span : Span) (items : List Form) : Except ReadError Form :=
  match kind with
  | .round => .ok (.list items span)
  | .square => .ok (.vector items span)
  | .set => .ok (.set items span)
  | .brace => if items.length % 2 = 0 then .ok (.map items span) else .error ⟨.oddMap, span⟩

/-- Whether a closing token closes this kind of sequence. -/
def closes : TokenKind → Bracket → Bool
  | .rightParen, .round => true
  | .rightBracket, .square => true
  | .rightBrace, .brace => true
  | .rightBrace, .set => true
  | _, _ => false

def close (t : Token) (r : Reading) : Except ReadError Reading :=
  match r.stack with
  | .seq kind span items :: rest =>
    if closes t.kind kind then
      (sequence kind span items.reverse).map fun f => complete f r.done rest
    else .error ⟨.unmatched t.kind.text, t.span⟩
  | _ => .error ⟨.unmatched t.kind.text, t.span⟩

/-- The value of a ratio literal. -/
def ratioAtom (num den : Int64) (span : Span) : Except ReadError Form :=
  match Number.ratio num.toInt den.toInt with
  | .ok v => .ok (.atom v span)
  | .error f => .error ⟨.unsupported f.text, span⟩

def token (t : Token) (r : Reading) : Except ReadError Reading :=
  let s := t.span
  match t.kind with
  | .leftParen => .ok (r.push (.seq .round s []))
  | .leftBracket => .ok (r.push (.seq .square s []))
  | .leftBrace => .ok (r.push (.seq .brace s []))
  | .hashBrace => .ok (r.push (.seq .set s []))
  | .quote => .ok (r.push (.wrap "quote" s))
  | .atSign => .ok (r.push (.wrap "deref" s))
  | .caret => .ok (r.push (.metadata s))
  | .discard => .ok (r.push (.drop s))
  | .rightParen | .rightBracket | .rightBrace => r.close t
  | .symbol name => r.atom (.symbol name s)
  | .keyword name => r.atom (.atom (.keyword name) s)
  | .str x => r.atom (.atom (.str x) s)
  | .char c => r.atom (.atom (.char c) s)
  | .int n => r.atom (.atom (.int n) s)
  | .double d => r.atom (.atom (.double d) s)
  | .decimal d => r.atom (.atom (.decimal d) s)
  | .nil => r.atom (.atom .nil s)
  | .true => r.atom (.atom (.bool true) s)
  | .false => r.atom (.atom (.bool false) s)
  | .ratio num den =>
    match ratioAtom num den s with
    | .ok f => r.atom f
    | .error e => .error e
  | .eof => .ok r

/-- The forms, if nothing is open at the end. -/
def finish (r : Reading) : Except ReadError (List Form) :=
  match r.stack with
  | [] => .ok r.done.reverse
  | o :: _ => .error ⟨.unexpectedEof, o.span⟩

def tokens : List Token → Reading → Except ReadError (List Form)
  | [], r => r.finish
  | t :: rest, r =>
    if t.kind.isEof then r.finish
    else
      match r.token t with
      | .ok next => tokens rest next
      | .error e => .error e

end Reading

def read (source : String) : Except ReadError (List Form) :=
  match Token.tokens source with
  | .ok ts => Reading.tokens ts .start
  | .error e => .error (.ofLex e)

end TwinLisp.Form
