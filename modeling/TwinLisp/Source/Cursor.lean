import TwinLisp.Source.Span
/-!
A place in a source that is being read: the characters still to come and where the first of them
stands. Offsets count bytes and columns characters; a line begins behind a newline that separates
tokens or stands in a string.
-/

namespace TwinLisp

/-- The rest of a source and its place. -/
structure Cursor where
  rest : List Char
  offset : Nat
  line : Nat
  column : Nat
  deriving Repr

/-- The number of bytes that characters take. -/
def utf8Length (cs : List Char) : Nat := cs.foldl (fun n c => n + c.utf8Size) 0

namespace Cursor

def start (source : String) : Cursor := ⟨source.toList, 0, 1, 1⟩

def pass (c : Cursor) (ch : Char) (rest : List Char) : Cursor :=
  ⟨rest, c.offset + ch.utf8Size, c.line, c.column + 1⟩

def passAll (c : Cursor) (taken rest : List Char) : Cursor :=
  ⟨rest, c.offset + utf8Length taken, c.line, c.column + taken.length⟩

def passNewline (c : Cursor) (rest : List Char) : Cursor := ⟨rest, c.offset + 1, c.line + 1, 1⟩

/-- The span of what lies between two places. -/
def spanTo (a b : Cursor) : Span := ⟨a.offset, b.offset, a.line, a.column⟩

end Cursor

end TwinLisp
