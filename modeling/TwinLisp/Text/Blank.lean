/-!
Characters that separate data. `isBlank` is the White_Space property of the Unicode standard;
`isDelimiter` adds the punctuation that ends an atom.
-/

namespace TwinLisp.Text

/-- White_Space of the Unicode standard. -/
def isBlank (c : Char) : Bool :=
  let n := c.toNat
  (9 ≤ n && n ≤ 13) || n == 0x20 || n == 0x85 || n == 0xA0 || n == 0x1680 ||
  (0x2000 ≤ n && n ≤ 0x200A) || n == 0x2028 || n == 0x2029 || n == 0x202F || n == 0x205F ||
  n == 0x3000

/-- Characters that end a symbol, keyword, number or character literal. -/
def isDelimiter (c : Char) : Bool :=
  isBlank c || c == ',' || c == '(' || c == ')' || c == '[' || c == ']' || c == '{' || c == '}' ||
  c == '"' || c == ';'

def trim (s : String) : String :=
  String.ofList (((s.toList.dropWhile isBlank).reverse.dropWhile isBlank).reverse)

def trimEnd (s : String) : String :=
  String.ofList ((s.toList.reverse.dropWhile isBlank).reverse)

theorem isBlank_of_isWhitespace (c : Char) (h : c.isWhitespace = true) : isBlank c = true := by
  simp only [Char.isWhitespace, Bool.or_eq_true, decide_eq_true_eq] at h
  rcases h with ((rfl | rfl) | rfl) | rfl <;> decide

theorem isDelimiter_of_isBlank {c : Char} (h : isBlank c = true) : isDelimiter c = true := by
  simp [isDelimiter, h]

end TwinLisp.Text
