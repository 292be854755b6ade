import TwinLisp.Error.Reading
import TwinLisp.Source.Cursor
import TwinLisp.Text.Blank
import TwinLisp.Token.Number
/-!
From characters to tokens. Blanks, commas and comments separate tokens; an atom runs up to the next
delimiter. Every token but the last takes at least one character (`next_shorter`), so the scan ends.

* `next`: the token at a place and the place behind it.
* `scan`: all tokens, and the fault that stopped the scan if there was one.
* `tokens`: all tokens, or the fault.
-/

namespace TwinLisp.Token

/-- Moves over blanks, commas and comments; `inComment` says that a comment is open. -/
def skipFrom (inComment : Bool) (c : Cursor) : List Char → Cursor
  | [] => { c with rest := [] }
  | ch :: rest =>
    if ch = '\n' then skipFrom false (c.passNewline rest) rest
    else if inComment then skipFrom true (c.pass ch rest) rest
    else if Text.isBlank ch || ch = ',' then skipFrom false (c.pass ch rest) rest
    else if ch = ';' then skipFrom true (c.pass ch rest) rest
    else { c with rest := ch :: rest }

def skip (c : Cursor) : Cursor := skipFrom false c c.rest

/-- The characters up to the next delimiter, and the place behind them. -/
def atom (c : Cursor) : List Char × Cursor :=
  let isPart := fun ch : Char => !Text.isDelimiter ch
  let taken := c.rest.takeWhile isPart
  (taken, c.passAll taken (c.rest.dropWhile isPart))

/-- A code point in hexadecimal digits, which a plus sign may precede. -/
def codePoint? (cs : List Char) : Option Char :=
  let digits := match cs with
    | '+' :: rest => rest
    | _ => cs
  (Text.natOfDigits? 16 digits).bind fun n =>
    if h : n.isValidChar then some (Char.ofNatAux n h) else none

/-- The character that stands behind a backslash in a string, `u` apart. -/
def escape? : Char → Option Char
  | 'n' => some '\n'
  | 't' => some '\t'
  | 'r' => some '\r'
  | '0' => some '\x00'
  | '\\' => some '\\'
  | '"' => some '"'
  | _ => none

/-- A located fault between two places. -/
def fail {α : Type} (fault : LexFault) (a b : Cursor) : Except LexError α :=
  .error ⟨fault, a.spanTo b⟩

/-- Reads a string whose opening quote stands at `start`; `acc` holds its characters in reverse. -/
def stringFrom (start c : Cursor) (acc : List Char) : List Char → Except LexError (String × Cursor)
  | [] => fail .unterminatedString start c
  | '"' :: rest => .ok (String.ofList acc.reverse, c.pass '"' rest)
  | '\n' :: rest => stringFrom start (c.passNewline rest) ('\n' :: acc) rest
  | '\\' :: 'u' :: h₁ :: h₂ :: h₃ :: h₄ :: rest =>
    let behind := c.passAll ['\\', 'u', h₁, h₂, h₃, h₄] rest
    match codePoint? [h₁, h₂, h₃, h₄] with
    | some ch => stringFrom start behind (ch :: acc) rest
    | none => fail (.invalidEscape 'u') start behind
  | '\\' :: 'u' :: rest =>
    let behind := c.passAll ('\\' :: 'u' :: rest) []
    match codePoint? rest with
    | some _ => fail .unterminatedString start behind
    | none => fail (.invalidEscape 'u') start behind
  | ['\\'] => fail .unterminatedString start (c.pass '\\' [])
  | '\\' :: e :: rest =>
    let behind := c.passAll ['\\', e] rest
    match escape? e with
    | some ch => stringFrom start behind (ch :: acc) rest
    | none => fail (.invalidEscape e) start behind
  | ch :: rest => stringFrom start (c.pass ch rest) (ch :: acc) rest

/-- The character that a literal names. -/
def namedChar? (name : List Char) : Option Char :=
  match name with
  | [ch] => some ch
  | _ =>
    if name = "newline".toList then some '\n'
    else if name = "space".toList then some ' '
    else if name = "tab".toList then some '\t'
    else if name = "return".toList then some '\r'
    else if name = "backspace".toList then some '\x08'
    else if name = "formfeed".toList then some '\x0c'
    else
      match name with
      | 'u' :: digits => if utf8Length name = 5 then codePoint? digits else none
      | _ => none

/-- A character literal; its first character belongs to it even if it is a delimiter. -/
def character (start c : Cursor) : Except LexError (TokenKind × Cursor) :=
  match c.rest with
  | [] => fail (.invalidCharacter "") start c
  | ch :: rest =>
    let (more, behind) := atom (c.pass ch rest)
    match namedChar? (ch :: more) with
    | some value => .ok (.char value, behind)
    | none => fail (.invalidCharacter (String.ofList (ch :: more))) start behind

def keyword (start c : Cursor) : Except LexError (TokenKind × Cursor) :=
  let (raw, behind) := atom c
  match raw.dropWhile (· == ':') with
  | [] => fail (.unexpectedChar ':') start behind
  | name => .ok (.keyword (String.ofList name), behind)

/-- A number whose first character is `first`. -/
def number (start c : Cursor) (first : Char) : Except LexError (TokenKind × Cursor) :=
  let (more, behind) := atom c
  match number? (first :: more) with
  | some kind => .ok (kind, behind)
  | none => fail (.invalidNumber (String.ofList (first :: more))) start behind

/-- A symbol whose first character is `first`; three names are literals. -/
def symbol (c : Cursor) (first : Char) : TokenKind × Cursor :=
  let (more, behind) := atom c
  let name := String.ofList (first :: more)
  if name = "nil" then (.nil, behind)
  else if name = "true" then (.true, behind)
  else if name = "false" then (.false, behind)
  else (.symbol name, behind)

/-- The tokens of one character. -/
def mark? : Char → Option TokenKind
  | '(' => some .leftParen
  | ')' => some .rightParen
  | '[' => some .leftBracket
  | ']' => some .rightBracket
  | '{' => some .leftBrace
  | '}' => some .rightBrace
  | '\'' => some .quote
  | '@' => some .atSign
  | '^' => some .caret
  | _ => none

/-- Whether a number begins here. -/
def startsNumber (ch : Char) (rest : List Char) : Bool :=
  ch.isDigit || ((ch = '+' || ch = '-') && (rest.head?.any Char.isDigit))

/-- The token that begins with `ch` at `start`. -/
def kindAt (start : Cursor) (ch : Char) (rest : List Char) :
    Except LexError (TokenKind × Cursor) :=
  let c := start.pass ch rest
  match mark? ch with
  | some kind => .ok (kind, c)
  | none =>
    if ch = '#' then
      match rest with
      | '{' :: more => .ok (.hashBrace, c.pass '{' more)
      | '_' :: more => .ok (.discard, c.pass '_' more)
      | _ => fail (.unexpectedChar '#') start c
    else if ch = '"' then (stringFrom start c [] rest).map fun p => (.str p.1, p.2)
    else if ch = '\\' then character start c
    else if ch = ':' then keyword start c
    else if startsNumber ch rest then number start c ch
    else .ok (symbol c ch)

/-- The next token and the place behind it. -/
def next (c : Cursor) : Except LexError (Token × Cursor) :=
  let start := skip c
  match start.rest with
  | [] => .ok (⟨.eof, start.spanTo start⟩, start)
  | ch :: rest =>
    match kindAt start ch rest with
    | .ok (kind, behind) => .ok (⟨kind, start.spanTo behind⟩, behind)
    | .error e => .error e

/-! ## Progress -/

theorem length_skipFrom_le (inComment : Bool) (c : Cursor) (cs : List Char) :
    (skipFrom inComment c cs).rest.length ≤ cs.length := by
  induction cs generalizing inComment c with
  | nil => simp [skipFrom]
  | cons ch rest ih =>
    unfold skipFrom
    split
    · exact Nat.le_succ_of_le (ih _ _)
    · split
      · exact Nat.le_succ_of_le (ih _ _)
      · split
        · exact Nat.le_succ_of_le (ih _ _)
        · split
          · exact Nat.le_succ_of_le (ih _ _)
          · exact Nat.le_refl _

theorem length_skip_le (c : Cursor) : (skip c).rest.length ≤ c.rest.length :=
  length_skipFrom_le _ _ _

theorem length_atom_le (c : Cursor) : (atom c).2.rest.length ≤ c.rest.length :=
  (List.dropWhile_suffix _).length_le

theorem length_stringFrom_lt {start c : Cursor} {acc cs : List Char} {s : String} {d : Cursor}
    (h : stringFrom start c acc cs = .ok (s, d)) : d.rest.length < cs.length := by
  fun_induction stringFrom start c acc cs with
  | case1 => simp [fail] at h
  | case2 => cases h; simp [Cursor.pass]
  | case3 _ _ rest ih => have := ih h; simp only [List.length_cons]; omega
  | case4 _ _ _ _ _ _ rest _ _ _ ih => have := ih h; simp only [List.length_cons]; omega
  | case5 => simp [fail] at h
  | case6 => simp [fail] at h
  | case7 => simp [fail] at h
  | case8 => simp [fail] at h
  | case9 _ _ _ rest _ _ _ _ _ ih => have := ih h; simp only [List.length_cons]; omega
  | case10 => simp [fail] at h
  | case11 _ _ _ rest _ _ _ _ _ _ ih => have := ih h; simp only [List.length_cons]; omega

theorem length_character_lt {start c : Cursor} {k : TokenKind} {d : Cursor}
    (h : character start c = .ok (k, d)) : d.rest.length < c.rest.length := by
  unfold character at h
  split at h
  · simp [fail] at h
  · rename_i ch rest hc
    have := length_atom_le (c.pass ch rest)
    revert h
    rcases hm : atom (c.pass ch rest) with ⟨more, behind⟩
    rw [hm] at this
    simp only [Cursor.pass] at this
    intro h
    dsimp only at h
    split at h
    · cases h; rw [hc, List.length_cons]; omega
    · simp [fail] at h

theorem length_keyword_le {start c : Cursor} {k : TokenKind} {d : Cursor}
    (h : keyword start c = .ok (k, d)) : d.rest.length ≤ c.rest.length := by
  have := length_atom_le c
  unfold keyword at h
  revert h
  rcases hm : atom c with ⟨raw, behind⟩
  rw [hm] at this
  intro h
  dsimp only at h this
  split at h
  · simp [fail] at h
  · cases h; exact this

theorem length_number_le {start c : Cursor} {first : Char} {k : TokenKind} {d : Cursor}
    (h : number start c first = .ok (k, d)) : d.rest.length ≤ c.rest.length := by
  have := length_atom_le c
  unfold number at h
  revert h
  rcases hm : atom c with ⟨raw, behind⟩
  rw [hm] at this
  intro h
  dsimp only at h this
  split at h
  · cases h; exact this
  · simp [fail] at h

theorem length_symbol_le (c : Cursor) (first : Char) :
    (symbol c first).2.rest.length ≤ c.rest.length := by
  have := length_atom_le c
  unfold symbol
  rcases hm : atom c with ⟨raw, behind⟩
  rw [hm] at this
  dsimp only
  split
  · exact this
  · split
    · exact this
    · split <;> exact this

theorem length_kindAt_le {start : Cursor} {ch : Char} {rest : List Char} {k : TokenKind}
    {d : Cursor} (h : kindAt start ch rest = .ok (k, d)) : d.rest.length ≤ rest.length := by
  unfold kindAt at h
  dsimp only at h
  split at h
  · cases h; exact Nat.le_refl _
  split at h
  · split at h
    · cases h; exact Nat.le_succ _
    · cases h; exact Nat.le_succ _
    · simp [fail] at h
  split at h
  · rcases hs : stringFrom start (start.pass ch rest) [] rest with e | ⟨s, b⟩
    · rw [hs] at h; simp [Except.map] at h
    · rw [hs] at h
      cases h
      exact Nat.le_of_lt (length_stringFrom_lt hs)
  split at h
  · exact Nat.le_of_lt (length_character_lt h)
  split at h
  · exact length_keyword_le h
  split at h
  · exact length_number_le h
  · have e : symbol (start.pass ch rest) ch = (k, d) := Except.ok.inj h
    have := length_symbol_le (start.pass ch rest) ch
    rw [e] at this
    exact this

/-- A token takes at least one character, or it is the end of the source. -/
theorem next_shorter {c d : Cursor} {t : Token} (h : next c = .ok (t, d)) :
    t.kind.isEof = true ∨ d.rest.length < c.rest.length := by
  have hs := length_skip_le c
  unfold next at h
  dsimp only at h
  split at h
  · cases h; exact .inl rfl
  · rename_i ch rest hr
    rw [hr, List.length_cons] at hs
    split at h
    · rename_i hk
      cases h
      have := length_kindAt_le hk
      exact .inr (by omega)
    · cases h

/-! ## Whole sources -/

/-- Scans on from a place; `acc` holds the tokens so far in reverse. -/
def scanFrom (c : Cursor) (acc : List Token) : List Token × Option LexError :=
  match h : next c with
  | .error e => (acc.reverse, some e)
  | .ok (t, d) =>
    if he : t.kind.isEof = true then ((t :: acc).reverse, none)
    else
      have : d.rest.length < c.rest.length := (next_shorter h).resolve_left he
      scanFrom d (t :: acc)
termination_by c.rest.length

/-- The tokens of a source up to the first fault; without a fault the last one is the end. -/
def scan (source : String) : List Token × Option LexError := scanFrom (.start source) []

def tokens (source : String) : Except LexError (List Token) :=
  match scan source with
  | (ts, none) => .ok ts
  | (_, some e) => .error e

end TwinLisp.Token
