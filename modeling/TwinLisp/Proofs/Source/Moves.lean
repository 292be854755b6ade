import TwinLisp.Source.Cursor
import Mathlib.Data.List.Induction

/-! Movements over a source.

* `columnFrom`: the column behind a text, which begins anew behind every newline.
* `Cursor.Moves`: from one place to another over a text. Of the newlines in the text some may be
  missed: the line does not count them.
* `Spells`: the characters of a source between two byte offsets. -/

namespace TwinLisp

/-! ## Bytes -/

theorem foldl_utf8Size (cs : List Char) (n : Nat) :
    cs.foldl (fun n c => n + c.utf8Size) n = n + utf8Length cs := by
  unfold utf8Length
  induction cs generalizing n with
  | nil => rfl
  | cons c cs ih => rw [List.foldl_cons, List.foldl_cons, ih, ih (0 + _), Nat.zero_add, Nat.add_assoc]

@[simp] theorem utf8Length_nil : utf8Length [] = 0 := rfl

theorem utf8Length_cons (c : Char) (cs : List Char) :
    utf8Length (c :: cs) = c.utf8Size + utf8Length cs := by
  rw [utf8Length, List.foldl_cons, foldl_utf8Size, Nat.zero_add]

theorem utf8Length_append (cs ds : List Char) :
    utf8Length (cs ++ ds) = utf8Length cs + utf8Length ds := by
  rw [utf8Length, List.foldl_append, foldl_utf8Size, foldl_utf8Size, Nat.zero_add]

theorem utf8Length_pos {cs : List Char} (h : cs ≠ []) : 0 < utf8Length cs := by
  cases cs with
  | nil => exact absurd rfl h
  | cons c cs =>
    have := c.utf8Size_pos
    rw [utf8Length_cons]
    omega

theorem utf8Length_toList (s : String) : utf8Length s.toList = s.utf8ByteSize := by
  have hlist : ∀ cs : List Char, (String.ofList cs).utf8ByteSize = utf8Length cs := by
    intro cs
    induction cs with
    | nil => simp
    | cons c cs ih =>
      rw [← List.singleton_append, String.ofList_append, String.utf8ByteSize_append, ih,
        List.singleton_append, utf8Length_cons]
      simp
  rw [← hlist, String.ofList_toList]

/-- The characters of a source from byte `start` to byte `stop`, both of which lie between
characters. -/
def Spells (source : String) (start stop : Nat) (text : List Char) : Prop :=
  ∃ before after, source.toList = before ++ text ++ after ∧ utf8Length before = start ∧
    utf8Length before + utf8Length text = stop

theorem Spells.lt {source : String} {start stop : Nat} {text : List Char}
    (h : Spells source start stop text) (hne : text ≠ []) : start < stop := by
  obtain ⟨before, after, -, rfl, rfl⟩ := h
  have := utf8Length_pos hne
  omega

theorem eq_of_utf8Length {before before' rest rest' : List Char}
    (h : before ++ rest = before' ++ rest') (hlen : utf8Length before = utf8Length before') :
    before = before' := by
  induction before generalizing before' with
  | nil =>
    cases before' with
    | nil => rfl
    | cons c cs =>
      have := utf8Length_pos (List.cons_ne_nil c cs)
      rw [utf8Length_nil] at hlen
      omega
  | cons c cs ih =>
    cases before' with
    | nil =>
      have := utf8Length_pos (List.cons_ne_nil c cs)
      rw [utf8Length_nil] at hlen
      omega
    | cons d ds =>
      rw [List.cons_append, List.cons_append, List.cons.injEq] at h
      obtain ⟨rfl, h⟩ := h
      rw [utf8Length_cons, utf8Length_cons] at hlen
      rw [ih h (by omega)]

theorem Spells.unique {source : String} {start stop : Nat} {text text' : List Char}
    (h : Spells source start stop text) (h' : Spells source start stop text') : text = text' := by
  obtain ⟨before, after, hsource, hstart, hstop⟩ := h
  obtain ⟨before', after', hsource', hstart', hstop'⟩ := h'
  have hall := hsource.symm.trans hsource'
  rw [List.append_assoc, List.append_assoc] at hall
  obtain rfl := eq_of_utf8Length hall (hstart.trans hstart'.symm)
  exact eq_of_utf8Length (List.append_cancel_left hall) (by omega)

/-! ## Columns -/

/-- The column behind a text that begins at a column. -/
def columnFrom (column : Nat) (cs : List Char) : Nat :=
  cs.foldl (fun column c => if c = '\n' then 1 else column + 1) column

theorem columnFrom_append (column : Nat) (cs ds : List Char) :
    columnFrom column (cs ++ ds) = columnFrom (columnFrom column cs) ds :=
  List.foldl_append

theorem columnFrom_of_notMem {cs : List Char} (h : '\n' ∉ cs) (column : Nat) :
    columnFrom column cs = column + cs.length := by
  induction cs generalizing column with
  | nil => rfl
  | cons c cs ih =>
    rw [List.mem_cons, not_or] at h
    have hc : c ≠ '\n' := Ne.symm h.1
    change columnFrom (if c = '\n' then 1 else column + 1) cs = _
    rw [if_neg hc, ih h.2, List.length_cons]
    omega

/-- The column behind a text counts the characters since the last newline. -/
theorem columnFrom_one (cs : List Char) :
    columnFrom 1 cs = 1 + (cs.reverse.takeWhile (· ≠ '\n')).length := by
  induction cs using List.reverseRecOn with
  | nil => rfl
  | append_singleton cs c ih =>
    rw [columnFrom_append, ih, List.reverse_append]
    by_cases hc : c = '\n'
    · simp [columnFrom, hc]
    · simp [columnFrom, hc, Nat.add_assoc]

/-! ## Movements -/

namespace Cursor

/-- The text `cs` lies between the places `c` and `d`; `missed` of its newlines are not counted. -/
structure Moves (missed : Nat) (c : Cursor) (cs : List Char) (d : Cursor) : Prop where
  rest : c.rest = cs ++ d.rest
  offset : d.offset = c.offset + utf8Length cs
  line : d.line + missed = c.line + cs.count '\n'
  column : missed = 0 → d.column = columnFrom c.column cs

theorem Moves.refl (c : Cursor) : Moves 0 c [] c where
  rest := rfl
  offset := rfl
  line := rfl
  column _ := rfl

theorem Moves.trans {m n : Nat} {c d e : Cursor} {cs ds : List Char} (h : Moves m c cs d)
    (h' : Moves n d ds e) : Moves (m + n) c (cs ++ ds) e where
  rest := by rw [h.rest, h'.rest, List.append_assoc]
  offset := by rw [h'.offset, h.offset, utf8Length_append, Nat.add_assoc]
  line := by
    have h₁ := h.line
    have h₂ := h'.line
    rw [List.count_append]
    omega
  column hz := by
    rw [h'.column (by omega), h.column (by omega), columnFrom_append]

theorem moves_pass {c : Cursor} {ch : Char} {rest : List Char} (hc : c.rest = ch :: rest)
    (hn : ch ≠ '\n') : Moves 0 c [ch] (c.pass ch rest) where
  rest := hc
  offset := by simp [Cursor.pass, utf8Length_cons]
  line := by simp [Cursor.pass, hn]
  column _ := by simp [Cursor.pass, columnFrom, hn]

theorem moves_passNewline {c : Cursor} {rest : List Char} (hc : c.rest = '\n' :: rest) :
    Moves 0 c ['\n'] (c.passNewline rest) where
  rest := hc
  offset := rfl
  line := rfl
  column _ := rfl

theorem moves_passAll {c : Cursor} {cs rest : List Char} (hc : c.rest = cs ++ rest)
    (hn : '\n' ∉ cs) : Moves 0 c cs (c.passAll cs rest) where
  rest := hc
  offset := rfl
  line := by simp [Cursor.passAll, List.count_eq_zero_of_not_mem hn]
  column _ := by simp [Cursor.passAll, columnFrom_of_notMem hn]

/-- Passing a newline like any other character misses it. -/
theorem moves_pass_newline {c : Cursor} {rest : List Char} (hc : c.rest = '\n' :: rest) :
    Moves 1 c ['\n'] (c.pass '\n' rest) where
  rest := hc
  offset := by simp [Cursor.pass, utf8Length_cons]
  line := by simp [Cursor.pass]
  column h := by cases h

end Cursor

end TwinLisp
