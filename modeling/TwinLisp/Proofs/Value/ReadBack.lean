import TwinLisp.Proofs.Form.Conversion
import TwinLisp.Proofs.Form.Grammar
import TwinLisp.Proofs.Token.Atoms

/-! Printed data are read back. The text of a value is scanned as the tokens of one datum, which is
read as a form of this value: the scanner has every atom back, since what follows an atom is a
delimiter or the end, and the grammar has the collections back.

* `Scans`: the tokens between two places.
* `Value.Legible`: the values whose text is read back.
* `Value.ReadsBack`: the text of a value before a delimiter is a datum of this value.
* `Value.readable_reads_back`: a legible value is read from its text. -/

namespace TwinLisp

open Form Token

/-! ## Between two places -/

/-- The tokens between two places; blanks and commas may stand before them. -/
inductive Scans : Cursor → List Token → Cursor → Prop
  | nil {c} : Scans c [] c
  | pass {c ch rest ts d} (hc : c.rest = ch :: rest) (hch : ch ∈ [' ', ','])
    (h : Scans (c.pass ch rest) ts d) : Scans c ts d
  | token {c t c' ts d} (hn : next c = .ok (t, c')) (he : t.kind.isEof = false)
    (h : Scans c' ts d) : Scans c (t :: ts) d

theorem Scans.append {a b c : Cursor} {ts us : List Token} (h : Scans a ts b)
    (hu : Scans b us c) : Scans a (ts ++ us) c := by
  induction h with
  | nil => exact hu
  | pass hc hch _ ih => exact .pass hc hch (ih hu)
  | token hn he _ ih => exact .token hn he (ih hu)

theorem Scans.single {c d : Cursor} {t : Token} (hn : next c = .ok (t, d))
    (he : t.kind.isEof = false) : Scans c [t] d :=
  .token hn he .nil

theorem next_pass {c : Cursor} {ch : Char} {rest : List Char} (hc : c.rest = ch :: rest)
    (hch : ch ∈ [' ', ',']) : next c = next (c.pass ch rest) := by
  have hskip : skip c = skip (c.pass ch rest) := by
    have hall : ∀ ch ∈ [' ', ','], ch ≠ '\n' ∧ (Text.isBlank ch || ch = ',') = true :=
      List.all_iff_forall_prop.mp (by decide)
    obtain ⟨hn, hb⟩ := hall ch hch
    rw [skip, hc, skipFrom, if_neg hn, if_neg Bool.false_ne_true, if_pos hb]
    rfl
  rw [next, next, hskip]

/-- What the scanner has found behind the tokens so far. -/
theorem Scans.scanFrom {c d : Cursor} {ts : List Token} (h : Scans c ts d) (acc : List Token) :
    Token.scanFrom c acc = Token.scanFrom d (ts.reverse ++ acc) := by
  induction h generalizing acc with
  | nil => rfl
  | pass hc hch _ ih => rw [scanFrom_congr (next_pass hc hch), ih acc]
  | token hn he _ ih =>
    rw [scanFrom_token hn he, ih, List.reverse_cons, List.append_assoc]
    rfl

theorem tokens_of_scans {source : String} {ts : List Token} {d : Cursor}
    (h : Scans (.start source) ts d) (hd : d.rest = []) :
    ∃ fin, Token.tokens source = .ok (ts ++ [fin]) ∧ fin.kind.isEof = true := by
  have hskip : (skip d).rest = [] := by
    rw [skip, hd]
    rfl
  have hn : next d = .ok (⟨.eof, (skip d).spanTo (skip d)⟩, skip d) := by
    rw [next, hskip]
  refine ⟨⟨.eof, (skip d).spanTo (skip d)⟩, ?_, rfl⟩
  rw [Token.tokens, scan, h.scanFrom, scanFrom_eof hn rfl]
  simp

/-! ## Brackets -/

/-- A text is scanned as one token, whatever follows. -/
def Opens (cs : List Char) (kind : TokenKind) : Prop :=
  ∀ (c : Cursor) (rest : List Char), c.rest = cs ++ rest →
    ∃ t d, next c = .ok (t, d) ∧ t.kind = kind ∧ d.rest = rest

theorem opens_mark {ch : Char} {kind : TokenKind} (hs : separates ch = false)
    (hm : mark? ch = some kind) : Opens [ch] kind := by
  intro c rest hc
  have hk : kindAt c ch rest = .ok (kind, c.pass ch rest) := by
    simp only [kindAt, hm]
  exact ⟨_, _, next_eq hc hs hk, rfl, rfl⟩

theorem opens_set : Opens ['#', '{'] .hashBrace := fun c rest hc =>
  ⟨_, (c.pass '#' ('{' :: rest)).pass '{' rest, next_eq hc (by decide) rfl, rfl, rfl⟩

namespace Value

/-! ## Values that are read back -/

/-- Data without functions, whose names can be scanned, whose ratios are in lowest terms, whose
strings are shown by their characters and one-character escapes, and whose collections have no
element and no key twice. -/
inductive Legible : Value → Prop
  | nil : Legible .nil
  | bool {b} : Legible (.bool b)
  | int {n} : Legible (.int n)
  | ratio {r : Ratio} (hone : 1 < r.den.toInt) (hg : Int.gcd r.num.toInt r.den.toInt = 1) :
    Legible (.ratio r)
  | char {c} : Legible (.char c)
  | keyword {name} (h : Scanned (.keyword name)) : Legible (.keyword name)
  | symbol {name} (h : Scanned (.symbol name)) : Legible (.symbol name)
  | str {s : String} (h : ∀ c ∈ s.toList, Shown c) : Legible (.str s)
  | list {items} (h : ∀ v ∈ items, Legible v) : Legible (.list items)
  | vector {items} (h : ∀ v ∈ items, Legible v) : Legible (.vector items)
  | set {items} (h : ∀ v ∈ items, Legible v) (hd : items.Pairwise fun a b => same b a = false) :
    Legible (.set items)
  | map {entries : List (Value × Value)} (hk : ∀ e ∈ entries, Legible e.1)
    (hv : ∀ e ∈ entries, Legible e.2) (hd : entries.Pairwise fun a b => same b.1 a.1 = false) :
    Legible (.map entries)

/-- The text of the value before a delimiter or the end is a datum that is read as the value. -/
def ReadsBack (v : Value) : Prop :=
  ∀ (c : Cursor) (rest : List Char), c.rest = v.readable.toList ++ rest → Ended rest →
    ∃ ts f d, Scans c ts d ∧ d.rest = rest ∧ Datum ts f ∧ f.toValue = v

theorem readsBack_atom {v : Value} {kind : TokenKind} (hr : Reads v.readable.toList kind)
    (he : kind.isEof = false)
    (h : ∀ s : Span, ∃ f, Atomic s kind f ∧ f.toValue = v) : v.ReadsBack := by
  intro c rest hc hrest
  obtain ⟨t, d, hn, rfl, hd⟩ := hr c rest hc hrest
  obtain ⟨f, hf, hv⟩ := h t.span
  exact ⟨[t], f, d, .single hn he, hd, .atom hf, hv⟩

/-! ## Items -/

theorem toList_writeItems_cons (more : Bool) (v : Value) (items : List Value) :
    (writeItems true "" more (v :: items)).toList =
      (if more then [' '] else []) ++ (v.readable.toList ++ (writeItems true "" true items).toList) := by
  rw [writeItems, writeItems_append, write_append]
  cases more <;> simp [readable]

theorem ended_writeItems {items : List Value} {rest : List Char} (hr : Ended rest) :
    Ended ((writeItems true "" true items).toList ++ rest) := by
  cases items with
  | nil => simpa [writeItems] using hr
  | cons v items =>
    rw [toList_writeItems_cons]
    exact ended_cons (by decide)

theorem items_readBack {items : List Value} (h : ∀ v ∈ items, v.ReadsBack) (more : Bool) (c : Cursor)
    (rest : List Char) (hc : c.rest = (writeItems true "" more items).toList ++ rest)
    (hr : Ended rest) : ∃ ts fs d, Scans c ts d ∧ d.rest = rest ∧ Series ts fs ∧
      fs.map toValue = items := by
  induction items generalizing more c with
  | nil => exact ⟨[], [], c, .nil, by simpa [writeItems] using hc, .nil, rfl⟩
  | cons v items ih =>
    obtain ⟨hv, hitems⟩ := List.forall_mem_cons.mp h
    rw [toList_writeItems_cons, List.append_assoc, List.append_assoc] at hc
    have tail : ∀ c : Cursor,
        c.rest = v.readable.toList ++ ((writeItems true "" true items).toList ++ rest) →
        ∃ ts fs d, Scans c ts d ∧ d.rest = rest ∧ Series ts fs ∧ fs.map toValue = v :: items := by
      intro c hc
      obtain ⟨ts, f, d, hs, hd, hf, hfv⟩ := hv c _ hc (ended_writeItems hr)
      obtain ⟨us, fs, d', hs', hd', hfs, hfsv⟩ := ih hitems true d hd
      exact ⟨ts ++ us, f :: fs, d', hs.append hs', hd', .datum hf hfs, by
        rw [List.map_cons, hfv, hfsv]⟩
    cases more with
    | false => exact tail c hc
    | true =>
      obtain ⟨ts, fs, d, hs, hrest⟩ := tail (c.pass ' ' _) rfl
      exact ⟨ts, fs, d, .pass hc (by decide) hs, hrest⟩

/-! ## Entries -/

theorem toList_writeEntries_cons (more : Bool) (k v : Value) (entries : List (Value × Value)) :
    (writeEntries true "" more ((k, v) :: entries)).toList =
      (if more then [',', ' '] else []) ++ (k.readable.toList ++ ' ' ::
        (v.readable.toList ++ (writeEntries true "" true entries).toList)) := by
  simp only [writeEntries]
  rw [writeEntries_append, write_append _ _ v, write_append _ _ k]
  cases more <;> simp [readable]

theorem ended_writeEntries {entries : List (Value × Value)} {rest : List Char} (hr : Ended rest) :
    Ended ((writeEntries true "" true entries).toList ++ rest) := by
  cases entries with
  | nil => simpa [writeEntries] using hr
  | cons e entries =>
    rw [toList_writeEntries_cons]
    exact ended_cons (by decide)

theorem entries_readBack {entries : List (Value × Value)} (hk : ∀ e ∈ entries, e.1.ReadsBack)
    (hv : ∀ e ∈ entries, e.2.ReadsBack) (more : Bool) (c : Cursor) (rest : List Char)
    (hc : c.rest = (writeEntries true "" more entries).toList ++ rest) (hr : Ended rest) :
    ∃ ts fs d, Scans c ts d ∧ d.rest = rest ∧ Series ts fs ∧ fs.map toValue = unpaired entries := by
  induction entries generalizing more c with
  | nil => exact ⟨[], [], c, .nil, by simpa [writeEntries] using hc, .nil, rfl⟩
  | cons e entries ih =>
    obtain ⟨k, v⟩ := e
    obtain ⟨hke, hkeys⟩ := List.forall_mem_cons.mp hk
    obtain ⟨hve, hvalues⟩ := List.forall_mem_cons.mp hv
    rw [toList_writeEntries_cons, List.append_assoc, List.append_assoc, List.cons_append,
      List.append_assoc] at hc
    have tail : ∀ c : Cursor, c.rest = k.readable.toList ++ ' ' ::
          (v.readable.toList ++ ((writeEntries true "" true entries).toList ++ rest)) →
        ∃ ts fs d, Scans c ts d ∧ d.rest = rest ∧ Series ts fs ∧
          fs.map toValue = unpaired ((k, v) :: entries) := by
      intro c hc
      obtain ⟨ts, f, d, hs, hd, hf, hfk⟩ := hke c _ hc (ended_cons (by decide))
      obtain ⟨us, g, d', hs', hd', hg, hgv⟩ := hve (d.pass ' ' _) _ rfl (ended_writeEntries hr)
      obtain ⟨vs, fs, d'', hs'', hd'', hfs, hfsv⟩ := ih hkeys hvalues true d' hd'
      refine ⟨ts ++ (us ++ vs), f :: g :: fs, d'', ?_, hd'', .datum hf (.datum hg hfs), ?_⟩
      · exact hs.append (.pass hd (by decide) (hs'.append hs''))
      · rw [List.map_cons, List.map_cons, hfk, hgv, hfsv]
        rfl
    cases more with
    | false => exact tail c hc
    | true =>
      obtain ⟨ts, fs, d, hs, hrest⟩ := tail ((c.pass ',' _).pass ' ' _) rfl
      exact ⟨ts, fs, d, .pass hc (by decide) (.pass rfl (by decide) hs), hrest⟩

/-! ## Collections -/

/-- The text is a series of data with these values. -/
def SeriesReadsBack (inner : List Char) (vs : List Value) : Prop :=
  ∀ (c : Cursor) (rest : List Char), c.rest = inner ++ rest → Ended rest →
    ∃ ts fs d, Scans c ts d ∧ d.rest = rest ∧ Series ts fs ∧ fs.map toValue = vs

theorem readsBack_enclosed (opening : List Char) (close : Char) {v : Value} {inner : List Char}
    {vs : List Value} {o k : TokenKind}
    (htext : v.readable.toList = opening ++ (inner ++ [close])) (hopen : Opens opening o)
    (hclose : Opens [close] k) (hend : Text.isDelimiter close = true)
    (hinner : SeriesReadsBack inner vs)
    (hf : ∀ (s : Span) (fs : List Form), fs.map toValue = vs →
      ∃ f, Enclosed s fs o k f ∧ f.toValue = v) : v.ReadsBack := by
  intro c rest hc _
  rw [htext, List.append_assoc, List.append_assoc] at hc
  obtain ⟨t, c₁, hn, rfl, h₁⟩ := hopen c _ hc
  obtain ⟨ts, fs, c₂, hs, h₂, hseries, hvs⟩ := hinner c₁ _ h₁ (ended_cons hend)
  obtain ⟨u, d, hn', rfl, hd⟩ := hclose c₂ rest h₂
  obtain ⟨f, henc, hv⟩ := hf t.span fs hvs
  refine ⟨t :: (ts ++ [u]), f, d, ?_, hd, .sequence hseries henc, hv⟩
  exact .token hn henc.ordinary.1 (hs.append (.single hn' henc.ordinary.2))

theorem readsBack_list {items : List Value} (h : ∀ v ∈ items, v.ReadsBack) :
    (Value.list items).ReadsBack := by
  refine readsBack_enclosed ['('] ')' ?_ (opens_mark (by decide) rfl)
    (opens_mark (by decide) rfl) (by decide) (items_readBack h false) fun s fs hfs =>
      ⟨.list fs s, .list, ?_⟩
  · rw [readable, write, writeItems_append]
    simp
  · rw [toValue, toValuesOnto_eq, hfs]
    rfl

theorem readsBack_vector {items : List Value} (h : ∀ v ∈ items, v.ReadsBack) :
    (Value.vector items).ReadsBack := by
  refine readsBack_enclosed ['['] ']' ?_ (opens_mark (by decide) rfl)
    (opens_mark (by decide) rfl) (by decide) (items_readBack h false) fun s fs hfs =>
      ⟨.vector fs s, .vector, ?_⟩
  · rw [readable, write, writeItems_append]
    simp
  · rw [toValue, toValuesOnto_eq, hfs]
    rfl

theorem readsBack_set {items : List Value} (h : ∀ v ∈ items, v.ReadsBack)
    (hd : items.Pairwise fun a b => same b a = false) : (Value.set items).ReadsBack := by
  refine readsBack_enclosed ['#', '{'] '}' ?_ opens_set
    (opens_mark (by decide) rfl) (by decide) (items_readBack h false) fun s fs hfs =>
      ⟨.set fs s, .set, ?_⟩
  · rw [readable, write, writeItems_append]
    simp
  · rw [toValue, toValuesOnto_eq, hfs]
    exact congrArg Value.set (itemsOf_eq hd)

theorem readsBack_map {entries : List (Value × Value)} (hk : ∀ e ∈ entries, e.1.ReadsBack)
    (hv : ∀ e ∈ entries, e.2.ReadsBack) (hd : entries.Pairwise fun a b => same b.1 a.1 = false) :
    (Value.map entries).ReadsBack := by
  refine readsBack_enclosed ['{'] '}' ?_ (opens_mark (by decide) rfl)
    (opens_mark (by decide) rfl) (by decide) (entries_readBack hk hv false) fun s fs hfs =>
      ⟨.map fs s, .map ?_, ?_⟩
  · rw [readable, write, writeEntries_append]
    simp
  · rw [← List.length_map toValue, hfs, length_unpaired]
    omega
  · rw [toValue, toValuesOnto_eq, hfs]
    exact congrArg Value.map ((congrArg entriesOf (pairUp_unpaired entries)).trans (entriesOf_eq hd))

/-! ## All values -/

theorem Legible.readsBack {v : Value} (h : Legible v) : v.ReadsBack := by
  induction h with
  | nil => exact readsBack_atom reads_nil rfl fun s => ⟨_, .nil, rfl⟩
  | @bool b =>
    cases b with
    | true => exact readsBack_atom reads_true rfl fun s => ⟨_, .true, rfl⟩
    | false => exact readsBack_atom reads_false rfl fun s => ⟨_, .false, rfl⟩
  | @int n =>
    have hr : Reads (Value.int n).readable.toList (.int n) := by
      simpa [readable, write, atomText] using reads_int n
    exact readsBack_atom hr rfl fun s => ⟨_, .int, rfl⟩
  | @ratio r hone hg =>
    have hr : Reads (Value.ratio r).readable.toList (.ratio r.num r.den) := by
      simpa [readable, write, atomText] using reads_ratio r.num r.den (by omega)
    exact readsBack_atom hr rfl fun s => ⟨_, .ratio (.proper (by omega) rfl hone hg), rfl⟩
  | @char c =>
    have hr : Reads (Value.char c).readable.toList (.char c) := by
      simpa [readable, write, atomText] using reads_char c
    exact readsBack_atom hr rfl fun s => ⟨_, .char, rfl⟩
  | @keyword name h =>
    obtain ⟨first, more, rfl, hname⟩ := scanned_keyword_iff.mp h
    have hr : Reads (Value.keyword (String.ofList (first :: more))).readable.toList
        (.keyword (String.ofList (first :: more))) := by
      simpa [readable, write, atomText] using reads_keyword hname
    exact readsBack_atom hr rfl fun s => ⟨_, .keyword, rfl⟩
  | @symbol name h =>
    obtain ⟨first, more, rfl, hname⟩ := scanned_symbol_iff.mp h
    have hr : Reads (Value.symbol (String.ofList (first :: more))).readable.toList
        (.symbol (String.ofList (first :: more))) := by
      simpa [readable, write, atomText] using reads_symbol hname
    exact readsBack_atom hr rfl fun s => ⟨_, .symbol, rfl⟩
  | @str x h =>
    have hr : Reads (Value.str x).readable.toList (.str x) := by
      simpa [readable, write, atomText] using reads_str h
    exact readsBack_atom hr rfl fun s => ⟨_, .str, rfl⟩
  | list _ ih => exact readsBack_list ih
  | vector _ ih => exact readsBack_vector ih
  | set _ hd ih => exact readsBack_set ih hd
  | map _ _ hd ihk ihv => exact readsBack_map ihk ihv hd

/-- A legible value is read from its text, alone and unchanged. -/
theorem readable_reads_back {v : Value} (h : Legible v) :
    ∃ f, Form.read v.readable = .ok [f] ∧ f.toValue = v := by
  obtain ⟨ts, f, d, hs, hd, hf, hv⟩ := h.readsBack (.start v.readable) [] (by simp [Cursor.start])
    ended_nil
  obtain ⟨fin, htokens, hfin⟩ := tokens_of_scans hs hd
  refine ⟨f, ?_, hv⟩
  rw [Form.read, htokens]
  exact (tokens_eq_ok_iff hf.ordinary hfin [] [f]).mpr (.of_datum hf)

/-- Brackets, quotes and delimiters as data, a negative number behind a symbol. -/
theorem nested_map_reads_back :
    ∃ f, Form.read (Value.map [(.keyword "k", .list [.symbol "x'#", .int (-1),
        .ratio ⟨-1, 2, by decide, by decide⟩, .char '(', .str "\"\n",
        .set [.nil, .vector []]]), (.bool true, .map [])]).readable = .ok [f] ∧
      f.toValue = Value.map [(.keyword "k", .list [.symbol "x'#", .int (-1),
        .ratio ⟨-1, 2, by decide, by decide⟩, .char '(', .str "\"\n",
        .set [.nil, .vector []]]), (.bool true, .map [])] := by
  have hk : Scanned (.keyword "k") :=
    scanned_keyword_iff.mpr ⟨'k', [], rfl, ⟨List.all_iff_forall_prop.mp (by decide), by decide⟩⟩
  have hx : Scanned (.symbol "x'#") := scanned_symbol_iff.mpr
    ⟨'x', ['\'', '#'], rfl,
      ⟨List.all_iff_forall_prop.mp (by decide), rfl, by decide, rfl, by decide⟩⟩
  refine readable_reads_back (.map ?_ ?_ ?_)
  · simp only [List.forall_mem_cons]
    exact ⟨.keyword hk, .bool, List.forall_mem_nil _⟩
  · simp only [List.forall_mem_cons]
    refine ⟨.list ?_, .map (List.forall_mem_nil _) (List.forall_mem_nil _) .nil,
      List.forall_mem_nil _⟩
    simp only [List.forall_mem_cons]
    refine ⟨.symbol hx, .int, .ratio (by decide) (by decide), .char, .str ?_, .set ?_ ?_,
      List.forall_mem_nil _⟩
    · exact List.all_iff_forall_prop.mp (by decide)
    · simp only [List.forall_mem_cons]
      exact ⟨.nil, .vector (List.forall_mem_nil _), List.forall_mem_nil _⟩
    · simp [same]
  · simp [same]

end Value

end TwinLisp
