import TwinLisp.Proofs.Token.Appended

/-! The ends of lines. Blanks at the end of a line make no difference to the scan but to offsets,
unless the line ends inside a token.

* `Span.spot`, `scanSpots`: the tokens and the fault of a source up to offsets.
* `scanSpots_newline`: blanks before a newline.
* `scan_blanks`: blanks at the end. -/

namespace TwinLisp

/-! ## Places without offsets -/

/-- The line and column of a span. -/
def Span.spot (s : Span) : Span := ⟨0, 0, s.line, s.column⟩

theorem Span.spot_eq {s t : Span} (hl : s.line = t.line) (hc : s.column = t.column) :
    s.spot = t.spot := by
  rw [spot, spot, hl, hc]

@[simp] theorem Span.spot_text (s : Span) : s.spot.text = s.text := rfl

def Located.spot {κ : Type} (e : Located κ) : Located κ := ⟨e.cause, e.span.spot⟩

namespace Token

open Text Cursor

def spot (t : Token) : Token := ⟨t.kind, t.span.spot⟩

@[simp] theorem spot_shift (k : Nat) (t : Token) : (t.shift k).spot = t.spot := rfl

theorem shift_zero (t : Token) : t.shift 0 = t := rfl

theorem map_shift_zero (ts : List Token) : ts.map (shift 0) = ts := by
  rw [show shift 0 = id from funext shift_zero, List.map_id]

theorem map_spot_shift (k : Nat) (ts : List Token) : (ts.map (shift k)).map spot = ts.map spot := by
  rw [List.map_map]
  exact List.map_congr_left fun t _ => spot_shift k t

/-- The tokens of a source and the fault that ends its scan, up to offsets. -/
def scanSpots (source : String) : List Token × Option LexError :=
  ((scan source).1.map spot, (scan source).2.map Located.spot)

/-- The fault that ends the scan of a source. -/
def faultOf (source : String) : Option LexFault := (scan source).2.map (·.cause)

theorem faultOf_eq {a b : String} (h : scanSpots a = scanSpots b) : faultOf a = faultOf b := by
  have hcause : ∀ source, faultOf source = (scanSpots source).2.map (·.cause) := fun source => by
    rw [scanSpots, Option.map_map]
    rfl
  rw [hcause, hcause, h]

/-! ## Other offsets -/

theorem skip_shift (k : Nat) (c : Cursor) : skip (c.onto k []) = (skip c).onto k [] := by
  cases hr : (skip c).rest with
  | cons ch rest => exact skipFrom_onto hr k []
  | nil =>
    obtain ⟨b, h⟩ := skip_onto hr
    rw [h, skipFrom, Cursor.onto, hr]
    rfl

theorem blank_nil : ∀ ch ∈ ([] : List Char).head?, isBlank ch = true := nofun

theorem Scanning.shift {c : Cursor} {ts : List Token} {e : Option LexError} (h : Scanning c ts e)
    (k : Nat) : ∃ ts' e', Scanning (c.onto k []) ts' e' ∧ ts'.map spot = ts.map spot ∧
      e'.map Located.spot = e.map Located.spot := by
  obtain ⟨us, fin, d, rfl, hus, hfin⟩ := h.passing
  have hus' := hus.onto blank_nil k
  cases hfin with
  | fault he =>
    obtain ⟨e', he', hcause, hline, hcolumn⟩ := next_onto_fault blank_nil he
      (fun hne => absurd rfl hne) k
    refine ⟨_, some e', hus'.scanning (.stop he'), ?_, ?_⟩
    · rw [List.append_nil, List.append_nil, map_spot_shift]
    · rw [Option.map_some, Option.map_some, Located.spot, Located.spot, hcause,
        Span.spot_eq hline hcolumn]
  | fin ht he =>
    obtain ⟨hrest, rfl⟩ := end_of_next ht he
    have hrest' : (skip (d.onto k [])).rest = [] := by
      rw [skip_shift, onto_rest, hrest, List.append_nil]
    refine ⟨_, none, hus'.scanning (.last (next_of_end hrest') rfl), ?_, rfl⟩
    rw [List.map_append, List.map_append, map_spot_shift, skip_shift]
    rfl

/-! ## The ends of lines -/

theorem blank_head {bs : List Char} (h : Blanks bs) : ∀ ch ∈ bs.head?, isBlank ch = true :=
  fun ch hch => h ch (List.mem_of_mem_head? hch)

theorem blank_head_newline {bs : List Char} (h : Blanks bs) (rest : List Char) :
    ∀ ch ∈ (bs ++ '\n' :: rest).head?, isBlank ch = true := by
  cases bs with
  | nil =>
    rintro _ ⟨⟩
    rfl
  | cons ch bs => exact fun x hx => h x (List.mem_of_mem_head? hx)

/-- Behind the end of a source and some blanks the scan goes on with the next line. -/
theorem Scanning.newline {c : Cursor} {ts : List Token} (h : Scanning c ts none) :
    ∃ (us : List Token) (d : Cursor), ∀ bs, Blanks bs → '\n' ∉ bs → ∀ rest ts' e',
      Scanning ⟨rest, d.offset + utf8Length bs + 1, d.line + 1, 1⟩ ts' e' →
        Scanning (c.onto 0 (bs ++ '\n' :: rest)) (us ++ ts') e' := by
  obtain ⟨us, fin, d, rfl, hus, hfin⟩ := h.passing
  cases hfin with
  | fin ht he =>
    obtain ⟨b, hb⟩ := skip_onto (end_of_next ht he).1
    refine ⟨us, skip d, fun bs hbs hn rest ts' e' hscan => ?_⟩
    have hpass := hus.onto (blank_head_newline hbs rest) 0
    rw [map_shift_zero] at hpass
    refine hpass.scanning (.congr (next_of_skip_eq ?_) hscan)
    rw [hb, skipFrom_newline hbs hn]
    rfl

theorem Scanning.fault {c : Cursor} {ts : List Token} {e : LexError} (h : Scanning c ts (some e))
    (he : ¬ e.cause.Cut) {more : List Char} (hm : ∀ ch ∈ more.head?, isBlank ch = true) :
    ∃ e', Scanning (c.onto 0 more) ts (some e') ∧ e'.spot = e.spot := by
  obtain ⟨us, fin, d, rfl, hus, hfin⟩ := h.passing
  cases hfin with
  | fault hf =>
    obtain ⟨e', he', hcause, hline, hcolumn⟩ := next_onto_fault hm hf (fun _ => he) 0
    have hpass := hus.onto hm 0
    rw [map_shift_zero] at hpass
    refine ⟨e', hpass.scanning (.stop he'), ?_⟩
    rw [Located.spot, Located.spot, hcause, Span.spot_eq hline hcolumn]

/-- Blanks at the end belong to no token. -/
theorem Scanning.blanks {c : Cursor} {ts : List Token} (h : Scanning c ts none) {bs : List Char}
    (hb : Blanks bs) : ∃ us fin fin', ts = us ++ [fin] ∧ fin.kind.isEof = true ∧
      fin'.kind.isEof = true ∧ Scanning (c.onto 0 bs) (us ++ [fin']) none := by
  obtain ⟨us, fin, d, rfl, hus, hfin⟩ := h.passing
  cases hfin with
  | fin ht he =>
    obtain ⟨b, hskip⟩ := skip_onto (end_of_next ht he).1
    have hrest : (skip (d.onto 0 bs)).rest = [] := by rw [hskip, skipFrom_blanks hb]
    have hpass := hus.onto (blank_head hb) 0
    rw [map_shift_zero] at hpass
    exact ⟨us, _, _, rfl, he, rfl, hpass.scanning (.last (next_of_end hrest) rfl)⟩

/-! ## Sources -/

theorem start_append (a b : String) : Cursor.start (a ++ b) = (Cursor.start a).onto 0 b.toList := by
  rw [Cursor.start, String.toList_append]
  rfl

/-- Blanks before a newline make no difference but to offsets, unless the source before them ends in
a token. -/
theorem scanSpots_newline {source : String} (hs : ∀ f ∈ faultOf source, ¬ f.Cut) {bs : String}
    (hb : Blanks bs.toList) (hn : '\n' ∉ bs.toList) (rest : String) :
    scanSpots (source ++ (bs ++ ("\n" ++ rest))) = scanSpots (source ++ ("\n" ++ rest)) := by
  have hscan := scan_scanning source
  have htail : ∀ bs : String, (bs ++ ("\n" ++ rest)).toList = bs.toList ++ '\n' :: rest.toList :=
    fun bs => by simp
  have hempty : ("\n" ++ rest).toList = [] ++ '\n' :: rest.toList := by simp
  cases hf : (scan source).2 with
  | some e =>
    rw [hf] at hscan
    have he : ¬ e.cause.Cut := hs e.cause (by rw [faultOf, hf]; rfl)
    obtain ⟨e₁, h₁, hspot₁⟩ := hscan.fault he (blank_head_newline hb rest.toList)
    obtain ⟨e₂, h₂, hspot₂⟩ := hscan.fault he (@blank_head_newline [] nofun rest.toList)
    rw [← htail, ← start_append] at h₁
    rw [← hempty, ← start_append] at h₂
    simp only [scanSpots, scan_eq h₁, scan_eq h₂, Option.map_some, hspot₁, hspot₂]
  | none =>
    rw [hf] at hscan
    obtain ⟨us, d, hgo⟩ := hscan.newline
    let line : Cursor := ⟨rest.toList, d.offset + 0 + 1, d.line + 1, 1⟩
    obtain ⟨ts, e, hline⟩ : ∃ ts e, Scanning line ts e := by
      obtain ⟨ts, -, h⟩ := scanFrom_scanning line []
      exact ⟨ts, _, h⟩
    obtain ⟨ts', e', hline', hts, he⟩ := hline.shift (utf8Length bs.toList)
    have h₂ := hgo [] nofun List.not_mem_nil rest.toList ts e hline
    have h₁ := hgo bs.toList hb hn rest.toList ts' e' (by
      have hsame : line.onto (utf8Length bs.toList) [] =
          ⟨rest.toList, d.offset + utf8Length bs.toList + 1, d.line + 1, 1⟩ := by
        simp only [line, Cursor.onto, List.append_nil, Nat.add_zero, Nat.add_right_comm]
      rwa [hsame] at hline')
    rw [← htail, ← start_append] at h₁
    rw [← hempty, ← start_append] at h₂
    simp only [scanSpots, scan_eq h₁, scan_eq h₂, List.map_append, hts, he]

end Token

end TwinLisp
