import TwinLisp.Form.Read
import TwinLisp.Proofs.Token.LineEnds

/-! Forms up to byte offsets. The reader computes lines and columns from lines and columns alone, so
tokens that differ in offsets are read as forms that differ in offsets, or are refused with the same
message.

* `Form.spots`: a form with lines and columns for its places.
* `Form.Reading.spot_tokens`: reading tokens up to offsets.
* `Form.readSpots_eq`, `Form.read_blanks`: what the ends of lines have to do with reading. -/

namespace TwinLisp

theorem Span.spot_merge (a b : Span) : (a.merge b).spot = a.spot.merge b.spot := by
  have hfirst : a.spot.startsNoLater b.spot = a.startsNoLater b := rfl
  simp only [merge, hfirst]
  cases a.startsNoLater b <;> rfl

namespace Form

mutual

/-- The form with lines and columns for its places. -/
def spots : Form → Form
  | atom v s => .atom v s.spot
  | symbol name s => .symbol name s.spot
  | list items s => .list (spotsAll items) s.spot
  | vector items s => .vector (spotsAll items) s.spot
  | map items s => .map (spotsAll items) s.spot
  | set items s => .set (spotsAll items) s.spot

/-- Forms with lines and columns for their places. -/
def spotsAll : List Form → List Form
  | [] => []
  | f :: rest => spots f :: spotsAll rest

end

theorem spotsAll_eq_map (fs : List Form) : spotsAll fs = fs.map spots := by
  induction fs with
  | nil => rfl
  | cons f rest ih => rw [spotsAll, ih, List.map_cons]

theorem spotsAll_reverse (fs : List Form) : spotsAll fs.reverse = (spotsAll fs).reverse := by
  rw [spotsAll_eq_map, spotsAll_eq_map, List.map_reverse]

theorem length_spotsAll (fs : List Form) : (spotsAll fs).length = fs.length := by
  rw [spotsAll_eq_map, List.length_map]

@[simp] theorem spots_span (f : Form) : f.spots.span = f.span.spot := by
  cases f <;> rfl

/-! ## Reading -/

/-- What is open, with lines and columns for its places. -/
def Open.spot : Open → Open
  | .seq kind s items => .seq kind s.spot (spotsAll items)
  | .wrap name s => .wrap name s.spot
  | .metadata s => .metadata s.spot
  | .described s => .described s.spot
  | .drop s => .drop s.spot

theorem Open.spot_span (o : Open) : o.spot.span = o.span.spot := by
  cases o <;> rfl

namespace Reading

def spot (r : Reading) : Reading := ⟨r.stack.map Open.spot, spotsAll r.done⟩

theorem spot_complete (f : Form) (done : List Form) (stack : List Open) :
    complete f.spots (spotsAll done) (stack.map Open.spot) = (complete f done stack).spot := by
  induction stack generalizing f with
  | nil => rfl
  | cons o rest ih =>
    cases o with
    | seq | metadata | drop => rfl
    | described s => exact ih f
    | wrap name s =>
      have hwrapped : wrapped name s.spot f.spots = (wrapped name s f).spots := by
        simp only [wrapped, spots, spotsAll, spots_span, Span.spot_merge]
      rw [List.map_cons, Open.spot, complete, complete, hwrapped]
      exact ih _

/-- An outcome with lines and columns for its places. -/
def outcome {α : Type} (change : α → α) (a : Except ReadError α) : Except ReadError α :=
  (a.map change).mapError Located.spot

theorem spot_sequence (kind : Bracket) (s : Span) (items : List Form) :
    sequence kind s.spot (spotsAll items) = outcome spots (sequence kind s items) := by
  cases kind with
  | brace =>
    simp only [sequence, length_spotsAll]
    split <;> rfl
  | _ => rfl

theorem spot_close (t : Token) (r : Reading) : r.spot.close t.spot = outcome spot (r.close t) := by
  obtain ⟨stack, done⟩ := r
  cases stack with
  | nil => rfl
  | cons o rest =>
    cases o with
    | seq kind s items =>
      simp only [close, spot, List.map_cons, Open.spot, Token.spot]
      split
      · rw [← spotsAll_reverse, spot_sequence]
        cases sequence kind s items.reverse with
        | error e => rfl
        | ok f => exact congrArg Except.ok (spot_complete f done rest)
      · rfl
    | _ => rfl

theorem spot_atom (f : Form) (r : Reading) : r.spot.atom f.spots = outcome spot (r.atom f) :=
  congrArg Except.ok (spot_complete f r.done r.stack)

theorem spot_token (t : Token) (r : Reading) : r.spot.token t.spot = outcome spot (r.token t) := by
  obtain ⟨kind, s⟩ := t
  cases kind with
  | rightParen | rightBracket | rightBrace => exact spot_close _ r
  | ratio num den =>
    simp only [token, ratioAtom, Token.spot]
    cases Number.ratio num.toInt den.toInt with
    | error e => rfl
    | ok v => exact spot_atom (.atom v s) r
  | leftParen | leftBracket | leftBrace | hashBrace | quote | atSign | caret | discard | eof => rfl
  | _ =>
    refine .trans ?_ (spot_atom _ r)
    rfl

theorem spot_finish (r : Reading) : r.spot.finish = outcome spotsAll r.finish := by
  obtain ⟨stack, done⟩ := r
  cases stack with
  | nil => exact congrArg Except.ok (spotsAll_reverse done).symm
  | cons o rest =>
    simp only [finish, spot, List.map_cons, Open.spot_span]
    rfl

theorem spot_tokens (ts : List Token) (r : Reading) :
    tokens (ts.map Token.spot) r.spot = outcome spotsAll (tokens ts r) := by
  induction ts generalizing r with
  | nil => exact spot_finish r
  | cons t ts ih =>
    rw [List.map_cons, tokens, tokens]
    change (if t.kind.isEof then _ else _) = _
    split
    · exact spot_finish r
    · rw [spot_token]
      cases r.token t with
      | error e => rfl
      | ok next => exact ih next

theorem tokens_eof (us : List Token) {fin : Token} (h : fin.kind.isEof = true) (r : Reading) :
    tokens (us ++ [fin]) r = tokens us r := by
  induction us generalizing r with
  | nil => exact if_pos h
  | cons t us ih =>
    rw [List.cons_append, tokens, tokens]
    simp only [ih]

end Reading

/-! ## Sources -/

open Reading (outcome spot_tokens tokens_eof)

/-- The forms of a source, with lines and columns for all places. -/
def readSpots (source : String) : Except ReadError (List Form) := outcome spotsAll (read source)

theorem readSpots_of_scan {source : String} {ts : List Token} (h : Token.scan source = (ts, none)) :
    readSpots source = Reading.tokens (ts.map Token.spot) .start := by
  rw [readSpots, read, Token.tokens, h]
  exact (spot_tokens ts .start).symm

theorem readSpots_of_fault {source : String} {ts : List Token} {e : LexError}
    (h : Token.scan source = (ts, some e)) : readSpots source = .error (ReadError.ofLex e.spot) := by
  rw [readSpots, read, Token.tokens, h]
  rfl

theorem readSpots_eq {a b : String} (h : Token.scanSpots a = Token.scanSpots b) :
    readSpots a = readSpots b := by
  obtain ⟨ts, e, ha⟩ : ∃ ts e, Token.scan a = (ts, e) := ⟨_, _, rfl⟩
  obtain ⟨us, f, hb⟩ : ∃ us f, Token.scan b = (us, f) := ⟨_, _, rfl⟩
  rw [Token.scanSpots, Token.scanSpots, ha, hb, Prod.mk.injEq] at h
  obtain ⟨hts, he⟩ := h
  cases e with
  | none =>
    cases f with
    | none => rw [readSpots_of_scan ha, readSpots_of_scan hb, hts]
    | some f => cases he
  | some e =>
    cases f with
    | none => cases he
    | some f => rw [readSpots_of_fault ha, readSpots_of_fault hb, Option.some.inj he]

/-- Blanks at the end make no difference to the forms, nor to the message of a fault, unless the
source before them ends in a token. -/
theorem read_blanks {source : String} (hs : ∀ f ∈ Token.faultOf source, ¬ f.Cut) {bs : String}
    (hb : Text.Blanks bs.toList) :
    (read (source ++ bs)).mapError Located.spot = (read source).mapError Located.spot := by
  have hscan := Token.scan_scanning source
  cases hf : (Token.scan source).2 with
  | some e =>
    rw [hf] at hscan
    have he : ¬ e.cause.Cut := hs e.cause (by rw [Token.faultOf, hf]; rfl)
    obtain ⟨e', h, hspot⟩ := hscan.fault he (Token.blank_head hb)
    rw [← Token.start_append] at h
    rw [read, read, Token.tokens, Token.tokens, Token.scan_eq h, Token.scan_eq hscan]
    exact congrArg (fun e : LexError => Except.error (ReadError.ofLex e)) hspot
  | none =>
    rw [hf] at hscan
    obtain ⟨us, fin, fin', hts, hfin, hfin', h⟩ := hscan.blanks hb
    rw [← Token.start_append] at h
    rw [hts] at hscan
    rw [read, read, Token.tokens, Token.tokens, Token.scan_eq h, Token.scan_eq hscan]
    exact congrArg (Except.mapError Located.spot)
      ((tokens_eof us hfin' .start).trans (tokens_eof us hfin .start).symm)

end Form

end TwinLisp
