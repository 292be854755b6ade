import TwinLisp.Proofs.Form.Placed
import TwinLisp.Proofs.Number.Fraction
import TwinLisp.Proofs.Token.Scanned

/-! The grammar of data. A datum is an atom, a sequence between brackets, or a mark with the operands
it takes; an operand may have discarded data before it, and a series is data with discarded data
among them. The reader accepts the series and nothing else, and reads each as its data.

* `Datum`, `Operand`, `Discarded`, `Series`: the grammar, with the forms that are read.
* `Series.read`: the reader accepts every series.
* `Reading.Progress`: what a reader has read so far, and what it waits for.
* `reads_exactly_the_grammar`: both directions, and what discarded data do. -/

namespace TwinLisp.Form

open Reading

/-! ## The grammar -/

/-- A token that is a datum by itself. A ratio is one if its value is a number. -/
inductive Atomic (s : Span) : TokenKind → Form → Prop
  | symbol {name} : Atomic s (.symbol name) (.symbol name s)
  | keyword {name} : Atomic s (.keyword name) (.atom (.keyword name) s)
  | str {x} : Atomic s (.str x) (.atom (.str x) s)
  | char {c} : Atomic s (.char c) (.atom (.char c) s)
  | int {n} : Atomic s (.int n) (.atom (.int n) s)
  | ratio {num den v} (h : Fraction num.toInt den.toInt v) :
    Atomic s (.ratio num den) (.atom v s)
  | double {d} : Atomic s (.double d) (.atom (.double d) s)
  | decimal {d} : Atomic s (.decimal d) (.atom (.decimal d) s)
  | nil : Atomic s .nil (.atom .nil s)
  | true : Atomic s .true (.atom (.bool true) s)
  | false : Atomic s .false (.atom (.bool false) s)

/-- The tokens around a sequence, and the form it is read as. -/
inductive Enclosed (s : Span) (items : List Form) : TokenKind → TokenKind → Form → Prop
  | list : Enclosed s items .leftParen .rightParen (.list items s)
  | vector : Enclosed s items .leftBracket .rightBracket (.vector items s)
  | set : Enclosed s items .hashBrace .rightBrace (.set items s)
  | map (he : items.length % 2 = 0) : Enclosed s items .leftBrace .rightBrace (.map items s)

/-- The marks that are written out as a call. -/
inductive Mark : TokenKind → String → Prop
  | quote : Mark .quote "quote"
  | deref : Mark .atSign "deref"

mutual

/-- A datum, and what it is read as. -/
inductive Datum : List Token → Form → Prop
  | atom {t f} (h : Atomic t.span t.kind f) : Datum [t] f
  | sequence {o ts fs c f} (hs : Series ts fs) (h : Enclosed o.span fs o.kind c.kind f) :
    Datum (o :: (ts ++ [c])) f
  | marked {t name ts f} (hm : Mark t.kind name) (h : Operand ts f) :
    Datum (t :: ts) (.list [.symbol name t.span, f] (t.span.merge f.span))
  | described {t ts m us f} (ht : t.kind = .caret) (hm : Operand ts m) (h : Operand us f) :
    Datum (t :: (ts ++ us)) f

/-- What a mark takes: a datum, with discarded data before it. -/
inductive Operand : List Token → Form → Prop
  | datum {ts f} (h : Datum ts f) : Operand ts f
  | discarded {ts us f} (hd : Discarded ts) (h : Operand us f) : Operand (ts ++ us) f

inductive Discarded : List Token → Prop
  | mk {t ts f} (ht : t.kind = .discard) (h : Operand ts f) : Discarded (t :: ts)

/-- Data one after the other, with discarded data among them. -/
inductive Series : List Token → List Form → Prop
  | nil : Series [] []
  | datum {ts f us fs} (h : Datum ts f) (hs : Series us fs) : Series (ts ++ us) (f :: fs)
  | discarded {ts us fs} (hd : Discarded ts) (hs : Series us fs) : Series (ts ++ us) fs

end

theorem Series.append {ts us : List Token} {fs gs : List Form} (h : Series ts fs)
    (hu : Series us gs) : Series (ts ++ us) (fs ++ gs) := by
  match h with
  | .nil => exact hu
  | .datum hd hs =>
    rw [List.append_assoc]
    exact .datum hd (hs.append hu)
  | .discarded hd hs =>
    rw [List.append_assoc]
    exact .discarded hd (hs.append hu)

theorem Series.of_datum {ts : List Token} {f : Form} (h : Datum ts f) : Series ts [f] := by
  have := Series.datum h .nil
  rwa [List.append_nil] at this

theorem Series.of_discarded {ts : List Token} (h : Discarded ts) : Series ts [] := by
  have := Series.discarded h .nil
  rwa [List.append_nil] at this

/-- A series without data stands before a datum in an operand. -/
theorem Series.operand {ts us : List Token} {fs : List Form} {f : Form} (h : Series ts fs)
    (hfs : fs = []) (hu : Operand us f) : Operand (ts ++ us) f := by
  match h with
  | .nil => exact hu
  | .datum _ _ => cases hfs
  | .discarded hd hs =>
    rw [List.append_assoc]
    exact .discarded hd (hs.operand hfs hu)

/-! ## Every series is read -/

namespace Reading

/-- A reader after further tokens, none of them the last. -/
def after : List Token → Reading → Except ReadError Reading
  | [], r => .ok r
  | t :: rest, r => (r.token t).bind (after rest)

theorem after_append (ts us : List Token) (r : Reading) :
    after (ts ++ us) r = (after ts r).bind (after us) := by
  induction ts generalizing r with
  | nil => rfl
  | cons t ts ih =>
    simp only [List.cons_append, after]
    cases r.token t with
    | error e => rfl
    | ok r => exact ih r

theorem after_eq_ok {ts us : List Token} {r r' : Reading} (h : after ts r = .ok r') :
    after (ts ++ us) r = after us r' := by
  rw [after_append, h]
  rfl

/-- Reading up to the last token. -/
theorem tokens_eq {ts : List Token} {fin : Token} (hts : ∀ t ∈ ts, t.kind.isEof = false)
    (hfin : fin.kind.isEof = true) (rest : List Token) (r : Reading) :
    tokens (ts ++ fin :: rest) r = (after ts r).bind finish := by
  induction ts generalizing r with
  | nil => simp [tokens, hfin, after, Except.bind]
  | cons t ts ih =>
    have ht := hts t List.mem_cons_self
    simp only [List.cons_append, tokens, after, ht, Bool.false_eq_true, if_false]
    cases r.token t with
    | error e => rfl
    | ok r => exact ih (fun u hu => hts u (List.mem_cons_of_mem t hu)) r

/-- Hands over data one after the other. -/
def gather : List Form → Reading → Reading
  | [], r => r
  | f :: rest, r => gather rest (complete f r.done r.stack)

theorem gather_seq (fs : List Form) (kind : Bracket) (s : Span) (items done : List Form)
    (stack : List Open) :
    gather fs ⟨.seq kind s items :: stack, done⟩ = ⟨.seq kind s (fs.reverse ++ items) :: stack, done⟩ := by
  induction fs generalizing items with
  | nil => rfl
  | cons f fs ih => rw [gather, complete, ih, List.reverse_cons, List.append_assoc]; rfl

theorem gather_start (fs done : List Form) : gather fs ⟨[], done⟩ = ⟨[], fs.reverse ++ done⟩ := by
  induction fs generalizing done with
  | nil => rfl
  | cons f fs ih => rw [gather, complete, ih, List.reverse_cons, List.append_assoc]; rfl

theorem token_atomic {t : Token} {f : Form} (h : Atomic t.span t.kind f) (r : Reading) :
    r.token t = .ok (complete f r.done r.stack) := by
  obtain ⟨kind, span⟩ := t
  cases h with
  | ratio h => simp only [token, ratioAtom, Number.ratio_eq_ok_iff.mpr h]; rfl
  | _ => rfl

theorem token_open {o c : TokenKind} {s : Span} {fs : List Form} {f : Form}
    (h : Enclosed s fs o c f) : ∃ kind, closes c kind = true ∧ sequence kind s fs = .ok f ∧
      c.isClosing = true ∧ ∀ r : Reading, r.token ⟨o, s⟩ = .ok (r.push (.seq kind s [])) := by
  cases h with
  | list => exact ⟨.round, rfl, rfl, rfl, fun _ => rfl⟩
  | vector => exact ⟨.square, rfl, rfl, rfl, fun _ => rfl⟩
  | set => exact ⟨.set, rfl, rfl, rfl, fun _ => rfl⟩
  | map he => exact ⟨.brace, rfl, by rw [sequence, if_pos he], rfl, fun _ => rfl⟩

theorem token_of_isClosing {t : Token} (h : t.kind.isClosing = true) (r : Reading) :
    r.token t = r.close t := by
  obtain ⟨kind, span⟩ := t
  cases kind <;> first | rfl | cases h

end Reading

mutual

theorem Datum.read {ts : List Token} {f : Form} (h : Datum ts f) (r : Reading) :
    after ts r = .ok (complete f r.done r.stack) := by
  match h with
  | .atom h =>
    simp only [after, token_atomic h]
    rfl
  | @Datum.sequence o ts fs c _ hs h =>
    obtain ⟨kind, hclose, hseq, hc, hopen⟩ := token_open h
    have hitems := hs.read (r.push (.seq kind o.span []))
    rw [push, gather_seq, List.append_nil] at hitems
    rw [after, hopen, Except.bind, push, after_eq_ok hitems, after, token_of_isClosing hc, close]
    simp only [hclose, if_true, List.reverse_reverse, hseq]
    rfl
  | @Datum.marked t name _ _ hm h =>
    have hopen : r.token t = .ok (r.push (.wrap name t.span)) := by
      obtain ⟨kind, span⟩ := t
      cases hm <;> rfl
    rw [after, hopen, Except.bind, h.read]
    rfl
  | .described (t := t) ht hm h =>
    have hopen : r.token t = .ok (r.push (.metadata t.span)) := by
      obtain ⟨kind, span⟩ := t
      cases ht
      rfl
    rw [after, hopen, Except.bind, after_eq_ok (hm.read _), push, complete, h.read]
    rfl

theorem Operand.read {ts : List Token} {f : Form} (h : Operand ts f) (r : Reading) :
    after ts r = .ok (complete f r.done r.stack) := by
  match h with
  | .datum h => exact h.read r
  | .discarded hd h =>
    rw [after_eq_ok (hd.read r)]
    exact h.read r

theorem Discarded.read {ts : List Token} (h : Discarded ts) (r : Reading) :
    after ts r = .ok r := by
  match h with
  | .mk (t := t) ht h =>
    have hopen : r.token t = .ok (r.push (.drop t.span)) := by
      obtain ⟨kind, span⟩ := t
      cases ht
      rfl
    rw [after, hopen, Except.bind, h.read]
    rfl

theorem Series.read {ts : List Token} {fs : List Form} (h : Series ts fs) (r : Reading) :
    after ts r = .ok (gather fs r) := by
  match h with
  | .nil => rfl
  | .datum hd hs =>
    rw [after_eq_ok (hd.read r)]
    exact hs.read _
  | .discarded hd hs =>
    rw [after_eq_ok (hd.read r)]
    exact hs.read r

end

/-! ## Nothing else is read -/

namespace Reading

/-- What a reader has read, by what is open and the finished forms. An open mark has nothing but
discarded data behind it. -/
inductive Progress : List Open → List Form → List Token → Prop
  | top {ts fs} (h : Series ts fs) : Progress [] fs.reverse ts
  | seq {stack done ts o kind us fs} (h : Progress stack done ts)
    (ho : ∀ (gs : List Form) (c : TokenKind) (f : Form), closes c kind = true →
      sequence kind o.span gs = .ok f → Enclosed o.span gs o.kind c f)
    (hs : Series us fs) : Progress (.seq kind o.span fs.reverse :: stack) done (ts ++ o :: us)
  | wrap {stack done ts t name us} (h : Progress stack done ts) (hm : Mark t.kind name)
    (hs : Series us []) : Progress (.wrap name t.span :: stack) done (ts ++ t :: us)
  | metadata {stack done ts t us} (h : Progress stack done ts) (ht : t.kind = .caret)
    (hs : Series us []) : Progress (.metadata t.span :: stack) done (ts ++ t :: us)
  | described {stack done ts t us m vs} (h : Progress stack done ts) (ht : t.kind = .caret)
    (hm : Operand us m) (hs : Series vs []) :
    Progress (.described t.span :: stack) done (ts ++ t :: (us ++ vs))
  | drop {stack done ts t us} (h : Progress stack done ts) (ht : t.kind = .discard)
    (hs : Series us []) : Progress (.drop t.span :: stack) done (ts ++ t :: us)

variable {stack : List Open} {done : List Form} {ts us : List Token}

theorem Progress.discarded (h : Progress stack done ts) (hu : Series us []) :
    Progress stack done (ts ++ us) := by
  cases h with
  | @top _ fs h =>
    have := Progress.top (h.append hu)
    rwa [List.append_nil] at this
  | seq h ho hs =>
    rw [List.append_assoc, List.cons_append]
    have := hs.append hu
    rw [List.append_nil] at this
    exact .seq h ho this
  | wrap h hm hs =>
    rw [List.append_assoc, List.cons_append]
    exact .wrap h hm (hs.append hu)
  | metadata h ht hs =>
    rw [List.append_assoc, List.cons_append]
    exact .metadata h ht (hs.append hu)
  | described h ht hm hs =>
    rw [List.append_assoc, List.cons_append, List.append_assoc]
    exact .described h ht hm (hs.append hu)
  | drop h ht hs =>
    rw [List.append_assoc, List.cons_append]
    exact .drop h ht (hs.append hu)

theorem Progress.complete {f : Form} (h : Progress stack done ts) (hu : Datum us f) :
    Progress (complete f done stack).stack (complete f done stack).done (ts ++ us) := by
  induction h generalizing us f with
  | @top _ fs h =>
    have := Progress.top (h.append (.of_datum hu))
    rwa [List.reverse_append] at this
  | @seq _ _ _ _ _ _ fs h ho hs =>
    rw [List.append_assoc, List.cons_append]
    have := Progress.seq h ho (hs.append (.of_datum hu))
    rwa [List.reverse_append] at this
  | wrap _ hm hs ih =>
    rw [List.append_assoc, List.cons_append]
    exact ih (.marked hm (hs.operand rfl (.datum hu)))
  | metadata h ht hs =>
    rw [List.append_assoc, List.cons_append]
    have := Progress.described h ht (hs.operand rfl (.datum hu)) .nil
    rwa [List.append_nil] at this
  | described _ ht hm hs ih =>
    rw [List.append_assoc, List.cons_append, List.append_assoc]
    exact ih (.described ht hm (hs.operand rfl (.datum hu)))
  | drop h ht hs =>
    rw [List.append_assoc, List.cons_append]
    exact h.discarded (.of_discarded (.mk ht (hs.operand rfl (.datum hu))))

theorem enclosed_of_closes {s : Span} {o : TokenKind} {kind : Bracket}
    (h : (o, kind) ∈ [(TokenKind.leftParen, Bracket.round), (.leftBracket, .square),
      (.hashBrace, .set), (.leftBrace, .brace)]) (gs : List Form) (c : TokenKind) (f : Form)
    (hc : closes c kind = true) (hs : sequence kind s gs = .ok f) : Enclosed s gs o c f := by
  simp only [List.mem_cons, Prod.mk.injEq, List.not_mem_nil, or_false] at h
  rcases h with ⟨rfl, rfl⟩ | ⟨rfl, rfl⟩ | ⟨rfl, rfl⟩ | ⟨rfl, rfl⟩
  · cases c <;> first | cases hc
    cases hs
    exact .list
  · cases c <;> first | cases hc
    cases hs
    exact .vector
  · cases c <;> first | cases hc
    cases hs
    exact .set
  · cases c <;> first | cases hc
    rw [sequence] at hs
    split at hs
    · cases hs
      exact .map ‹_›
    · cases hs

theorem Progress.close {r r' : Reading} {t : Token} (h : Progress r.stack r.done ts)
    (ht : r.close t = .ok r') : Progress r'.stack r'.done (ts ++ [t]) := by
  obtain ⟨stack, done⟩ := r
  rw [Reading.close] at ht
  cases h with
  | @seq stack done ts o kind us fs h ho hs =>
    simp only [List.reverse_reverse] at ht
    split at ht
    · rename_i hc
      cases hf : sequence kind o.span fs with
      | error e => rw [hf] at ht; cases ht
      | ok f =>
        rw [hf] at ht
        cases ht
        rw [List.append_assoc, List.cons_append]
        exact h.complete (.sequence hs (ho fs t.kind f hc hf))
    · cases ht
  | _ => cases ht

theorem Progress.token {r r' : Reading} {t : Token} (h : Progress r.stack r.done ts)
    (he : t.kind.isEof = false) (ht : r.token t = .ok r') :
    Progress r'.stack r'.done (ts ++ [t]) := by
  obtain ⟨kind, span⟩ := t
  have atom : ∀ {f : Form}, Atomic span kind f → r.token ⟨kind, span⟩ = .ok r' →
      Progress r'.stack r'.done (ts ++ [⟨kind, span⟩]) := by
    intro f hf hr
    rw [token_atomic (t := ⟨kind, span⟩) hf] at hr
    cases hr
    exact h.complete (.atom hf)
  cases kind with
  | leftParen | leftBracket | leftBrace | hashBrace =>
    cases ht
    exact h.seq (o := ⟨_, span⟩) (enclosed_of_closes (by simp)) .nil
  | quote => cases ht; exact h.wrap (t := ⟨.quote, span⟩) .quote .nil
  | atSign => cases ht; exact h.wrap (t := ⟨.atSign, span⟩) .deref .nil
  | caret => cases ht; exact h.metadata (t := ⟨.caret, span⟩) rfl .nil
  | discard => cases ht; exact h.drop (t := ⟨.discard, span⟩) rfl .nil
  | rightParen | rightBracket | rightBrace => exact h.close ht
  | ratio num den =>
    cases hv : Number.ratio num.toInt den.toInt with
    | error e => simp [Reading.token, ratioAtom, hv] at ht
    | ok v => exact atom (.ratio (Number.ratio_eq_ok_iff.mp hv)) ht
  | eof => cases he
  | symbol name => exact atom .symbol ht
  | keyword name => exact atom .keyword ht
  | str x => exact atom .str ht
  | char c => exact atom .char ht
  | int n => exact atom .int ht
  | double d => exact atom .double ht
  | decimal d => exact atom .decimal ht
  | nil => exact atom .nil ht
  | true => exact atom .true ht
  | false => exact atom .false ht

theorem Progress.after {r r' : Reading} (h : Progress r.stack r.done ts)
    (hu : ∀ t ∈ us, t.kind.isEof = false) (ha : after us r = .ok r') :
    Progress r'.stack r'.done (ts ++ us) := by
  induction us generalizing ts r with
  | nil =>
    cases ha
    rwa [List.append_nil]
  | cons t us ih =>
    rw [Reading.after] at ha
    cases ht : r.token t with
    | error e => rw [ht] at ha; cases ha
    | ok r₁ =>
      rw [ht] at ha
      have h₁ := h.token (hu t List.mem_cons_self) ht
      have := ih h₁ (fun u hm => hu u (List.mem_cons_of_mem t hm)) ha
      rwa [List.append_assoc] at this

/-- Tokens that are read up to the end are a series. -/
theorem series_of_after {fs : List Form} (hts : ∀ t ∈ ts, t.kind.isEof = false)
    (h : (after ts start).bind finish = .ok fs) : Series ts fs := by
  cases ha : Reading.after ts start with
  | error e => rw [ha] at h; cases h
  | ok r =>
    rw [ha] at h
    have hp : Progress r.stack r.done ([] ++ ts) := .after (.top .nil) hts ha
    obtain ⟨stack, done⟩ := r
    cases stack with
    | cons o rest => cases h
    | nil =>
      cases h
      cases hp with
      | top hs => simpa using hs

end Reading

/-! ## Discarded data make no difference -/

theorem ordinary_of_atomic {s : Span} {k : TokenKind} {f : Form} (h : Atomic s k f) :
    k.isEof = false := by
  cases h <;> rfl

theorem Enclosed.ordinary {s : Span} {fs : List Form} {o c : TokenKind} {f : Form}
    (h : Enclosed s fs o c f) : o.isEof = false ∧ c.isEof = false := by
  cases h <;> exact ⟨rfl, rfl⟩

theorem Mark.ordinary {k : TokenKind} {name : String} (h : Mark k name) : k.isEof = false := by
  cases h <;> rfl

mutual

theorem Datum.ordinary {ts : List Token} {f : Form} (h : Datum ts f) :
    ∀ t ∈ ts, t.kind.isEof = false := by
  match h with
  | .atom h => exact List.forall_mem_singleton.mpr (ordinary_of_atomic h)
  | .sequence hs h =>
    refine List.forall_mem_cons.mpr ⟨h.ordinary.1, List.forall_mem_append.mpr ⟨hs.ordinary, ?_⟩⟩
    exact List.forall_mem_singleton.mpr h.ordinary.2
  | .marked hm h => exact List.forall_mem_cons.mpr ⟨hm.ordinary, h.ordinary⟩
  | .described ht hm h =>
    refine List.forall_mem_cons.mpr ⟨?_, List.forall_mem_append.mpr ⟨hm.ordinary, h.ordinary⟩⟩
    rw [ht]
    rfl

theorem Operand.ordinary {ts : List Token} {f : Form} (h : Operand ts f) :
    ∀ t ∈ ts, t.kind.isEof = false := by
  match h with
  | .datum h => exact h.ordinary
  | .discarded hd h => exact List.forall_mem_append.mpr ⟨hd.ordinary, h.ordinary⟩

theorem Discarded.ordinary {ts : List Token} (h : Discarded ts) :
    ∀ t ∈ ts, t.kind.isEof = false := by
  match h with
  | .mk ht h =>
    refine List.forall_mem_cons.mpr ⟨?_, h.ordinary⟩
    rw [ht]
    rfl

theorem Series.ordinary {ts : List Token} {fs : List Form} (h : Series ts fs) :
    ∀ t ∈ ts, t.kind.isEof = false := by
  match h with
  | .nil => exact nofun
  | .datum hd hs => exact List.forall_mem_append.mpr ⟨hd.ordinary, hs.ordinary⟩
  | .discarded hd hs => exact List.forall_mem_append.mpr ⟨hd.ordinary, hs.ordinary⟩

end

namespace Reading

theorem tokens_of_after {ts : List Token} {r r' : Reading} (us : List Token)
    (hts : ∀ t ∈ ts, t.kind.isEof = false) (h : after ts r = .ok r') :
    tokens (ts ++ us) r = tokens us r' := by
  induction ts generalizing r with
  | nil =>
    cases h
    rfl
  | cons t ts ih =>
    obtain ⟨ht, hts⟩ := List.forall_mem_cons.mp hts
    rw [after] at h
    cases hr : r.token t with
    | error e => rw [hr] at h; cases h
    | ok q =>
      rw [hr] at h
      rw [List.cons_append, tokens, ht, hr]
      exact ih hts h

/-- Discarded data can stand at any place, in sources that are read and in others. -/
theorem tokens_discarded {ks : List Token} (hk : Discarded ks) (us vs : List Token) (r : Reading) :
    tokens (us ++ (ks ++ vs)) r = tokens (us ++ vs) r := by
  induction us generalizing r with
  | nil => exact tokens_of_after vs hk.ordinary (hk.read r)
  | cons t us ih =>
    simp only [List.cons_append, tokens]
    split
    · rfl
    · cases r.token t with
      | error e => rfl
      | ok q => exact ih q

end Reading

/-! ## Whole sources -/

theorem tokens_eq_ok_iff {ts : List Token} {fin : Token} (hts : ∀ t ∈ ts, t.kind.isEof = false)
    (hfin : fin.kind.isEof = true) (rest : List Token) (fs : List Form) :
    Reading.tokens (ts ++ fin :: rest) .start = .ok fs ↔ Series ts fs := by
  rw [tokens_eq hts hfin]
  constructor
  · exact series_of_after hts
  · intro h
    rw [h.read, start, gather_start]
    simp [Except.bind, finish]

/-- The reader accepts the tokens before the first end of a source if they are a series, whatever
stands behind the end, and reads the data of the series in order. Further discarded data, at any
place, change nothing but places. The tokens of every source that is scanned end so. -/
theorem reads_exactly_the_grammar :
    (∀ (ts : List Token) (fin : Token), (∀ t ∈ ts, t.kind.isEof = false) →
      fin.kind.isEof = true → ∀ (rest : List Token) (fs : List Form),
        Reading.tokens (ts ++ fin :: rest) .start = .ok fs ↔ Series ts fs) ∧
    (∀ us vs us' vs' ks : List Token, us'.map Token.kind = us.map Token.kind →
      vs'.map Token.kind = vs.map Token.kind → Discarded ks → ∀ s : Span,
        (Reading.tokens (us' ++ (ks ++ vs')) .start).toOption.map (placedAll s) =
          (Reading.tokens (us ++ vs) .start).toOption.map (placedAll s)) ∧
    ∀ (source : String) (us : List Token), Token.tokens source = .ok us →
      ∃ ts fin, us = ts ++ [fin] ∧ (∀ t ∈ ts, t.kind.isEof = false) ∧ fin.kind.isEof = true ∧
        ∀ fs, read source = .ok fs ↔ Series ts fs := by
  refine ⟨fun ts fin hts hfin => tokens_eq_ok_iff hts hfin, ?_, ?_⟩
  · intro us vs us' vs' ks hu hv hk s
    rw [tokens_discarded hk]
    have hkinds : (us' ++ vs').map Token.kind = (us ++ vs).map Token.kind := by
      rw [List.map_append, List.map_append, hu, hv]
    exact placed_tokens hkinds rfl
  · intro source us hus
    obtain ⟨ts, fin, rfl, hfin, hts⟩ := Token.tokens_ends hus
    refine ⟨ts, fin, rfl, hts, hfin, fun fs => ?_⟩
    rw [read, hus]
    exact tokens_eq_ok_iff hts hfin [] fs

end TwinLisp.Form
