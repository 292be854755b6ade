import TwinLisp.Form.Read

/-! Forms up to their places. Tokens of the same kinds are read as forms that differ in their places
alone, or are refused alike.

* `Form.placed`: the form with one place everywhere.
* `Form.Reading.placed_tokens`: reading tokens of the same kinds. -/

namespace TwinLisp.Form

mutual

def placed (s : Span) : Form → Form
  | atom v _ => .atom v s
  | symbol name _ => .symbol name s
  | list items _ => .list (placedAll s items) s
  | vector items _ => .vector (placedAll s items) s
  | map items _ => .map (placedAll s items) s
  | set items _ => .set (placedAll s items) s

def placedAll (s : Span) : List Form → List Form
  | [] => []
  | f :: rest => placed s f :: placedAll s rest

end

theorem placedAll_eq_map (s : Span) (fs : List Form) : placedAll s fs = fs.map (placed s) := by
  induction fs with
  | nil => rfl
  | cons f rest ih => rw [placedAll, ih, List.map_cons]

theorem placedAll_reverse (s : Span) (fs : List Form) :
    placedAll s fs.reverse = (placedAll s fs).reverse := by
  rw [placedAll_eq_map, placedAll_eq_map, List.map_reverse]

theorem length_placedAll (s : Span) (fs : List Form) : (placedAll s fs).length = fs.length := by
  rw [placedAll_eq_map, List.length_map]

/-! ## Reading -/

def Open.placed (s : Span) : Open → Open
  | .seq kind _ items => .seq kind s (placedAll s items)
  | .wrap name _ => .wrap name s
  | .metadata _ => .metadata s
  | .described _ => .described s
  | .drop _ => .drop s

namespace Reading

/-- A reader with one place for all it has read. -/
def placed (s : Span) (r : Reading) : Reading := ⟨r.stack.map (Open.placed s), placedAll s r.done⟩

variable {s : Span}

/-- Outcomes of reading that differ in places alone, or are both faults. -/
def Alike (s : Span) (a b : Except ReadError Reading) : Prop :=
  a.toOption.map (placed s) = b.toOption.map (placed s)

theorem placed_complete {f g : Form} (hf : g.placed s = f.placed s) {done done' : List Form}
    (hd : placedAll s done' = placedAll s done) {stack stack' : List Open}
    (hs : stack'.map (Open.placed s) = stack.map (Open.placed s)) :
    (complete g done' stack').placed s = (complete f done stack).placed s := by
  induction stack generalizing f g stack' with
  | nil =>
    cases stack' with
    | nil => simp only [complete, placed, placedAll, hf, hd]
    | cons o rest => cases hs
  | cons o rest ih =>
    cases stack' with
    | nil => cases hs
    | cons o' rest' =>
      obtain ⟨ho, hr⟩ := List.cons.inj hs
      cases o with
      | wrap name span =>
        cases o' <;> cases ho
        rw [complete, complete]
        exact ih (by simp only [wrapped, Form.placed, placedAll, hf]) hr
      | described span =>
        cases o' <;> cases ho
        rw [complete, complete]
        exact ih hf hr
      | metadata span =>
        cases o' <;> cases ho
        simp only [complete, placed, List.map_cons, hr, hd, Open.placed]
      | drop span =>
        cases o' <;> cases ho
        simp only [complete, placed, hr, hd]
      | seq kind span items =>
        cases o' with
        | seq kind' span' items' =>
          simp only [Open.placed, Open.seq.injEq, true_and] at ho
          simp only [complete, placed, List.map_cons, Open.placed, placedAll, ho, hr, hd, hf]
        | _ => cases ho

variable {r q : Reading}

theorem atom_alike (h : q.placed s = r.placed s) {f g : Form} (hf : g.placed s = f.placed s) :
    Alike s (q.atom g) (r.atom f) := by
  have hs := congrArg Reading.stack h
  have hd := congrArg Reading.done h
  exact congrArg some (placed_complete hf hd hs)

theorem sequence_alike (kind : Bracket) (a b : Span) {items items' : List Form}
    (h : placedAll s items' = placedAll s items) :
    (sequence kind b items').toOption.map (Form.placed s) =
      (sequence kind a items).toOption.map (Form.placed s) := by
  have hl : items'.length = items.length := by
    rw [← length_placedAll s items', h, length_placedAll]
  cases kind with
  | brace =>
    simp only [sequence, hl]
    split
    · simp only [Except.toOption, Option.map_some, Form.placed, h]
    · rfl
  | _ => simp only [sequence, Except.toOption, Option.map_some, Form.placed, h]

theorem close_alike (h : q.placed s = r.placed s) {t u : Token} (hk : u.kind = t.kind) :
    Alike s (q.close u) (r.close t) := by
  obtain ⟨stack, done⟩ := r
  obtain ⟨stack', done'⟩ := q
  have hs : stack'.map (Open.placed s) = stack.map (Open.placed s) := congrArg Reading.stack h
  have hd : placedAll s done' = placedAll s done := congrArg Reading.done h
  unfold close
  cases stack with
  | nil =>
    cases stack' with
    | nil => rfl
    | cons o rest => cases hs
  | cons o rest =>
    cases stack' with
    | nil => cases hs
    | cons o' rest' =>
      obtain ⟨ho, hr⟩ := List.cons.inj hs
      cases o with
      | seq kind span items =>
        cases o' with
        | seq kind' span' items' =>
          simp only [Open.placed, Open.seq.injEq, true_and] at ho
          obtain ⟨rfl, hi⟩ := ho
          simp only [hk]
          split
          · have hi : placedAll s items'.reverse = placedAll s items.reverse := by
              rw [placedAll_reverse, placedAll_reverse, hi]
            have hseq := sequence_alike kind' span span' hi
            cases hf : sequence kind' span items.reverse with
            | error e =>
              cases hg : sequence kind' span' items'.reverse with
              | error e' => rfl
              | ok g => rw [hf, hg] at hseq; cases hseq
            | ok f =>
              cases hg : sequence kind' span' items'.reverse with
              | error e' => rw [hf, hg] at hseq; cases hseq
              | ok g =>
                rw [hf, hg] at hseq
                exact congrArg some (placed_complete (Option.some.inj hseq) hd hr)
          · rfl
        | _ => cases ho
      | _ => cases o' <;> first | rfl | cases ho

theorem push_alike (h : q.placed s = r.placed s) {o o' : Open} (ho : o'.placed s = o.placed s) :
    Alike s (.ok (q.push o')) (.ok (r.push o)) := by
  have hs : q.stack.map (Open.placed s) = r.stack.map (Open.placed s) := congrArg Reading.stack h
  have hd : placedAll s q.done = placedAll s r.done := congrArg Reading.done h
  exact congrArg some (by simp only [push, placed, List.map_cons, hs, hd, ho])

theorem token_alike (h : q.placed s = r.placed s) {t u : Token} (hk : u.kind = t.kind) :
    Alike s (q.token u) (r.token t) := by
  obtain ⟨kind, a⟩ := t
  obtain ⟨_, b⟩ := u
  cases hk
  cases kind with
  | leftParen | leftBracket | leftBrace | hashBrace | quote | atSign | caret | discard =>
    exact push_alike h rfl
  | rightParen | rightBracket | rightBrace => exact close_alike h rfl
  | ratio num den =>
    simp only [token, ratioAtom]
    cases Number.ratio num.toInt den.toInt with
    | error e => rfl
    | ok v => exact atom_alike h rfl
  | eof => exact congrArg some h
  | _ => exact atom_alike h rfl

theorem finish_alike (h : q.placed s = r.placed s) :
    q.finish.toOption.map (placedAll s) = r.finish.toOption.map (placedAll s) := by
  obtain ⟨stack, done⟩ := r
  obtain ⟨stack', done'⟩ := q
  have hs : stack'.map (Open.placed s) = stack.map (Open.placed s) := congrArg Reading.stack h
  have hd : placedAll s done' = placedAll s done := congrArg Reading.done h
  cases stack <;> cases stack' <;> first | cases hs | skip
  · exact congrArg some (by rw [placedAll_reverse, placedAll_reverse, hd])
  · rfl

theorem placed_tokens {ts us : List Token} (hk : us.map Token.kind = ts.map Token.kind)
    (h : q.placed s = r.placed s) :
    (tokens us q).toOption.map (placedAll s) = (tokens ts r).toOption.map (placedAll s) := by
  induction ts generalizing us q r with
  | nil =>
    cases us with
    | nil => exact finish_alike h
    | cons u us => cases hk
  | cons t ts ih =>
    cases us with
    | nil => cases hk
    | cons u us =>
      obtain ⟨hkind, hrest⟩ := List.cons.inj hk
      have ht := token_alike h hkind
      simp only [tokens, hkind]
      split
      · exact finish_alike h
      · cases hq : q.token u with
        | error e =>
          cases hr : r.token t with
          | error e' => rfl
          | ok r' => rw [hq, hr] at ht; cases ht
        | ok q' =>
          cases hr : r.token t with
          | error e' => rw [hq, hr] at ht; cases ht
          | ok r' =>
            rw [hq, hr] at ht
            exact ih hrest (Option.some.inj ht)

end Reading

end TwinLisp.Form
