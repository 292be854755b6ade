import TwinLisp.Form.Read
import TwinLisp.Macro.Builtin
import TwinLisp.Proofs.Machine.Faults
import TwinLisp.Proofs.Native.Collections

/-! Forms that code can be made of: their atoms contain no functions, and in a map every key has a
value. The reader yields only such forms, data read back as code are such forms, and the macros of
the language keep to them.

* `Form.Proper`: the property.
* `Form.proper_of_read`, `proper_of_ofValue`, `Macro.proper_of_expandBuiltin`: where it comes from.
* `Form.ofValue_rename`: functions cannot be told apart in data that are read as code. -/

namespace TwinLisp

/-- Atoms contain no functions, and maps have a value for each key. -/
inductive Form.Proper : Form → Prop
  | atom {v span} (h : ∀ ρ : Renaming, v.rename ρ = v) : Proper (.atom v span)
  | symbol {name span} : Proper (.symbol name span)
  | list {items span} (h : ∀ f ∈ items, Proper f) : Proper (.list items span)
  | vector {items span} (h : ∀ f ∈ items, Proper f) : Proper (.vector items span)
  | set {items span} (h : ∀ f ∈ items, Proper f) : Proper (.set items span)
  | map {items span} (hl : items.length % 2 = 0) (h : ∀ f ∈ items, Proper f) :
    Proper (.map items span)

namespace Form

abbrev AllProper (fs : List Form) : Prop := ∀ f ∈ fs, f.Proper

theorem AllProper.nil : AllProper [] := fun _ h => absurd h List.not_mem_nil

theorem AllProper.cons {f : Form} {fs : List Form} (h : f.Proper) (hs : AllProper fs) :
    AllProper (f :: fs) := by
  intro g hg
  rcases List.mem_cons.mp hg with rfl | hg
  · exact h
  · exact hs g hg

theorem AllProper.head {f : Form} {fs : List Form} (h : AllProper (f :: fs)) : f.Proper :=
  h f List.mem_cons_self

theorem AllProper.tail {f : Form} {fs : List Form} (h : AllProper (f :: fs)) : AllProper fs :=
  fun g hg => h g (List.mem_cons_of_mem f hg)

theorem AllProper.reverse {fs : List Form} (h : AllProper fs) : AllProper fs.reverse :=
  fun g hg => h g (List.mem_reverse.mp hg)

theorem Proper.listOf {fs : List Form} {span : Span} (h : (Form.list fs span).Proper) :
    AllProper fs := by
  cases h with
  | list h => exact h

theorem Proper.vectorOf {fs : List Form} {span : Span} (h : (Form.vector fs span).Proper) :
    AllProper fs := by
  cases h with
  | vector h => exact h

/-! ## Reading -/

namespace Reading

/-- Whether everything that has been read is proper. -/
def Proper (r : Reading) : Prop :=
  AllProper r.done ∧ ∀ kind span items, Open.seq kind span items ∈ r.stack → AllProper items

theorem proper_start : start.Proper := ⟨AllProper.nil, fun _ _ _ h => absurd h List.not_mem_nil⟩

theorem proper_wrapped (name : String) (mark : Span) {f : Form} (h : f.Proper) :
    (wrapped name mark f).Proper := .list (AllProper.cons .symbol (AllProper.cons h AllProper.nil))

theorem proper_complete {f : Form} {done : List Form} {stack : List Open} (hf : f.Proper)
    (hd : AllProper done)
    (hs : ∀ kind span items, Open.seq kind span items ∈ stack → AllProper items) :
    (complete f done stack).Proper := by
  induction stack generalizing f with
  | nil => exact ⟨AllProper.cons hf hd, hs⟩
  | cons o rest ih =>
    have hrest := fun kind span items h => hs kind span items (List.mem_cons_of_mem o h)
    cases o with
    | seq kind span items =>
      refine ⟨hd, fun k s is h => ?_⟩
      rcases List.mem_cons.mp h with h | h
      · cases h
        exact AllProper.cons hf (hs _ _ _ List.mem_cons_self)
      · exact hrest k s is h
    | wrap name span => exact ih (proper_wrapped name span hf) hrest
    | metadata span =>
      refine ⟨hd, fun k s is h => ?_⟩
      rcases List.mem_cons.mp h with h | h
      · cases h
      · exact hrest k s is h
    | described span => exact ih hf hrest
    | drop span => exact ⟨hd, hrest⟩

theorem proper_push {r : Reading} (h : r.Proper) {o : Open}
    (ho : ∀ kind span items, o = .seq kind span items → AllProper items) : (r.push o).Proper := by
  refine ⟨h.1, fun k s is hm => ?_⟩
  rcases List.mem_cons.mp hm with hm | hm
  · exact ho k s is hm.symm
  · exact h.2 k s is hm

theorem proper_sequence {kind : Bracket} {span : Span} {items : List Form} {f : Form}
    (hi : AllProper items) (h : sequence kind span items = .ok f) : f.Proper := by
  cases kind with
  | round => cases h; exact .list hi
  | square => cases h; exact .vector hi
  | set => cases h; exact .set hi
  | brace =>
    simp only [sequence] at h
    split at h
    · rename_i hl
      cases h
      exact .map hl hi
    · cases h

theorem proper_close {t : Token} {r next : Reading} (hr : r.Proper) (h : r.close t = .ok next) :
    next.Proper := by
  unfold close at h
  split at h
  · rename_i kind span items rest e
    split at h
    · cases hq : sequence kind span items.reverse with
      | error e => rw [hq] at h; cases h
      | ok f =>
        rw [hq] at h
        cases h
        refine proper_complete (proper_sequence (AllProper.reverse (hr.2 kind span items ?_)) hq)
          hr.1 fun k s is hm => hr.2 k s is ?_
        · rw [e]
          exact List.mem_cons_self
        · rw [e]
          exact List.mem_cons_of_mem _ hm
    · cases h
  · cases h

theorem steady_of_ratio {n d : Int} {v : Value} (h : Number.ratio n d = .ok v) (ρ : Renaming) :
    v.rename ρ = v := by
  have hs : Answer.Steady (Number.ratio n d) := Number.ratio_steady n d
  rw [h] at hs
  exact hs ρ

theorem proper_token {t : Token} {r next : Reading} (hr : r.Proper) (h : r.token t = .ok next) :
    next.Proper := by
  have hatom : ∀ {v : Value}, (∀ ρ : Renaming, v.rename ρ = v) → ∀ {next},
      r.atom (.atom v t.span) = .ok next → next.Proper := by
    intro v hv next h
    cases h
    exact proper_complete (.atom hv) hr.1 hr.2
  simp only [token] at h
  split at h
  case h_1 | h_2 | h_3 | h_4 =>
    cases h
    refine proper_push hr fun k s is e => ?_
    cases e
    exact AllProper.nil
  case h_5 | h_6 | h_7 | h_8 =>
    cases h
    exact proper_push hr fun k s is e => nomatch e
  case h_9 | h_10 | h_11 => exact proper_close hr h
  case h_12 =>
    cases h
    exact proper_complete .symbol hr.1 hr.2
  case h_22 =>
    split at h
    · rename_i e
      unfold ratioAtom at e
      split at e
      · rename_i hv
        cases e
        exact hatom (steady_of_ratio hv) h
      · cases e
    · cases h
  case h_23 =>
    cases h
    exact hr
  all_goals exact hatom (fun _ => rfl) h

theorem proper_tokens {ts : List Token} {r : Reading} {fs : List Form} (hr : r.Proper)
    (h : tokens ts r = .ok fs) : AllProper fs := by
  have hfinish : ∀ {r : Reading}, r.Proper → r.finish = .ok fs → AllProper fs := by
    intro r hr h
    unfold finish at h
    split at h
    · cases h
      exact AllProper.reverse hr.1
    · cases h
  induction ts generalizing r with
  | nil => exact hfinish hr h
  | cons t rest ih =>
    unfold tokens at h
    split at h
    · exact hfinish hr h
    · cases ht : r.token t with
      | ok next => rw [ht] at h; exact ih (proper_token hr ht) h
      | error e => rw [ht] at h; cases h

end Reading

theorem proper_of_read {source : String} {fs : List Form} (h : Form.read source = .ok fs) :
    AllProper fs := by
  unfold Form.read at h
  split at h
  · exact Reading.proper_tokens Reading.proper_start h
  · cases h

/-! ## Data as code -/

mutual

theorem proper_of_ofValue {span : Span} {v : Value} {f : Form} (h : ofValue span v = .ok f) :
    f.Proper := by
  cases v with
  | list xs =>
    rw [ofValue] at h
    cases hx : ofValuesOnto span [] xs with
    | error e => rw [hx] at h; cases h
    | ok fs => rw [hx] at h; cases h; exact .list (proper_of_ofValuesOnto AllProper.nil hx)
  | vector xs =>
    rw [ofValue] at h
    cases hx : ofValuesOnto span [] xs with
    | error e => rw [hx] at h; cases h
    | ok fs => rw [hx] at h; cases h; exact .vector (proper_of_ofValuesOnto AllProper.nil hx)
  | set xs =>
    rw [ofValue] at h
    cases hx : ofValuesOnto span [] xs with
    | error e => rw [hx] at h; cases h
    | ok fs => rw [hx] at h; cases h; exact .set (proper_of_ofValuesOnto AllProper.nil hx)
  | map es =>
    rw [ofValue] at h
    cases hx : ofEntriesOnto span [] es with
    | error e => rw [hx] at h; cases h
    | ok fs =>
      rw [hx] at h
      cases h
      have hp := proper_of_ofEntriesOnto AllProper.nil rfl hx
      exact .map hp.2 hp.1
  | symbol name => cases h; exact .symbol
  | nil | bool | int | ratio | double | decimal | str | char | keyword =>
    cases h
    exact .atom fun _ => rfl
  | _ => cases h

theorem proper_of_ofValuesOnto {span : Span} {acc : List Form} {vs : List Value} {fs : List Form}
    (ha : AllProper acc) (h : ofValuesOnto span acc vs = .ok fs) : AllProper fs := by
  cases vs with
  | nil =>
    cases h
    exact AllProper.reverse ha
  | cons v rest =>
    rw [ofValuesOnto] at h
    cases hv : ofValue span v with
    | error e => rw [hv] at h; cases h
    | ok f =>
      rw [hv] at h
      exact proper_of_ofValuesOnto (AllProper.cons (proper_of_ofValue hv) ha) h

theorem proper_of_ofEntriesOnto {span : Span} {acc : List Form} {es : List (Value × Value)}
    {fs : List Form} (ha : AllProper acc) (hl : acc.length % 2 = 0)
    (h : ofEntriesOnto span acc es = .ok fs) : AllProper fs ∧ fs.length % 2 = 0 := by
  cases es with
  | nil =>
    cases h
    exact ⟨AllProper.reverse ha, by rwa [List.length_reverse]⟩
  | cons e rest =>
    obtain ⟨k, v⟩ := e
    rw [ofEntriesOnto] at h
    cases hk : ofValue span k with
    | error e => rw [hk] at h; cases h
    | ok fk =>
      cases hv : ofValue span v with
      | error e => rw [hk, hv] at h; cases h
      | ok fv =>
        rw [hk, hv] at h
        refine proper_of_ofEntriesOnto (AllProper.cons (proper_of_ofValue hv)
          (AllProper.cons (proper_of_ofValue hk) ha)) ?_ h
        simp only [List.length_cons]
        omega

end

section Renamed

variable {ρ : Renaming} (hρ : ρ.Plain)

include hρ

set_option linter.unusedSectionVars false

theorem unembeddable_rename (v : Value) (span : Span) :
    unembeddable (v.rename ρ) span = unembeddable v span := by
  rw [unembeddable, Value.typeName_rename, Value.readable_rename hρ, unembeddable]

mutual

/-- Data that contain functions are no code, whatever the functions are. -/
theorem ofValue_rename (span : Span) (v : Value) : ofValue span (v.rename ρ) = ofValue span v := by
  cases v with
  | list xs | vector xs | set xs =>
    rw [Value.rename, Value.renameItems_eq_map, ofValue, ofValue, ofValuesOnto_rename]
  | map es => rw [Value.rename, Value.renameEntries_eq_map, ofValue, ofValue, ofEntriesOnto_rename]
  | fn id name | closure id name =>
    rw [Value.rename, hρ]
    rcases Value.ofIdentity_cases (ρ.map (_, id)) name with ⟨k, h⟩ | ⟨k, h⟩ <;> rw [h] <;> rfl
  | exInfo id message data =>
    have h := unembeddable_rename hρ (.exInfo id message data) span
    exact congrArg Except.error h
  | _ => rfl

theorem ofValuesOnto_rename (span : Span) (acc : List Form) (vs : List Value) :
    ofValuesOnto span acc (vs.map (·.rename ρ)) = ofValuesOnto span acc vs := by
  cases vs with
  | nil => rfl
  | cons v rest =>
    rw [List.map_cons, ofValuesOnto, ofValuesOnto, ofValue_rename]
    cases ofValue span v with
    | ok f => exact ofValuesOnto_rename span (f :: acc) rest
    | error e => rfl

theorem ofEntriesOnto_rename (span : Span) (acc : List Form) (es : List (Value × Value)) :
    ofEntriesOnto span acc (es.map (Value.renameEntry ρ)) = ofEntriesOnto span acc es := by
  cases es with
  | nil => rfl
  | cons e rest =>
    obtain ⟨k, v⟩ := e
    rw [List.map_cons, Value.renameEntry, ofEntriesOnto, ofEntriesOnto, ofValue_rename,
      ofValue_rename]
    cases ofValue span k with
    | error e => rfl
    | ok fk =>
      cases ofValue span v with
      | error e => rfl
      | ok fv => exact ofEntriesOnto_rename span (fv :: fk :: acc) rest

end

end Renamed

variable (ρ : Renaming)

mutual

theorem plain_of_ofValue {span : Span} {v : Value} {e : RuntimeError}
    (h : ofValue span v = .error e) : e.cause.Plain := by
  cases v with
  | list xs | vector xs | set xs =>
    rw [ofValue] at h
    cases hx : ofValuesOnto span [] xs with
    | ok fs => rw [hx] at h; cases h
    | error e' => rw [hx] at h; cases h; exact plain_of_ofValuesOnto hx
  | map es =>
    rw [ofValue] at h
    cases hx : ofEntriesOnto span [] es with
    | ok fs => rw [hx] at h; cases h
    | error e' => rw [hx] at h; cases h; exact plain_of_ofEntriesOnto hx
  | fn | closure | native | var | exInfo =>
    cases h
    exact RuntimeFault.plain_typeError _
  | _ => cases h

theorem plain_of_ofValuesOnto {span : Span} {acc : List Form} {vs : List Value} {e : RuntimeError}
    (h : ofValuesOnto span acc vs = .error e) : e.cause.Plain := by
  cases vs with
  | nil => cases h
  | cons v rest =>
    rw [ofValuesOnto] at h
    cases hv : ofValue span v with
    | error e' => rw [hv] at h; cases h; exact plain_of_ofValue hv
    | ok f => rw [hv] at h; exact plain_of_ofValuesOnto h

theorem plain_of_ofEntriesOnto {span : Span} {acc : List Form} {es : List (Value × Value)}
    {e : RuntimeError} (h : ofEntriesOnto span acc es = .error e) : e.cause.Plain := by
  cases es with
  | nil => cases h
  | cons p rest =>
    obtain ⟨k, v⟩ := p
    rw [ofEntriesOnto] at h
    cases hk : ofValue span k with
    | error e' => rw [hk] at h; cases h; exact plain_of_ofValue hk
    | ok fk =>
      cases hv : ofValue span v with
      | error e' => rw [hk, hv] at h; cases h; exact plain_of_ofValue hv
      | ok fv => rw [hk, hv] at h; exact plain_of_ofEntriesOnto h

end

/-! ## Quoted forms -/

theorem pairUp_rename (vs : List Value) :
    pairUp (vs.map (·.rename ρ)) = (pairUp vs).map (Value.renameEntry ρ) := by
  match vs with
  | [] | [_] => rfl
  | k :: v :: rest => rw [List.map_cons, List.map_cons, pairUp, pairUp, pairUp_rename rest]; rfl

mutual

theorem Proper.toValue_steady {f : Form} (h : f.Proper) : f.toValue.rename ρ = f.toValue := by
  cases f with
  | atom v span =>
    cases h with
    | atom h => exact h ρ
  | symbol name span => rfl
  | list items span =>
    cases h with
    | list h =>
      rw [toValue, Value.rename, Value.renameItems_eq_map, AllProper.toValuesOnto_steady h rfl]
  | vector items span =>
    cases h with
    | vector h =>
      rw [toValue, Value.rename, Value.renameItems_eq_map, AllProper.toValuesOnto_steady h rfl]
  | set items span =>
    cases h with
    | set h =>
      rw [toValue, Value.rename, Value.renameItems_eq_map, ← Value.itemsOf_rename,
        AllProper.toValuesOnto_steady h rfl]
  | map items span =>
    cases h with
    | map hl h =>
      rw [toValue, Value.rename, Value.renameEntries_eq_map, ← Value.entriesOf_rename,
        ← pairUp_rename, AllProper.toValuesOnto_steady h rfl]

theorem AllProper.toValuesOnto_steady {fs : List Form} (h : ∀ f ∈ fs, f.Proper) {acc : List Value}
    (ha : acc.map (·.rename ρ) = acc) :
    (toValuesOnto acc fs).map (·.rename ρ) = toValuesOnto acc fs := by
  cases fs with
  | nil => rw [toValuesOnto, List.map_reverse, ha]
  | cons f rest =>
    rw [toValuesOnto]
    refine AllProper.toValuesOnto_steady (fun g hg => h g (List.mem_cons_of_mem f hg)) ?_
    rw [List.map_cons, ha, Proper.toValue_steady (h f List.mem_cons_self)]

end

theorem AllProper.toValues_steady {fs : List Form} (h : AllProper fs) :
    (toValues fs).map (·.rename ρ) = toValues fs := AllProper.toValuesOnto_steady ρ h rfl

end Form

end TwinLisp
