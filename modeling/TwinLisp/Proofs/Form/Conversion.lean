import TwinLisp.Form.Data
import TwinLisp.Proofs.Form.Placed
import TwinLisp.Proofs.Value.Distinct

/-! Code and data. A form without equal keys and elements is had back from its data, up to places, and
data without functions, Vars and raised values are had back from their form, so whatever a macro
passes through unchanged is the code it was given.

* `Form.Distinct`: the forms that lose nothing as data.
* `Form.ofValue_toValue`, `Form.toValue_of_ofValue`: there and back.
* `Form.isOk_ofValue_iff`: which data can be code. -/

namespace TwinLisp

namespace Value

/-- Keys and values in turn. -/
def unpaired (entries : List (Value × Value)) : List Value := entries.flatMap fun e => [e.1, e.2]

open Form

theorem toValuesOnto_eq (acc : List Value) (fs : List Form) :
    toValuesOnto acc fs = acc.reverse ++ fs.map toValue := by
  induction fs generalizing acc with
  | nil => simp [toValuesOnto]
  | cons f fs ih => simp [toValuesOnto, ih]

theorem pairUp_unpaired (entries : List (Value × Value)) : pairUp (unpaired entries) = entries := by
  induction entries with
  | nil => rfl
  | cons e entries ih =>
    change (e.1, e.2) :: pairUp (unpaired entries) = e :: entries
    rw [ih]

theorem forall_mem_unpaired {P : Value → Prop} {entries : List (Value × Value)} :
    (∀ v ∈ unpaired entries, P v) ↔ ∀ e ∈ entries, P e.1 ∧ P e.2 := by
  simp only [unpaired, List.forall_mem_flatMap, List.forall_mem_cons, List.not_mem_nil,
    false_imp_iff, implies_true, and_true]

theorem unpaired_pairUp {vs : List Value} (h : vs.length % 2 = 0) : unpaired (pairUp vs) = vs := by
  match vs with
  | [] => rfl
  | [_] => cases h
  | k :: v :: rest =>
    change k :: v :: unpaired (pairUp rest) = k :: v :: rest
    rw [unpaired_pairUp (by simp only [List.length_cons] at h; omega)]

theorem length_unpaired (entries : List (Value × Value)) :
    (unpaired entries).length = 2 * entries.length := by
  induction entries with
  | nil => rfl
  | cons e entries ih =>
    change (unpaired entries).length + 2 = 2 * (entries.length + 1)
    omega

end Value

namespace Form

open Value

/-- Data that stand for themselves. -/
def standsForItself : Value → Bool
  | .symbol _ => false
  | v => !v.isCollection && !v.hasIdentity

/-- Atoms stand for themselves, a map has a value for each key, and in all maps and sets the keys and
elements differ as data. -/
inductive Distinct : Form → Prop
  | atom {v span} (h : standsForItself v = true) : Distinct (.atom v span)
  | symbol {name span} : Distinct (.symbol name span)
  | list {items span} (h : ∀ f ∈ items, Distinct f) : Distinct (.list items span)
  | vector {items span} (h : ∀ f ∈ items, Distinct f) : Distinct (.vector items span)
  | set {items span} (h : ∀ f ∈ items, Distinct f)
    (hd : (items.map toValue).Pairwise fun a b => same b a = false) : Distinct (.set items span)
  | map {items span} (hl : items.length % 2 = 0) (h : ∀ f ∈ items, Distinct f)
    (hd : (pairUp (items.map toValue)).Pairwise fun a b => same b.1 a.1 = false) :
    Distinct (.map items span)

variable {s : Span}

/-! ## From code to data and back -/

theorem ofValuesOnto_map {fs : List Form} (h : ∀ f ∈ fs, ofValue s f.toValue = .ok (f.placed s))
    (acc : List Form) :
    ofValuesOnto s acc (fs.map toValue) = .ok (acc.reverse ++ placedAll s fs) := by
  induction fs generalizing acc with
  | nil => simp [ofValuesOnto, placedAll]
  | cons f fs ih =>
    obtain ⟨hf, hfs⟩ := List.forall_mem_cons.mp h
    rw [List.map_cons, ofValuesOnto, hf]
    simp only
    rw [ih hfs, List.reverse_cons, List.append_assoc]
    rfl

theorem ofEntriesOnto_eq (es : List (Value × Value)) (acc : List Form) :
    ofEntriesOnto s acc es = ofValuesOnto s acc (unpaired es) := by
  induction es generalizing acc with
  | nil => rfl
  | cons e es ih =>
    obtain ⟨k, v⟩ := e
    change _ = ofValuesOnto s acc (k :: v :: unpaired es)
    rw [ofEntriesOnto, ofValuesOnto]
    cases ofValue s k with
    | error e => rfl
    | ok fk =>
      simp only
      rw [ofValuesOnto]
      cases ofValue s v with
      | error e => rfl
      | ok fv => exact ih _

theorem ofValue_atom {v : Value} (h : standsForItself v = true) : ofValue s v = .ok (.atom v s) := by
  cases v <;> first | rfl | cases h

theorem ofValue_of_hasIdentity {v : Value} (h : v.hasIdentity = true) :
    ofValue s v = .error (unembeddable v s) := by
  cases v <;> first | rfl | cases h

/-- Apart from collections there are symbols, data that stand for themselves, and values with an
identity. -/
theorem cases_of_single {v : Value} (h : v.isCollection = false) :
    (∃ name, v = .symbol name) ∨ standsForItself v = true ∧ v.hasIdentity = false ∨
      v.hasIdentity = true := by
  cases v with
  | list | vector | map | set => cases h
  | symbol name => exact .inl ⟨name, rfl⟩
  | fn | closure | native | var | exInfo => exact .inr (.inr rfl)
  | _ => exact .inr (.inl ⟨rfl, rfl⟩)

theorem ofValue_toValue {f : Form} (h : f.Distinct) : ofValue s f.toValue = .ok (f.placed s) := by
  induction h with
  | atom h => exact ofValue_atom h
  | symbol => rfl
  | list _ ih =>
    rw [toValue, toValuesOnto_eq, List.reverse_nil, List.nil_append, ofValue, ofValuesOnto_map ih]
    rfl
  | vector _ ih =>
    rw [toValue, toValuesOnto_eq, List.reverse_nil, List.nil_append, ofValue, ofValuesOnto_map ih]
    rfl
  | set _ hd ih =>
    rw [toValue, toValuesOnto_eq, List.reverse_nil, List.nil_append, itemsOf_eq hd, ofValue,
      ofValuesOnto_map ih]
    rfl
  | @map items span hl _ hd ih =>
    have heven : (items.map toValue).length % 2 = 0 := by rwa [List.length_map]
    rw [toValue, toValuesOnto_eq, List.reverse_nil, List.nil_append, entriesOf_eq hd, ofValue,
      ofEntriesOnto_eq, unpaired_pairUp heven, ofValuesOnto_map ih]
    rfl

theorem distinct_toValue {f : Form} (h : f.Distinct) : f.toValue.Distinct := by
  have items : ∀ {fs : List Form}, (∀ f ∈ fs, f.toValue.Distinct) →
      ∀ v ∈ fs.map toValue, v.Distinct := fun h => List.forall_mem_map.mpr h
  induction h with
  | @atom v span h =>
    refine .single ?_
    cases v <;> first | rfl | cases h
  | symbol => exact .single rfl
  | list _ ih =>
    rw [toValue, toValuesOnto_eq]
    exact .list (items ih)
  | vector _ ih =>
    rw [toValue, toValuesOnto_eq]
    exact .vector (items ih)
  | set _ hd ih =>
    rw [toValue, toValuesOnto_eq]
    exact .set ((itemsOf_eq hd).symm ▸ items ih) ((itemsOf_eq hd).symm ▸ hd)
  | @map fs span hl _ hd ih =>
    have heven : (fs.map toValue).length % 2 = 0 := by rwa [List.length_map]
    have hall := items ih
    rw [← unpaired_pairUp heven, forall_mem_unpaired] at hall
    rw [toValue, toValuesOnto_eq, List.reverse_nil, List.nil_append, entriesOf_eq hd]
    exact .map (fun e he => (hall e he).1) (fun e he => (hall e he).2) hd

/-! ## From data to code and back -/

theorem map_toValue_of_ofValuesOnto {vs : List Value} {acc fs : List Form}
    (h : ∀ v ∈ vs, ∀ f, ofValue s v = .ok f → f.toValue = v)
    (hfs : ofValuesOnto s acc vs = .ok fs) : fs.map toValue = acc.reverse.map toValue ++ vs := by
  induction vs generalizing acc with
  | nil =>
    cases hfs
    rw [List.append_nil]
  | cons v vs ih =>
    obtain ⟨hv, hvs⟩ := List.forall_mem_cons.mp h
    rw [ofValuesOnto] at hfs
    cases hf : ofValue s v with
    | error e =>
      rw [hf] at hfs
      cases hfs
    | ok f =>
      rw [hf] at hfs
      rw [ih hvs hfs, List.reverse_cons, List.map_append, List.append_assoc, ← hv f hf]
      rfl

theorem map_eq_ok {ε α β : Type} {x : Except ε α} {g : α → β} {b : β} (h : x.map g = .ok b) :
    ∃ a, x = .ok a ∧ g a = b := by
  cases x with
  | error e => cases h
  | ok a =>
    cases h
    exact ⟨a, rfl, rfl⟩

theorem toValue_of_ofValue {v : Value} {f : Form} (hd : v.Distinct) (h : ofValue s v = .ok f) :
    f.toValue = v := by
  induction hd generalizing f with
  | @single v hv =>
    rcases cases_of_single hv with ⟨name, rfl⟩ | ⟨hv, -⟩ | hv
    · cases h
      rfl
    · rw [ofValue_atom hv] at h
      cases h
      rfl
    · rw [ofValue_of_hasIdentity hv] at h
      cases h
  | list _ ih =>
    rw [ofValue] at h
    obtain ⟨fs, hfs, rfl⟩ := map_eq_ok h
    rw [toValue, toValuesOnto_eq, map_toValue_of_ofValuesOnto (fun v hv f => ih v hv) hfs]
    rfl
  | vector _ ih =>
    rw [ofValue] at h
    obtain ⟨fs, hfs, rfl⟩ := map_eq_ok h
    rw [toValue, toValuesOnto_eq, map_toValue_of_ofValuesOnto (fun v hv f => ih v hv) hfs]
    rfl
  | set _ hd ih =>
    rw [ofValue] at h
    obtain ⟨fs, hfs, rfl⟩ := map_eq_ok h
    rw [toValue, toValuesOnto_eq, map_toValue_of_ofValuesOnto (fun v hv f => ih v hv) hfs]
    exact congrArg Value.set (itemsOf_eq hd)
  | @map es _ _ hd ihk ihv =>
    have hall : ∀ v ∈ unpaired es, ∀ f, ofValue s v = .ok f → f.toValue = v :=
      forall_mem_unpaired.mpr fun e he => ⟨fun f => ihk e he, fun f => ihv e he⟩
    rw [ofValue, ofEntriesOnto_eq] at h
    obtain ⟨fs, hfs, rfl⟩ := map_eq_ok h
    rw [toValue, toValuesOnto_eq, map_toValue_of_ofValuesOnto hall hfs]
    exact congrArg Value.map ((congrArg entriesOf (pairUp_unpaired es)).trans (entriesOf_eq hd))

/-! ## Data that can be code -/

theorem isOk_ofValuesOnto_iff {vs : List Value} {acc : List Form} :
    (∃ fs, ofValuesOnto s acc vs = .ok fs) ↔ ∀ v ∈ vs, ∃ f, ofValue s v = .ok f := by
  induction vs generalizing acc with
  | nil => simp [ofValuesOnto]
  | cons v vs ih =>
    rw [List.forall_mem_cons, ofValuesOnto]
    cases ofValue s v with
    | error e => simp
    | ok f => simpa using ih

theorem isOk_map_iff {ε α β : Type} {x : Except ε α} {g : α → β} :
    (∃ b, x.map g = .ok b) ↔ ∃ a, x = .ok a := by
  cases x <;> simp [Except.map]

/-- Data can be code unless they contain functions, Vars or raised values. -/
theorem isOk_ofValue_iff (s : Span) (v : Value) :
    (∃ f, ofValue s v = .ok f) ↔ ∀ w, Part w v → w.hasIdentity = false := by
  have items : ∀ {vs : List Value}, (∀ v ∈ vs, (∃ f, ofValue s v = .ok f) ↔
      ∀ w, Part w v → w.hasIdentity = false) → ((∃ fs, ofValuesOnto s [] vs = .ok fs) ↔
        ∀ v ∈ vs, ∀ w, Part w v → w.hasIdentity = false) := fun h => by
    rw [isOk_ofValuesOnto_iff]
    exact forall₂_congr h
  induction v using byParts with
  | single v hc =>
    rw [forall_part_single hc]
    rcases cases_of_single hc with ⟨name, rfl⟩ | ⟨hv, hi⟩ | hi
    · exact ⟨fun _ => rfl, fun _ => ⟨_, rfl⟩⟩
    · exact ⟨fun _ => hi, fun _ => ⟨_, ofValue_atom hv⟩⟩
    · simp [ofValue_of_hasIdentity hi, hi]
  | list vs ih =>
    rw [ofValue, isOk_map_iff, forall_part_list, items ih]
    simp [hasIdentity]
  | vector vs ih =>
    rw [ofValue, isOk_map_iff, forall_part_vector, items ih]
    simp [hasIdentity]
  | set vs ih =>
    rw [ofValue, isOk_map_iff, forall_part_set, items ih]
    simp [hasIdentity]
  | map es ihk ihv =>
    rw [ofValue, isOk_map_iff, ofEntriesOnto_eq, forall_part_map,
      items (forall_mem_unpaired.mpr fun e he => ⟨ihk e he, ihv e he⟩), forall_mem_unpaired]
    simp [hasIdentity]

/-- A form without equal keys and elements is had back from its data, with one place everywhere. Data
can be code unless they contain functions, Vars or raised values, and are had back from their form. -/
theorem converts_both_ways (s : Span) :
    (∀ f : Form, f.Distinct → ofValue s f.toValue = .ok (f.placed s)) ∧
      ∀ v : Value, ((∃ f, ofValue s v = .ok f) ↔ ∀ w, Part w v → w.hasIdentity = false) ∧
        (v.Distinct → ∀ f, ofValue s v = .ok f → f.toValue = v) :=
  ⟨fun _ => ofValue_toValue, fun v => ⟨isOk_ofValue_iff s v, fun hd _ => toValue_of_ofValue hd⟩⟩

/-- A map with a vector and an empty list among its keys, a quotation and a set among its values. -/
def mixture : Form :=
  .map [.vector [.atom (.int 1) .unknown] .unknown,
    .list [.symbol "quote" .unknown, .symbol "x" .unknown] .unknown,
    .list [] .unknown,
    .set [.atom (.str "a") .unknown, .atom .nil .unknown] .unknown] .unknown

theorem mixture_converts : mixture.Distinct ∧ mixture.toValue.Distinct ∧
    ofValue .unknown mixture.toValue = .ok (mixture.placed .unknown) ∧
    (mixture.placed .unknown).toValue = mixture.toValue ∧
    ¬ ∃ f, ofValue .unknown (.list [mixture.toValue, .var ⟨0, "user", "x"⟩]) = .ok f := by
  have hf : mixture.Distinct := by
    refine .map rfl ?_ (by decide)
    simp only [List.forall_mem_cons]
    refine ⟨.vector ?_, .list ?_, .list nofun, .set ?_ (by decide), nofun⟩
    · exact List.forall_mem_singleton.mpr (.atom rfl)
    · exact List.forall_mem_cons.mpr ⟨.symbol, List.forall_mem_singleton.mpr .symbol⟩
    · exact List.forall_mem_cons.mpr ⟨.atom rfl, List.forall_mem_singleton.mpr (.atom rfl)⟩
  have hv := distinct_toValue hf
  have hback := (converts_both_ways .unknown).1 mixture hf
  refine ⟨hf, hv, hback, ((converts_both_ways .unknown).2 mixture.toValue).2 hv _ hback, ?_⟩
  rw [((converts_both_ways .unknown).2 _).1]
  intro h
  exact absurd (h _ (.list (List.mem_cons_of_mem _ List.mem_cons_self) .self)) nofun

end Form

end TwinLisp
