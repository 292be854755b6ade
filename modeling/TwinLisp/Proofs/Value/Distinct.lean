import TwinLisp.Value.Equality

/-! Collections have no element and no key twice. Whatever is inserted into a map or a set keeps to
this, and entries and elements that keep to it are stored as they are.

* `Value.Part`: what a value contains; `Value.byParts` is the induction over it.
* `Value.Distinct`: in all maps and sets inside a value, the keys and elements differ.
* `Value.entriesOf_eq`, `Value.itemsOf_eq`: inserting one after the other. -/

namespace TwinLisp.Value

/-- Whether a value has an identity: functions, Vars and raised values. -/
def hasIdentity : Value → Bool
  | fn .. | closure .. | native .. | var _ | exInfo .. => true
  | _ => false

def isCollection : Value → Bool
  | list _ | vector _ | map _ | set _ => true
  | _ => false

/-- A value, its elements, keys and values, and what these contain. -/
inductive Part (w : Value) : Value → Prop
  | self : Part w w
  | list {v items} (hv : v ∈ items) (h : Part w v) : Part w (.list items)
  | vector {v items} (hv : v ∈ items) (h : Part w v) : Part w (.vector items)
  | set {v items} (hv : v ∈ items) (h : Part w v) : Part w (.set items)
  | key {e : Value × Value} {entries} (he : e ∈ entries) (h : Part w e.1) : Part w (.map entries)
  | value {e : Value × Value} {entries} (he : e ∈ entries) (h : Part w e.2) : Part w (.map entries)

/-- In the value itself and all collections inside it, no key of a map and no element of a set
equals an earlier one. -/
inductive Distinct : Value → Prop
  | single {v} (h : v.isCollection = false) : Distinct v
  | list {items} (h : ∀ v ∈ items, Distinct v) : Distinct (.list items)
  | vector {items} (h : ∀ v ∈ items, Distinct v) : Distinct (.vector items)
  | set {items} (h : ∀ v ∈ items, Distinct v) (hd : items.Pairwise fun a b => same b a = false) :
    Distinct (.set items)
  | map {entries : List (Value × Value)} (hk : ∀ e ∈ entries, Distinct e.1)
    (hv : ∀ e ∈ entries, Distinct e.2) (hd : entries.Pairwise fun a b => same b.1 a.1 = false) :
    Distinct (.map entries)

/-- What holds of all other values, and of a collection if it holds of everything in it, holds of
all values. -/
@[elab_as_elim]
theorem byParts {P : Value → Prop} (single : ∀ v, v.isCollection = false → P v)
    (list : ∀ items, (∀ v ∈ items, P v) → P (.list items))
    (vector : ∀ items, (∀ v ∈ items, P v) → P (.vector items))
    (set : ∀ items, (∀ v ∈ items, P v) → P (.set items))
    (map : ∀ entries : List (Value × Value), (∀ e ∈ entries, P e.1) → (∀ e ∈ entries, P e.2) →
      P (.map entries)) (v : Value) : P v := by
  cases v with
  | list items => exact list items fun v _ => byParts single list vector set map v
  | vector items => exact vector items fun v _ => byParts single list vector set map v
  | set items => exact set items fun v _ => byParts single list vector set map v
  | map entries =>
    have hsize : ∀ e ∈ entries, sizeOf e.1 < sizeOf entries ∧ sizeOf e.2 < sizeOf entries := by
      rintro ⟨k, v⟩ he
      have := List.sizeOf_lt_of_mem he
      rw [Prod.mk.sizeOf_spec] at this
      dsimp only
      omega
    refine map entries (fun e he => ?_) fun e he => ?_
    · have := (hsize e he).1
      exact byParts single list vector set map e.1
    · have := (hsize e he).2
      exact byParts single list vector set map e.2
  | _ => exact single _ rfl
termination_by sizeOf v

variable {k v : Value} {entries : List (Value × Value)} {items : List Value}

/-! ## Parts -/

variable {P : Value → Prop}

theorem forall_part_single (h : v.isCollection = false) : (∀ w, Part w v → P w) ↔ P v := by
  refine ⟨fun hp => hp v .self, fun hp w hw => ?_⟩
  cases hw with
  | self => exact hp
  | _ => cases h

theorem forall_part_list :
    (∀ w, Part w (.list items) → P w) ↔ P (.list items) ∧ ∀ v ∈ items, ∀ w, Part w v → P w := by
  refine ⟨fun hp => ⟨hp _ .self, fun v hv w hw => hp w (.list hv hw)⟩, fun hp w hw => ?_⟩
  cases hw with
  | self => exact hp.1
  | list hv hw => exact hp.2 _ hv w hw

theorem forall_part_vector : (∀ w, Part w (.vector items) → P w) ↔
    P (.vector items) ∧ ∀ v ∈ items, ∀ w, Part w v → P w := by
  refine ⟨fun hp => ⟨hp _ .self, fun v hv w hw => hp w (.vector hv hw)⟩, fun hp w hw => ?_⟩
  cases hw with
  | self => exact hp.1
  | vector hv hw => exact hp.2 _ hv w hw

theorem forall_part_set :
    (∀ w, Part w (.set items) → P w) ↔ P (.set items) ∧ ∀ v ∈ items, ∀ w, Part w v → P w := by
  refine ⟨fun hp => ⟨hp _ .self, fun v hv w hw => hp w (.set hv hw)⟩, fun hp w hw => ?_⟩
  cases hw with
  | self => exact hp.1
  | set hv hw => exact hp.2 _ hv w hw

theorem forall_part_map : (∀ w, Part w (.map entries) → P w) ↔ P (.map entries) ∧
    ∀ e ∈ entries, (∀ w, Part w e.1 → P w) ∧ ∀ w, Part w e.2 → P w := by
  refine ⟨fun hp => ⟨hp _ .self, fun e he => ⟨fun w hw => hp w (.key he hw), fun w hw =>
    hp w (.value he hw)⟩⟩, fun hp w hw => ?_⟩
  cases hw with
  | self => exact hp.1
  | key he hw => exact (hp.2 _ he).1 w hw
  | value he hw => exact (hp.2 _ he).2 w hw

/-! ## Entries one after the other -/

theorem insertEntry_new (h : ∀ e ∈ entries, same k e.1 = false) :
    insertEntry k v entries = entries ++ [(k, v)] := by
  induction entries with
  | nil => rfl
  | cons e entries ih =>
    obtain ⟨he, hes⟩ := List.forall_mem_cons.mp h
    rw [insertEntry, he, if_neg nofun, ih hes]
    rfl

theorem entriesOf_eq (h : entries.Pairwise fun a b => same b.1 a.1 = false) :
    entriesOf entries = entries := by
  have honto : ∀ (es done : List (Value × Value)),
      (done ++ es).Pairwise (fun a b => same b.1 a.1 = false) →
        es.foldl (fun es p => insertEntry p.1 p.2 es) done = done ++ es := by
    intro es
    induction es with
    | nil => simp
    | cons e es ih =>
      intro done hd
      have hnew : ∀ x ∈ done, same e.1 x.1 = false := fun x hx =>
        (List.pairwise_append.mp hd).2.2 x hx e List.mem_cons_self
      rw [List.foldl_cons, insertEntry_new hnew, ih] <;> simp [hd]
  exact honto entries [] h

/-! ## Elements one after the other -/

theorem has_eq_false_iff {x : Value} : has x items = false ↔ ∀ y ∈ items, same x y = false := by
  rw [has, List.any_eq_false]
  simp only [Bool.not_eq_true]

theorem itemsOf_eq (h : items.Pairwise fun a b => same b a = false) : itemsOf items = items := by
  have honto : ∀ (xs done : List Value), (done ++ xs).Pairwise (fun a b => same b a = false) →
      xs.foldl (fun ys x => insertItem x ys) done = done ++ xs := by
    intro xs
    induction xs with
    | nil => simp
    | cons x xs ih =>
      intro done hd
      have hnew : has x done = false := has_eq_false_iff.mpr fun y hy =>
        (List.pairwise_append.mp hd).2.2 y hy x List.mem_cons_self
      rw [List.foldl_cons, insertItem, hnew, if_neg nofun, ih] <;> simp [hd]
  exact honto items [] h

end TwinLisp.Value
