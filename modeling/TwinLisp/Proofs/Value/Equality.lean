import Mathlib.Tactic.Ring
import TwinLisp.Proofs.Value.Distinct

/-! Equality of values without Doubles is an equivalence. Maps and sets are compared in one direction
only, with their sizes; since no key is there twice, the other direction follows by counting. The
laws are proved together, by induction on the first value: each collection needs all of them for its
elements.

* `Value.Exact`: the values that are considered.
* `Value.onto_of_total`: the counting.
* `Value.Lawful`: the laws, for a first value.
* `Value.Exact.lawful`: they hold. -/

namespace TwinLisp

theorem tenTo_ne_zero (n : Nat) : (tenTo n : Int) ≠ 0 :=
  Int.natCast_ne_zero.mpr (Nat.pow_pos (by decide)).ne'

namespace Decimal

theorem same_refl (a : Decimal) : a.same a = true := by rw [same, beq_self_eq_true]

theorem same_comm (a b : Decimal) : a.same b = b.same a := by
  rw [same, same, Bool.beq_comm]

theorem same_trans {a b c : Decimal} (hab : a.same b = true) (hbc : b.same c = true) :
    a.same c = true := by
  simp only [same, beq_iff_eq] at hab hbc ⊢
  refine Int.eq_of_mul_eq_mul_right (tenTo_ne_zero b.scale) ?_
  calc a.signed * tenTo c.scale * tenTo b.scale
      = a.signed * tenTo b.scale * tenTo c.scale := by ring
    _ = b.signed * tenTo c.scale * tenTo a.scale := by rw [hab]; ring
    _ = c.signed * tenTo a.scale * tenTo b.scale := by rw [hbc]; ring

end Decimal

namespace Value

def isDouble : Value → Bool
  | double _ => true
  | _ => false

/-- A value without Doubles, with no key and no element twice. -/
structure Exact (v : Value) : Prop where
  distinct : v.Distinct
  noDouble : ∀ w, Part w v → w.isDouble = false

/-! ## What exact values are made of -/

variable {items : List Value} {entries : List (Value × Value)}

theorem exact_of_single {v : Value} (hs : v.isCollection = false) (hd : v.isDouble = false) :
    v.Exact :=
  ⟨.single hs, (forall_part_single hs).mpr hd⟩

theorem exact_list_iff : Exact (list items) ↔ ∀ v ∈ items, v.Exact := by
  constructor
  · intro h v hv
    cases h.distinct with
    | single hs => cases hs
    | list hd => exact ⟨hd v hv, (forall_part_list.mp h.noDouble).2 v hv⟩
  · exact fun h => ⟨.list fun v hv => (h v hv).distinct,
      forall_part_list.mpr ⟨rfl, fun v hv => (h v hv).noDouble⟩⟩

theorem exact_vector_iff : Exact (vector items) ↔ ∀ v ∈ items, v.Exact := by
  constructor
  · intro h v hv
    cases h.distinct with
    | single hs => cases hs
    | vector hd => exact ⟨hd v hv, (forall_part_vector.mp h.noDouble).2 v hv⟩
  · exact fun h => ⟨.vector fun v hv => (h v hv).distinct,
      forall_part_vector.mpr ⟨rfl, fun v hv => (h v hv).noDouble⟩⟩

theorem exact_set_iff : Exact (set items) ↔
    (∀ v ∈ items, v.Exact) ∧ items.Pairwise fun a b => same b a = false := by
  constructor
  · intro h
    cases h.distinct with
    | single hs => cases hs
    | set hd hp => exact ⟨fun v hv => ⟨hd v hv, (forall_part_set.mp h.noDouble).2 v hv⟩, hp⟩
  · exact fun h => ⟨.set (fun v hv => (h.1 v hv).distinct) h.2,
      forall_part_set.mpr ⟨rfl, fun v hv => (h.1 v hv).noDouble⟩⟩

theorem exact_map_iff : Exact (map entries) ↔ (∀ e ∈ entries, e.1.Exact ∧ e.2.Exact) ∧
    entries.Pairwise fun a b => same b.1 a.1 = false := by
  constructor
  · intro h
    cases h.distinct with
    | single hs => cases hs
    | map hk hv hp =>
      have hparts := (forall_part_map.mp h.noDouble).2
      exact ⟨fun e he => ⟨⟨hk e he, (hparts e he).1⟩, hv e he, (hparts e he).2⟩, hp⟩
  · exact fun h => ⟨.map (fun e he => (h.1 e he).1.distinct) (fun e he => (h.1 e he).2.distinct) h.2,
      forall_part_map.mpr ⟨rfl, fun e he => ⟨(h.1 e he).1.noDouble, (h.1 e he).2.noDouble⟩⟩⟩

theorem Exact.list (h : Exact (.list items)) : ∀ v ∈ items, v.Exact := exact_list_iff.mp h

theorem Exact.vector (h : Exact (.vector items)) : ∀ v ∈ items, v.Exact := exact_vector_iff.mp h

theorem Exact.set (h : Exact (.set items)) :
    (∀ v ∈ items, v.Exact) ∧ items.Pairwise fun a b => same b a = false := exact_set_iff.mp h

theorem Exact.map (h : Exact (.map entries)) : (∀ e ∈ entries, e.1.Exact ∧ e.2.Exact) ∧
    entries.Pairwise fun a b => same b.1 a.1 = false := exact_map_iff.mp h

/-! ## The laws -/

/-- What equality has to satisfy when this value is the first. -/
structure Lawful (u : Value) : Prop where
  refl : same u u = true
  symm : ∀ v, v.Exact → same u v = same v u
  trans : ∀ v w, v.Exact → w.Exact → same u v = true → same v w = true → same u w = true
  eucl : ∀ v w, v.Exact → w.Exact → same u v = true → same u w = true → same v w = true

/-! ## Values without elements -/

/-- Neither a collection nor a number that has several forms or is not equal to itself. -/
def isRigid : Value → Bool
  | double _ | decimal _ | list _ | vector _ | map _ | set _ => false
  | _ => true

/-- What equality looks at in a rigid value. -/
def essence : Value → Value
  | fn id _ => fn id ""
  | closure id _ => closure id ""
  | var v => var ⟨v.id, "", ""⟩
  | exInfo id _ _ => exInfo id "" nil
  | v => v

theorem isRigid_essence (v : Value) : v.essence.isRigid = v.isRigid := by
  cases v <;> rfl

theorem same_eq_true_iff {u : Value} (h : u.isRigid = true) (v : Value) :
    same u v = true ↔ u.essence = v.essence := by
  cases u with
  | double | decimal | list | vector | map | set => cases h
  | _ => cases v <;> simp [same, essence]

theorem same_eq_false {u v : Value} (hu : u.isRigid = false) (hv : v.isRigid = true) :
    same u v = false := by
  cases u with
  | double | decimal | list | vector | map | set => cases v <;> first | rfl | cases hv
  | _ => cases hu

theorem isRigid_of_same {u v : Value} (hu : u.isRigid = true) (h : same u v = true) :
    v.isRigid = true := by
  rw [← isRigid_essence, ← (same_eq_true_iff hu v).mp h, isRigid_essence, hu]

theorem lawful_of_isRigid {u : Value} (hu : u.isRigid = true) : u.Lawful where
  refl := (same_eq_true_iff hu u).mpr rfl
  symm v _ := by
    cases hv : v.isRigid with
    | true =>
      rw [Bool.eq_iff_iff, same_eq_true_iff hu, same_eq_true_iff hv]
      exact eq_comm
    | false =>
      rw [same_eq_false hv hu, Bool.eq_false_iff]
      intro h
      rw [isRigid_of_same hu h] at hv
      cases hv
  trans v w _ _ huv hvw := by
    rw [same_eq_true_iff (isRigid_of_same hu huv)] at hvw
    rw [same_eq_true_iff hu] at huv ⊢
    exact huv.trans hvw
  eucl v w _ _ huv huw := by
    rw [same_eq_true_iff (isRigid_of_same hu huv)]
    rw [same_eq_true_iff hu] at huv huw
    exact huv.symm.trans huw

theorem same_decimal_iff {d : Decimal} {v : Value} :
    same (decimal d) v = true ↔ ∃ e, v = decimal e ∧ d.same e = true := by
  cases v <;> simp [same]

theorem lawful_decimal (d : Decimal) : (decimal d).Lawful where
  refl := d.same_refl
  symm v _ := by
    cases v with
    | decimal e => exact d.same_comm e
    | _ => rfl
  trans v w _ _ hv hw := by
    obtain ⟨e, rfl, hde⟩ := same_decimal_iff.mp hv
    obtain ⟨f, rfl, hef⟩ := same_decimal_iff.mp hw
    exact Decimal.same_trans hde hef
  eucl v w _ _ hv hw := by
    obtain ⟨e, rfl, hde⟩ := same_decimal_iff.mp hv
    obtain ⟨f, rfl, hdf⟩ := same_decimal_iff.mp hw
    rw [Decimal.same_comm] at hde
    exact Decimal.same_trans hde hdf

/-! ## Lists and vectors -/

theorem sameItems_refl (h : ∀ x ∈ items, x.Lawful) : sameItems items items = true := by
  induction items with
  | nil => rfl
  | cons x xs ih =>
    obtain ⟨hx, hxs⟩ := List.forall_mem_cons.mp h
    rw [sameItems, hx.refl, ih hxs]
    rfl

theorem sameItems_symm (h : ∀ x ∈ items, x.Lawful) {ys : List Value} (hy : ∀ y ∈ ys, y.Exact) :
    sameItems items ys = sameItems ys items := by
  induction items generalizing ys with
  | nil => cases ys <;> rfl
  | cons x xs ih =>
    cases ys with
    | nil => rfl
    | cons y ys =>
      obtain ⟨hx, hxs⟩ := List.forall_mem_cons.mp h
      obtain ⟨hy, hys⟩ := List.forall_mem_cons.mp hy
      rw [sameItems, sameItems, hx.symm y hy, ih hxs hys]

theorem sameItems_trans (h : ∀ x ∈ items, x.Lawful) {ys zs : List Value} (hy : ∀ y ∈ ys, y.Exact)
    (hz : ∀ z ∈ zs, z.Exact) (hxy : sameItems items ys = true) (hyz : sameItems ys zs = true) :
    sameItems items zs = true := by
  induction items generalizing ys zs with
  | nil =>
    cases ys with
    | nil => exact hyz
    | cons => cases hxy
  | cons x xs ih =>
    match ys, zs with
    | [], _ => cases hxy
    | _ :: _, [] => cases hyz
    | y :: ys, z :: zs =>
      obtain ⟨hx, hxs⟩ := List.forall_mem_cons.mp h
      obtain ⟨hy, hys⟩ := List.forall_mem_cons.mp hy
      obtain ⟨hz, hzs⟩ := List.forall_mem_cons.mp hz
      rw [sameItems, Bool.and_eq_true] at hxy hyz ⊢
      exact ⟨hx.trans y z hy hz hxy.1 hyz.1, ih hxs hys hzs hxy.2 hyz.2⟩

theorem sameItems_eucl (h : ∀ x ∈ items, x.Lawful) {ys zs : List Value} (hy : ∀ y ∈ ys, y.Exact)
    (hz : ∀ z ∈ zs, z.Exact) (hxy : sameItems items ys = true) (hxz : sameItems items zs = true) :
    sameItems ys zs = true := by
  induction items generalizing ys zs with
  | nil =>
    cases ys with
    | nil => exact hxz
    | cons => cases hxy
  | cons x xs ih =>
    match ys, zs with
    | [], _ => cases hxy
    | _ :: _, [] => cases hxz
    | y :: ys, z :: zs =>
      obtain ⟨hx, hxs⟩ := List.forall_mem_cons.mp h
      obtain ⟨hy, hys⟩ := List.forall_mem_cons.mp hy
      obtain ⟨hz, hzs⟩ := List.forall_mem_cons.mp hz
      rw [sameItems, Bool.and_eq_true] at hxy hxz ⊢
      exact ⟨hx.eucl y z hy hz hxy.1 hxz.1, ih hxs hys hzs hxy.2 hxz.2⟩

/-- The elements of a list or a vector. -/
def sequence? : Value → Option (List Value)
  | list items | vector items => some items
  | _ => none

theorem Exact.sequence {v : Value} (h : v.Exact) (hs : v.sequence? = some items) :
    ∀ x ∈ items, x.Exact := by
  cases v <;> cases hs
  · exact h.list
  · exact h.vector

theorem same_sequence_iff {u v : Value} (h : u.sequence? = some items) :
    same u v = true ↔ ∃ ys, v.sequence? = some ys ∧ sameItems items ys = true := by
  cases u <;> cases h <;> cases v <;> simp [same, sequence?]

theorem lawful_sequence {u : Value} (hu : u.sequence? = some items) (h : ∀ x ∈ items, x.Lawful) :
    u.Lawful where
  refl := (same_sequence_iff hu).mpr ⟨items, hu, sameItems_refl h⟩
  symm v hv := by
    cases u <;> cases hu <;> cases v <;> first | rfl | exact sameItems_symm h (hv.sequence rfl)
  trans v w hv hw huv hvw := by
    obtain ⟨ys, hy, hxy⟩ := (same_sequence_iff hu).mp huv
    obtain ⟨zs, hz, hyz⟩ := (same_sequence_iff hy).mp hvw
    exact (same_sequence_iff hu).mpr
      ⟨zs, hz, sameItems_trans h (hv.sequence hy) (hw.sequence hz) hxy hyz⟩
  eucl v w hv hw huv huw := by
    obtain ⟨ys, hy, hxy⟩ := (same_sequence_iff hu).mp huv
    obtain ⟨zs, hz, hxz⟩ := (same_sequence_iff hu).mp huw
    exact (same_sequence_iff hy).mpr
      ⟨zs, hz, sameItems_eucl h (hv.sequence hy) (hw.sequence hz) hxy hxz⟩

/-! ## Counting -/

/-- If each of some things is related to one of no more things, and no two of them to the same, then
all of the latter are reached. -/
theorem onto_of_total {α β : Type} {R : α → β → Prop} {xs : List α} {ys : List β}
    (hl : ys.length ≤ xs.length) (total : ∀ x ∈ xs, ∃ y ∈ ys, R x y)
    (inj : xs.Pairwise fun x x' => ∀ y ∈ ys, R x y → ¬ R x' y) : ∀ y ∈ ys, ∃ x ∈ xs, R x y := by
  induction xs generalizing ys with
  | nil =>
    rw [List.length_nil, Nat.le_zero, List.length_eq_zero_iff] at hl
    subst hl
    exact nofun
  | cons x xs ih =>
    obtain ⟨⟨y, hy, hxy⟩, total⟩ := List.forall_mem_cons.mp total
    obtain ⟨hx, inj⟩ := List.pairwise_cons.mp inj
    obtain ⟨before, behind, rfl⟩ := List.append_of_mem hy
    have hsub : before ++ behind ⊆ before ++ y :: behind := by simp
    -- the others do without what the first is related to
    have hrest : ∀ y' ∈ before ++ behind, ∃ x' ∈ xs, R x' y' := by
      refine ih ?_ (fun x' hx' => ?_) (inj.imp fun h y' hy' => h y' (hsub hy'))
      · simp only [List.length_append, List.length_cons] at hl ⊢
        omega
      · obtain ⟨y', hy', hr⟩ := total x' hx'
        rcases List.mem_append.mp hy' with hm | hm
        · exact ⟨y', List.mem_append_left _ hm, hr⟩
        · rcases List.mem_cons.mp hm with rfl | hm
          · exact absurd hr (hx x' hx' y' hy hxy)
          · exact ⟨y', List.mem_append_right _ hm, hr⟩
    intro y' hy'
    rcases List.mem_append.mp hy' with hm | hm
    · obtain ⟨x', hx', hr⟩ := hrest y' (List.mem_append_left _ hm)
      exact ⟨x', List.mem_cons_of_mem _ hx', hr⟩
    · rcases List.mem_cons.mp hm with rfl | hm
      · exact ⟨x, List.mem_cons_self, hxy⟩
      · obtain ⟨x', hx', hr⟩ := hrest y' (List.mem_append_right _ hm)
        exact ⟨x', List.mem_cons_of_mem _ hx', hr⟩

/-- What has a key is found by it, if the keys that equal it equal each other and none is there
twice. -/
theorem find?_key {α : Type} (key : α → Value) {k : Value} {y : α} {ys : List α}
    (hd : ys.Pairwise fun a b => same (key b) (key a) = false) (hy : y ∈ ys)
    (hk : same k (key y) = true)
    (eucl : ∀ z ∈ ys, same k (key z) = true → same (key y) (key z) = true) :
    (ys.find? fun z => same k (key z)) = some y := by
  obtain ⟨before, behind, rfl⟩ := List.append_of_mem hy
  refine List.find?_eq_some_iff_append.mpr ⟨hk, before, behind, rfl, fun z hz => ?_⟩
  rw [Bool.not_eq_true', Bool.eq_false_iff]
  intro hkz
  have hne := (List.pairwise_append.mp hd).2.2 z hz y List.mem_cons_self
  rw [eucl z (List.mem_append_left _ hz) hkz] at hne
  cases hne

section Keys

variable {α : Type} (key : α → Value) {R : α → α → Prop} {xs ys : List α}
  (hR : ∀ x y, R x y → same (key x) (key y) = true) (hl : xs.length = ys.length)
  (h : ∀ x ∈ xs, (key x).Lawful) (hy : ∀ y ∈ ys, (key y).Exact)

include hR hl h hy

/-- If each thing has one with an equal key, and no key is there twice, all of the latter are
reached. -/
theorem onto_keys (hx : ∀ x ∈ xs, (key x).Exact)
    (hd : xs.Pairwise fun a b => same (key b) (key a) = false)
    (total : ∀ x ∈ xs, ∃ y ∈ ys, R x y) : ∀ y ∈ ys, ∃ x ∈ xs, R x y := by
  refine onto_of_total hl.ge total (hd.imp_of_mem fun hm hm' hne y hym hr hr' => ?_)
  have hxy := hR _ _ hr
  rw [(h _ hm).symm _ (hy y hym)] at hxy
  rw [(h _ hm').trans _ _ (hy y hym) (hx _ hm) (hR _ _ hr') hxy] at hne
  cases hne

/-- The same for the other things, whose keys are not known to be lawful. -/
theorem total_of_onto_keys (hd : ys.Pairwise fun a b => same (key b) (key a) = false)
    (onto : ∀ y ∈ ys, ∃ x ∈ xs, R x y) : ∀ x ∈ xs, ∃ y ∈ ys, R x y := by
  refine onto_of_total (R := fun y x => R x y) hl.le onto
    (hd.imp_of_mem fun hm hm' hne x hx hr hr' => ?_)
  rw [(h x hx).eucl _ _ (hy _ hm') (hy _ hm) (hR _ _ hr') (hR _ _ hr)] at hne
  cases hne

end Keys

/-! ## Sets -/

theorem sameMembers_iff {ys : List Value} :
    sameMembers items ys = true ↔ ∀ x ∈ items, ∃ y ∈ ys, same x y = true := by
  induction items with
  | nil => simp [sameMembers]
  | cons x xs ih => rw [sameMembers, Bool.and_eq_true, ih, List.forall_mem_cons, List.any_eq_true]

theorem same_set_iff {v : Value} : same (set items) v = true ↔ ∃ ys, v = set ys ∧
    items.length = ys.length ∧ ∀ x ∈ items, ∃ y ∈ ys, same x y = true := by
  cases v <;> simp [same, sameMembers_iff]

theorem lawful_set (hu : Exact (.set items)) (h : ∀ x ∈ items, x.Lawful) :
    (Value.set items).Lawful where
  refl := same_set_iff.mpr ⟨items, rfl, rfl, fun x hx => ⟨x, hx, (h x hx).refl⟩⟩
  symm v hv := by
    rw [Bool.eq_iff_iff, same_set_iff]
    constructor
    · rintro ⟨ys, rfl, hl, total⟩
      have onto := onto_keys id (fun _ _ => id) hl h hv.set.1 hu.set.1 hu.set.2 total
      refine same_set_iff.mpr ⟨items, rfl, hl.symm, fun y hy => ?_⟩
      obtain ⟨x, hx, hxy⟩ := onto y hy
      exact ⟨x, hx, (h x hx).symm y (hv.set.1 y hy) ▸ hxy⟩
    · intro hvu
      cases v with
      | set ys =>
        obtain ⟨_, ⟨⟩, hl, total⟩ := same_set_iff.mp hvu
        refine ⟨ys, rfl, hl.symm, total_of_onto_keys id (fun _ _ => id) hl.symm h hv.set.1
          hv.set.2 fun y hy => ?_⟩
        obtain ⟨x, hx, hyx⟩ := total y hy
        exact ⟨x, hx, (h x hx).symm y (hv.set.1 y hy) ▸ hyx⟩
      | _ => cases hvu
  trans v w hv hw huv hvw := by
    obtain ⟨ys, rfl, hl, total⟩ := same_set_iff.mp huv
    obtain ⟨zs, rfl, hl', total'⟩ := same_set_iff.mp hvw
    refine same_set_iff.mpr ⟨zs, rfl, hl.trans hl', fun x hx => ?_⟩
    obtain ⟨y, hy, hxy⟩ := total x hx
    obtain ⟨z, hz, hyz⟩ := total' y hy
    exact ⟨z, hz, (h x hx).trans y z (hv.set.1 y hy) (hw.set.1 z hz) hxy hyz⟩
  eucl v w hv hw huv huw := by
    obtain ⟨ys, rfl, hl, total⟩ := same_set_iff.mp huv
    obtain ⟨zs, rfl, hl', total'⟩ := same_set_iff.mp huw
    have onto := onto_keys id (fun _ _ => id) hl h hv.set.1 hu.set.1 hu.set.2 total
    refine same_set_iff.mpr ⟨zs, rfl, hl.symm.trans hl', fun y hy => ?_⟩
    obtain ⟨x, hx, hxy⟩ := onto y hy
    obtain ⟨z, hz, hxz⟩ := total' x hx
    exact ⟨z, hz, (h x hx).eucl y z (hv.set.1 y hy) (hw.set.1 z hz) hxy hxz⟩

/-! ## Maps -/

/-- Entries with equal keys and equal values. -/
def SameEntry (e f : Value × Value) : Prop := same e.1 f.1 = true ∧ same e.2 f.2 = true

theorem sameEntries_total {fs : List (Value × Value)} (h : sameEntries entries fs = true) :
    ∀ e ∈ entries, ∃ f ∈ fs, SameEntry e f := by
  induction entries with
  | nil => exact nofun
  | cons e entries ih =>
    rw [sameEntries, Bool.and_eq_true] at h
    refine List.forall_mem_cons.mpr ⟨?_, ih h.2⟩
    cases hf : fs.find? fun f => same e.1 f.1 with
    | none =>
      rw [hf] at h
      cases h.1
    | some f =>
      rw [hf] at h
      have hk := List.find?_some hf
      exact ⟨f, List.mem_of_find?_eq_some hf, hk, h.1⟩

theorem sameEntries_of_total {fs : List (Value × Value)}
    (hd : fs.Pairwise fun a b => same b.1 a.1 = false)
    (eucl : ∀ e ∈ entries, ∀ f ∈ fs, ∀ g ∈ fs, same e.1 f.1 = true → same e.1 g.1 = true →
      same f.1 g.1 = true)
    (total : ∀ e ∈ entries, ∃ f ∈ fs, SameEntry e f) : sameEntries entries fs = true := by
  induction entries with
  | nil => rfl
  | cons e entries ih =>
    obtain ⟨⟨f, hf, hk, hv⟩, total⟩ := List.forall_mem_cons.mp total
    obtain ⟨he, eucl⟩ := List.forall_mem_cons.mp eucl
    rw [sameEntries, Bool.and_eq_true, find?_key Prod.fst hd hf hk fun g hg =>
      he f hf g hg hk]
    exact ⟨hv, ih eucl total⟩

theorem total_of_same_map {v : Value} (h : same (map entries) v = true) : ∃ fs, v = map fs ∧
    entries.length = fs.length ∧ ∀ e ∈ entries, ∃ f ∈ fs, SameEntry e f := by
  cases v with
  | map fs =>
    rw [same, Bool.and_eq_true, beq_iff_eq] at h
    exact ⟨fs, rfl, h.1, sameEntries_total h.2⟩
  | _ => cases h

theorem same_map_of_total {fs : List (Value × Value)}
    (hd : fs.Pairwise fun a b => same b.1 a.1 = false) (hl : entries.length = fs.length)
    (eucl : ∀ e ∈ entries, ∀ f ∈ fs, ∀ g ∈ fs, same e.1 f.1 = true → same e.1 g.1 = true →
      same f.1 g.1 = true)
    (total : ∀ e ∈ entries, ∃ f ∈ fs, SameEntry e f) : same (map entries) (map fs) = true := by
  rw [same, Bool.and_eq_true, beq_iff_eq]
  exact ⟨hl, sameEntries_of_total hd eucl total⟩

theorem lawful_map (hu : Exact (.map entries)) (hk : ∀ e ∈ entries, e.1.Lawful)
    (hv : ∀ e ∈ entries, e.2.Lawful) : (Value.map entries).Lawful := by
  have key := fun e he => (hu.map.1 e he).1
  -- from the first map, keys that equal one key equal each other
  have eucl : ∀ {gs : List (Value × Value)}, Exact (.map gs) → ∀ e ∈ entries, ∀ f ∈ gs, ∀ g ∈ gs,
      same e.1 f.1 = true → same e.1 g.1 = true → same f.1 g.1 = true := fun hgs e he f hf g hg =>
    (hk e he).eucl f.1 g.1 (hgs.map.1 f hf).1 (hgs.map.1 g hg).1
  have turn : ∀ {f}, Exact f.1 → Exact f.2 → ∀ e ∈ entries, (SameEntry e f ↔ SameEntry f e) :=
    fun hf hf' e he => by rw [SameEntry, SameEntry, (hk e he).symm _ hf, (hv e he).symm _ hf']
  have onto : ∀ {fs : List (Value × Value)}, Exact (.map fs) → entries.length = fs.length →
      (∀ e ∈ entries, ∃ f ∈ fs, SameEntry e f) → ∀ f ∈ fs, ∃ e ∈ entries, SameEntry e f :=
    fun hfs hl => onto_keys Prod.fst (fun _ _ hr => hr.1) hl hk
      (fun f hf => (hfs.map.1 f hf).1) key hu.map.2
  refine ⟨?refl, ?symm, ?trans, ?eucl⟩
  case refl =>
    exact same_map_of_total hu.map.2 rfl (eucl hu) fun e he =>
      ⟨e, he, (hk e he).refl, (hv e he).refl⟩
  case symm =>
    intro v hvx
    rw [Bool.eq_iff_iff]
    constructor
    · intro huv
      obtain ⟨fs, rfl, hl, total⟩ := total_of_same_map huv
      have hf := hvx.map.1
      refine same_map_of_total hu.map.2 hl.symm (fun f hfm e he g hg hfe hfg => ?_) fun f hfm => ?_
      · rw [← (hk e he).symm f.1 (hf f hfm).1] at hfe
        exact (hk e he).trans f.1 g.1 (hf f hfm).1 (key g hg) hfe hfg
      · obtain ⟨e, he, hr⟩ := onto hvx hl total f hfm
        exact ⟨e, he, (turn (hf f hfm).1 (hf f hfm).2 e he).mp hr⟩
    · intro hvu
      cases v with
      | map fs =>
        obtain ⟨_, ⟨⟩, hl, total⟩ := total_of_same_map hvu
        have hf := hvx.map.1
        refine same_map_of_total hvx.map.2 hl.symm (eucl hvx) (total_of_onto_keys Prod.fst
          (fun _ _ hr => hr.1) hl.symm hk (fun f hfm => (hf f hfm).1) hvx.map.2 fun f hfm => ?_)
        obtain ⟨e, he, hr⟩ := total f hfm
        exact ⟨e, he, (turn (hf f hfm).1 (hf f hfm).2 e he).mpr hr⟩
      | _ => cases hvu
  case trans =>
    intro v w hvx hwx huv hvw
    obtain ⟨fs, rfl, hl, total⟩ := total_of_same_map huv
    obtain ⟨gs, rfl, hl', total'⟩ := total_of_same_map hvw
    refine same_map_of_total hwx.map.2 (hl.trans hl') (eucl hwx) fun e he => ?_
    obtain ⟨f, hf, hef⟩ := total e he
    obtain ⟨g, hg, hfg⟩ := total' f hf
    obtain ⟨hf₁, hf₂⟩ := hvx.map.1 f hf
    obtain ⟨hg₁, hg₂⟩ := hwx.map.1 g hg
    exact ⟨g, hg, (hk e he).trans f.1 g.1 hf₁ hg₁ hef.1 hfg.1,
      (hv e he).trans f.2 g.2 hf₂ hg₂ hef.2 hfg.2⟩
  case eucl =>
    intro v w hvx hwx huv huw
    obtain ⟨fs, rfl, hl, total⟩ := total_of_same_map huv
    obtain ⟨gs, rfl, hl', total'⟩ := total_of_same_map huw
    refine same_map_of_total hwx.map.2 (hl.symm.trans hl') (fun f hf g hg g' hg' hfg hfg' => ?_)
      fun f hf => ?_
    · obtain ⟨e, he, hef⟩ := onto hvx hl total f hf
      have hf₁ := (hvx.map.1 f hf).1
      have hg₁ := (hwx.map.1 g hg).1
      have hg₁' := (hwx.map.1 g' hg').1
      exact eucl hwx e he g hg g' hg' ((hk e he).trans f.1 g.1 hf₁ hg₁ hef.1 hfg)
        ((hk e he).trans f.1 g'.1 hf₁ hg₁' hef.1 hfg')
    · obtain ⟨e, he, hef⟩ := onto hvx hl total f hf
      obtain ⟨g, hg, heg⟩ := total' e he
      obtain ⟨hf₁, hf₂⟩ := hvx.map.1 f hf
      obtain ⟨hg₁, hg₂⟩ := hwx.map.1 g hg
      exact ⟨g, hg, (hk e he).eucl f.1 g.1 hf₁ hg₁ hef.1 heg.1,
        (hv e he).eucl f.2 g.2 hf₂ hg₂ hef.2 heg.2⟩

/-! ## All values -/

theorem Exact.lawful {u : Value} (hu : u.Exact) : u.Lawful := by
  induction u using byParts with
  | single v hs =>
    have hd := hu.noDouble v .self
    cases v with
    | list | vector | map | set => cases hs
    | double => cases hd
    | decimal d => exact lawful_decimal d
    | _ => exact lawful_of_isRigid rfl
  | list items ih => exact lawful_sequence rfl fun x hx => ih x hx (hu.list x hx)
  | vector items ih => exact lawful_sequence rfl fun x hx => ih x hx (hu.vector x hx)
  | set items ih => exact lawful_set hu fun x hx => ih x hx (hu.set.1 x hx)
  | map entries ihk ihv =>
    exact lawful_map hu (fun e he => ihk e he (hu.map.1 e he).1) fun e he =>
      ihv e he (hu.map.1 e he).2

end Value

end TwinLisp
