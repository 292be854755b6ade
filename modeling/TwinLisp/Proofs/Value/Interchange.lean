import TwinLisp.Eval.Engine
import TwinLisp.Proofs.Form.Conversion
import TwinLisp.Proofs.Value.Equality

/-! Equal values are interchangeable. Looking an equal key up in an equal map or set has an equal
answer, and a map or set does not depend on the order in which it was built.

* `Value.find?_same`: finding a key among things with equal keys.
* `Value.same_of_perm`: maps and sets of the same entries in another order.
* `Value.equal_values_are_interchangeable`: both, for calls and natives. -/

namespace TwinLisp

theorem rel_getD {α β : Type} {R : α → α → Prop} {S : β → β → Prop} {f : α → β} {a b : Option α}
    {d d' : β} (h : Option.Rel R a b) (hf : ∀ x y, R x y → S (f x) (f y)) (hd : S d d') :
    S ((a.map f).getD d) ((b.map f).getD d') := by
  cases h with
  | some hr => exact hf _ _ hr
  | none => exact hd

theorem isSome_of_rel {α : Type} {R : α → α → Prop} {a b : Option α} (h : Option.Rel R a b) :
    a.isSome = b.isSome := by
  cases h <;> rfl

namespace Value

/-! ## Equality is an equivalence -/

theorem equivalence_same : Equivalence fun u v : { v : Value // v.Exact } => same u.1 v.1 = true where
  refl u := u.2.lawful.refl
  symm {u v} h := by rwa [u.2.lawful.symm v.1 v.2] at h
  trans {u v w} huv hvw := u.2.lawful.trans v.1 w.1 v.2 w.2 huv hvw

variable {k k' : Value} (hk : k.Exact) (hk' : k'.Exact) (hkk : same k k' = true)

include hk hk' hkk

theorem same_congr {x : Value} (hx : x.Exact) : same k x = same k' x := by
  rw [Bool.eq_iff_iff]
  constructor
  · exact hk.lawful.eucl k' x hk' hx hkk
  · exact hk.lawful.trans k' x hk' hx hkk

/-! ## Looking up -/

section Find

variable {α : Type} (key : α → Value) {R : α → α → Prop} {xs ys : List α}
  (hR : ∀ x y, R x y → same (key x) (key y) = true) (hl : xs.length = ys.length)
  (hx : ∀ x ∈ xs, (key x).Exact) (hy : ∀ y ∈ ys, (key y).Exact)
  (hd : xs.Pairwise fun a b => same (key b) (key a) = false)
  (hd' : ys.Pairwise fun a b => same (key b) (key a) = false)
  (total : ∀ x ∈ xs, ∃ y ∈ ys, R x y)

include hR hl hx hy hd hd' total

theorem find?_same : Option.Rel R (xs.find? fun x => same k (key x))
    (ys.find? fun y => same k' (key y)) := by
  cases hf : xs.find? fun x => same k (key x) with
  | some x =>
    have hxm := List.mem_of_find?_eq_some hf
    have hkx := List.find?_some hf
    obtain ⟨y, hym, hr⟩ := total x hxm
    have hky : same k' (key y) = true := by
      rw [← same_congr hk hk' hkk (hy y hym)]
      exact hk.lawful.trans _ _ (hx x hxm) (hy y hym) hkx (hR x y hr)
    rw [find?_key key hd' hym hky fun z hz => hk'.lawful.eucl _ _ (hy y hym) (hy z hz) hky]
    exact .some hr
  | none =>
    have hnone : (ys.find? fun y => same k' (key y)) = none := by
      rw [List.find?_eq_none] at hf ⊢
      intro y hym hky
      obtain ⟨x, hxm, hr⟩ := onto_keys key hR hl (fun x hx' => (hx x hx').lawful) hy hx hd total y hym
      have hyx := hR x y hr
      rw [(hx x hxm).lawful.symm _ (hy y hym)] at hyx
      refine hf x hxm ?_
      rw [same_congr hk hk' hkk (hx x hxm)]
      exact hk'.lawful.trans _ _ (hy y hym) (hx x hxm) hky hyx
    rw [hnone]
    exact .none

end Find

def isTable : Value → Bool
  | map _ | set _ => true
  | _ => false

section Tables

variable {m m' : Value} (hm : m.Exact) (hm' : m'.Exact) (hmm : same m m' = true)
  (ht : m.isTable = true)

include hm hm' hmm ht

theorem same_lookup {d d' : Value} (hdd : same d d' = true) :
    same (Answer.lookup m k d) (Answer.lookup m' k' d') = true := by
  cases m with
  | map es =>
    obtain ⟨fs, rfl, hl, total⟩ := total_of_same_map hmm
    have hrel := find?_same hk hk' hkk Prod.fst (fun _ _ hr => hr.1) hl
      (fun e he => (hm.map.1 e he).1) (fun f hf => (hm'.map.1 f hf).1) hm.map.2 hm'.map.2 total
    exact rel_getD (S := fun v w => same v w = true) hrel (fun _ _ hr => hr.2) hdd
  | set xs =>
    obtain ⟨ys, rfl, hl, total⟩ := same_set_iff.mp hmm
    have hrel := find?_same hk hk' hkk id (fun _ _ => id) hl hm.set.1 hm'.set.1 hm.set.2
      hm'.set.2 total
    have hget := rel_getD (S := fun v w => same v w = true) (f := id) hrel (fun _ _ => id) hdd
    rwa [Option.map_id, id, id] at hget
  | _ => cases ht

theorem contains_eq : ∃ b, Answer.contains m k = .ok (.bool b) ∧
    Answer.contains m' k' = .ok (.bool b) := by
  cases m with
  | map es =>
    obtain ⟨fs, rfl, hl, total⟩ := total_of_same_map hmm
    have hrel := find?_same hk hk' hkk Prod.fst (fun _ _ hr => hr.1) hl
      (fun e he => (hm.map.1 e he).1) (fun f hf => (hm'.map.1 f hf).1) hm.map.2 hm'.map.2 total
    refine ⟨hasKey k es, rfl, ?_⟩
    rw [Answer.contains, hasKey, hasKey, ← List.isSome_find?, ← List.isSome_find?,
      isSome_of_rel hrel]
  | set xs =>
    obtain ⟨ys, rfl, hl, total⟩ := same_set_iff.mp hmm
    have hrel := find?_same hk hk' hkk id (fun _ _ => id) hl hm.set.1 hm'.set.1 hm.set.2
      hm'.set.2 total
    refine ⟨has k xs, rfl, ?_⟩
    rw [Answer.contains, has, has, ← List.isSome_find?, ← List.isSome_find?]
    exact congrArg (fun b => Except.ok (bool b)) (isSome_of_rel hrel).symm
  | _ => cases ht

end Tables

omit hk hk' hkk

/-! ## Building -/

theorem differ_of_perm {α : Type} (key : α → Value) {xs ys : List α} (hp : xs.Perm ys)
    (hx : ∀ x ∈ xs, (key x).Exact) (hd : xs.Pairwise fun a b => same (key b) (key a) = false) :
    ys.Pairwise fun a b => same (key b) (key a) = false := by
  have hall : ys.Pairwise fun a b => (key a).Exact → (key b).Exact →
      same (key b) (key a) = false := by
    refine (hp.pairwise_iff fun {a b} h hb ha => ?_).mp (hd.imp fun h _ _ => h)
    rw [ha.lawful.symm _ hb]
    exact h ha hb
  exact hall.imp_of_mem fun ha hb h => h (hx _ (hp.mem_iff.mpr ha)) (hx _ (hp.mem_iff.mpr hb))

theorem same_map_of_perm {es fs : List (Value × Value)} (hp : es.Perm fs)
    (he : ∀ e ∈ es, e.1.Exact ∧ e.2.Exact) (hd : es.Pairwise fun a b => same b.1 a.1 = false) :
    same (map es) (map fs) = true := by
  have hf : ∀ f ∈ fs, f.1.Exact ∧ f.2.Exact := fun f hf => he f (hp.mem_iff.mpr hf)
  refine same_map_of_total (differ_of_perm Prod.fst hp (fun e hm => (he e hm).1) hd) hp.length_eq
    (fun e hm f hfm g hgm => (he e hm).1.lawful.eucl _ _ (hf f hfm).1 (hf g hgm).1) fun e hm => ?_
  exact ⟨e, hp.mem_iff.mp hm, (he e hm).1.lawful.refl, (he e hm).2.lawful.refl⟩

theorem same_set_of_perm {xs ys : List Value} (hp : xs.Perm ys) (hx : ∀ x ∈ xs, x.Exact) :
    same (set xs) (set ys) = true :=
  same_set_iff.mpr ⟨ys, rfl, hp.length_eq, fun x hm => ⟨x, hp.mem_iff.mp hm, (hx x hm).lawful.refl⟩⟩

theorem repeated?_eq_none {keys : List Value} (h : keys.Pairwise fun a b => same b a = false) :
    repeated? keys = none := by
  have hgo : ∀ (rest seen : List Value), (∀ k ∈ rest, ∀ y ∈ seen, same k y = false) →
      (rest.Pairwise fun a b => same b a = false) → repeated?.go seen rest = none := by
    intro rest
    induction rest with
    | nil => exact fun _ _ _ => rfl
    | cons k rest ih =>
      intro seen hseen hd
      obtain ⟨hk, hrest⟩ := List.forall_mem_cons.mp hseen
      obtain ⟨hd, hds⟩ := List.pairwise_cons.mp hd
      rw [repeated?.go, has_eq_false_iff.mpr hk, if_neg nofun]
      exact ih _ (fun x hx => List.forall_mem_cons.mpr ⟨hd x hx, hrest x hx⟩) hds
  exact hgo keys [] (fun _ _ => nofun) h

theorem pairs_eq_pairUp (vs : List Value) : Answer.hashMap.pairs vs = Form.pairUp vs := by
  match vs with
  | [] | [_] => rfl
  | k :: v :: rest => exact congrArg ((k, v) :: ·) (pairs_eq_pairUp rest)

/-- Entries with different keys make a map, as a literal and by inserting. -/
theorem map_built {es : List (Value × Value)} (hd : es.Pairwise fun a b => same b.1 a.1 = false) :
    Machine.mapOf (unpaired es) = Pure.pure (map es) ∧
      Answer.hashMap (unpaired es) = .ok (map es) := by
  constructor
  · rw [Machine.mapOf, pairUp_unpaired, repeated?_eq_none (List.pairwise_map.mpr hd)]
  · rw [Answer.hashMap, length_unpaired, if_neg (by omega), pairs_eq_pairUp, pairUp_unpaired,
      entriesOf_eq hd]

/-- Different elements make a set, as a literal and by inserting. -/
theorem set_built {xs : List Value} (hd : xs.Pairwise fun a b => same b a = false) :
    Machine.setOf xs = Pure.pure (set xs) ∧ itemsOf xs = xs := by
  refine ⟨?_, itemsOf_eq hd⟩
  rw [Machine.setOf, repeated?_eq_none hd]

/-! ## Programs -/

/-- Two runs that succeed with equal values and change nothing. -/
def SameAnswer (a b : Run Value) : Prop := ∀ s, ∃ x y, a s = .ok x s ∧ b s = .ok y s ∧ same x y = true

theorem sameAnswer_pure {x y : Value} (h : same x y = true) :
    SameAnswer (Pure.pure x) (Pure.pure y) := fun _ => ⟨x, y, rfl, rfl, h⟩

/-- The ways to look a key up: `get`, `contains?`, and the call of a map, a set or a keyword. -/
structure Interchangeable (E : Engine) (m k d m' k' d' : Value) : Prop where
  get : ∀ o, SameAnswer (apply E (native o .get) [m, k]) (apply E (native o .get) [m', k'])
  getOr : ∀ o, SameAnswer (apply E (native o .get) [m, k, d]) (apply E (native o .get) [m', k', d'])
  contains : ∀ o, SameAnswer (apply E (native o .contains) [m, k])
    (apply E (native o .contains) [m', k'])
  call : SameAnswer (apply E m [k]) (apply E m' [k'])
  callOr : ∀ es, m = map es → SameAnswer (apply E m [k, d]) (apply E m' [k', d'])
  keyword : ∀ name, k = keyword name → SameAnswer (apply E k [m, d]) (apply E k' [m', d'])

theorem interchangeable (E : Engine) {m m' k k' d d' : Value} (hm : m.Exact) (hm' : m'.Exact)
    (hk : k.Exact) (hk' : k'.Exact) (ht : m.isTable = true) (hmm : same m m' = true)
    (hkk : same k k' = true) (hdd : same d d' = true) : Interchangeable E m k d m' k' d' := by
  have lookup : ∀ {d d' : Value}, same d d' = true →
      SameAnswer (Pure.pure (Answer.lookup m k d)) (Pure.pure (Answer.lookup m' k' d')) := fun h =>
    sameAnswer_pure (same_lookup hk hk' hkk hm hm' hmm ht h)
  obtain ⟨b, hb, hb'⟩ := contains_eq hk hk' hkk hm hm' hmm ht
  refine ⟨fun _ => lookup rfl, fun _ => lookup hdd, fun _ s => ?contains, ?call, fun es hes => ?callOr,
    fun name hname => ?keyword⟩
  case contains =>
    refine ⟨bool b, bool b, ?_, ?_, by simp [same]⟩
    · change Run.ofFault (Answer.contains m k) s = _
      rw [hb]
      rfl
    · change Run.ofFault (Answer.contains m' k') s = _
      rw [hb']
      rfl
  case call =>
    cases m with
    | map es =>
      obtain ⟨fs, rfl, -⟩ := total_of_same_map hmm
      exact lookup rfl
    | set xs =>
      obtain ⟨ys, rfl, -⟩ := same_set_iff.mp hmm
      have hk₁ : has k xs = b := bool.inj (Except.ok.inj hb)
      have hk₂ : has k' ys = b := bool.inj (Except.ok.inj hb')
      change SameAnswer (Pure.pure (if has k xs then k else nil))
        (Pure.pure (if has k' ys then k' else nil))
      rw [hk₁, hk₂]
      cases b with
      | true => exact sameAnswer_pure hkk
      | false => exact sameAnswer_pure rfl
    | _ => cases ht
  case callOr =>
    subst hes
    obtain ⟨fs, rfl, -⟩ := total_of_same_map hmm
    exact lookup hdd
  case keyword =>
    subst hname
    cases k' with
    | keyword => exact lookup hdd
    | _ => cases hkk

/-- Equality is an equivalence of the values without Doubles. Maps, sets, keys and elements that are
equal can stand for each other where something is looked up, and a map or a set is the same in
whatever order it was built. -/
theorem equal_values_are_interchangeable :
    (Equivalence fun u v : { v : Value // v.Exact } => same u.1 v.1 = true) ∧
    (∀ (E : Engine) (m m' k k' d d' : { v : Value // v.Exact }), m.1.isTable = true →
      same m.1 m'.1 = true → same k.1 k'.1 = true → same d.1 d'.1 = true →
        Interchangeable E m.1 k.1 d.1 m'.1 k'.1 d'.1) ∧
    (∀ es fs : List (Value × Value), es.Perm fs → (∀ e ∈ es, e.1.Exact ∧ e.2.Exact) →
      (es.Pairwise fun a b => same b.1 a.1 = false) → ∃ m m', same m m' = true ∧
        Machine.mapOf (unpaired es) = Pure.pure m ∧ Machine.mapOf (unpaired fs) = Pure.pure m' ∧
        Answer.hashMap (unpaired es) = .ok m ∧ Answer.hashMap (unpaired fs) = .ok m') ∧
    ∀ xs ys : List Value, xs.Perm ys → (∀ x ∈ xs, x.Exact) →
      (xs.Pairwise fun a b => same b a = false) → ∃ m m', same m m' = true ∧
        Machine.setOf xs = Pure.pure m ∧ Machine.setOf ys = Pure.pure m' ∧
        set (itemsOf xs) = m ∧ set (itemsOf ys) = m' := by
  refine ⟨equivalence_same, fun E m m' k k' d d' ht hmm hkk hdd => ?_, fun es fs hp he hd => ?_,
    fun xs ys hp hx hd => ?_⟩
  · exact interchangeable E m.2 m'.2 k.2 k'.2 ht hmm hkk hdd
  · obtain ⟨hes, hes'⟩ := map_built hd
    obtain ⟨hfs, hfs'⟩ := map_built (differ_of_perm Prod.fst hp (fun e hm => (he e hm).1) hd)
    exact ⟨map es, map fs, same_map_of_perm hp he hd, hes, hfs, hes', hfs'⟩
  · obtain ⟨hxs, hxs'⟩ := set_built hd
    obtain ⟨hys, hys'⟩ := set_built (differ_of_perm id hp hx hd)
    exact ⟨set xs, set ys, same_set_of_perm hp hx, hxs, hys, congrArg set hxs', congrArg set hys'⟩

/-- A list and a vector as a key, and as values two sets in different orders. -/
theorem nested_interchange : ∃ m m' k k' : Value,
    m = map [(vector [int 1], set [keyword "a", int 2]), (bool true, nil)] ∧
      m' = map [(bool true, nil), (list [int 1], set [int 2, keyword "a"])] ∧
      k = list [int 1] ∧ k' = vector [int 1] ∧ same m m' = true ∧ same m' m = true ∧
      Interchangeable (Engine.ofFuel 0) m k nil m' k' nil ∧
      (Answer.lookup m k nil).typeName = "Set" := by
  have hint : ∀ n, (int n).Exact := fun n => exact_of_single rfl rfl
  have hkey : ∀ name, (keyword name).Exact := fun _ => exact_of_single rfl rfl
  have hbool : (bool true).Exact ∧ nil.Exact := ⟨exact_of_single rfl rfl, exact_of_single rfl rfl⟩
  have hlist : (list [int 1]).Exact := exact_list_iff.mpr (List.forall_mem_singleton.mpr (hint 1))
  have hvector : (vector [int 1]).Exact :=
    exact_vector_iff.mpr (List.forall_mem_singleton.mpr (hint 1))
  have hset : (set [keyword "a", int 2]).Exact ∧ (set [int 2, keyword "a"]).Exact := by
    constructor <;> refine exact_set_iff.mpr ⟨?_, by decide⟩ <;> simp [hint, hkey]
  have hm : (map [(vector [int 1], set [keyword "a", int 2]), (bool true, nil)]).Exact := by
    refine exact_map_iff.mpr ⟨?_, by decide⟩
    simp [hvector, hset, hbool]
  have hm' : (map [(bool true, nil), (list [int 1], set [int 2, keyword "a"])]).Exact := by
    refine exact_map_iff.mpr ⟨?_, by decide⟩
    simp [hlist, hset, hbool]
  have h := equal_values_are_interchangeable
  exact ⟨_, _, _, _, rfl, rfl, rfl, rfl, by decide, h.1.symm (x := ⟨_, hm⟩) (y := ⟨_, hm'⟩) rfl,
    h.2.1 (Engine.ofFuel 0) ⟨_, hm⟩ ⟨_, hm'⟩ ⟨_, hlist⟩ ⟨_, hvector⟩ ⟨_, hbool.2⟩ ⟨_, hbool.2⟩ rfl
      rfl rfl rfl, by decide⟩

end Value

end TwinLisp
