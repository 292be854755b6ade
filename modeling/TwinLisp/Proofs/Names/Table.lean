import TwinLisp.State.Basic
import Mathlib.Data.List.Basic

/-! What the operations on namespaces do to what can be asked of them: `Names.find?` for each pair of a
namespace and a name, `Names.namesIn?` for each namespace.

* `Names.find?_add`, `Names.namesIn?_add` and their kin.
* `Act.internIn_of_find?`, `Act.internIn_of_new`: a pair is interned again, or for the first time.
* `splitQualified_eq_some_iff`: how a qualified symbol is written. -/

namespace TwinLisp

/-! ## Qualified symbols -/

theorem splitSlash_eq_some_iff {cs ns name : List Char} :
    splitSlash cs = some (ns, name) ↔ cs = ns ++ '/' :: name ∧ '/' ∉ ns := by
  induction cs generalizing ns with
  | nil => simp [splitSlash]
  | cons c rest ih =>
    rw [splitSlash]
    split
    · next hc =>
      subst hc
      constructor
      · intro h
        cases h
        exact ⟨rfl, by simp⟩
      · rintro ⟨h, hns⟩
        cases ns with
        | nil =>
          cases h
          rfl
        | cons d ns =>
          cases h
          simp at hns
    · next hc =>
      cases ns with
      | nil =>
        simp only [Option.map_eq_some_iff, List.nil_append, List.cons.injEq]
        constructor
        · rintro ⟨⟨ns, name⟩, -, h⟩
          cases h
        · rintro ⟨⟨h, -⟩, -⟩
          exact absurd h hc
      | cons d ns =>
        simp only [Option.map_eq_some_iff, List.cons_append, List.cons.injEq, List.mem_cons, not_or]
        constructor
        · rintro ⟨⟨ns', name'⟩, h, he⟩
          cases he
          obtain ⟨hrest, hns⟩ := ih.mp h
          exact ⟨⟨rfl, hrest⟩, Ne.symm hc, hns⟩
        · rintro ⟨⟨rfl, hrest⟩, -, hns⟩
          exact ⟨(ns, name), ih.mpr ⟨hrest, hns⟩, rfl⟩

/-- The namespace of a symbol ends at the first slash, so that only the name can have more of them. -/
theorem splitQualified_eq_some_iff {symbol ns name : String} :
    splitQualified symbol = some (ns, name) ↔
      symbol = ns ++ "/" ++ name ∧ '/' ∉ ns.toList ∧ ns ≠ "" ∧ name ≠ "" := by
  have hslash : "/".toList = ['/'] := by decide
  unfold splitQualified
  constructor
  · intro h
    split at h
    · next a b hs =>
      obtain ⟨hcs, hns⟩ := splitSlash_eq_some_iff.mp hs
      split at h
      · cases h
      · next hparts =>
        cases h
        simp only [Bool.or_eq_true, List.isEmpty_iff, not_or] at hparts
        refine ⟨?_, by rwa [String.toList_ofList], ?_, ?_⟩
        · rw [← String.toList_inj, hcs]
          simp [hslash]
        · simpa using hparts.1
        · simpa using hparts.2
    · cases h
  · rintro ⟨rfl, hns, hn, hm⟩
    have hs : splitSlash (ns ++ "/" ++ name).toList = some (ns.toList, name.toList) :=
      splitSlash_eq_some_iff.mpr ⟨by simp [hslash], hns⟩
    rw [hs]
    simp [hn, hm]

/-! ## Namespaces -/

namespace Names

variable {t : Names} {ns other name : String} {v w : Var}

theorem name_of_space? {n : Namespace} (h : t.space? ns = some n) : n.name = ns := by
  simpa using List.find?_some h

theorem ensure_of_space? (h : (t.space? ns).isSome) : t.ensure ns = t := if_pos h

theorem space?_ensure :
    (t.ensure ns).space? other =
      if ns = other then some ((t.space? ns).getD ⟨ns, []⟩) else t.space? other := by
  cases h : t.space? ns with
  | some n =>
    rw [ensure_of_space? (by rw [h]; rfl)]
    split
    · next he =>
      subst he
      exact h
    · rfl
  | none =>
    have hnew : t.ensure ns = { t with spaces := t.spaces ++ [⟨ns, []⟩] } := by
      rw [ensure, h]
      rfl
    have hlast : (t.ensure ns).space? other =
        (t.space? other).or (if ns = other then some ⟨ns, []⟩ else none) := by
      rw [hnew, space?, List.find?_append, space?]
      congr 1
      by_cases he : ns = other <;> simp [he]
    rw [hlast]
    split
    · next he =>
      subst he
      rw [h]
      rfl
    · rw [Option.or_none]

@[simp] theorem find?_ensure : (t.ensure ns).find? other name = t.find? other name := by
  rw [find?, space?_ensure, find?]
  by_cases he : ns = other
  · subst he
    rw [if_pos rfl]
    cases t.space? ns <;> rfl
  · rw [if_neg he]

theorem namesIn?_ensure :
    (t.ensure ns).namesIn? other =
      if ns = other then some ((t.namesIn? ns).getD []) else t.namesIn? other := by
  rw [namesIn?, space?_ensure]
  split
  · next he =>
    subst he
    rw [namesIn?]
    cases t.space? ns <;> rfl
  · rfl

@[simp] theorem current_ensure : (t.ensure ns).current = t.current := by
  unfold ensure
  split <;> rfl

@[simp] theorem find?_enter : (t.enter ns).find? other name = t.find? other name := find?_ensure

theorem space?_add :
    (t.add v).space? ns = (t.space? ns).map fun n =>
      if ns = v.ns then { n with vars := v :: n.vars } else n := by
  have hkeep : (fun n : Namespace => n.name == ns) ∘
      (fun n : Namespace => if n.name == v.ns then { n with vars := v :: n.vars } else n) =
        fun n => n.name == ns := by
    funext n
    by_cases h : n.name = v.ns <;> simp [h]
  rw [space?, add, List.find?_map, hkeep, ← space?]
  cases h : t.space? ns with
  | none => rfl
  | some n => simp [name_of_space? h]

theorem space?_of_find? (h : t.find? ns name = some v) : (t.space? ns).isSome := by
  rw [find?] at h
  cases hs : t.space? ns with
  | none =>
    rw [hs] at h
    cases h
  | some n => rfl

theorem find?_add (h : (t.space? v.ns).isSome) :
    (t.add v).find? ns name =
      if v.ns = ns ∧ v.name = name then some v else t.find? ns name := by
  rw [find?, space?_add, find?]
  cases hs : t.space? ns with
  | none =>
    rw [if_neg]
    · rfl
    · rintro ⟨rfl, -⟩
      rw [hs] at h
      cases h
  | some n =>
    by_cases hns : ns = v.ns
    · subst hns
      by_cases hname : v.name = name <;> simp [Namespace.find?, hname]
    · simp [hns, Ne.symm hns]

theorem namesIn?_add :
    (t.add v).namesIn? ns =
      (t.namesIn? ns).map fun names => if v.ns = ns then names ++ [v.name] else names := by
  rw [namesIn?, space?_add, namesIn?]
  cases t.space? ns with
  | none => rfl
  | some n =>
    by_cases hns : ns = v.ns
    · simp [hns]
    · simp [hns, Ne.symm hns]

@[simp] theorem current_add : (t.add v).current = t.current := rfl

/-- A qualified symbol is resolved in its own namespace, whatever the current one. -/
theorem resolve?_qualified (hs : '/' ∉ ns.toList) (hns : ns ≠ "") (hname : name ≠ "") :
    t.resolve? (ns ++ "/" ++ name) = t.find? ns name := by
  rw [resolve?, splitQualified_eq_some_iff.mpr ⟨rfl, hs, hns, hname⟩]

theorem lookup?_of_find? (h : t.find? t.current name = some v) : t.lookup? name = some v := by
  rw [lookup?, h]

end Names

/-! ## Interning -/

namespace Act

variable {ε : Type} {s : State} {ns name : String} {v : Var}

theorem internIn_of_find? (h : s.names.find? ns name = some v) :
    (internIn ns name : Act ε Var) s = .ok v s := by
  simp only [internIn, Names.find?_ensure, h]
  rw [Names.ensure_of_space? (Names.space?_of_find? h)]

theorem internIn_of_new (h : s.names.find? ns name = none) :
    (internIn ns name : Act ε Var) s = .ok ⟨s.store.vars.size, ns, name⟩
      { s with
        store := (s.store.newVar ns name).2
        names := (s.names.ensure ns).add ⟨s.store.vars.size, ns, name⟩ } := by
  simp only [internIn, Names.find?_ensure, h]
  rfl

end Act

end TwinLisp
