import Mathlib.Data.List.TakeWhile
import TwinLisp.Native.Strings
import TwinLisp.Proofs.Names.Table

/-! The name of a symbol, as the native `name` tells it and as the resolver takes it. The resolver parts a
symbol at its first slash, and not at all if nothing stands on one side of it; the native drops everything
up to the last slash. They agree on the symbols in which every slash stands between two parts without
slashes, and only there the name that is told leads to the Var of the symbol.

* `namePart`, `Names.searched`: the name that the resolver looks for, and where.
* `lastPart_eq_namePart_iff`: when the native tells the same name.
* `Names.told_name_iff`: when both are the same name, and the same Var. -/

namespace TwinLisp

/-- The name that the resolver looks for. -/
def namePart (symbol : String) : String :=
  match splitQualified symbol with
  | some (_, name) => name
  | none => symbol

/-- Every slash stands between two parts that are not empty and have no slashes. -/
def Unambiguous (symbol : String) : Prop :=
  ∀ a b, symbol = a ++ "/" ++ b → (a ≠ "" ∧ '/' ∉ a.toList) ∧ b ≠ "" ∧ '/' ∉ b.toList

variable {symbol a b : String}

theorem toList_parted (a b : String) : (a ++ "/" ++ b).toList = a.toList ++ '/' :: b.toList := by
  simp [show "/".toList = ['/'] by decide]

/-! ## The last part -/

theorem lastPart_of_notMem (h : '/' ∉ symbol.toList) : lastPart symbol = symbol := by
  have hall : ∀ c ∈ symbol.toList.reverse, (c != '/') = true := fun c hc =>
    bne_iff_ne.mpr fun e => h (e ▸ List.mem_reverse.mp hc)
  rw [lastPart, List.takeWhile_eq_self_iff.mpr hall, List.reverse_reverse, String.ofList_toList]

theorem lastPart_parted (a : String) (hb : '/' ∉ b.toList) : lastPart (a ++ "/" ++ b) = b := by
  have hall : ∀ c ∈ b.toList.reverse, (c != '/') = true := fun c hc =>
    bne_iff_ne.mpr fun e => hb (e ▸ List.mem_reverse.mp hc)
  rw [lastPart, toList_parted, List.reverse_append, List.reverse_cons, List.append_assoc,
    List.takeWhile_append_of_pos hall]
  simp

theorem slash_notMem_lastPart (symbol : String) : '/' ∉ (lastPart symbol).toList := by
  intro h
  rw [lastPart, String.toList_ofList, List.mem_reverse] at h
  simpa using List.mem_takeWhile_imp h

/-! ## The two ways to part a symbol -/

theorem exists_first_slash (h : '/' ∈ symbol.toList) :
    ∃ a b, symbol = a ++ "/" ++ b ∧ '/' ∉ a.toList := by
  obtain ⟨front, back, hcs, hfront⟩ := List.eq_append_cons_of_mem h
  refine ⟨String.ofList front, String.ofList back, ?_, by rwa [String.toList_ofList]⟩
  rw [← String.toList_inj, toList_parted, String.toList_ofList, String.toList_ofList, hcs]

theorem Unambiguous.parted (h : Unambiguous symbol) (hs : symbol = a ++ "/" ++ b) :
    splitQualified symbol = some (a, b) :=
  have ⟨⟨ha, hsa⟩, hb, _⟩ := h a b hs
  splitQualified_eq_some_iff.mpr ⟨hs, hsa, ha, hb⟩

theorem unambiguous_of_split (hs : splitQualified symbol = some (a, b)) (hb : '/' ∉ b.toList) :
    Unambiguous symbol := by
  obtain ⟨rfl, hsa, ha, hnb⟩ := splitQualified_eq_some_iff.mp hs
  intro a' b' he
  -- Neither part has a slash, so the two ways to part the symbol are one.
  have hlists := congrArg String.toList he
  rw [toList_parted, toList_parted] at hlists
  have hb' : '/' ∉ b'.toList := by
    intro hmem
    have hcount := congrArg (List.count '/') hlists
    simp only [List.count_append, List.count_cons_self, List.count_eq_zero_of_not_mem hsa,
      List.count_eq_zero_of_not_mem hb] at hcount
    have := List.count_pos_iff.mpr hmem
    omega
  have hname : b' = b := by rw [← lastPart_parted a' hb', ← he, lastPart_parted a hb]
  subst hname
  have hns : a' = a := String.toList_inj.mp (List.append_cancel_right hlists).symm
  exact ⟨hns ▸ ⟨ha, hsa⟩, hnb, hb⟩

/-- The native tells the name that the resolver looks for. -/
theorem lastPart_eq_namePart_iff : lastPart symbol = namePart symbol ↔ Unambiguous symbol := by
  unfold namePart
  constructor
  · intro h
    cases hs : splitQualified symbol with
    | some parts =>
      rw [hs] at h
      have hname : lastPart symbol = parts.2 := h
      exact unambiguous_of_split hs (hname ▸ slash_notMem_lastPart symbol)
    | none =>
      rw [hs] at h
      rintro a b rfl
      have hslash : '/' ∈ (lastPart (a ++ "/" ++ b)).toList := by
        rw [h, toList_parted]
        simp
      exact absurd hslash (slash_notMem_lastPart _)
  · intro h
    by_cases hslash : '/' ∈ symbol.toList
    · obtain ⟨a, b, hs, -⟩ := exists_first_slash hslash
      rw [h.parted hs, hs, lastPart_parted a (h a b hs).2.2]
    · have hs : splitQualified symbol = none := by
        cases hs : splitQualified symbol with
        | none => rfl
        | some parts =>
          obtain ⟨rfl, -⟩ := splitQualified_eq_some_iff.mp hs
          exact absurd (by simp) hslash
      rw [hs, lastPart_of_notMem hslash]

/-! ## The Var of a symbol -/

namespace Names

variable {t : Names} {ns name : String} {v : Var}

/-- The namespaces in which a symbol is looked up, one after the other. -/
def searched (symbol : String) (t : Names) : List String :=
  match splitQualified symbol with
  | some (ns, _) => [ns]
  | none => [t.current, coreNamespace]

theorem resolve?_eq_findSome? (symbol : String) (t : Names) :
    t.resolve? symbol = (t.searched symbol).findSome? fun ns => t.find? ns (namePart symbol) := by
  unfold resolve? searched namePart
  cases splitQualified symbol with
  | some parts => simp [List.findSome?_cons]; cases t.find? parts.1 parts.2 <;> rfl
  | none =>
    simp only [lookup?, List.findSome?_cons, List.findSome?_nil]
    cases t.find? t.current symbol with
    | some v => rfl
    | none => cases t.find? coreNamespace symbol <;> rfl

theorem name_of_find? (h : t.find? ns name = some v) : v.name = name := by
  unfold find? at h
  split at h
  · simpa using List.find?_some h
  · cases h

theorem name_of_internIn {ε : Type} {s s' : State}
    (h : (Act.internIn ns name : Act ε Var) s = .ok v s') : v.name = name := by
  cases hv : s.names.find? ns name with
  | some w =>
    rw [Act.internIn_of_find? hv] at h
    cases h
    exact name_of_find? hv
  | none =>
    rw [Act.internIn_of_new hv] at h
    cases h
    rfl

/-- The native tells, for a symbol or a keyword, what stands behind the last slash. That is the name that the
resolver looks for exactly if the symbol is unambiguous. To intern it where the symbol is looked up yields
the Var to which the symbol is resolved, and changes nothing, exactly in that case too. -/
theorem told_name_iff (symbol : String) :
    ∃ told, (∀ v ∈ [Value.symbol symbol, .keyword symbol], Answer.name v = .ok (.str told)) ∧
      (told = namePart symbol ↔ Unambiguous symbol) ∧
      ∀ (s : State) (v : Var), s.names.resolve? symbol = some v →
        ((∃ ns ∈ s.names.searched symbol, (Act.internIn ns told : Parse Var) s = .ok v s) ↔
          Unambiguous symbol) ∧
        (¬ Unambiguous symbol → ∀ ns w s', (Act.internIn ns told : Parse Var) s = .ok w s' → w ≠ v) := by
  refine ⟨lastPart symbol, by simp [Answer.name], lastPart_eq_namePart_iff, fun s v hv => ?_⟩
  rw [resolve?_eq_findSome?, List.findSome?_eq_some_iff] at hv
  obtain ⟨before, ns, after, hns, hfind, -⟩ := hv
  have hother : ∀ {ns s'}, (Act.internIn ns (lastPart symbol) : Parse Var) s = .ok v s' →
      Unambiguous symbol := fun h =>
    lastPart_eq_namePart_iff.mp ((name_of_internIn h).symm.trans (name_of_find? hfind))
  refine ⟨⟨fun ⟨_, _, h⟩ => hother h, fun h => ⟨ns, by simp [hns], ?_⟩⟩, ?_⟩
  · rw [lastPart_eq_namePart_iff.mpr h]
    exact Act.internIn_of_find? hfind
  · rintro hu ns w s' h rfl
    exact hu (hother h)

/-- A state in which `user/a/b` has a Var, and `user/b` another one. -/
def slashed : State :=
  { State.bare .empty .standard with
    names := ⟨[⟨coreNamespace, []⟩, ⟨userNamespace, [⟨1, "user", "b"⟩, ⟨0, "user", "a/b"⟩]⟩], "user"⟩ }

/-- The name that is told of `user/b` leads to its Var, that of `user/a/b` to another one. -/
theorem var_behind_slash_is_missed :
    slashed.names.resolve? "user/b" = some ⟨1, "user", "b"⟩ ∧
    Answer.name (.symbol "user/b") = .ok (.str "b") ∧
    (∃ ns ∈ slashed.names.searched "user/b",
      (Act.internIn ns "b" : Parse Var) slashed = .ok ⟨1, "user", "b"⟩ slashed) ∧
    slashed.names.resolve? "user/a/b" = some ⟨0, "user", "a/b"⟩ ∧
    Answer.name (.symbol "user/a/b") = .ok (.str "b") ∧
    ∀ ns w s', (Act.internIn ns "b" : Parse Var) slashed = .ok w s' → w ≠ ⟨0, "user", "a/b"⟩ := by
  have hplain : slashed.names.resolve? "user/b" = some ⟨1, "user", "b"⟩ := by decide
  have hslash : slashed.names.resolve? "user/a/b" = some ⟨0, "user", "a/b"⟩ := by decide
  obtain ⟨b, hb, hsame, hfinds⟩ := told_name_iff "user/b"
  obtain ⟨b', hb', -, hmisses⟩ := told_name_iff "user/a/b"
  obtain rfl : b = "b" := by
    have h : Answer.name (.symbol "user/b") = .ok (.str "b") := rfl
    exact Value.str.inj (Except.ok.inj ((hb _ (by simp)).symm.trans h))
  obtain rfl : b' = "b" := by
    have h : Answer.name (.symbol "user/a/b") = .ok (.str "b") := rfl
    exact Value.str.inj (Except.ok.inj ((hb' _ (by simp)).symm.trans h))
  refine ⟨hplain, rfl, (hfinds _ _ hplain).1.mpr (hsame.mp (by decide)), hslash, rfl, ?_⟩
  exact (hmisses _ _ hslash).2 fun h => (h "user" "a/b" (by decide)).2.2 (by decide)

/-- The slash alone is a name for the resolver, but nothing is told of it. -/
theorem name_of_slash_is_lost :
    Answer.name (.symbol "/") = .ok (.str "") ∧ splitQualified "/" = none ∧ namePart "/" = "/" :=
  ⟨rfl, by decide, by decide⟩

end Names

end TwinLisp
