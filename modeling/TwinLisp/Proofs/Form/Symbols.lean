import TwinLisp.Proofs.Form.Proper

/-! The symbols that a form mentions.

* `Form.symbols`: their names.
* `Form.Avoids`: none of them is one of certain names.
* `Form.Fit`: a proper form that avoids them. -/

namespace TwinLisp

namespace Form

mutual

/-- The names of the symbols in a form. -/
def symbols : Form → List String
  | atom _ _ => []
  | symbol name _ => [name]
  | list items _ | vector items _ | map items _ | set items _ => symbolsAll items

def symbolsAll : List Form → List String
  | [] => []
  | f :: rest => f.symbols ++ symbolsAll rest

end

variable {avoid : String → Prop}

/-- No symbol in the form has one of certain names. -/
def Avoids (avoid : String → Prop) (f : Form) : Prop := ∀ name ∈ f.symbols, ¬ avoid name

theorem mem_symbolsAll {name : String} {fs : List Form} :
    name ∈ symbolsAll fs ↔ ∃ f ∈ fs, name ∈ f.symbols := by
  induction fs with
  | nil => simp [symbolsAll]
  | cons f rest ih => simp [symbolsAll, ih]

theorem avoids_symbol {name : String} {span : Span} :
    (symbol name span).Avoids avoid ↔ ¬ avoid name := by
  simp [Avoids, symbols]

theorem eq_symbol_of_symbol? {f : Form} {name : String} (h : f.symbol? = some name) :
    ∃ span, f = symbol name span := by
  cases f with
  | symbol _ span =>
    cases h
    exact ⟨span, rfl⟩
  | _ => cases h

theorem mem_symbols_of_symbol? {f : Form} {name : String} (h : f.symbol? = some name) :
    name ∈ f.symbols := by
  obtain ⟨span, rfl⟩ := eq_symbol_of_symbol? h
  exact List.mem_singleton_self name

theorem forall_symbolsAll {fs : List Form} :
    (∀ name ∈ symbolsAll fs, ¬ avoid name) ↔ ∀ f ∈ fs, f.Avoids avoid := by
  simp only [mem_symbolsAll, Avoids]
  exact ⟨fun h f hf name hn => h name ⟨f, hf, hn⟩, fun h name ⟨f, hf, hn⟩ => h f hf name hn⟩

/-! ## Proper forms that avoid names -/

/-- A proper form that avoids certain names. -/
structure Fit (avoid : String → Prop) (f : Form) : Prop where
  proper : f.Proper
  avoids : f.Avoids avoid

abbrev AllFit (avoid : String → Prop) (fs : List Form) : Prop := ∀ f ∈ fs, f.Fit avoid

theorem Proper.fit {f : Form} (h : f.Proper) : f.Fit fun _ => False := ⟨h, fun _ _ => id⟩

theorem AllFit.nil : AllFit avoid [] := fun _ h => absurd h List.not_mem_nil

theorem AllFit.cons {f : Form} {fs : List Form} (h : f.Fit avoid) (hs : AllFit avoid fs) :
    AllFit avoid (f :: fs) := List.forall_mem_cons.mpr ⟨h, hs⟩

theorem AllFit.head {f : Form} {fs : List Form} (h : AllFit avoid (f :: fs)) : f.Fit avoid :=
  h f List.mem_cons_self

theorem AllFit.tail {f : Form} {fs : List Form} (h : AllFit avoid (f :: fs)) : AllFit avoid fs :=
  fun g hg => h g (List.mem_cons_of_mem f hg)

theorem AllFit.append {fs gs : List Form} (h : AllFit avoid fs) (h' : AllFit avoid gs) :
    AllFit avoid (fs ++ gs) := fun g hg => (List.mem_append.mp hg).elim (h g) (h' g)

theorem AllFit.proper {fs : List Form} (h : AllFit avoid fs) : AllProper fs :=
  fun f hf => (h f hf).proper

theorem fit_nil (span : Span) : (atom .nil span).Fit avoid := ⟨.atom fun _ => rfl, nofun⟩

theorem fit_bool (b : Bool) (span : Span) : (atom (.bool b) span).Fit avoid :=
  ⟨.atom fun _ => rfl, nofun⟩

theorem fit_symbol {name : String} {span : Span} :
    (symbol name span).Fit avoid ↔ ¬ avoid name :=
  ⟨fun h => avoids_symbol.mp h.avoids, fun h => ⟨.symbol, avoids_symbol.mpr h⟩⟩

theorem fit_list {fs : List Form} {span : Span} : (list fs span).Fit avoid ↔ AllFit avoid fs :=
  ⟨fun h f hf => ⟨h.proper.listOf f hf, forall_symbolsAll.mp h.avoids f hf⟩,
    fun h => ⟨.list h.proper, forall_symbolsAll.mpr fun f hf => (h f hf).avoids⟩⟩

theorem fit_vector {fs : List Form} {span : Span} : (vector fs span).Fit avoid ↔ AllFit avoid fs :=
  ⟨fun h f hf => ⟨h.proper.vectorOf f hf, forall_symbolsAll.mp h.avoids f hf⟩,
    fun h => ⟨.vector h.proper, forall_symbolsAll.mpr fun f hf => (h f hf).avoids⟩⟩

theorem Fit.set {fs : List Form} {span : Span} (h : (set fs span).Fit avoid) : AllFit avoid fs := by
  obtain ⟨hp, ha⟩ := h
  cases hp with
  | set hp => exact fun f hf => ⟨hp f hf, forall_symbolsAll.mp ha f hf⟩

theorem Fit.map {fs : List Form} {span : Span} (h : (map fs span).Fit avoid) :
    fs.length % 2 = 0 ∧ AllFit avoid fs := by
  obtain ⟨hp, ha⟩ := h
  cases hp with
  | map hl hp => exact ⟨hl, fun f hf => ⟨hp f hf, forall_symbolsAll.mp ha f hf⟩⟩

end Form

end TwinLisp
