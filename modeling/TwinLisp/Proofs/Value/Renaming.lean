import Mathlib.Logic.Function.Basic
import TwinLisp.Error.Running
import TwinLisp.Value.Equality
import TwinLisp.Value.Printing

/-! Renaming the functions inside values. A function value is an engine and an identity; a renaming
moves both and leaves the name that is shown. Nothing that a program can observe of a value but the
call of a function depends on them:

* `same_rename`: equality, since renamings are injective.
* `write_rename`: the text of a value.
* `typeName_rename`, `truthy_rename`, `items?_rename`: the plain views. -/

namespace TwinLisp

/-- New identities of functions; compiled functions are marked with `true`. What the function of an
identity is shown as may change too. -/
structure Renaming where
  map : Bool × Nat → Bool × Nat
  injective : Function.Injective map
  label : Bool × Nat → String → String

namespace Renaming

def id : Renaming := ⟨fun i => i, fun _ _ h => h, fun _ name => name⟩

/-- Functions are shown as before. -/
def Plain (ρ : Renaming) : Prop := ∀ i name, ρ.label i name = name

theorem plain_id : id.Plain := fun _ _ => rfl

end Renaming

namespace Value

/-- The function of an identity. -/
def ofIdentity (i : Bool × Nat) (name : String) : Value :=
  if i.1 then .closure i.2 name else .fn i.2 name

mutual

def rename (ρ : Renaming) : Value → Value
  | .list items => .list (renameItems ρ items)
  | .vector items => .vector (renameItems ρ items)
  | .set items => .set (renameItems ρ items)
  | .map entries => .map (renameEntries ρ entries)
  | .fn id name => ofIdentity (ρ.map (false, id)) (ρ.label (false, id) name)
  | .closure id name => ofIdentity (ρ.map (true, id)) (ρ.label (true, id) name)
  | .exInfo id message data => .exInfo id message (rename ρ data)
  | v => v

def renameItems (ρ : Renaming) : List Value → List Value
  | [] => []
  | v :: rest => rename ρ v :: renameItems ρ rest

def renameEntries (ρ : Renaming) : List (Value × Value) → List (Value × Value)
  | [] => []
  | (k, v) :: rest => (rename ρ k, rename ρ v) :: renameEntries ρ rest

end

def renameEntry (ρ : Renaming) (e : Value × Value) : Value × Value :=
  (e.1.rename ρ, e.2.rename ρ)

@[simp] theorem renameItems_eq_map (ρ : Renaming) (vs : List Value) :
    renameItems ρ vs = vs.map (rename ρ) := by
  induction vs with
  | nil => rfl
  | cons v rest ih => rw [renameItems, ih, List.map_cons]

@[simp] theorem renameEntries_eq_map (ρ : Renaming) (es : List (Value × Value)) :
    renameEntries ρ es = es.map (renameEntry ρ) := by
  induction es with
  | nil => rfl
  | cons e rest ih => rw [renameEntries, ih, List.map_cons, renameEntry]

variable (ρ : Renaming)

/-! ## The plain views -/

theorem ofIdentity_cases (i : Bool × Nat) (name : String) :
    (∃ k, ofIdentity i name = .closure k name) ∨ ∃ k, ofIdentity i name = .fn k name := by
  unfold ofIdentity
  split
  · exact .inl ⟨_, rfl⟩
  · exact .inr ⟨_, rfl⟩

@[simp] theorem typeName_ofIdentity (i : Bool × Nat) (name : String) :
    (ofIdentity i name).typeName = "Fn" := by
  unfold ofIdentity
  split <;> rfl

@[simp] theorem truthy_ofIdentity (i : Bool × Nat) (name : String) :
    (ofIdentity i name).truthy = true := by
  unfold ofIdentity
  split <;> rfl

@[simp] theorem typeName_rename (v : Value) : (v.rename ρ).typeName = v.typeName := by
  cases v <;> simp [rename] <;> rfl

@[simp] theorem truthy_rename (v : Value) : (v.rename ρ).truthy = v.truthy := by
  cases v <;> simp [rename] <;> rfl

@[simp] theorem isNil_rename (v : Value) : (v.rename ρ).isNil = v.isNil := by
  cases v <;> simp [rename, ofIdentity] <;> (try split) <;> rfl

@[simp] theorem isFn_rename (v : Value) : (v.rename ρ).isFn = v.isFn := by
  cases v <;> simp [rename, ofIdentity] <;> (try split) <;> rfl

theorem items?_rename (v : Value) :
    (v.rename ρ).items? = v.items?.map (List.map (rename ρ)) := by
  cases v with
  | fn id name | closure id name =>
    rcases ofIdentity_cases (ρ.map (_, id)) (ρ.label (_, id) name) with ⟨k, h⟩ | ⟨k, h⟩ <;>
      rw [rename, h] <;> rfl
  | map es => simp [rename, items?, renameEntry, Function.comp_def]
  | str s => simp [rename, items?, Function.comp_def]
  | _ => simp [rename, items?]

mutual

theorem rename_id (v : Value) : v.rename .id = v := by
  cases v with
  | list items | vector items | set items => rw [rename, renameItems_id]
  | map entries => rw [rename, renameEntries_id]
  | exInfo id message data => rw [rename, rename_id data]
  | _ => rfl

theorem renameItems_id (vs : List Value) : renameItems .id vs = vs := by
  cases vs with
  | nil => rfl
  | cons v rest => rw [renameItems, rename_id v, renameItems_id rest]

theorem renameEntries_id (es : List (Value × Value)) : renameEntries .id es = es := by
  cases es with
  | nil => rfl
  | cons e rest => rw [renameEntries, rename_id e.1, rename_id e.2, renameEntries_id rest]

end

attribute [simp] rename_id

/-! ## Equality -/

theorem same_ofIdentity (i j : Bool × Nat) (m n : String) :
    same (ofIdentity i m) (ofIdentity j n) = decide (i = j) := by
  obtain ⟨a, i⟩ := i
  obtain ⟨b, j⟩ := j
  cases a <;> cases b <;> simp [ofIdentity, same, Bool.beq_eq_decide_eq]

/-- Whether a value is a function that renamings move. -/
def movable : Value → Bool
  | .fn .. | .closure .. => true
  | _ => false

theorem movable_ofIdentity (i : Bool × Nat) (name : String) :
    (ofIdentity i name).movable = true := by
  unfold ofIdentity
  split <;> rfl

theorem movable_rename (v : Value) : (v.rename ρ).movable = v.movable := by
  cases v with
  | fn | closure => rw [rename, movable_ofIdentity]; rfl
  | _ => rfl

theorem same_eq_false_of_movable {x y : Value} (h : x.movable ≠ y.movable) :
    same x y = false := by
  cases x <;> cases y <;> first | rfl | exact absurd rfl h

theorem same_rename_of_movable {x y : Value} (h : x.movable ≠ y.movable) :
    same (x.rename ρ) (y.rename ρ) = same x y := by
  rw [same_eq_false_of_movable h, same_eq_false_of_movable]
  rwa [movable_rename, movable_rename]

theorem find?_key_rename {k : Value} {es : List (Value × Value)}
    (h : ∀ y, same (k.rename ρ) (y.rename ρ) = same k y) :
    (es.map (renameEntry ρ)).find? (fun e => same (k.rename ρ) e.1) =
      (es.find? fun e => same k e.1).map (renameEntry ρ) := by
  rw [List.find?_map]
  simp only [Function.comp_def, renameEntry, h]

mutual

/-- Renamings keep equality, since they are injective. -/
theorem same_rename (x y : Value) : same (x.rename ρ) (y.rename ρ) = same x y := by
  cases x with
  | list xs =>
    cases y with
    | list ys | vector ys => simpa [rename, same] using sameItems_rename xs ys
    | fn | closure => exact same_rename_of_movable ρ (by simp [movable])
    | _ => rfl
  | vector xs =>
    cases y with
    | list ys | vector ys => simpa [rename, same] using sameItems_rename xs ys
    | fn | closure => exact same_rename_of_movable ρ (by simp [movable])
    | _ => rfl
  | map xs =>
    cases y with
    | map ys => simp [rename, same, sameEntries_rename xs ys]
    | fn | closure => exact same_rename_of_movable ρ (by simp [movable])
    | _ => rfl
  | set xs =>
    cases y with
    | set ys => simp [rename, same, sameMembers_rename xs ys]
    | fn | closure => exact same_rename_of_movable ρ (by simp [movable])
    | _ => rfl
  | fn i m =>
    cases y with
    | fn j n | closure j n =>
      simp [rename, same_ofIdentity, same, ρ.injective.eq_iff, Bool.beq_eq_decide_eq]
    | _ => exact same_rename_of_movable ρ (by simp [movable])
  | closure i m =>
    cases y with
    | fn j n | closure j n =>
      simp [rename, same_ofIdentity, same, ρ.injective.eq_iff, Bool.beq_eq_decide_eq]
    | _ => exact same_rename_of_movable ρ (by simp [movable])
  | _ =>
    cases y with
    | fn | closure => exact same_rename_of_movable ρ (by simp [movable])
    | _ => rfl

theorem sameItems_rename (xs ys : List Value) :
    sameItems (xs.map (rename ρ)) (ys.map (rename ρ)) = sameItems xs ys := by
  match xs, ys with
  | [], [] | [], _ :: _ | _ :: _, [] => rfl
  | x :: xs, y :: ys =>
    simp only [List.map_cons, sameItems, same_rename x y, sameItems_rename xs ys]

theorem sameEntries_rename (xs ys : List (Value × Value)) :
    sameEntries (xs.map (renameEntry ρ)) (ys.map (renameEntry ρ)) = sameEntries xs ys := by
  match xs with
  | [] => rfl
  | (k, v) :: rest =>
    rw [List.map_cons, renameEntry, sameEntries, sameEntries, sameEntries_rename rest ys,
      find?_key_rename ρ (same_rename k)]
    cases ys.find? fun e => same k e.1 with
    | none => rfl
    | some e => simp only [Option.map_some, renameEntry, same_rename v e.2]

theorem sameMembers_rename (xs ys : List Value) :
    sameMembers (xs.map (rename ρ)) (ys.map (rename ρ)) = sameMembers xs ys := by
  match xs with
  | [] => rfl
  | x :: rest =>
    rw [List.map_cons, sameMembers, sameMembers, sameMembers_rename rest ys, List.any_map]
    simp only [Function.comp_def, same_rename x]

end

attribute [simp] same_rename

/-! ## Text -/

section Text

set_option linter.unusedSectionVars false

variable {ρ : Renaming} (hρ : ρ.Plain)

include hρ

mutual

theorem write_rename (readable : Bool) (out : String) (v : Value) :
    write readable out (v.rename ρ) = write readable out v := by
  cases v with
  | list items | vector items | set items =>
    simp only [rename, renameItems_eq_map, write, writeItems_rename]
  | map entries => simp only [rename, renameEntries_eq_map, write, writeEntries_rename]
  | exInfo id message data => rw [rename, write, write, write_rename]
  | fn id name | closure id name =>
    rw [rename, hρ]
    rcases ofIdentity_cases (ρ.map (_, id)) name with ⟨k, h⟩ | ⟨k, h⟩ <;> rw [h] <;> rfl
  | _ => rfl

theorem writeItems_rename (readable : Bool) (out : String) (more : Bool) (vs : List Value) :
    writeItems readable out more (vs.map (rename ρ)) = writeItems readable out more vs := by
  cases vs with
  | nil => rfl
  | cons v rest => rw [List.map_cons, writeItems, writeItems, write_rename, writeItems_rename]

theorem writeEntries_rename (readable : Bool) (out : String) (more : Bool)
    (es : List (Value × Value)) :
    writeEntries readable out more (es.map (renameEntry ρ)) =
      writeEntries readable out more es := by
  cases es with
  | nil => rfl
  | cons e rest =>
    obtain ⟨k, v⟩ := e
    simp only [List.map_cons, renameEntry, writeEntries]
    rw [write_rename, write_rename, writeEntries_rename]

end

theorem readable_rename (v : Value) : (v.rename ρ).readable = v.readable :=
  write_rename hρ true "" v

theorem joined_rename (readable : Bool) (vs : List Value) :
    joined readable (vs.map (rename ρ)) = joined readable vs :=
  writeItems_rename hρ readable "" false vs

end Text

/-! ## Keys and elements -/

theorem lookup?_rename (k : Value) (es : List (Value × Value)) :
    lookup? (k.rename ρ) (es.map (renameEntry ρ)) = (lookup? k es).map (rename ρ) := by
  rw [lookup?, find?_key_rename ρ fun y => same_rename ρ k y, lookup?, Option.map_map,
    Option.map_map]
  rfl

theorem member?_rename (x : Value) (items : List Value) :
    member? (x.rename ρ) (items.map (rename ρ)) = (member? x items).map (rename ρ) := by
  rw [member?, List.find?_map, member?]
  simp only [Function.comp_def, same_rename]

@[simp] theorem has_rename (x : Value) (items : List Value) :
    has (x.rename ρ) (items.map (rename ρ)) = has x items := by
  rw [has, List.any_map, has]
  simp only [Function.comp_def, same_rename]

@[simp] theorem hasKey_rename (k : Value) (es : List (Value × Value)) :
    hasKey (k.rename ρ) (es.map (renameEntry ρ)) = hasKey k es := by
  rw [hasKey, List.any_map, hasKey]
  simp only [Function.comp_def, renameEntry, same_rename]

theorem insertEntry_rename (k v : Value) (es : List (Value × Value)) :
    insertEntry (k.rename ρ) (v.rename ρ) (es.map (renameEntry ρ)) =
      (insertEntry k v es).map (renameEntry ρ) := by
  induction es with
  | nil => rfl
  | cons e rest ih =>
    rw [List.map_cons, insertEntry, insertEntry]
    simp only [renameEntry, same_rename]
    split
    · rfl
    · rw [List.map_cons, ← ih]
      rfl

theorem insertItem_rename (x : Value) (items : List Value) :
    insertItem (x.rename ρ) (items.map (rename ρ)) = (insertItem x items).map (rename ρ) := by
  rw [insertItem, has_rename, insertItem]
  split
  · rfl
  · rw [List.map_append, List.map_singleton]

theorem removeEntry_rename (k : Value) (es : List (Value × Value)) :
    removeEntry (k.rename ρ) (es.map (renameEntry ρ)) = (removeEntry k es).map (renameEntry ρ) := by
  rw [removeEntry, List.eraseP_map, removeEntry]
  simp only [Function.comp_def, renameEntry, same_rename]

theorem foldl_insertEntry_rename (ps es : List (Value × Value)) :
    (ps.map (renameEntry ρ)).foldl (fun es p => insertEntry p.1 p.2 es) (es.map (renameEntry ρ)) =
      (ps.foldl (fun es p => insertEntry p.1 p.2 es) es).map (renameEntry ρ) := by
  induction ps generalizing es with
  | nil => rfl
  | cons p rest ih =>
    rw [List.map_cons, List.foldl_cons, List.foldl_cons, ← ih]
    congr 1
    exact insertEntry_rename ρ p.1 p.2 es

theorem foldl_insertItem_rename (xs items : List Value) :
    (xs.map (rename ρ)).foldl (fun ys x => insertItem x ys) (items.map (rename ρ)) =
      (xs.foldl (fun ys x => insertItem x ys) items).map (rename ρ) := by
  induction xs generalizing items with
  | nil => rfl
  | cons x rest ih =>
    rw [List.map_cons, List.foldl_cons, List.foldl_cons, ← ih, insertItem_rename]

theorem foldl_removeEntry_rename (ks : List Value) (es : List (Value × Value)) :
    (ks.map (rename ρ)).foldl (fun es k => removeEntry k es) (es.map (renameEntry ρ)) =
      (ks.foldl (fun es k => removeEntry k es) es).map (renameEntry ρ) := by
  induction ks generalizing es with
  | nil => rfl
  | cons k rest ih =>
    rw [List.map_cons, List.foldl_cons, List.foldl_cons, ← ih, removeEntry_rename]

theorem entriesOf_rename (ps : List (Value × Value)) :
    entriesOf (ps.map (renameEntry ρ)) = (entriesOf ps).map (renameEntry ρ) :=
  foldl_insertEntry_rename ρ ps []

theorem itemsOf_rename (xs : List Value) :
    itemsOf (xs.map (rename ρ)) = (itemsOf xs).map (rename ρ) :=
  foldl_insertItem_rename ρ xs []

theorem repeated?_rename (keys : List Value) :
    repeated? (keys.map (rename ρ)) = (repeated? keys).map (rename ρ) := by
  suffices h : ∀ seen, repeated?.go (seen.map (rename ρ)) (keys.map (rename ρ)) =
      (repeated?.go seen keys).map (rename ρ) from h []
  induction keys with
  | nil => exact fun _ => rfl
  | cons k rest ih =>
    intro seen
    rw [List.map_cons, repeated?.go, has_rename, repeated?.go]
    split
    · rfl
    · exact ih (k :: seen)

end Value

end TwinLisp
