import Mathlib.Data.List.Forall2
import TwinLisp.Native.Collections
import TwinLisp.Native.Strings
import TwinLisp.Proofs.Native.Arithmetic

/-! The other natives under renamings of functions: what they answer on renamed arguments is what
they answer, renamed, and their faults are plain. -/

namespace TwinLisp.Answer

open Value (renameEntry)

variable (ρ : Renaming)

/-! ## Arguments -/

theorem plain_wrongArity {α β : Type} {V : α → β → Prop} (name : String) {xs ys : List Value}
    (h : ys = xs.map (·.rename ρ)) : Agree V (wrongArity name xs) (wrongArity name ys) := by
  rw [h, wrongArity, wrongArity, List.length_map]
  exact .error (RuntimeFault.plain_wrongArity _ _)

theorem expects_agree {α β : Type} {V : α → β → Prop} (name expected : String) (v : Value) :
    Agree V (expects name expected v) (expects name expected (v.rename ρ)) := by
  rw [expects, expects, Value.typeName_rename]
  exact .error (RuntimeFault.plain_typeError _)

theorem outOfBounds_agree {α β : Type} {V : α → β → Prop} (i : Int64) (n : Nat) :
    Agree V (outOfBounds i n) (outOfBounds i n) := .error ⟨nofun, nofun, nofun⟩

theorem itemsFor_agree (name : String) (v : Value) :
    Agree ρ.SendsAll (itemsFor name v) (itemsFor name (v.rename ρ)) := by
  rw [itemsFor, itemsFor, Value.items?_rename, Value.typeName_rename]
  cases v.items? with
  | none => exact .error (RuntimeFault.plain_typeError _)
  | some xs => exact .ok rfl

theorem intFor_agree (name : String) (v : Value) :
    Agree Eq (intFor name v) (intFor name (v.rename ρ)) := by
  cases v with
  | int n => exact .ok rfl
  | fn id f | closure id f =>
    unfold Value.rename Value.ofIdentity
    split <;> exact .error (RuntimeFault.plain_typeError _)
  | _ => exact .error (RuntimeFault.plain_typeError _)

theorem at?_rename (xs : List Value) (i : Int64) :
    at? (xs.map (·.rename ρ)) i = (at? xs i).map (·.rename ρ) := by
  unfold at?
  split
  · rfl
  · exact List.getElem?_map ..

theorem listOrNil_rename (xs : List Value) :
    listOrNil (xs.map (·.rename ρ)) = (listOrNil xs).rename ρ := by
  cases xs <;> simp [listOrNil, Value.rename]

/-! ## Natives on numbers -/

theorem fold_agree {op : Value → Value → Answer Value}
    (hop : ∀ a b, Agree ρ.Sends (op a b) (op (a.rename ρ) (b.rename ρ))) (name : String)
    (args : List Value) :
    Agree ρ.Sends (fold name op args) (fold name op (args.map (·.rename ρ))) := by
  cases args with
  | nil => exact plain_wrongArity ρ name rfl
  | cons first rest =>
    rw [List.map_cons, fold, fold, Number.isNumber_rename, Number.notANumber_rename]
    split
    · rename_i h
      clear h
      induction rest generalizing first with
      | nil => exact .ok rfl
      | cons x rest ih =>
        rw [List.map_cons, List.foldlM_cons, List.foldlM_cons]
        exact (hop first x).bind fun a b e => e ▸ ih a
    · exact .error (RuntimeFault.plain_typeError _)

theorem neighbours_agree {op : Value → Value → Answer Value}
    (hop : ∀ a b, Agree ρ.Sends (op a b) (op (a.rename ρ) (b.rename ρ))) (args : List Value) :
    Agree Eq (neighbours op args) (neighbours op (args.map (·.rename ρ))) := by
  induction args with
  | nil => exact .ok rfl
  | cons a rest ih =>
    cases rest with
    | nil => exact .ok rfl
    | cons b rest =>
      rw [List.map_cons, List.map_cons, neighbours, neighbours]
      rcases (hop a b).elim with ⟨x, y, hx, hy, e⟩ | ⟨f, hf, hx, hy⟩
      · rw [hx, hy, e]
        simp only [Value.truthy_rename]
        split
        · exact ih
        · exact .ok rfl
      · rw [hx, hy]
        exact .error hf

theorem chain_agree {op : Value → Value → Answer Value}
    (hop : ∀ a b, Agree ρ.Sends (op a b) (op (a.rename ρ) (b.rename ρ))) (name : String)
    (args : List Value) :
    Agree ρ.Sends (chain name op args) (chain name op (args.map (·.rename ρ))) := by
  match args with
  | [] => exact plain_wrongArity ρ name rfl
  | [only] =>
    simp only [List.map_cons, List.map_nil, chain, Number.isNumber_rename]
    split
    · exact .ok rfl
    · exact expects_agree ρ name _ only
  | a :: b :: rest =>
    exact (neighbours_agree ρ hop (a :: b :: rest)).map fun x _ e => e ▸ rfl

theorem sum_agree (args : List Value) :
    Agree ρ.Sends (sum args) (sum (args.map (·.rename ρ))) := by
  rw [sum, sum, List.isEmpty_map]
  split
  · exact .ok rfl
  · exact fold_agree ρ (Number.add_agree ρ) "+" args

theorem product_agree (args : List Value) :
    Agree ρ.Sends (product args) (product (args.map (·.rename ρ))) := by
  rw [product, product, List.isEmpty_map]
  split
  · exact .ok rfl
  · exact fold_agree ρ (Number.mul_agree ρ) "*" args

theorem difference_agree (args : List Value) :
    Agree ρ.Sends (difference args) (difference (args.map (·.rename ρ))) := by
  match args with
  | [only] => exact Number.negate_agree ρ only
  | [] => exact fold_agree ρ (Number.sub_agree ρ) "-" []
  | a :: b :: rest => exact fold_agree ρ (Number.sub_agree ρ) "-" (a :: b :: rest)

theorem ratioOf_agree (args : List Value) :
    Agree ρ.Sends (ratioOf args) (ratioOf (args.map (·.rename ρ))) := by
  match args with
  | [only] => exact Number.div_agree ρ (.int 1) only
  | [] => exact fold_agree ρ (Number.div_agree ρ) "/" []
  | a :: b :: rest => exact fold_agree ρ (Number.div_agree ρ) "/" (a :: b :: rest)

theorem extreme_agree (name : String) (accept : Ordering → Bool) (args : List Value) :
    Agree ρ.Sends (extreme name (Number.ordered accept) args)
      (extreme name (Number.ordered accept) (args.map (·.rename ρ))) := by
  refine fold_agree ρ (fun a b => (Number.ordered_agree ρ accept b a).map fun x y e => ?_) name args
  rw [e, Value.truthy_rename]
  split <;> rfl

theorem allSame_rename (args : List Value) : allSame (args.map (·.rename ρ)) = allSame args := by
  induction args with
  | nil => rfl
  | cons a rest ih =>
    cases rest with
    | nil => rfl
    | cons b rest =>
      rw [List.map_cons] at ih
      rw [List.map_cons, List.map_cons, allSame, allSame, Value.same_rename, ih]

theorem equal_agree (name : String) (holds : Bool) (args : List Value) :
    Agree ρ.Sends (equal name holds args) (equal name holds (args.map (·.rename ρ))) := by
  rw [equal, equal, List.isEmpty_map, allSame_rename]
  split
  · exact plain_wrongArity ρ name rfl
  · exact .ok rfl

theorem signTest_agree (name : String) (accept : Ordering → Bool) (v : Value) :
    Agree ρ.Sends (signTest name (Number.ordered accept) v)
      (signTest name (Number.ordered accept) (v.rename ρ)) := by
  rw [signTest, signTest, Number.isNumber_rename]
  split
  · exact Number.ordered_agree ρ accept v (.int 0)
  · exact expects_agree ρ name _ v

/-! ## Natives on collections -/

theorem lookup_rename (target key default : Value) :
    lookup (target.rename ρ) (key.rename ρ) (default.rename ρ) =
      (lookup target key default).rename ρ := by
  have getD : ∀ o : Option Value, (o.map (·.rename ρ)).getD (default.rename ρ) =
      (o.getD default).rename ρ := fun o => by cases o <;> rfl
  cases target with
  | map es => simp only [Value.rename, Value.renameEntries_eq_map, lookup, Value.lookup?_rename, getD]
  | set xs => simp only [Value.rename, Value.renameItems_eq_map, lookup, Value.member?_rename, getD]
  | vector xs =>
    cases key with
    | int i => simp only [Value.rename, Value.renameItems_eq_map, lookup, at?_rename, getD]
    | fn id f | closure id f =>
      simp only [Value.rename, Value.ofIdentity]
      split <;> rfl
    | _ => rfl
  | fn id f | closure id f =>
    simp only [Value.rename, Value.ofIdentity]
    split <;> rfl
  | _ => rfl

theorem size_agree (v : Value) : Agree Eq (size v) (size (v.rename ρ)) := by
  cases v with
  | list xs | vector xs | set xs =>
    simp only [Value.rename, Value.renameItems_eq_map, size, List.length_map]
    exact .ok rfl
  | map es =>
    simp only [Value.rename, Value.renameEntries_eq_map, size, List.length_map]
    exact .ok rfl
  | nil | str s => exact .ok rfl
  | fn id f | closure id f =>
    unfold Value.rename Value.ofIdentity
    split <;> exact .error (RuntimeFault.plain_typeError _)
  | _ => exact .error (RuntimeFault.plain_typeError _)

theorem conjEntry_agree (es : List (Value × Value)) (item : Value) :
    Agree ρ.Sends (conj (.map es) item) (conj (.map (es.map (renameEntry ρ))) (item.rename ρ)) := by
  cases item with
  | vector xs =>
    match xs with
    | [k, v] =>
      refine .ok ?_
      simp only [Renaming.Sends, Value.rename, Value.renameEntries_eq_map, Value.insertEntry_rename]
    | [] | [_] | _ :: _ :: _ :: _ => exact .error (RuntimeFault.plain_typeError _)
  | map more =>
    refine .ok ?_
    simp only [Renaming.Sends, Value.rename, Value.renameEntries_eq_map,
      Value.foldl_insertEntry_rename]
  | fn id f | closure id f =>
    unfold Value.rename Value.ofIdentity
    split <;> exact .error (RuntimeFault.plain_typeError _)
  | _ => exact .error (RuntimeFault.plain_typeError _)

theorem conj_agree (coll item : Value) :
    Agree ρ.Sends (conj coll item) (conj (coll.rename ρ) (item.rename ρ)) := by
  cases coll with
  | nil | list xs | vector xs =>
    refine .ok ?_
    simp [Renaming.Sends, Value.rename]
  | set xs =>
    refine .ok ?_
    simp only [Renaming.Sends, Value.rename, Value.renameItems_eq_map, Value.insertItem_rename]
  | map es =>
    rw [Value.rename, Value.renameEntries_eq_map]
    exact conjEntry_agree ρ es item
  | fn id f | closure id f =>
    unfold Value.rename Value.ofIdentity
    split <;> exact .error (RuntimeFault.plain_typeError _)
  | _ => exact .error (RuntimeFault.plain_typeError _)

theorem foldlM_conj_agree (items : List Value) (coll : Value) :
    Agree ρ.Sends (items.foldlM conj coll)
      ((items.map (·.rename ρ)).foldlM conj (coll.rename ρ)) := by
  induction items generalizing coll with
  | nil => exact .ok rfl
  | cons x rest ih =>
    rw [List.map_cons, List.foldlM_cons, List.foldlM_cons]
    exact (conj_agree ρ coll x).bind fun a b e => e ▸ ih a

theorem assocOne_agree (coll key value : Value) :
    Agree ρ.Sends (assocOne coll key value)
      (assocOne (coll.rename ρ) (key.rename ρ) (value.rename ρ)) := by
  cases coll with
  | nil => exact .ok rfl
  | map es =>
    refine .ok ?_
    simp only [Renaming.Sends, Value.rename, Value.renameEntries_eq_map, Value.insertEntry_rename]
  | vector xs =>
    simp only [Value.rename, Value.renameItems_eq_map, assocOne]
    rcases (intFor_agree ρ "assoc" key).elim with ⟨i, j, hi, hj, e⟩ | ⟨f, hf, hi, hj⟩
    · subst e
      simp only [hi, hj, List.length_map]
      split
      · exact outOfBounds_agree _ _
      · split
        · refine .ok ?_
          simp [Renaming.Sends, Value.rename]
        · refine .ok ?_
          simp [Renaming.Sends, Value.rename]
    · simp only [hi, hj]
      exact .error hf
  | fn id f | closure id f =>
    unfold Value.rename Value.ofIdentity
    split <;> exact .error (RuntimeFault.plain_typeError _)
  | _ => exact .error (RuntimeFault.plain_typeError _)

theorem assocAll_agree (coll : Value) (args : List Value) :
    Agree ρ.Sends (assocAll coll args) (assocAll (coll.rename ρ) (args.map (·.rename ρ))) := by
  match args with
  | [] | [_] => exact .ok rfl
  | k :: v :: rest =>
    rw [List.map_cons, List.map_cons, assocAll, assocAll]
    rcases (assocOne_agree ρ coll k v).elim with ⟨x, y, hx, hy, e⟩ | ⟨f, hf, hx, hy⟩
    · rw [hx, hy, e]
      exact assocAll_agree x rest
    · rw [hx, hy]
      exact .error hf

theorem assoc_agree (args : List Value) :
    Agree ρ.Sends (assoc args) (assoc (args.map (·.rename ρ))) := by
  match args with
  | [] | [_] | [_, _] => exact plain_wrongArity ρ "assoc" rfl
  | coll :: k :: v :: rest =>
    simp only [List.map_cons, assoc, List.length_map]
    split
    · exact assocAll_agree ρ coll (k :: v :: rest)
    · exact plain_wrongArity ρ "assoc" rfl

theorem dissoc_agree (args : List Value) :
    Agree ρ.Sends (dissoc args) (dissoc (args.map (·.rename ρ))) := by
  cases args with
  | nil => exact plain_wrongArity ρ "dissoc" rfl
  | cons coll keys =>
    cases coll with
    | map es =>
      refine .ok ?_
      simp only [Renaming.Sends, Value.rename, Value.renameEntries_eq_map,
        Value.foldl_removeEntry_rename]
    | nil => exact .ok rfl
    | fn id f | closure id f =>
      simp only [List.map_cons, Value.rename, Value.ofIdentity]
      split <;> exact .error (RuntimeFault.plain_typeError _)
    | _ => exact .error (RuntimeFault.plain_typeError _)

theorem pick_agree (xs : List Value) (i : Int64) (default : Option Value) :
    Agree ρ.Sends (nth.pick i default xs)
      (nth.pick i (default.map (·.rename ρ)) (xs.map (·.rename ρ))) := by
  unfold nth.pick
  rw [at?_rename]
  cases at? xs i with
  | some x => exact .ok rfl
  | none =>
    cases default with
    | some d => exact .ok rfl
    | none =>
      simp only [Option.map_none, List.length_map]
      exact outOfBounds_agree _ _

theorem nth_agree (coll : Value) (i : Int64) (default : Option Value) :
    Agree ρ.Sends (nth coll i default) (nth (coll.rename ρ) i (default.map (·.rename ρ))) := by
  cases coll with
  | nil =>
    cases default with
    | none => exact .ok rfl
    | some d => exact .ok rfl
  | list xs | vector xs =>
    simp only [Value.rename, Value.renameItems_eq_map, nth]
    exact pick_agree ρ xs i default
  | str s => exact (itemsFor_agree ρ "nth" (.str s)).bind fun xs ys e => e ▸ pick_agree ρ xs i default
  | fn id f | closure id f =>
    unfold Value.rename Value.ofIdentity
    split <;> exact .error (RuntimeFault.plain_typeError _)
  | _ => exact .error (RuntimeFault.plain_typeError _)

theorem contains_agree (coll key : Value) :
    Agree ρ.Sends (contains coll key) (contains (coll.rename ρ) (key.rename ρ)) := by
  cases coll with
  | map es =>
    simp only [Value.rename, Value.renameEntries_eq_map, contains, Value.hasKey_rename]
    exact .ok rfl
  | set xs =>
    simp only [Value.rename, Value.renameItems_eq_map, contains, Value.has_rename]
    exact .ok rfl
  | vector xs =>
    cases key with
    | int i =>
      simp only [Value.rename, Value.renameItems_eq_map, contains, at?_rename, Option.isSome_map]
      exact .ok rfl
    | fn id f | closure id f =>
      unfold Value.rename Value.ofIdentity
      split <;> exact .error (RuntimeFault.plain_typeError _)
    | _ => exact .error (RuntimeFault.plain_typeError _)
  | nil => exact .ok rfl
  | fn id f | closure id f =>
    unfold Value.rename Value.ofIdentity
    split <;> exact .error (RuntimeFault.plain_typeError _)
  | _ => exact .error (RuntimeFault.plain_typeError _)

theorem pairs_rename (args : List Value) :
    hashMap.pairs (args.map (·.rename ρ)) = (hashMap.pairs args).map (renameEntry ρ) := by
  match args with
  | [] | [_] => rfl
  | k :: v :: rest =>
    rw [List.map_cons, List.map_cons, hashMap.pairs, hashMap.pairs, List.map_cons,
      pairs_rename rest]
    rfl

theorem hashMap_agree (args : List Value) :
    Agree ρ.Sends (hashMap args) (hashMap (args.map (·.rename ρ))) := by
  rw [hashMap, hashMap, List.length_map, pairs_rename, Value.entriesOf_rename]
  split
  · exact .error (RuntimeFault.plain_general (by decide))
  · refine .ok ?_
    simp only [Renaming.Sends, Value.rename, Value.renameEntries_eq_map]

theorem concat_agree (args : List Value) :
    Agree ρ.SendsAll (concat args) (concat (args.map (·.rename ρ))) := by
  induction args with
  | nil => exact .ok rfl
  | cons v rest ih =>
    rw [List.map_cons, concat, concat]
    rcases (itemsFor_agree ρ "concat" v).elim with ⟨xs, ys, hx, hy, e⟩ | ⟨f, hf, hx, hy⟩
    · rw [hx, hy]
      refine ih.map fun us vs e' => ?_
      rw [e, e', Renaming.SendsAll, List.map_append]
    · rw [hx, hy]
      exact .error hf

theorem keys_agree (v : Value) : Agree ρ.Sends (keys v) (keys (v.rename ρ)) := by
  cases v with
  | map es =>
    refine .ok ?_
    rw [Renaming.Sends, ← listOrNil_rename]
    simp [Function.comp_def, renameEntry]
  | nil => exact .ok rfl
  | fn id f | closure id f =>
    unfold Value.rename Value.ofIdentity
    split <;> exact .error (RuntimeFault.plain_typeError _)
  | _ => exact .error (RuntimeFault.plain_typeError _)

theorem vals_agree (v : Value) : Agree ρ.Sends (vals v) (vals (v.rename ρ)) := by
  cases v with
  | map es =>
    refine .ok ?_
    rw [Renaming.Sends, ← listOrNil_rename]
    simp [Function.comp_def, renameEntry]
  | nil => exact .ok rfl
  | fn id f | closure id f =>
    unfold Value.rename Value.ofIdentity
    split <;> exact .error (RuntimeFault.plain_typeError _)
  | _ => exact .error (RuntimeFault.plain_typeError _)

theorem mapM_agree {α : Type} {f g : Value → Answer α} {V : α → α → Prop}
    (h : ∀ v, Agree V (f v) (g (v.rename ρ))) (vs : List Value) :
    Agree (List.Forall₂ V) (vs.mapM f) ((vs.map (·.rename ρ)).mapM g) := by
  induction vs with
  | nil => exact .ok .nil
  | cons v rest ih =>
    rw [List.map_cons, List.mapM_cons, List.mapM_cons]
    exact (h v).bind fun x y e => ih.bind fun xs ys es => .ok (.cons e es)

theorem progressionFrom_steady (stop step term : Int64) {found : List Value}
    (h : found.map (·.rename ρ) = found) :
    (progressionFrom stop step found term).map (·.rename ρ) = progressionFrom stop step found term := by
  have hcons : ∀ (n : Int64) {vs : List Value}, vs.map (·.rename ρ) = vs →
      (Value.int n :: vs).map (·.rename ρ) = .int n :: vs := by
    intro n vs hvs
    rw [List.map_cons, hvs]
    rfl
  fun_induction progressionFrom stop step found term with
  | case1 found term _ next _ _ ih => exact ih (hcons term h)
  | case2 found term _ _ => rw [List.map_reverse, hcons term h]
  | case3 found term _ => rw [List.map_reverse, h]

theorem progression_steady (a b c : Int64) : (progression a b c).map (·.rename ρ) = progression a b c :=
  progressionFrom_steady ρ b c a rfl

theorem terms_agree (p : Int64 × Int64 × Int64) :
    Agree ρ.Sends
      (if p.2.2 = 0 then .error (.general "range step must not be zero")
        else .ok (.list (progression p.1 p.2.1 p.2.2)))
      (if p.2.2 = 0 then .error (.general "range step must not be zero")
        else .ok (.list (progression p.1 p.2.1 p.2.2))) := by
  split
  · exact .error (RuntimeFault.plain_general (by decide))
  · refine .ok ?_
    rw [Renaming.Sends, Value.rename, Value.renameItems_eq_map, progression_steady]

theorem range_agree (args : List Value) :
    Agree ρ.Sends (range args) (range (args.map (·.rename ρ))) := by
  unfold range
  rw [List.isEmpty_map, List.length_map]
  split
  · exact plain_wrongArity ρ "range" rfl
  · refine (mapM_agree ρ (intFor_agree ρ "range") args).bind fun xs ys e => ?_
    rw [List.forall₂_eq_eq_eq] at e
    subst e
    exact terms_agree ρ _

/-! ## Natives on text -/

variable {ρ} in
theorem str_rename (hρ : ρ.Plain) (args : List Value) :
    str (args.map (·.rename ρ)) = str args := by
  rw [str, List.foldl_map, str]
  simp only [Value.isNil_rename, Value.write_rename hρ]

theorem cut_agree (s : String) (i j : Int64) : Agree ρ.Sends (subs.cut s i j) (subs.cut s i j) := by
  unfold subs.cut
  split
  · exact outOfBounds_agree _ _
  · exact .ok rfl

theorem subs_of_length {args : List Value} (h : args.length ≠ 2 ∧ args.length ≠ 3) :
    subs args = wrongArity "subs" args := by
  unfold subs
  split
  · exact absurd rfl h.1
  · exact absurd rfl h.2
  · exact absurd rfl h.1
  · exact absurd rfl h.2
  · rfl

theorem subs_agree (args : List Value) :
    Agree ρ.Sends (subs args) (subs (args.map (·.rename ρ))) := by
  match args with
  | [] | [_] | _ :: _ :: _ :: _ :: _ =>
    rw [subs_of_length (by simp), subs_of_length (by simp)]
    exact plain_wrongArity ρ "subs" rfl
  | [v, start] =>
    cases v with
    | str s => exact (intFor_agree ρ "subs" start).bind fun i j e => e ▸ cut_agree ρ s i _
    | fn id f | closure id f =>
      simp only [List.map_cons, Value.rename, Value.ofIdentity]
      split <;> exact .error (RuntimeFault.plain_typeError _)
    | _ => exact .error (RuntimeFault.plain_typeError _)
  | [v, start, stop] =>
    cases v with
    | str s =>
      exact (intFor_agree ρ "subs" start).bind fun i i' e =>
        (intFor_agree ρ "subs" stop).bind fun j j' e' => e ▸ e' ▸ cut_agree ρ s i j
    | fn id f | closure id f =>
      simp only [List.map_cons, Value.rename, Value.ofIdentity]
      split <;> exact .error (RuntimeFault.plain_typeError _)
    | _ => exact .error (RuntimeFault.plain_typeError _)

theorem name_agree (v : Value) : Agree ρ.Sends (name v) (name (v.rename ρ)) := by
  cases v with
  | str s | keyword s | symbol s => exact .ok rfl
  | fn id f | closure id f =>
    unfold Value.rename Value.ofIdentity
    split <;> exact .error (RuntimeFault.plain_typeError _)
  | _ => exact .error (RuntimeFault.plain_typeError _)

theorem keyword_agree (v : Value) : Agree ρ.Sends (keyword v) (keyword (v.rename ρ)) := by
  cases v with
  | str s | keyword s | symbol s => exact .ok rfl
  | fn id f | closure id f =>
    unfold Value.rename Value.ofIdentity
    split <;> exact .error (RuntimeFault.plain_typeError _)
  | _ => exact .error (RuntimeFault.plain_typeError _)

theorem symbol_agree (v : Value) : Agree ρ.Sends (symbol v) (symbol (v.rename ρ)) := by
  cases v with
  | str s | keyword s | symbol s => exact .ok rfl
  | fn id f | closure id f =>
    unfold Value.rename Value.ofIdentity
    split <;> exact .error (RuntimeFault.plain_typeError _)
  | _ => exact .error (RuntimeFault.plain_typeError _)

end TwinLisp.Answer
