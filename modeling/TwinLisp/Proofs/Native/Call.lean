import TwinLisp.Native.Call
import TwinLisp.Proofs.Native.Collections

/-! Natives that only compute an answer. Renaming the functions in the arguments of such a native
renames the functions in its answer.

* `Native.Computes`: the answer of a native, whatever calls it is given.
* `Native.computes_agree`: the answers for arguments and for renamed arguments agree. -/

namespace TwinLisp

namespace Native

/-- The answer that a native gives, whatever calls it is given. -/
def Computes (op : Native) (args : List Value) (r : Answer Value) : Prop :=
  ∀ run, op.call run args = Run.ofFault r

theorem Computes.unique {op : Native} {args : List Value} {r q : Answer Value}
    (hr : op.Computes args r) (hq : op.Computes args q) : r = q := by
  have h := congrFun ((hr fun _ _ => Act.exhausted).symm.trans (hq _)) (.bare .empty .standard)
  cases r with
  | ok x =>
    cases q with
    | ok y =>
      injection h with h
      rw [h]
    | error g => exact absurd h nofun
  | error f =>
    cases q with
    | ok y => exact absurd h nofun
    | error g =>
      injection h with h
      injection h with h
      injection h with h
      rw [h]

/-- The answers for arguments and for renamed arguments agree. -/
def Agrees (ρ : Renaming) (op : Native) (args : List Value) : Prop :=
  ∃ r q, op.Computes args r ∧ op.Computes (args.map (·.rename ρ)) q ∧ Answer.Agree ρ.Sends r q

/-- Natives that only compute an answer. -/
def computing : Native → Bool
  | print | println | prn | apply | map | filter | reduce | exInfo | inNs | gensym | deref
  | macroexpand => false
  | _ => true

end Native

/-- The arguments are shown as before. -/
def Renaming.Shows (ρ : Renaming) (args : List Value) : Prop :=
  ∃ σ : Renaming, σ.Plain ∧ args.map (·.rename ρ) = args.map (·.rename σ)

theorem Renaming.Plain.shows {ρ : Renaming} (h : ρ.Plain) (args : List Value) : ρ.Shows args :=
  ⟨ρ, h, rfl⟩

namespace Native

variable (ρ : Renaming)

open Answer

theorem agrees_of_misused {op : Native} {args : List Value}
    (h : op.Computes args (wrongArity op.text args))
    (h' : op.Computes (args.map (·.rename ρ)) (wrongArity op.text (args.map (·.rename ρ)))) :
    op.Agrees ρ args := ⟨_, _, h, h', plain_wrongArity ρ op.text rfl⟩

/-! ## Families of natives -/

theorem agrees_one {op : Native} (f : Value → Answer Value)
    (hop : ∀ x, op.Computes [x] (f x)) (hnone : op.Computes [] (wrongArity op.text []))
    (hmore : ∀ x y rest, op.Computes (x :: y :: rest) (wrongArity op.text (x :: y :: rest)))
    (hf : ∀ x, Agree ρ.Sends (f x) (f (x.rename ρ))) (args : List Value) : op.Agrees ρ args := by
  cases args with
  | nil => exact agrees_of_misused ρ hnone hnone
  | cons x rest =>
    cases rest with
    | nil => exact ⟨_, _, hop x, hop (x.rename ρ), hf x⟩
    | cons y rest => exact agrees_of_misused ρ (hmore x y rest) (hmore _ _ _)

theorem agrees_two {op : Native} (f : Value → Value → Answer Value)
    (hop : ∀ x y, op.Computes [x, y] (f x y)) (hnone : op.Computes [] (wrongArity op.text []))
    (hone : ∀ x, op.Computes [x] (wrongArity op.text [x]))
    (hmore : ∀ x y z rest,
      op.Computes (x :: y :: z :: rest) (wrongArity op.text (x :: y :: z :: rest)))
    (hf : ∀ x y, Agree ρ.Sends (f x y) (f (x.rename ρ) (y.rename ρ))) (args : List Value) :
    op.Agrees ρ args := by
  cases args with
  | nil => exact agrees_of_misused ρ hnone hnone
  | cons x rest =>
    cases rest with
    | nil => exact agrees_of_misused ρ (hone x) (hone _)
    | cons y rest =>
      cases rest with
      | nil => exact ⟨_, _, hop x y, hop (x.rename ρ) (y.rename ρ), hf x y⟩
      | cons z rest => exact agrees_of_misused ρ (hmore x y z rest) (hmore _ _ _ _)

theorem agrees_optional {op : Native} (f : Value → Value → Option Value → Answer Value)
    (hop : ∀ x y, op.Computes [x, y] (f x y none))
    (hop' : ∀ x y z, op.Computes [x, y, z] (f x y (some z)))
    (hnone : op.Computes [] (wrongArity op.text []))
    (hone : ∀ x, op.Computes [x] (wrongArity op.text [x]))
    (hmore : ∀ x y z u rest,
      op.Computes (x :: y :: z :: u :: rest) (wrongArity op.text (x :: y :: z :: u :: rest)))
    (hf : ∀ x y o, Agree ρ.Sends (f x y o) (f (x.rename ρ) (y.rename ρ) (o.map (·.rename ρ))))
    (args : List Value) : op.Agrees ρ args := by
  cases args with
  | nil => exact agrees_of_misused ρ hnone hnone
  | cons x rest =>
    cases rest with
    | nil => exact agrees_of_misused ρ (hone x) (hone _)
    | cons y rest =>
      cases rest with
      | nil => exact ⟨_, _, hop x y, hop (x.rename ρ) (y.rename ρ), hf x y none⟩
      | cons z rest =>
        cases rest with
        | nil => exact ⟨_, _, hop' x y z, hop' _ _ (z.rename ρ), hf x y (some z)⟩
        | cons u rest => exact agrees_of_misused ρ (hmore x y z u rest) (hmore _ _ _ _ _)

theorem agrees_all {op : Native} (f : List Value → Answer Value)
    (hop : ∀ args, op.Computes args (f args))
    (hf : ∀ args, Agree ρ.Sends (f args) (f (args.map (·.rename ρ)))) (args : List Value) :
    op.Agrees ρ args := ⟨_, _, hop args, hop _, hf args⟩

theorem holds_rename (op : Native) (v : Value) : op.holds (v.rename ρ) = op.holds v := by
  cases v with
  | fn id name | closure id name =>
    rcases Value.ofIdentity_cases (ρ.map (_, id)) (ρ.label (_, id) name) with ⟨k, h⟩ | ⟨k, h⟩ <;>
      rw [Value.rename, h] <;> cases op <;> rfl
  | _ => cases op <;> rfl

theorem agrees_number {op : Native} (args : List Value)
    (hop : op ∈ [add, mul, sub, div, less, greater, lessEq, greaterEq, equal, notEqual, inc, dec,
      quot, rem, mod, isZero, isPos, isNeg, max, min]) : op.Agrees ρ args := by
  cases op with
  | add => exact agrees_all ρ sum (fun _ _ => rfl) (sum_agree ρ) args
  | mul => exact agrees_all ρ product (fun _ _ => rfl) (product_agree ρ) args
  | sub => exact agrees_all ρ difference (fun _ _ => rfl) (difference_agree ρ) args
  | div => exact agrees_all ρ ratioOf (fun _ _ => rfl) (ratioOf_agree ρ) args
  | less | greater | lessEq | greaterEq =>
    exact agrees_all ρ _ (fun _ _ => rfl) (chain_agree ρ (Number.ordered_agree ρ _) _) args
  | equal => exact agrees_all ρ _ (fun _ _ => rfl) (equal_agree ρ "=" true) args
  | notEqual => exact agrees_all ρ _ (fun _ _ => rfl) (equal_agree ρ "not=" false) args
  | inc =>
    exact agrees_one ρ (Number.add · (.int 1)) (fun _ _ => rfl) (fun _ => rfl) (fun _ _ _ _ => rfl)
      (fun x => Number.add_agree ρ x (.int 1)) args
  | dec =>
    exact agrees_one ρ (Number.sub · (.int 1)) (fun _ _ => rfl) (fun _ => rfl) (fun _ _ _ _ => rfl)
      (fun x => Number.sub_agree ρ x (.int 1)) args
  | quot =>
    exact agrees_two ρ Number.quot (fun _ _ _ => rfl) (fun _ => rfl) (fun _ _ => rfl)
      (fun _ _ _ _ _ => rfl) (Number.quot_agree ρ) args
  | rem =>
    exact agrees_two ρ Number.rem (fun _ _ _ => rfl) (fun _ => rfl) (fun _ _ => rfl)
      (fun _ _ _ _ _ => rfl) (Number.rem_agree ρ) args
  | mod =>
    exact agrees_two ρ Number.modulo (fun _ _ _ => rfl) (fun _ => rfl) (fun _ _ => rfl) (fun _ _ _ _ _ => rfl)
      (Number.modulo_agree ρ) args
  | isZero =>
    exact agrees_one ρ _ (fun _ _ => rfl) (fun _ => rfl) (fun _ _ _ _ => rfl) (fun x =>
      (Number.isZero_agree ρ x).map fun a b (e : a = b) => by rw [e]; rfl) args
  | isPos | isNeg =>
    exact agrees_one ρ _ (fun _ _ => rfl) (fun _ => rfl) (fun _ _ _ _ => rfl) (signTest_agree ρ _ _) args
  | max | min => exact agrees_all ρ _ (fun _ _ => rfl) (extreme_agree ρ _ _) args
  | _ => exact absurd hop (by decide)

theorem agrees_sequence {op : Native} (args : List Value)
    (hop : op ∈ [list, vector, hashMap, hashSet, count, isEmpty, first, rest, next, seq, vec, cons,
      concat, into, keys, vals, range]) : op.Agrees ρ args := by
  cases op with
  | list | vector =>
    exact agrees_all ρ (fun xs => .ok _) (fun _ _ => rfl)
      (fun xs => .ok (by rw [Renaming.Sends, Value.rename, Value.renameItems_eq_map])) args
  | hashMap => exact agrees_all ρ _ (fun _ _ => rfl) (hashMap_agree ρ) args
  | hashSet =>
    exact agrees_all ρ (fun xs => .ok _) (fun _ _ => rfl) (fun xs => .ok (by
      rw [Renaming.Sends, Value.itemsOf_rename, Value.rename, Value.renameItems_eq_map])) args
  | count | isEmpty =>
    exact agrees_one ρ _ (fun _ _ => rfl) (fun _ => rfl) (fun _ _ _ _ => rfl) (fun x =>
      (size_agree ρ x).map fun a b (e : a = b) => by rw [e]; rfl) args
  | first =>
    exact agrees_one ρ _ (fun _ _ => rfl) (fun _ => rfl) (fun _ _ _ _ => rfl) (fun x =>
      (itemsFor_agree ρ "first" x).map fun xs ys (e : ys = _) => by
        rw [e]
        cases xs <;> rfl) args
  | rest =>
    exact agrees_one ρ _ (fun _ _ => rfl) (fun _ => rfl) (fun _ _ _ _ => rfl) (fun x =>
      (itemsFor_agree ρ "rest" x).map fun xs ys (e : ys = _) => by
        rw [e, Renaming.Sends, Value.rename, Value.renameItems_eq_map, List.map_drop]) args
  | next =>
    exact agrees_one ρ _ (fun _ _ => rfl) (fun _ => rfl) (fun _ _ _ _ => rfl) (fun x =>
      (itemsFor_agree ρ "next" x).map fun xs ys (e : ys = _) => by
        rw [e, Renaming.Sends, ← List.map_drop, listOrNil_rename]) args
  | seq =>
    exact agrees_one ρ _ (fun _ _ => rfl) (fun _ => rfl) (fun _ _ _ _ => rfl) (fun x =>
      (itemsFor_agree ρ "seq" x).map fun xs ys (e : ys = _) => by
        rw [e, Renaming.Sends, listOrNil_rename]) args
  | vec =>
    exact agrees_one ρ _ (fun _ _ => rfl) (fun _ => rfl) (fun _ _ _ _ => rfl) (fun x =>
      (itemsFor_agree ρ "vec" x).map fun xs ys (e : ys = _) => by
        rw [e, Renaming.Sends, Value.rename, Value.renameItems_eq_map]) args
  | cons =>
    exact agrees_two ρ (fun x xs => (itemsFor "cons" xs).map fun xs => .list (x :: xs))
      (fun _ _ _ => rfl) (fun _ => rfl) (fun _ _ => rfl) (fun _ _ _ _ _ => rfl) (fun x y =>
      (itemsFor_agree ρ "cons" y).map fun xs ys (e : ys = _) => by
        rw [e, Renaming.Sends, Value.rename, Value.renameItems_eq_map, List.map_cons]) args
  | concat =>
    exact agrees_all ρ _ (fun _ _ => rfl) (fun xs =>
      (concat_agree ρ xs).map fun xs ys (e : ys = _) => by
        rw [e, Renaming.Sends, Value.rename, Value.renameItems_eq_map]) args
  | into =>
    exact agrees_two ρ (fun x y => (itemsFor "into" y).bind fun ys => ys.foldlM Answer.conj x)
      (fun _ _ _ => rfl) (fun _ => rfl) (fun _ _ => rfl) (fun _ _ _ _ _ => rfl) (fun x y =>
      (itemsFor_agree ρ "into" y).bind fun xs ys (e : ys = _) => by
        rw [e]
        exact foldlM_conj_agree ρ xs x) args
  | keys =>
    exact agrees_one ρ _ (fun _ _ => rfl) (fun _ => rfl) (fun _ _ _ _ => rfl) (keys_agree ρ) args
  | vals =>
    exact agrees_one ρ _ (fun _ _ => rfl) (fun _ => rfl) (fun _ _ _ _ => rfl) (vals_agree ρ) args
  | range => exact agrees_all ρ _ (fun _ _ => rfl) (range_agree ρ) args
  | _ => exact absurd hop (by decide)

theorem agrees_lookup {op : Native} (args : List Value)
    (hop : op ∈ [nth, get, contains, conj, assoc, dissoc]) : op.Agrees ρ args := by
  cases op with
  | nth =>
    exact agrees_optional ρ (fun x i o => (intFor "nth" i).bind fun n => Answer.nth x n o)
      (fun _ _ _ => rfl) (fun _ _ _ _ => rfl) (fun _ => rfl) (fun _ _ => rfl)
      (fun _ _ _ _ _ _ => rfl) (fun x i o =>
        (intFor_agree ρ "nth" i).bind fun a b (e : a = b) => by
          rw [e]
          exact nth_agree ρ x b o) args
  | get =>
    exact agrees_optional ρ (fun x k o => .ok (Answer.lookup x k (o.getD .nil)))
      (fun _ _ _ => rfl) (fun _ _ _ _ => rfl) (fun _ => rfl) (fun _ _ => rfl)
      (fun _ _ _ _ _ _ => rfl) (fun x k o => .ok (by
        cases o with
        | none => exact lookup_rename ρ x k .nil
        | some d => exact lookup_rename ρ x k d)) args
  | contains =>
    exact agrees_two ρ Answer.contains (fun _ _ _ => rfl) (fun _ => rfl) (fun _ _ => rfl)
      (fun _ _ _ _ _ => rfl) (contains_agree ρ) args
  | conj =>
    cases args with
    | nil => exact agrees_of_misused ρ (fun _ => rfl) fun _ => rfl
    | cons x items => exact ⟨_, _, fun _ => rfl, fun _ => rfl, foldlM_conj_agree ρ items x⟩
  | assoc => exact agrees_all ρ _ (fun _ _ => rfl) (assoc_agree ρ) args
  | dissoc => exact agrees_all ρ _ (fun _ _ => rfl) (dissoc_agree ρ) args
  | _ => exact absurd hop (by decide)

theorem agrees_text {op : Native} {args : List Value} (hargs : ρ.Shows args)
    (hop : op ∈ [str, prStr, subs, name, keyword, symbol]) : op.Agrees ρ args := by
  obtain ⟨σ, hσ, hshown⟩ := hargs
  cases op with
  | str =>
    refine ⟨.ok (Answer.str args), .ok (Answer.str _), fun _ => rfl, fun _ => rfl, .ok ?_⟩
    rw [Renaming.Sends, hshown, str_rename hσ]
    rfl
  | prStr =>
    refine ⟨.ok (.str (Value.joined true args)), .ok (.str (Value.joined true _)), fun _ => rfl,
      fun _ => rfl, .ok ?_⟩
    rw [Renaming.Sends, hshown, Value.joined_rename hσ]
    rfl
  | subs => exact agrees_all ρ _ (fun _ _ => rfl) (subs_agree ρ) args
  | name =>
    exact agrees_one ρ _ (fun _ _ => rfl) (fun _ => rfl) (fun _ _ _ _ => rfl) (name_agree ρ) args
  | keyword =>
    exact agrees_one ρ _ (fun _ _ => rfl) (fun _ => rfl) (fun _ _ _ _ => rfl) (keyword_agree ρ) args
  | symbol =>
    exact agrees_one ρ _ (fun _ _ => rfl) (fun _ => rfl) (fun _ _ _ _ => rfl) (symbol_agree ρ) args
  | _ => exact absurd hop (by decide)

theorem agrees_test {op : Native} (args : List Value)
    (hop : op ∈ [not, identity, isNumber, isNil, isString, isKeyword, isSymbol, isFn, isVector,
      isMap, isSet, isList, exMessage, exData]) : op.Agrees ρ args := by
  cases op with
  | not =>
    exact agrees_one ρ (fun x => .ok (.bool !x.truthy)) (fun _ _ => rfl) (fun _ => rfl) (fun _ _ _ _ => rfl)
      (fun x => .ok (by rw [Value.truthy_rename]; rfl)) args
  | identity =>
    exact agrees_one ρ .ok (fun _ _ => rfl) (fun _ => rfl) (fun _ _ _ _ => rfl) (fun x => .ok rfl) args
  | isNumber | isNil | isString | isKeyword | isSymbol | isFn | isVector | isMap | isSet | isList =>
    exact agrees_one ρ (fun x => .ok (.bool (holds _ x))) (fun _ _ => rfl) (fun _ => rfl) (fun _ _ _ _ => rfl)
      (fun x => .ok (by rw [holds_rename]; rfl)) args
  | exMessage =>
    match args with
    | [x] =>
      cases x with
      | fn id name | closure id name =>
        rcases Value.ofIdentity_cases (ρ.map (_, id)) (ρ.label (_, id) name) with ⟨k, h⟩ | ⟨k, h⟩ <;>
          exact ⟨.ok .nil, .ok .nil, fun _ => rfl, fun _ => by
            rw [List.map_singleton, Value.rename, h]; rfl, .ok rfl⟩
      | _ => exact ⟨.ok _, .ok _, fun _ => rfl, fun _ => rfl, .ok rfl⟩
    | [] | _ :: _ :: _ => exact agrees_of_misused ρ (fun _ => rfl) fun _ => rfl
  | exData =>
    match args with
    | [x] =>
      cases x with
      | fn id name | closure id name =>
        rcases Value.ofIdentity_cases (ρ.map (_, id)) (ρ.label (_, id) name) with ⟨k, h⟩ | ⟨k, h⟩ <;>
          exact ⟨.ok .nil, .ok .nil, fun _ => rfl, fun _ => by
            rw [List.map_singleton, Value.rename, h]; rfl, .ok rfl⟩
      | _ => exact ⟨.ok _, .ok _, fun _ => rfl, fun _ => rfl, .ok rfl⟩
    | [] | _ :: _ :: _ => exact agrees_of_misused ρ (fun _ => rfl) fun _ => rfl
  | _ => exact absurd hop (by decide)

/-- Natives that only compute an answer give renamed answers for renamed arguments. -/
theorem computes_agree {op : Native} (h : op.computing = true) {args : List Value}
    (hargs : ρ.Shows args) : op.Agrees ρ args := by
  cases op <;> first
    | exact agrees_number ρ args (by decide)
    | exact agrees_sequence ρ args (by decide)
    | exact agrees_lookup ρ args (by decide)
    | exact agrees_text ρ hargs (by decide)
    | exact agrees_test ρ args (by decide)
    | exact absurd h (by decide)

end Native

end TwinLisp
