import TwinLisp.Proofs.Machine.Blind
import TwinLisp.Proofs.Text.Digits

/-! The names that actions make. Each is the text it was asked for with a number and a mark behind it,
and the number can be read back, whatever the text is. An action has a journal of the names it makes;
between two of them it does not see how many have been made, and does not change that.

* `Gensym.numberIn`: the number in a name.
* `View.numbered`: another number of names made.
* `Act.Makes`: an action makes some names, in an order.
* `Act.Makes.numbers`: they have the numbers behind the one that the state has, one after the other.
* `Act.Journaled`: an action that has a journal from every state, with a rule for each way to make
  actions. -/

namespace TwinLisp

/-! ## Numbers in names -/

namespace Gensym

/-- The mark that every name ends with. -/
def mark : List Char := "__auto".toList

/-- The number in a name: the digits before the mark. -/
def numberIn (name : String) : Nat :=
  let digits := ((name.toList.reverse.drop mark.length).takeWhile (· != '_')).reverse
  (Text.natOfDigits? 10 digits).getD 0

/-- The number is read back, although the text before it may end with digits or underscores. -/
theorem numberIn_name (stem : String) (n : Nat) :
    numberIn (stem ++ "__" ++ toString n ++ "__auto") = n := by
  have hdigits : ∀ c ∈ (Nat.toDigits 10 n).reverse, (c != '_') = true := by
    intro c hc
    have hd := Text.isDigit_of_mem_digits (List.mem_reverse.mp hc)
    by_contra h
    have hc : c = '_' := by simpa using h
    rw [hc] at hd
    exact absurd hd (by decide)
  have hname : (stem ++ "__" ++ toString n ++ "__auto").toList.reverse =
      mark.reverse ++ ((Nat.toDigits 10 n).reverse ++ '_' :: '_' :: stem.toList.reverse) := by
    have hn : (toString n).toList = Nat.toDigits 10 n := Nat.toList_repr
    simp only [String.toList_append, hn, List.reverse_append, List.append_assoc]
    rfl
  have hlength : mark.length = mark.reverse.length := (List.length_reverse ..).symm
  unfold numberIn
  dsimp only
  rw [hname, hlength, List.drop_left, List.takeWhile_append_of_pos hdigits,
    List.takeWhile_cons_of_neg (by decide), List.append_nil, List.reverse_reverse,
    Text.natOfDigits?_toDigits]
  rfl

end Gensym

/-- Another number of names made. -/
def View.numbered (n : Nat) : View where
  gensyms _ := n

/-! ## Journals -/

namespace Act

variable {ε ζ α β : Type}

/-- The state that an outcome leaves. -/
def left : EStateM.Result (Stop ε) State α → State
  | .ok _ s => s
  | .error _ s => s

/-- An action makes some names from a state on, in their order. What is done around an action may
change the state beforehand and the outcome afterwards, as long as it does not see how many names
have been made, and keeps that number. -/
inductive Makes : {ε α : Type} → Act ε α → State → List String → Prop
  | silent {ε α : Type} {a : Act ε α} {s : State} (h : ∀ n, Blind (.numbered n) a) : Makes a s []
  | gensym {ε : Type} {stem name : String} {s t : State}
    (h : (Act.gensym stem : Act ε String) s = .ok name t) :
    Makes (Act.gensym stem : Act ε String) s [name]
  | stopped {ε α β : Type} {a : Act ε α} {f : α → Act ε β} {s t : State} {e : Stop ε}
    {names : List String} (h : Makes a s names) (he : a s = .error e t) : Makes (a >>= f) s names
  | next {ε α β : Type} {a : Act ε α} {f : α → Act ε β} {s t : State} {x : α}
    {names more : List String} (h : Makes a s names) (hx : a s = .ok x t) (hf : Makes (f x) t more) :
    Makes (a >>= f) s (names ++ more)
  | around {ε ζ α β : Type} {a : Act ε α} {s : State} {names : List String} (enter : State → State)
    (leave : State → EStateM.Result (Stop ε) State α → EStateM.Result (Stop ζ) State β)
    (h : Makes a (enter s) names)
    (he : ∀ n s, enter (s.seen (.numbered n)) = (enter s).seen (.numbered n))
    (hl : ∀ m n s r, leave (s.seen (.numbered m)) (seen (.numbered n) r) =
      seen (.numbered n) (leave s r)) :
    Makes (fun s => leave s (a (enter s))) s names

namespace Makes

variable {a : Act ε α} {s : State} {names : List String}

theorem bind_pure (h : Makes a s names) (f : α → β) :
    Makes (a >>= fun x => Pure.pure (f x)) s names := by
  cases hr : a s with
  | ok x t =>
    have hpure : Makes (Pure.pure (f x) : Act ε β) t [] := .silent fun _ => .pure (f x)
    have hnext : Makes (a >>= fun x => Pure.pure (f x)) s (names ++ []) := h.next hr hpure
    rwa [List.append_nil] at hnext
  | error e t => exact h.stopped hr

theorem discard (h : Makes a s names) : Makes (discard a) s names := h.bind_pure fun _ => ()

theorem map (h : Makes a s names) (f : α → β) : Makes (f <$> a) s names := by
  rw [map_eq_pure_bind]
  exact h.bind_pure f

theorem mapFault (h : Makes a s names) (f : ε → ζ) : Makes (Act.mapFault f a) s names := by
  refine h.around id (fun s r => Act.mapFault f (fun _ => r) s) (fun _ _ => rfl) ?_
  rintro m n s (_ | ⟨_ | _, _⟩) <;> rfl

end Makes

theorem seen_own (r : EStateM.Result (Stop ε) State α) :
    seen (.numbered (left r).gensyms) r = r := by
  cases r <;> rfl

theorem gensyms_left_seen (n : Nat) (r : EStateM.Result (Stop ε) State α) :
    (left (seen (.numbered n) r)).gensyms = n := by
  cases r <;> rfl

theorem Blind.gensyms_left {a : Act ε α} (h : ∀ n, Blind (.numbered n) a) (s : State) :
    (left (a s)).gensyms = s.gensyms := by
  have hs := h s.gensyms s
  rw [show s.seen (.numbered s.gensyms) = s from rfl] at hs
  rw [hs, gensyms_left_seen]

/-- The names have the numbers behind the one of the state, one after the other, and the last of them
is the number of the state that is left. -/
theorem Makes.numbers {a : Act ε α} {s : State} {names : List String} (h : Makes a s names) :
    names.map Gensym.numberIn = List.range' (s.gensyms + 1) names.length ∧
      (left (a s)).gensyms = s.gensyms + names.length := by
  induction h with
  | silent h => exact ⟨rfl, Blind.gensyms_left h _⟩
  | gensym h =>
    cases h
    exact ⟨congrArg (· :: []) (Gensym.numberIn_name _ _), rfl⟩
  | stopped _ he ih =>
    refine ⟨ih.1, ?_⟩
    have hleft := ih.2
    rw [bind_apply]
    rw [he] at hleft ⊢
    exact hleft
  | @next _ _ _ a f s t x names more _ hx _ ih ihf =>
    have hleft := ih.2
    rw [hx] at hleft
    have ht : t.gensyms = s.gensyms + names.length := hleft
    rw [ht] at ihf
    constructor
    · rw [List.map_append, ih.1, ihf.1, List.length_append, Nat.add_right_comm, List.range'_append_1]
    · rw [bind_apply, hx, List.length_append, ← Nat.add_assoc]
      exact ihf.2
  | @around _ _ _ _ a s names enter leave _ he hl ih =>
    have hnumber : (enter s).gensyms = s.gensyms := by
      have hs := he s.gensyms s
      rw [show s.seen (.numbered s.gensyms) = s from rfl] at hs
      rw [hs]
      rfl
    rw [hnumber] at ih
    refine ⟨ih.1, ?_⟩
    have hleave := hl s.gensyms (left (a (enter s))).gensyms s (a (enter s))
    rw [seen_own, show s.seen (.numbered s.gensyms) = s from rfl] at hleave
    dsimp only
    rw [hleave, gensyms_left_seen, ih.2]

/-! ## Actions with journals -/

/-- An action that has a journal from every state. -/
def Journaled (a : Act ε α) : Prop := ∀ s, ∃ names, Makes a s names

namespace Journaled

theorem silent {a : Act ε α} (h : ∀ n, Blind (.numbered n) a) : Journaled a :=
  fun _ => ⟨[], .silent h⟩

theorem pure (x : α) : Journaled (Pure.pure x : Act ε α) := silent fun _ => .pure x

theorem raise (e : ε) : Journaled (Act.raise e : Act ε α) := silent fun _ => .raise e

theorem exhausted : Journaled (Act.exhausted : Act ε α) := silent fun _ _ => rfl

theorem gensym (stem : String) : Journaled (Act.gensym stem : Act ε String) :=
  fun _ => ⟨_, .gensym rfl⟩

theorem bind {a : Act ε α} {f : α → Act ε β} (h : Journaled a) (hf : ∀ x, Journaled (f x)) :
    Journaled (a >>= f) := by
  intro s
  obtain ⟨names, hs⟩ := h s
  cases hr : a s with
  | ok x t =>
    obtain ⟨more, ht⟩ := hf x t
    exact ⟨names ++ more, hs.next hr ht⟩
  | error e t => exact ⟨names, hs.stopped hr⟩

theorem after {a : Act ε α} {f : α → Act ε β} (h : ∀ n, Blind (.numbered n) a)
    (hf : ∀ x, Journaled (f x)) : Journaled (a >>= f) := (silent h).bind hf

theorem map {a : Act ε α} (f : α → β) (h : Journaled a) : Journaled (f <$> a) :=
  fun s => (h s).imp fun _ hs => hs.map f

theorem discard {a : Act ε α} (h : Journaled a) : Journaled (discard a) :=
  fun s => (h s).imp fun _ hs => hs.discard

theorem ofExcept (r : Except ε α) : Journaled (Act.ofExcept r) := by
  cases r with
  | ok x => exact pure x
  | error e => exact raise e

theorem ite {c : Prop} [Decidable c] {a b : Act ε α} (ha : Journaled a) (hb : Journaled b) :
    Journaled (if c then a else b) := by
  split
  · exact ha
  · exact hb

theorem around {a : Act ε α} (h : Journaled a) (enter : State → State)
    (leave : State → EStateM.Result (Stop ε) State α → EStateM.Result (Stop ζ) State β)
    (he : ∀ n s, enter (s.seen (.numbered n)) = (enter s).seen (.numbered n))
    (hl : ∀ m n s r, leave (s.seen (.numbered m)) (seen (.numbered n) r) =
      seen (.numbered n) (leave s r)) :
    Journaled (fun s => leave s (a (enter s))) := by
  intro s
  obtain ⟨names, hs⟩ := h (enter s)
  exact ⟨names, hs.around enter leave he hl⟩

theorem mapFault {a : Act ε α} (f : ε → ζ) (h : Journaled a) : Journaled (Act.mapFault f a) :=
  fun s => (h s).imp fun _ hs => hs.mapFault f

theorem within {κ : Type} {a : Act (Located κ) α} (span : Span) (h : Journaled a) :
    Journaled (Act.within span a) := h.mapFault _

theorem caught {a : Act ε α} (h : Journaled a) : Journaled (Act.caught a) := by
  refine h.around id (fun s r => Act.caught (fun _ => r) s) (fun _ _ => rfl) ?_
  rintro m n s (_ | ⟨_ | _, _⟩) <;> rfl

theorem onStop {a : Act ε α} {change : State → State} (h : Journaled a)
    (hc : ∀ n s, change (s.seen (.numbered n)) = (change s).seen (.numbered n)) :
    Journaled (Act.onStop a change) := by
  refine h.around id (fun s r => Act.onStop (fun _ => r) change s) (fun _ _ => rfl) ?_
  rintro m n s (_ | ⟨e, t⟩)
  · rfl
  · exact congrArg (EStateM.Result.error e) (hc n t)

theorem ending {a : Act ε α} {change : State → State} (h : Journaled a)
    (hc : ∀ n s, change (s.seen (.numbered n)) = (change s).seen (.numbered n)) :
    Journaled (Act.ending a change) := by
  refine h.around id (fun s r => Act.ending (fun _ => r) change s) (fun _ _ => rfl) ?_
  rintro m n s (⟨x, t⟩ | ⟨e, t⟩)
  · exact congrArg (EStateM.Result.ok x) (hc n t)
  · exact congrArg (EStateM.Result.error e) (hc n t)

end Journaled

end Act

end TwinLisp
