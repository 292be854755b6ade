import TwinLisp.Config.Environment
import TwinLisp.Proofs.Machine.Reentry
import TwinLisp.Proofs.Text.Numerals

/-! Limits that settings describe. A text that writes a positive number below the bound of a machine
word is honoured, and any other is as good as none. The room for frames follows the depth of calls,
which leaves no number for it if the depth is the greatest one.

* `Config.Writes`, `Config.Sets`: the texts that are honoured.
* `Config.Honours`: a limit that follows its setting.
* `Machine.Typed.FramesSuffice`: room for the frames of all nested calls.
* `Config.limits_consistent`: all limits together. -/

namespace TwinLisp

namespace Config

open Text

/-! ## Texts of limits -/

/-- A number in decimal digits, which a plus sign may precede, between blanks. -/
def Writes (text : String) (n : Nat) : Prop :=
  ∃ before sign ds after, text.toList = before ++ (sign ++ ds) ++ after ∧ Blanks before ∧
    Blanks after ∧ sign ∈ [[], ['+']] ∧ Digits 10 ds n

theorem countOfDigits?_eq_some_iff {cs : List Char} {n : Nat} :
    countOfDigits? cs = some n ↔ ∃ sign ∈ [[], ['+']], ∃ ds, cs = sign ++ ds ∧ Digits 10 ds n := by
  simp only [List.mem_cons, List.not_mem_nil, or_false, exists_eq_or_imp, exists_eq_left,
    List.nil_append, exists_eq_left', List.singleton_append]
  unfold countOfDigits?
  split
  · rename_i ds
    rw [natOfDigits?_eq_some_iff]
    constructor
    · exact fun h => .inr ⟨ds, rfl, h⟩
    · rintro (h | ⟨_, ⟨⟩, h⟩)
      · obtain ⟨v, hv⟩ := h.forall_mem _ List.mem_cons_self
        exact absurd rfl hv.notSign.2
      · exact h
  · rename_i hplus
    rw [natOfDigits?_eq_some_iff]
    refine ⟨.inl, fun h => h.resolve_right ?_⟩
    rintro ⟨ds, rfl, -⟩
    exact hplus ds rfl

theorem countOfDigits?_trim {text : String} {n : Nat} :
    countOfDigits? (trim text).toList = some n ↔ Writes text n := by
  rw [countOfDigits?_eq_some_iff]
  constructor
  · rintro ⟨sign, hsign, ds, hcs, hds⟩
    obtain ⟨before, after, htext, hb, ha⟩ := exists_trim text
    exact ⟨before, sign, ds, after, hcs ▸ htext, hb, ha, hsign, hds⟩
  · rintro ⟨before, sign, ds, after, htext, hb, ha, hsign, hds⟩
    refine ⟨sign, hsign, ds, trim_eq htext hb ha ?_ ?_, hds⟩
    · exact fun h => hds.ne_nil (List.append_eq_nil_iff.mp h).2
    · refine List.forall_mem_append.mpr ⟨?_, fun c hc => ?_⟩
      · simp only [List.mem_cons, List.not_mem_nil, or_false] at hsign
        rcases hsign with rfl | rfl
        · exact nofun
        · exact List.forall_mem_singleton.mpr rfl
      · obtain ⟨v, hv⟩ := hds.forall_mem c hc
        exact not_blank_of_digit hv

theorem positive?_eq_some_iff {text : String} {n : Nat} :
    positive? text = some n ↔ Writes text n ∧ 0 < n ∧ n < wordLimit := by
  rw [← countOfDigits?_trim]
  unfold positive?
  cases countOfDigits? (trim text).toList with
  | none => simp
  | some m =>
    simp only [Option.ite_none_right_eq_some, Option.some.injEq]
    constructor
    · rintro ⟨h, rfl⟩
      exact ⟨rfl, h⟩
    · rintro ⟨rfl, h⟩
      exact ⟨h, rfl⟩

/-! ## Settings -/

variable {lookup : String → Option String} {key : String}

/-- A setting that is honoured, and the number that it gives. -/
def Sets (lookup : String → Option String) (key : String) (n : Nat) : Prop :=
  ∃ text, lookup key = some text ∧ Writes text n ∧ 0 < n ∧ n < wordLimit

theorem limit?_eq_some_iff {n : Nat} : (limit? lookup key).1 = some n ↔ Sets lookup key n := by
  unfold limit? Sets
  cases lookup key with
  | none => simp
  | some text =>
    simp only [Option.some.injEq, exists_eq_left', ← positive?_eq_some_iff]
    cases positive? text <;> simp

theorem limit?_eq_none_iff : (limit? lookup key).1 = none ↔ ∀ n, ¬ Sets lookup key n := by
  rw [Option.eq_none_iff_forall_ne_some]
  exact forall_congr' fun n => not_congr limit?_eq_some_iff

/-- A limit is what its setting gives, and something else if the setting is not honoured. -/
def Honours {α : Type} (lookup : String → Option String) (key : String) (given : Nat → α)
    (otherwise limit : α) : Prop :=
  (∀ n, Sets lookup key n → limit = given n) ∧ ((∀ n, ¬ Sets lookup key n) → limit = otherwise)

theorem honours_limit? (lookup : String → Option String) (key : String) :
    Honours lookup key some none (limit? lookup key).1 :=
  ⟨fun _ h => limit?_eq_some_iff.mpr h, limit?_eq_none_iff.mpr⟩

theorem honours_getD (lookup : String → Option String) (key : String) (standard : Nat) :
    Honours lookup key id standard ((limit? lookup key).1.getD standard) := by
  refine ⟨fun n h => ?_, fun h => ?_⟩
  · rw [limit?_eq_some_iff.mpr h]
    rfl
  · rw [limit?_eq_none_iff.mpr h]
    rfl

theorem Honours.forall {p : Nat → Prop} {standard limit : Nat}
    (h : Honours lookup key id standard limit) (hs : p standard)
    (hn : ∀ n, 0 < n → n < wordLimit → p n) : p limit := by
  by_cases hex : ∃ n, Sets lookup key n
  · obtain ⟨n, hset⟩ := hex
    rw [h.1 n hset]
    obtain ⟨_, _, _, hpos, hlt⟩ := hset
    exact hn n hpos hlt
  · rw [h.2 (not_exists.mp hex)]
    exact hs

/-! ## The configuration -/

theorem maxDepth_honoured (lookup : String → Option String) :
    Honours lookup "JOLT_MAX_DEPTH" id standardDepth (ofSettings lookup).1.maxDepth :=
  honours_getD lookup _ _

theorem stackMax_honoured (lookup : String → Option String) :
    Honours lookup "JOLT_VM_STACK_MAX" id standardStack (ofSettings lookup).1.limits.stackMax :=
  honours_getD lookup _ _

theorem framesMax_honoured (lookup : String → Option String) :
    Honours lookup "JOLT_VM_FRAMES_MAX" id (((ofSettings lookup).1.maxDepth + 1) % wordLimit)
      (ofSettings lookup).1.limits.framesMax :=
  honours_getD lookup _ _

theorem stepBudget_honoured (lookup : String → Option String) :
    Honours lookup "JOLT_VM_STEP_BUDGET" some none (ofSettings lookup).1.limits.stepBudget :=
  honours_limit? lookup _

theorem maxDepth_succ_lt (h : ¬ Sets lookup "JOLT_MAX_DEPTH" (wordLimit - 1)) :
    (ofSettings lookup).1.maxDepth + 1 < wordLimit := by
  have hd := maxDepth_honoured lookup
  by_cases hset : ∃ n, Sets lookup "JOLT_MAX_DEPTH" n
  · obtain ⟨n, hn⟩ := hset
    rw [hd.1 n hn, id]
    have hlt : n < wordLimit := hn.choose_spec.2.2.2
    have hne : n ≠ wordLimit - 1 := fun e => h (e ▸ hn)
    omega
  · rw [hd.2 (not_exists.mp hset)]
    decide

end Config

/-! ## The room for frames -/

namespace Machine.Typed

open Act

variable {s : State}

/-- If there is room for all nested calls and a whole form, a call that finds not more frames than one
beside those of the calls being counted has room, or else there are too many calls. -/
theorem pushFrame_counted (hframes : s.machine.frames.size ≤ s.depth + 1)
    (hroom : s.config.maxDepth + 1 ≤ s.config.limits.framesMax) (c : Closure) (base : Nat) :
    Post (fun _ _ => True) (fun e _ => e.cause = .stackOverflow) (pushFrame c base true s) := by
  unfold pushFrame
  by_cases hd : s.depth ≥ s.config.maxDepth
  · simp only [if_true, Act.bind_apply, Run.enter, if_pos hd]
    rfl
  · have hf : ¬ s.machine.frames.size ≥ s.config.limits.framesMax := by omega
    simp only [if_true, Act.bind_apply, Run.enter, if_neg hd, Act.ask, if_neg hf, Act.update]
    trivial

theorem Running.frames_le {G : Ground} (h : Running G s) :
    s.machine.frames.size ≤ s.depth + 1 := by
  obtain ⟨fs, a, d, _, _, hs⟩ := h
  have hdepth := hs.tally.depth
  have hframes := hs.tally.frames
  rw [hs.frames, hs.depth]
  omega

/-- A fault that is not for want of room for frames. -/
def Roomy (e : RuntimeError) : Prop := ∀ limit, e.cause ≠ .frameOverflow limit

/-- With a configuration the limit of frames is never reached before that of calls. A function that
the running one calls is refused only if there are too many calls, and neither a call, at any depth
of calls, nor a text ends with a fault for want of room for frames. -/
structure FramesSuffice (config : Config) : Prop where
  frame : ∀ {G : Ground} {s : State}, Running G s → s.config = config → ∀ (c : Closure) (base : Nat),
    Post (fun _ _ => True) (fun e _ => e.cause = .stackOverflow) (pushFrame c base true s)
  call : ∀ {n : Nat} {s : State}, Coherent n s → s.config = config → ∀ level f args,
    Post (fun _ _ => True) (fun e _ => Roomy e) ((Engine.ofFuel level).call f args s)
  source : ∀ {s : State}, Reached s → s.config = config → ∀ level source,
    Post (fun _ _ => True) (fun f _ => ∀ e, f = .runtime e → Roomy e)
      (Session.evalSource level source s)

theorem framesSuffice {config : Config} (h : config.maxDepth + 1 ≤ config.limits.framesMax) :
    FramesSuffice config where
  frame hs hc c base := pushFrame_counted hs.frames_le (hc ▸ h) c base
  call hs hc level f args := (discreet_idle.call_eq hs level f args).2.imp (fun _ _ _ => trivial)
    fun _ _ he => he.1.2 (hc ▸ h)
  source hs hc level source := (hs.quiet.source discreet_idle level source).2.imp
    (fun _ _ _ => trivial) fun _ _ hf e he => (hf.1 e he).2 (hc ▸ h)

end Machine.Typed

namespace Config

open Machine.Typed (FramesSuffice framesSuffice)

/-! ## All limits -/

/-- Every limit of a configuration is a positive number of a machine word. -/
structure Positive (c : Config) : Prop where
  maxDepth : 0 < c.maxDepth ∧ c.maxDepth < wordLimit
  stackMax : 0 < c.limits.stackMax ∧ c.limits.stackMax < wordLimit
  framesMax : 0 < c.limits.framesMax ∧ c.limits.framesMax < wordLimit
  stepBudget : ∀ n ∈ c.limits.stepBudget, 0 < n ∧ n < wordLimit

/-- The limits that settings describe are consistent, unless the depth of calls is set to the greatest
number of a machine word. The next number is one of a machine word; a text that writes a positive
number of a machine word, with blanks around it or a plus sign before it, is honoured, and any other is
as good as none; every limit is positive; and unless the room for frames is set it is one more than
the depth of calls, so that the room for frames suffices. -/
theorem limits_consistent (lookup : String → Option String)
    (h : ¬ Sets lookup "JOLT_MAX_DEPTH" (wordLimit - 1)) :
    let c := (ofSettings lookup).1
    c.maxDepth + 1 < wordLimit ∧
    Honours lookup "JOLT_MAX_DEPTH" id 512 c.maxDepth ∧
    Honours lookup "JOLT_VM_STACK_MAX" id (256 * 64) c.limits.stackMax ∧
    Honours lookup "JOLT_VM_FRAMES_MAX" id (c.maxDepth + 1) c.limits.framesMax ∧
    Honours lookup "JOLT_VM_STEP_BUDGET" some none c.limits.stepBudget ∧
    c.Positive ∧
    ((∀ n, ¬ Sets lookup "JOLT_VM_FRAMES_MAX" n) → FramesSuffice c) := by
  intro c
  have hdepth := maxDepth_honoured lookup
  have hstack := stackMax_honoured lookup
  have hbudget := stepBudget_honoured lookup
  have hsucc : c.maxDepth + 1 < wordLimit := maxDepth_succ_lt h
  have hframes : Honours lookup "JOLT_VM_FRAMES_MAX" id (c.maxDepth + 1) c.limits.framesMax := by
    have hf := framesMax_honoured lookup
    rwa [Nat.mod_eq_of_lt hsucc] at hf
  have hlimit : ∀ {key standard limit}, Honours lookup key id standard limit →
      0 < standard ∧ standard < wordLimit → 0 < limit ∧ limit < wordLimit :=
    fun hl hs => hl.forall (p := fun n => 0 < n ∧ n < wordLimit) hs fun _ h0 hn => ⟨h0, hn⟩
  refine ⟨hsucc, hdepth, hstack, hframes, hbudget, ⟨?_, ?_, ?_, fun n hn => ?_⟩, fun hnone => ?_⟩
  · exact hlimit hdepth (by decide)
  · exact hlimit hstack (by decide)
  · exact hlimit hframes ⟨Nat.succ_pos _, hsucc⟩
  · obtain ⟨_, _, _, hpos⟩ := limit?_eq_some_iff.mp hn
    exact hpos
  · exact framesSuffice (Nat.le_of_eq (hframes.2 hnone).symm)

/-- Settings of the depth of calls and of the room for frames, and no others. -/
def depthAndFrames (depth frames key : String) : Option String :=
  if key = "JOLT_MAX_DEPTH" then some depth
  else if key = "JOLT_VM_FRAMES_MAX" then some frames else none

theorem limits_of_padded_depth :
    (ofSettings (depthAndFrames " +64 " "many")).1.limits.framesMax = 65 ∧
      FramesSuffice (ofSettings (depthAndFrames " +64 " "many")).1 := by
  have h := limits_consistent (depthAndFrames " +64 " "many")
    (by rw [← limit?_eq_some_iff]; decide +kernel)
  have hnone : ∀ n, ¬ Sets (depthAndFrames " +64 " "many") "JOLT_VM_FRAMES_MAX" n := by
    rw [← limit?_eq_none_iff]
    decide +kernel
  refine ⟨?_, h.2.2.2.2.2.2 hnone⟩
  rw [h.2.2.2.1.2 hnone]
  decide +kernel

/-- The number after the greatest one is none of a machine word, and no room for frames is left. -/
theorem frames_of_greatest_depth :
    let c := (ofSettings (depthAndFrames "18446744073709551615" "many")).1
    Sets (depthAndFrames "18446744073709551615" "many") "JOLT_MAX_DEPTH" c.maxDepth ∧
    (∀ n, ¬ Sets (depthAndFrames "18446744073709551615" "many") "JOLT_VM_FRAMES_MAX" n) ∧
    c.limits.framesMax = 0 ∧ ¬ c.Positive ∧ c.limits.framesMax ≠ c.maxDepth + 1 := by
  intro c
  have hc : c.limits.framesMax = 0 := by decide +kernel
  refine ⟨?_, ?_, hc, fun h => ?_, ?_⟩
  · rw [← limit?_eq_some_iff]
    decide +kernel
  · rw [← limit?_eq_none_iff]
    decide +kernel
  · exact absurd hc (Nat.pos_iff_ne_zero.mp h.framesMax.1)
  · rw [hc]
    exact (Nat.succ_ne_zero _).symm

end Config

end TwinLisp
