import TwinLisp.Store.Basic
/-!
Lexical frames. A binding names a depth and a slot; from any frame it means that slot of the one
ancestor at that depth, the frame itself included.

* `Store.newFrame`, `Store.pushSlot`: a frame below another one, and a further slot.
* `Store.frameAt?`: the ancestor at a depth.
* `Store.holder?`, `Store.local?`, `Store.setSlot`: the slot of a binding.
-/

namespace TwinLisp.Store

/-- The depth of a frame made below another one. -/
def depthBelow (parent : Option Nat) (s : Store) : Nat :=
  match parent with
  | none => 0
  | some p => ((s.frames[p]?.map Frame.depth).getD 0) + 1

def newFrame (parent : Option Nat) (slots : Array Value) (s : Store) : Nat × Store :=
  (s.frames.size, { s with frames := s.frames.push ⟨slots, parent, s.depthBelow parent⟩ })

def pushSlot (id : Nat) (v : Value) (s : Store) : Store :=
  { s with frames := s.frames.modify id fun f => { f with slots := f.slots.push v } }

/-- Climbs at most `fuel` frames, to the first that is not deeper than `depth`. -/
def climb (frames : Array Frame) (depth : Nat) : (fuel id : Nat) → Option Nat
  | fuel, id =>
    match frames[id]? with
    | none => none
    | some f =>
      if f.depth ≤ depth then if f.depth = depth then some id else none
      else match fuel, f.parent with
        | fuel + 1, some p => climb frames depth fuel p
        | _, _ => none

/-- The ancestor of a frame at a depth. -/
def frameAt? (id depth : Nat) (s : Store) : Option Nat :=
  match s.frames[id]? with
  | none => none
  | some f => climb s.frames depth (f.depth - depth) id

/-- The frame that holds the slot of a binding, if the slot exists. -/
def holder? (id : Nat) (b : Binding) (s : Store) : Option Nat :=
  match s.frameAt? id b.frame with
  | none => none
  | some a =>
    match s.frames[a]? with
    | some f => if b.index < f.slots.size then some a else none
    | none => none

def slot? (id index : Nat) (s : Store) : Option Value :=
  match s.frames[id]? with
  | some f => f.slots[index]?
  | none => none

def setSlot (id index : Nat) (v : Value) (s : Store) : Store :=
  { s with frames := s.frames.modify id fun f =>
      { f with slots := f.slots.setIfInBounds index v } }

/-- The value of a binding as seen from a frame. -/
def local? (id : Nat) (b : Binding) (s : Store) : Option Value :=
  (s.holder? id b).bind fun a => s.slot? a b.index

end TwinLisp.Store
