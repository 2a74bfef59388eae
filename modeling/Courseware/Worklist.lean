import Courseware.Table

/-!
# Marked work

A worklist remembers which keys are to be done, under two independent marks: to recompute the key
itself, or to pass its change on to its children. Marking twice is marking once, and the marked keys
come out in key order.
-/

namespace Courseware

/-- What a mark asks for. -/
inductive Mark where
  /-- Recompute the marked key. -/
  | itself
  /-- The marked key changed: mark those that depend on it. -/
  | children
  deriving DecidableEq

structure Worklist (κ : Type) [Key κ] where
  itself : KeySet κ
  children : KeySet κ

namespace Worklist

variable {κ : Type} [DecidableEq κ] [Key κ]

def empty : Worklist κ := ⟨∅, ∅⟩

/-- The keys under a mark. -/
def marked (w : Worklist κ) : Mark → KeySet κ
  | .itself => w.itself
  | .children => w.children

/-- The worklist with other keys under a mark. -/
def setMarked (w : Worklist κ) (m : Mark) (keys : KeySet κ) : Worklist κ :=
  match m with
  | .itself => { w with itself := keys }
  | .children => { w with children := keys }

def isMarked (w : Worklist κ) (k : κ) (m : Mark) : Bool := (w.marked m).contains k

/-- Marks a key. -/
def mark (w : Worklist κ) (k : κ) (m : Mark) : Worklist κ := w.setMarked m ((w.marked m).add k)

/-- Marks a key and tells whether the mark is new. -/
def markNew (w : Worklist κ) (k : κ) (m : Mark) : Bool × Worklist κ := (!w.isMarked k m, w.mark k m)

/-- Marks keys one after the other, telling for each whether its mark was new. -/
def markEach (w : Worklist κ) (m : Mark) : List κ → List Bool × Worklist κ
  | [] => ([], w)
  | k :: rest =>
    let (isNew, w) := w.markNew k m
    let (others, w) := w.markEach m rest
    (isNew :: others, w)

def extend (w : Worklist κ) (keys : List κ) (m : Mark) : Worklist κ :=
  keys.foldl (fun w k => w.mark k m) w

/-- Takes all keys from under a mark, in key order. -/
def take (w : Worklist κ) (m : Mark) : List κ × Worklist κ := ((w.marked m).keys, w.setMarked m ∅)

def size (w : Worklist κ) : Nat := w.itself.size + w.children.size

def isEmpty (w : Worklist κ) : Bool := w.itself.isEmpty && w.children.isEmpty

/-- The worklist that asks to recompute the given keys. -/
def ofKeys (keys : List κ) : Worklist κ := empty.extend keys .itself

end Worklist

end Courseware
