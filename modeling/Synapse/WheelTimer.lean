import Mathlib

/-!
# Wheel timer

Objects are kept in buckets of a fixed length of time and are given out once
the time of their bucket is over.
-/

set_option autoImplicit false

namespace Synapse

structure WheelEntry (T : Type) where
  endKey : ℕ
  elements : List T

structure WheelTimer (T : Type) where
  bucketSize : ℕ
  entries : List (WheelEntry T)

namespace WheelTimer

variable {T : Type} [DecidableEq T]

def empty (bucketSize : ℕ) : WheelTimer T := ⟨bucketSize,[]⟩

def addElement (obj : T) (entry : WheelEntry T) : WheelEntry T :=
  { entry with elements := entry.elements.insert obj }

/-- Entries for the keys from `lastKey` to `thenKey` are put at the end, and the
object in the last. If there are entries, there are two for `lastKey` then. -/
def extend (w : WheelTimer T) (lastKey thenKey : ℕ) (obj : T) : WheelTimer T :=
  let entries := w.entries ++
    (List.range' lastKey (thenKey+1-lastKey)).map (fun key => ⟨key,[]⟩)
  { w with entries := entries.modify (entries.length-1) (addElement obj) }

def insert (w : WheelTimer T) (now : ℕ) (obj : T) (due : ℕ) : WheelTimer T :=
  let thenKey := due/w.bucketSize+1
  let nowKey := now/w.bucketSize
  match w.entries.head?,w.entries.getLast? with
  | some first,some last =>
    if thenKey ≤ last.endKey then
      -- a time in the past goes into the first entry
      { w with
        entries := w.entries.modify (max first.endKey thenKey-first.endKey) (addElement obj) }
    else w.extend last.endKey (max last.endKey thenKey) obj
  | _,_ => w.extend (nowKey+1) (max (nowKey+1) thenKey) obj

def fetch (w : WheelTimer T) (now : ℕ) : List T × WheelTimer T :=
  let isDue := fun entry : WheelEntry T => decide (entry.endKey ≤ now/w.bucketSize)
  ((w.entries.takeWhile isDue).flatMap WheelEntry.elements,
    { w with entries := w.entries.dropWhile isDue })

end WheelTimer

end Synapse
