/-!
# Trails

A trail is a list that grows at its end and is cut back to an earlier size when
a match has to be given up. Cutting costs as many steps as elements are dropped,
however long the trail is.
-/
namespace PixelAsm

structure Trail (α : Type) where
  newestFirst : List α := []
  size : Nat := 0
  size_eq : size = newestFirst.length := by rfl
  deriving DecidableEq, Repr

namespace Trail

variable {α : Type}

def empty : Trail α := {}

instance : Inhabited (Trail α) := ⟨empty⟩

def toList (t : Trail α) : List α := t.newestFirst.reverse

def isEmpty (t : Trail α) : Bool := t.size == 0

def push (t : Trail α) (a : α) : Trail α :=
  { newestFirst := a :: t.newestFirst
    size := t.size + 1
    size_eq := by simp [t.size_eq] }

/-- Keeps the oldest `size` elements; a trail that has no more stays as it is. -/
def truncate (t : Trail α) (size : Nat) : Trail α :=
  if shorter : size < t.size then
    { newestFirst := t.newestFirst.drop (t.size - size)
      size
      size_eq := by rw [List.length_drop, ← t.size_eq]; omega }
  else t

@[ext]
theorem ext {s t : Trail α} (same : s.newestFirst = t.newestFirst) : s = t := by
  cases s; cases t; simp_all

@[simp]
theorem toList_empty : (empty : Trail α).toList = [] := rfl

@[simp]
theorem toList_push (t : Trail α) (a : α) : (t.push a).toList = t.toList ++ [a] := by
  simp [toList, push]

@[simp]
theorem length_toList (t : Trail α) : t.toList.length = t.size := by
  simp [toList, t.size_eq]

@[simp]
theorem toList_truncate (t : Trail α) (size : Nat) :
    (t.truncate size).toList = t.toList.take size := by
  unfold truncate
  split
  · simp [toList, List.take_reverse, t.size_eq]
  · rw [List.take_of_length_le]
    simp; omega

end Trail
end PixelAsm
