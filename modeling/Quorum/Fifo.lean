/-!
# Fifo — queues

A queue is kept as a front half and a reversed back half, so that both ends are cheap.  What it
holds, in order of arrival, is `Fifo.toList`; every operation is described by it.
-/

namespace Quorum

/-- A first-in-first-out queue. -/
structure Fifo (α : Type) where
  /-- The oldest elements, oldest first. -/
  front : List α := []
  /-- The newest elements, newest first. -/
  back : List α := []
  deriving Repr

namespace Fifo
variable {α : Type}

instance : Inhabited (Fifo α) := ⟨{}⟩

/-- The elements in order of arrival. -/
def toList (q : Fifo α) : List α := q.front ++ q.back.reverse

def length (q : Fifo α) : Nat := q.front.length + q.back.length

/-- Adds an element at the end. -/
def push (q : Fifo α) (a : α) : Fifo α := { q with back := a :: q.back }

/-- Adds elements at the end, in order. -/
def pushAll (q : Fifo α) (l : List α) : Fifo α := l.foldl push q

/-- The oldest element, and the queue without it. -/
def pop? (q : Fifo α) : Option (α × Fifo α) :=
  match q.front with
  | a :: front => some (a, { q with front })
  | [] =>
    match q.back.reverse with
    | a :: front => some (a, { front })
    | [] => none

/-- The queue of a list, its head the oldest. -/
def ofList (l : List α) : Fifo α := { front := l }

@[simp] theorem toList_empty : ({} : Fifo α).toList = [] := rfl

@[simp] theorem toList_ofList (l : List α) : (ofList l).toList = l := by simp [toList, ofList]

@[simp] theorem length_toList (q : Fifo α) : q.toList.length = q.length := by
  simp [toList, length]

@[simp] theorem toList_push (q : Fifo α) (a : α) : (q.push a).toList = q.toList ++ [a] := by
  simp [toList, push]

@[simp] theorem toList_pushAll (q : Fifo α) (l : List α) :
    (q.pushAll l).toList = q.toList ++ l := by
  induction l generalizing q with
  | nil => simp [pushAll]
  | cons a l ih =>
    have h := ih (q.push a)
    rw [toList_push, List.append_assoc] at h
    exact h

/-- **A queue gives back its elements in order of arrival.** -/
theorem pop?_eq (q : Fifo α) :
    match q.pop? with
    | none => q.toList = []
    | some (a, rest) => q.toList = a :: rest.toList := by
  obtain ⟨front, back⟩ := q
  cases front with
  | cons a front => simp [pop?, toList]
  | nil => cases h : back.reverse <;> simp [pop?, toList, h]

theorem toList_of_pop? {q rest : Fifo α} {a : α} (h : q.pop? = some (a, rest)) :
    q.toList = a :: rest.toList := by
  have := pop?_eq q
  rwa [h] at this

theorem toList_of_pop?_none {q : Fifo α} (h : q.pop? = none) : q.toList = [] := by
  have := pop?_eq q
  rwa [h] at this

end Fifo

end Quorum
