import Mathlib.Data.Int.Order.Basic
import Mathlib.Data.List.Basic
import Mathlib.Tactic.Common

/-!
A bounded first-in first-out queue between a reader and a writer.

The queue is a list that never grows beyond its capacity. Elements come one by one,
as a block, or as what a read delivers; they leave one by one, all at once, dropped
in numbers, or as what a write takes.
-/

namespace UnixLabs.Library

variable {α : Type*}

/-- What can be asked of the queue. A read or a write that fails is `none`. -/
inductive QueueOp (α : Type*)
  | push (x : α)
  | append (xs : List α)
  | peek
  | pop
  | popAll
  | clear
  | keep
  | drop (n : ℕ)
  | receive (input : Option (List α))
  | send (taken : Option ℕ)

inductive QueueAnswer (α : Type*)
  | done
  | accepted (room : Bool)
  | head (x : Option α)
  | all (xs : List α)
  | received (count : ℤ)
  | sent (count : ℤ) (xs : List α)

/-- A bounded queue at work. Receiving nothing counts as a failure, which is answered
with -1; a block must fit. -/
def queueStep (capacity : ℕ) (q : List α) : QueueOp α → Option (QueueAnswer α × List α)
  | .push x =>
      some (if q.length < capacity then (.accepted true, q ++ [x]) else (.accepted false, q))
  | .append xs => if q.length + xs.length ≤ capacity then some (.done, q ++ xs) else none
  | .peek => some (.head q.head?, q)
  | .pop => some (.head q.head?, q.tail)
  | .popAll => some (.all q, [])
  | .clear => some (.done, [])
  | .keep => some (.done, q)
  | .drop n => some (.done, q.drop n)
  | .receive none => some (.received (-1), q)
  | .receive (some xs) =>
      let xs := xs.take (capacity - q.length)
      some (.received (if xs.length = 0 then -1 else xs.length), q ++ xs)
  | .send none => some (.sent (-1) [], q)
  | .send (some n) => some (.sent (min n q.length : ℕ) (q.take n), q.drop n)

end UnixLabs.Library
