import Mathlib.Logic.Function.Basic
import Mathlib.Data.Int.Order.Basic
import Mathlib.Tactic.Common

/-!
Fixed-size arrays of a language without bounds checks.

An array is a total map of which the first `n` cells are storage. Reading or
writing a cell is partial: an access outside the storage has no value, so a
program that is shown to produce a result is at the same time shown to stay
inside its arrays. Indices are integers, since a computed index may well be
negative.
-/

namespace UnixLabs.Library

/-- An array of `n` cells. What lies beyond the first `n` is not storage and is
never read by `load`. -/
structure CArray (n : ℕ) (α : Type*) where
  cells : ℕ → α

namespace CArray

variable {n : ℕ} {α : Type*}

def fill (n : ℕ) (v : α) : CArray n α := ⟨fun _ => v⟩

def load (a : CArray n α) (i : ℤ) : Option α :=
  if 0 ≤ i ∧ i < n then some (a.cells i.toNat) else none

def store (a : CArray n α) (i : ℤ) (v : α) : Option (CArray n α) :=
  if 0 ≤ i ∧ i < n then some ⟨Function.update a.cells i.toNat v⟩ else none

@[simp] theorem cells_fill (v : α) (i : ℕ) : (fill n v).cells i = v := rfl

theorem load_of_lt (a : CArray n α) {i : ℕ} (h : i < n) :
    a.load i = some (a.cells i) := by
  simp [load, h]

theorem store_of_lt (a : CArray n α) {i : ℕ} (v : α) (h : i < n) :
    a.store i v = some ⟨Function.update a.cells i v⟩ := by
  simp [store, h]

theorem exists_of_load {a : CArray n α} {i : ℤ} {v : α} (h : a.load i = some v) :
    ∃ k < n, i = (k : ℕ) ∧ a.cells k = v := by
  unfold load at h
  split_ifs at h with hi
  cases h
  exact ⟨i.toNat, by omega, by omega, rfl⟩

theorem lt_of_store {a b : CArray n α} {i : ℤ} {v : α} (h : a.store i v = some b) :
    0 ≤ i ∧ i < n := by
  unfold store at h
  split_ifs at h with hi
  exact hi

theorem cells_of_load {a : CArray n α} {i : ℕ} {v : α} (h : a.load i = some v) :
    a.cells i = v := by
  unfold load at h
  split_ifs at h
  simpa using h

theorem cells_of_store {a b : CArray n α} {i : ℕ} {v : α} (h : a.store i v = some b) :
    b.cells = Function.update a.cells i v := by
  unfold store at h
  split_ifs at h
  cases h
  simp

theorem load_store {a b : CArray n α} {i : ℤ} {v : α} (h : a.store i v = some b) (j : ℤ) :
    b.load j = if j = i then some v else a.load j := by
  unfold store at h
  split_ifs at h with hi
  cases h
  unfold load
  by_cases hj : j = i
  · subst hj
    rw [if_pos hi, if_pos rfl]
    exact congrArg some (Function.update_self _ _ _)
  · rw [if_neg hj]
    split_ifs with hin
    · exact congrArg some (Function.update_of_ne (by omega) _ _)
    · rfl

end CArray

def swapCells {α : Type*} (c : ℕ → α) (l r : ℕ) : ℕ → α :=
  Function.update (Function.update c l (c r)) r (c l)

theorem swapCells_apply {α : Type*} (c : ℕ → α) (l r k : ℕ) :
    swapCells c l r k = if k = r then c l else if k = l then c r else c k := by
  unfold swapCells
  rw [Function.update_apply, Function.update_apply]

theorem swapCells_self {α : Type*} (c : ℕ → α) (l : ℕ) : swapCells c l l = c := by
  rw [swapCells, Function.update_eq_self, Function.update_eq_self]

end UnixLabs.Library
