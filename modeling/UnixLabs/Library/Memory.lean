import Mathlib.Data.List.Basic
import Mathlib.Logic.Function.Basic
import Mathlib.Tactic.Common

/-!
Memory behind a pointer, and queues kept in it.

A block is a total map from offsets to cells. `firstCells` is the contents of a
buffer that starts at the pointer; `ring` is the contents of a buffer that
starts at some offset and goes around the end of the block. The lemmas say what
a write, a drop and a move to the front do to those contents.
-/

namespace UnixLabs.Library

variable {α : Type*}

/-! ### Contents of the first cells -/

def firstCells (m : ℕ → α) (n : ℕ) : List α := (List.range n).map m

@[simp] theorem length_firstCells (m : ℕ → α) (n : ℕ) : (firstCells m n).length = n := by
  simp [firstCells]

@[simp] theorem firstCells_zero (m : ℕ → α) : firstCells m 0 = [] := rfl

@[simp] theorem getElem_firstCells (m : ℕ → α) {n i : ℕ} (h : i < (firstCells m n).length) :
    (firstCells m n)[i] = m i := by
  simp [firstCells]

theorem firstCells_eq_nil_iff {m : ℕ → α} {n : ℕ} : firstCells m n = [] ↔ n = 0 := by
  rw [← List.length_eq_zero_iff, length_firstCells]

theorem firstCells_succ (m : ℕ → α) (n : ℕ) :
    firstCells m (n + 1) = firstCells m n ++ [m n] := by
  simp [firstCells, List.range_succ]

theorem firstCells_congr {m m' : ℕ → α} {n : ℕ} (h : ∀ i < n, m i = m' i) :
    firstCells m n = firstCells m' n :=
  List.map_congr_left fun i hi => h i (List.mem_range.mp hi)

theorem firstCells_add (m : ℕ → α) (a b : ℕ) :
    firstCells m (a + b) = firstCells m a ++ firstCells (fun i => m (a + i)) b := by
  induction b with
  | zero => simp
  | succ b ih => rw [← Nat.add_assoc, firstCells_succ, ih, firstCells_succ, List.append_assoc]

theorem take_firstCells (m : ℕ → α) {k n : ℕ} (h : k ≤ n) :
    (firstCells m n).take k = firstCells m k := by
  obtain ⟨b, rfl⟩ := Nat.exists_eq_add_of_le h
  rw [firstCells_add, List.take_left' (by simp)]

theorem drop_firstCells (m : ℕ → α) {k n : ℕ} (h : k ≤ n) :
    (firstCells m n).drop k = firstCells (fun i => m (k + i)) (n - k) := by
  obtain ⟨b, rfl⟩ := Nat.exists_eq_add_of_le h
  rw [firstCells_add, List.drop_left' (by simp), Nat.add_sub_cancel_left]

theorem mapM_eq_firstCells {β : Type} {f : ℕ → Option β} {m : ℕ → β} {n : ℕ}
    (h : ∀ i < n, f i = some (m i)) : (List.range n).mapM f = some (firstCells m n) := by
  induction n with
  | zero => rfl
  | succ n ih =>
      rw [List.range_succ, List.mapM_append, ih fun i hi => h i (by omega), List.mapM_cons,
        h n (Nat.lt_succ_self n), firstCells_succ]
      rfl

/-! ### Writing -/

/-- The memory after the bytes of a list are written from offset `base` on. -/
def writeAt (m : ℕ → α) (base : ℕ) (bs : List α) : ℕ → α := fun k =>
  if h : base ≤ k ∧ k - base < bs.length then bs[k - base] else m k

theorem writeAt_of_lt (m : ℕ → α) {base k : ℕ} (bs : List α) (h : k < base) :
    writeAt m base bs k = m k := by
  rw [writeAt, dif_neg (by omega)]

theorem writeAt_add (m : ℕ → α) (base : ℕ) (bs : List α) {i : ℕ} (h : i < bs.length) :
    writeAt m base bs (base + i) = bs[i] := by
  rw [writeAt, dif_pos (by omega)]
  simp

@[simp] theorem writeAt_nil (m : ℕ → α) (base : ℕ) : writeAt m base [] = m :=
  funext fun _ => dif_neg fun h => Nat.not_lt_zero _ h.2

theorem writeAt_cons (m : ℕ → α) (base : ℕ) (b : α) (bs : List α) :
    writeAt m base (b :: bs) = writeAt (Function.update m base b) (base + 1) bs := by
  ext k
  by_cases hk : k < base + 1
  · rw [writeAt_of_lt _ bs hk]
    by_cases hbase : k = base
    · rw [hbase, Function.update_self]
      exact writeAt_add m base (b :: bs) (Nat.succ_pos _)
    · rw [Function.update_of_ne hbase, writeAt_of_lt _ _ (by omega)]
  · obtain ⟨i, rfl⟩ := Nat.exists_eq_add_of_le (Nat.le_of_not_lt hk)
    by_cases hi : i < bs.length
    · rw [writeAt_add _ _ bs hi, Nat.add_assoc, Nat.add_comm 1 i]
      exact writeAt_add m base (b :: bs) (Nat.succ_lt_succ hi)
    · rw [writeAt, dif_neg (by rw [List.length_cons]; omega), writeAt, dif_neg (by omega),
        Function.update_of_ne (by omega)]

theorem firstCells_writeAt (m : ℕ → α) (n : ℕ) (bs : List α) :
    firstCells (writeAt m n bs) (n + bs.length) = firstCells m n ++ bs := by
  rw [firstCells_add, firstCells_congr (fun i hi => writeAt_of_lt m bs hi)]
  refine congrArg _ (List.ext_getElem (by simp) fun i h₁ h₂ => ?_)
  rw [getElem_firstCells, writeAt_add m n bs h₂]

theorem firstCells_update (m : ℕ → α) (n : ℕ) (x : α) :
    firstCells (Function.update m n x) (n + 1) = firstCells m n ++ [x] := by
  rw [firstCells_succ, Function.update_self,
    firstCells_congr (fun i hi => Function.update_of_ne (by omega : i ≠ n) x m)]

/-! ### Moving cells to the front in place -/

/-- Copy the `n` cells at `offset + i`, `offset + i + 1`, ... to `i`, `i + 1`,
..., one after the other. -/
def moveDown (offset : ℕ) : ℕ → ℕ → (ℕ → α) → ℕ → α
  | 0, _, m => m
  | n + 1, i, m => moveDown offset n (i + 1) (Function.update m i (m (offset + i)))

/-- Going upwards, a cell is read before it is overwritten: source and target
may overlap. -/
theorem moveDown_apply {offset : ℕ} (hoff : 0 < offset) (n i : ℕ) (m : ℕ → α) (k : ℕ) :
    moveDown offset n i m k = if i ≤ k ∧ k < i + n then m (offset + k) else m k := by
  induction n generalizing i m with
  | zero => rw [moveDown, if_neg (by omega)]
  | succ n ih =>
      rw [moveDown, ih]
      by_cases hk : i + 1 ≤ k ∧ k < i + 1 + n
      · rw [if_pos hk, if_pos (by omega), Function.update_of_ne (by omega)]
      · rw [if_neg hk]
        by_cases hki : k = i
        · rw [hki, Function.update_self, if_pos (by omega)]
        · rw [Function.update_of_ne hki, if_neg (by omega)]

/-! ### Contents that go around the end of the block -/

/-- The `n` cells from `start` on in a block of `size` cells, read around its
end. -/
def ring (m : ℕ → α) (size start n : ℕ) : List α :=
  firstCells (fun i => m ((start + i) % size)) n

@[simp] theorem length_ring (m : ℕ → α) (size start n : ℕ) :
    (ring m size start n).length = n := length_firstCells _ _

theorem ring_eq_nil_iff {m : ℕ → α} {size start n : ℕ} : ring m size start n = [] ↔ n = 0 :=
  firstCells_eq_nil_iff

theorem ring_zero (m : ℕ → α) {size n : ℕ} (h : n ≤ size) :
    ring m size 0 n = firstCells m n :=
  firstCells_congr fun i hi => by rw [Nat.zero_add, Nat.mod_eq_of_lt (by omega)]

theorem ring_mod (m : ℕ → α) (size start n : ℕ) :
    ring m size (start % size) n = ring m size start n :=
  firstCells_congr fun i _ => by rw [Nat.mod_add_mod]

theorem drop_ring (m : ℕ → α) (size start : ℕ) {k n : ℕ} (h : k ≤ n) :
    (ring m size start n).drop k = ring m size ((start + k) % size) (n - k) := by
  rw [ring_mod]
  refine (drop_firstCells _ h).trans (firstCells_congr fun i _ => ?_)
  rw [Nat.add_assoc]

theorem take_ring (m : ℕ → α) (size start : ℕ) {k n : ℕ} (h : k ≤ n) :
    (ring m size start n).take k = ring m size start k := take_firstCells _ h

theorem add_mod_ne {size : ℕ} (start : ℕ) {i j : ℕ} (hi : i < j) (hj : j < size) :
    (start + i) % size ≠ (start + j) % size := by
  intro h
  have hdvd : size ∣ start + j - (start + i) :=
    Nat.dvd_of_mod_eq_zero (Nat.sub_mod_eq_zero_of_mod_eq h.symm)
  have := Nat.le_of_dvd (by omega) hdvd
  omega

/-- A write into the first free cell of a ring that is not full appends. -/
theorem ring_update (m : ℕ → α) {size start n : ℕ} (h : n < size) (x : α) :
    ring (Function.update m ((start + n) % size) x) size start (n + 1) =
      ring m size start n ++ [x] := by
  rw [ring, firstCells_succ, Function.update_self]
  refine congrArg (· ++ [x]) (firstCells_congr fun i hi => ?_)
  rw [Function.update_of_ne (add_mod_ne start hi h)]

/-- A block written behind the contents of a ring, and not around the end, is appended. -/
theorem ring_writeAt (m : ℕ → α) {size start n : ℕ} {bs : List α} (hn : n + bs.length ≤ size)
    (hend : (start + n) % size + bs.length ≤ size) :
    ring (writeAt m ((start + n) % size) bs) size start (n + bs.length) =
      ring m size start n ++ bs := by
  have hcell : ∀ j < bs.length, (start + (n + j)) % size = (start + n) % size + j := by
    intro j hj
    rw [← Nat.add_assoc, ← Nat.mod_add_mod, Nat.mod_eq_of_lt (by omega)]
  rw [ring, firstCells_add]
  congr 1
  · -- no cell of the contents is one of the block
    refine firstCells_congr fun i hi => dif_neg ?_
    rintro ⟨hge, hlt⟩
    obtain ⟨j, hj⟩ := Nat.exists_eq_add_of_le hge
    rw [hj, Nat.add_sub_cancel_left] at hlt
    have hsame : (start + i) % size = (start + (n + j)) % size := by rw [hj, hcell j hlt]
    exact add_mod_ne start (by omega : i < n + j) (by omega) hsame
  · refine List.ext_getElem (by simp) fun i h₁ h₂ => ?_
    rw [getElem_firstCells, hcell i h₂, writeAt_add m _ bs h₂]

end UnixLabs.Library
