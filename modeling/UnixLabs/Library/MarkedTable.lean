import UnixLabs.Library.CArray
import UnixLabs.Library.Memory
import UnixLabs.Library.SlotTable

/-!
Tables in which entries are removed by overwriting them with a mark.

`live` lists the entries that are left, `marked` counts the marks. The lemmas say
what marking an entry, adding one at the end and exchanging two do to them, and
when the entries that are left are those of the first cells.
-/

namespace UnixLabs.Library

variable {α : Type*} {m : ℕ → α} {n : ℕ}

/-! ### The entries of the first cells -/

theorem mem_firstCells {x : α} : x ∈ firstCells m n ↔ ∃ i < n, m i = x := by
  simp [firstCells]

theorem firstCells_update_of_lt {i : ℕ} (hi : i < n) (x : α) :
    (m i :: firstCells (Function.update m i x) n).Perm (x :: firstCells m n) := by
  have hset : firstCells (Function.update m i x) n = (firstCells m n).set i x := by
    refine List.ext_getElem (by simp) fun k h₁ h₂ => ?_
    rw [getElem_firstCells, List.getElem_set, getElem_firstCells, Function.update_apply]
    simp only [eq_comm]
  have hperm := set_perm (firstCells m n) x (p := i) (by rwa [length_firstCells])
  rwa [getElem_firstCells, ← hset] at hperm

theorem firstCells_swapCells {i j : ℕ} (hi : i < n) (hj : j < n) :
    (firstCells (swapCells m i j) n).Perm (firstCells m n) := by
  -- first the entry of `j` into `i`, then the old entry of `i` into `j`
  have h₁ := firstCells_update_of_lt (m := m) hi (m j)
  have h₂ := firstCells_update_of_lt (m := Function.update m i (m j)) hj (m i)
  have hj' : Function.update m i (m j) j = m j := by
    rw [Function.update_apply]
    split_ifs <;> rfl
  rw [hj'] at h₂
  exact (h₂.trans h₁).cons_inv

variable [DecidableEq α] {mark : α}

/-! ### What is left of them -/

/-- The entries among the first `n` cells that are not marks, in order. -/
def live (mark : α) (m : ℕ → α) (n : ℕ) : List α := (firstCells m n).filter (· ≠ mark)

def marked (mark : α) (m : ℕ → α) (n : ℕ) : ℕ := (firstCells m n).count mark

theorem mem_live {x : α} : x ∈ live mark m n ↔ x ∈ firstCells m n ∧ x ≠ mark := by
  simp [live]

theorem length_live : (live mark m n).length + marked mark m n = n := by
  have h := List.length_eq_countP_add_countP (· = mark) (l := firstCells m n)
  rw [length_firstCells] at h
  have hmarked : marked mark m n = List.countP (fun x => decide (x = mark)) (firstCells m n) :=
    List.countP_congr fun x _ => by simp
  have hlive : (live mark m n).length =
      List.countP (fun x => decide ¬(x = mark)) (firstCells m n) := by
    rw [live, ← List.countP_eq_length_filter]
  rw [hmarked, hlive]
  simpa [Nat.add_comm] using h.symm

theorem live_eq_firstCells (h : ∀ i < n, m i ≠ mark) : live mark m n = firstCells m n := by
  rw [live, List.filter_eq_self]
  intro x hx
  obtain ⟨i, hi, rfl⟩ := mem_firstCells.mp hx
  simpa using h i hi

theorem marked_eq_zero_iff : marked mark m n = 0 ↔ ∀ i < n, m i ≠ mark := by
  rw [marked, List.count_eq_zero, mem_firstCells]
  push Not
  rfl

/-! ### Adding and marking -/

theorem live_push {x : α} (hx : x ≠ mark) :
    live mark (Function.update m n x) (n + 1) = live mark m n ++ [x] := by
  rw [live, firstCells_update, List.filter_append]
  simp [live, hx]

theorem marked_push {x : α} (hx : x ≠ mark) :
    marked mark (Function.update m n x) (n + 1) = marked mark m n := by
  rw [marked, firstCells_update, List.count_append]
  have hnot : mark ∉ [x] := by simpa using hx.symm
  rw [List.count_eq_zero_of_not_mem hnot, Nat.add_zero, marked]

theorem live_mark {i : ℕ} (hi : i < n) (hne : m i ≠ mark) :
    (m i :: live mark (Function.update m i mark) n).Perm (live mark m n) := by
  have h := (firstCells_update_of_lt (m := m) hi mark).filter (· ≠ mark)
  simpa [live, hne] using h

theorem marked_mark {i : ℕ} (hi : i < n) (hne : m i ≠ mark) :
    marked mark (Function.update m i mark) n = marked mark m n + 1 := by
  have h := (firstCells_update_of_lt (m := m) hi mark).count_eq mark
  simpa [hne, marked] using h

theorem live_unset {i : ℕ} (hi : i < n) :
    ((if m i = mark then [] else [m i]) ++ live mark (Function.update m i mark) n).Perm
      (live mark m n) := by
  split_ifs with hmark
  · have hsame : Function.update m i mark = m := by rw [← hmark, Function.update_eq_self]
    rw [hsame]
    exact List.Perm.refl _
  · exact live_mark hi hmark

theorem live_succ_mark (hmark : m n = mark) : live mark m (n + 1) = live mark m n := by
  rw [live, firstCells_succ, List.filter_append, live]
  simp [hmark]

theorem firstCells_perm :
    (firstCells m n).Perm (live mark m n ++ List.replicate (marked mark m n) mark) := by
  have hmarks : List.replicate (marked mark m n) mark =
      (firstCells m n).filter fun x => !decide (x ≠ mark) := by
    rw [marked, ← List.filter_beq]
    apply List.filter_congr
    intro x _
    rw [decide_not, Bool.not_not]
    rfl
  rw [hmarks, live]
  exact (List.filter_append_perm _ _).symm

/-! ### More cells -/

theorem length_live_le {k : ℕ} (h : k ≤ n) :
    (live mark m k).length ≤ (live mark m n).length := by
  obtain ⟨r, rfl⟩ := Nat.exists_eq_add_of_le h
  rw [live, live, firstCells_add, List.filter_append, List.length_append]
  exact Nat.le_add_right _ _

theorem marked_le {k : ℕ} (h : k ≤ n) : marked mark m k ≤ marked mark m n := by
  obtain ⟨r, rfl⟩ := Nat.exists_eq_add_of_le h
  rw [marked, marked, firstCells_add, List.count_append]
  exact Nat.le_add_right _ _

theorem eq_mark_of_marked_eq (h : marked mark m n = n) {k : ℕ} (hk : k < n) : m k = mark := by
  have hmem : m k ∈ firstCells m n := mem_firstCells.mpr ⟨k, hk, rfl⟩
  refine (List.count_eq_length.mp ?_ _ hmem).symm
  rw [length_firstCells]
  exact h

/-! ### Exchanging -/

theorem live_swapCells {i j : ℕ} (hi : i < n) (hj : j < n) :
    (live mark (swapCells m i j) n).Perm (live mark m n) :=
  (firstCells_swapCells hi hj).filter _

theorem marked_swapCells {i j : ℕ} (hi : i < n) (hj : j < n) :
    marked mark (swapCells m i j) n = marked mark m n :=
  (firstCells_swapCells hi hj).count_eq mark

/-! ### All marks at the end -/

theorem marked_succ : marked mark m (n + 1) = marked mark m n + if m n = mark then 1 else 0 := by
  rw [marked, firstCells_succ, List.count_append, List.count_singleton, marked]
  simp only [beq_iff_eq]

theorem marked_of_tail {k : ℕ} (hk : k ≤ n) (htail : ∀ i, k ≤ i → i < n → m i = mark) :
    marked mark m n = marked mark m k + (n - k) := by
  induction n, hk using Nat.le_induction with
  | base => rw [Nat.sub_self, Nat.add_zero]
  | succ n hle ih =>
      rw [marked_succ, ih fun i hi hlt => htail i hi (by omega), if_pos (htail n hle (by omega))]
      omega

/-- When the last cells are marks, and as many as there are marks at all, the
entries that are left are those of the first cells. -/
theorem live_of_marked_tail {k : ℕ} (hk : k + marked mark m n = n)
    (htail : ∀ i, k ≤ i → i < n → m i = mark) :
    live mark m n = firstCells m k ∧ ∀ i < k, m i ≠ mark := by
  have hnone : ∀ i < k, m i ≠ mark := by
    have hcount := marked_of_tail (by omega : k ≤ n) htail
    exact marked_eq_zero_iff.mp (by omega)
  refine ⟨?_, hnone⟩
  obtain ⟨r, hr⟩ : ∃ r, n = k + r := ⟨_, hk.symm⟩
  rw [← live_eq_firstCells hnone, live, hr, firstCells_add, List.filter_append, live]
  refine (congrArg _ (List.filter_eq_nil_iff.mpr fun x hx => ?_)).trans (List.append_nil _)
  obtain ⟨i, hi, rfl⟩ := mem_firstCells.mp hx
  simpa using htail (k + i) (Nat.le_add_right k i) (by omega)

end UnixLabs.Library
