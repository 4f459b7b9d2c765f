import UnixLabs.Library.MarkedTable

/-!
Closing the gaps of a table with two indices.

The marks among the first cells are filled from behind: one index goes up over the
entries that are left, another one down over the marks. The loops count the marks they
have passed and stop when these are all. Programs write them over their own arrays;
here they are functions of the cells.
-/

namespace UnixLabs.Library

variable {α : Type*} [DecidableEq α] (mark : α)

/-- Down from `j` over marks, to an entry that is left or to `i`; `removed` counts the
way. -/
def skipMarks (m : ℕ → α) (i : ℕ) : ℕ → ℕ → ℕ × ℕ
  | 0, removed => (0, removed)
  | j + 1, removed =>
      if m (j + 1) = mark ∧ j + 1 > i then skipMarks m i j (removed + 1) else (j + 1, removed)

def closeGaps (toRemove : ℕ) : ℕ → ℕ → ℕ → ℕ → (ℕ → α) → ℕ → α
  | 0, _, _, _, m => m
  | fuel + 1, i, left, removed, m =>
      if i + 1 < left ∧ removed < toRemove then
        if m i = mark then
          let (j, removed) := skipMarks mark m i (left - 1) removed
          closeGaps toRemove fuel (i + 1) j (removed + 1) (swapCells m i j)
        else closeGaps toRemove fuel (i + 1) left removed m
      else m

variable {mark} {m : ℕ → α}

theorem skipMarks_spec (mark : α) (m : ℕ → α) {i j : ℕ} (hij : i ≤ j) (removed : ℕ) :
    ∃ j' removed', skipMarks mark m i j removed = (j', removed') ∧ i ≤ j' ∧ j' ≤ j ∧
      j' + removed' = j + removed ∧ (∀ k, j' < k → k ≤ j → m k = mark) ∧
      (j' = i ∨ m j' ≠ mark) := by
  induction j generalizing removed with
  | zero => exact ⟨0, removed, rfl, hij, le_rfl, rfl, fun k h₁ h₂ => by omega, .inl (by omega)⟩
  | succ j ih =>
      rw [skipMarks]
      by_cases h : m (j + 1) = mark ∧ j + 1 > i
      · obtain ⟨j', removed', hskip, hi, hle, hsum, htail, hend⟩ := ih (by omega) (removed + 1)
        refine ⟨j', removed', by rw [if_pos h, hskip], hi, by omega, by omega,
          fun k h₁ h₂ => ?_, hend⟩
        by_cases hk : k = j + 1
        · exact hk ▸ h.1
        · exact htail k h₁ (by omega)
      · refine ⟨j + 1, removed, if_neg h, hij, le_rfl, rfl, fun k h₁ h₂ => by omega, ?_⟩
        by_cases hi : j + 1 > i
        · exact .inr fun hmark => h ⟨hmark, hi⟩
        · exact .inl (by omega)

/-- Where the outer loop stands: the entries before `i` are left, those from `left` on
are marks, and `removed` counts the latter. -/
structure Compacting (mark : α) (n toRemove i left removed : ℕ) (m : ℕ → α) : Prop where
  front : ∀ k < i, m k ≠ mark
  sum : left + removed = n
  tail : ∀ k, left ≤ k → k < n → m k = mark
  count : marked mark m n = toRemove

namespace Compacting

variable {n toRemove i j left removed : ℕ}

theorem start (h : ∀ k < i, m k ≠ mark) (hcount : marked mark m n = toRemove) :
    Compacting mark n toRemove i n 0 m :=
  ⟨h, rfl, fun k hk hkn => by omega, hcount⟩

theorem tail_of_exit (h : Compacting mark n toRemove i left removed m)
    (hexit : ¬(i + 1 < left ∧ removed < toRemove)) :
    ∀ k, n - toRemove ≤ k → k < n → m k = mark := by
  have hsum := h.sum
  have hcount := marked_of_tail (by omega : left ≤ n) h.tail
  rw [h.count] at hcount
  by_cases hall : removed < toRemove
  · -- then the last entry not yet passed is the only mark among the first
    obtain ⟨r, rfl⟩ : ∃ r, left = r + 1 := by
      refine ⟨left - 1, ?_⟩
      rcases Nat.eq_zero_or_pos left with rfl | hpos
      · rw [marked_eq_zero_iff.mpr fun k hk => absurd hk (Nat.not_lt_zero k)] at hcount
        omega
      · omega
    have hnone : marked mark m r = 0 := marked_eq_zero_iff.mpr fun k hk => h.front k (by omega)
    rw [marked_succ, hnone] at hcount
    split_ifs at hcount with hmark
    · intro k hk hkn
      by_cases hkr : k = r
      · exact hkr ▸ hmark
      · exact h.tail k (by omega) hkn
    · omega
  · exact fun k hk hkn => h.tail k (by omega) hkn

theorem pass (h : Compacting mark n toRemove i left removed m) (hleft : m i ≠ mark) :
    Compacting mark n toRemove (i + 1) left removed m :=
  { h with
    front := fun k hk => by
      by_cases hki : k = i
      · exact hki ▸ hleft
      · exact h.front k (by omega) }

theorem skip (h : Compacting mark n toRemove i (left + 1) removed m) {removed' : ℕ}
    (hsum : j + removed' = left + removed)
    (htail : ∀ k, j < k → k ≤ left → m k = mark) :
    Compacting mark n toRemove i (j + 1) removed' m where
  front := h.front
  sum := by have := h.sum; omega
  tail := by
    intro k hk hkn
    by_cases hkj : k ≤ left
    · exact htail k (by omega) hkj
    · exact h.tail k (by omega) hkn
  count := h.count

/-- Filling the mark at `i` with the entry at `j`, behind which there are only marks. -/
theorem fill (h : Compacting mark n toRemove i (j + 1) removed m) (hmark : m i = mark)
    (hij : i < j) (hleft : m j ≠ mark) :
    Compacting mark n toRemove (i + 1) j (removed + 1) (swapCells m i j) where
  front := by
    intro k hk
    rw [swapCells_apply, if_neg (by omega)]
    split_ifs
    · exact hleft
    · exact h.front k (by omega)
  sum := by have := h.sum; omega
  tail := by
    intro k hk hkn
    rw [swapCells_apply]
    split_ifs
    · exact hmark
    · omega
    · exact h.tail k (by omega) hkn
  count := by
    have := h.sum
    rw [marked_swapCells (by omega) (by omega), h.count]

/-- Closing the gaps exchanges entries, until the marks fill the last cells. -/
theorem closeGaps_spec {fuel : ℕ} (h : Compacting mark n toRemove i left removed m)
    (hfuel : n < fuel + i) (hpos : 0 < fuel) :
    (firstCells (closeGaps mark toRemove fuel i left removed m) n).Perm (firstCells m n) ∧
      ∀ k, n - toRemove ≤ k → k < n → closeGaps mark toRemove fuel i left removed m k = mark := by
  induction fuel generalizing i left removed m with
  | zero => omega
  | succ fuel ih =>
      have hsum := h.sum
      rw [closeGaps]
      by_cases hloop : i + 1 < left ∧ removed < toRemove
      · rw [if_pos hloop]
        obtain ⟨r, rfl⟩ : ∃ r, left = r + 1 := ⟨left - 1, by omega⟩
        by_cases hmark : m i = mark
        · obtain ⟨j, removed', hskip, hij, hle, hsum', htail, hend⟩ :=
            skipMarks_spec mark m (by omega : i ≤ r) removed
          rw [if_pos hmark, Nat.add_sub_cancel, hskip]
          have hskipped := h.skip hsum' htail
          have hperm : (firstCells (swapCells m i j) n).Perm (firstCells m n) :=
            firstCells_swapCells (by omega) (by omega)
          by_cases hji : j = i
          · -- only marks are left from `i` on, so all of them are counted now
            subst hji
            have htails : ∀ k, j ≤ k → k < n → m k = mark := by
              intro k hk hkn
              by_cases hkj : k = j
              · exact hkj ▸ hmark
              · exact hskipped.tail k (by omega) hkn
            have hcount := marked_of_tail (by omega : j ≤ n) htails
            rw [h.count, marked_eq_zero_iff.mpr h.front] at hcount
            obtain ⟨fuel, rfl⟩ : ∃ f, fuel = f + 1 := ⟨fuel - 1, by omega⟩
            simp only [closeGaps]
            rw [if_neg (by omega)]
            refine ⟨hperm, fun k hk hkn => ?_⟩
            rw [swapCells_apply]
            split_ifs
            · exact hmark
            · exact htails k (by omega) hkn
          · have hfill := hskipped.fill hmark (by omega) (hend.resolve_left hji)
            obtain ⟨hrest, hmarks⟩ := ih hfill (by omega) (by omega)
            exact ⟨hrest.trans hperm, hmarks⟩
        · rw [if_neg hmark]
          exact ih (h.pass hmark) (by omega) (by omega)
      · rw [if_neg hloop]
        exact ⟨List.Perm.refl _, h.tail_of_exit hloop⟩

end Compacting

theorem firstCells_closeGaps {n toRemove fuel i left removed : ℕ} (hn : left ≤ n) :
    (firstCells (closeGaps mark toRemove fuel i left removed m) n).Perm (firstCells m n) := by
  induction fuel generalizing i left removed m with
  | zero => exact List.Perm.refl _
  | succ fuel ih =>
      rw [closeGaps]
      split_ifs with hloop hmark
      · obtain ⟨j, removed', hskip, hij, hle, -⟩ :=
          skipMarks_spec mark m (by omega : i ≤ left - 1) removed
        simp only [hskip]
        exact (ih (by omega)).trans (firstCells_swapCells (by omega) (by omega))
      · exact ih hn
      · exact List.Perm.refl _

theorem closeGaps_front {toRemove fuel i left removed : ℕ} {k : ℕ} (hk : k < i) :
    closeGaps mark toRemove fuel i left removed m k = m k := by
  induction fuel generalizing i left removed m with
  | zero => rfl
  | succ fuel ih =>
      rw [closeGaps]
      split_ifs with hloop hmark
      · obtain ⟨j, removed', hskip, hij, -⟩ :=
          skipMarks_spec mark m (by omega : i ≤ left - 1) removed
        simp only [hskip]
        rw [ih (by omega), swapCells_apply, if_neg (by omega), if_neg (by omega)]
      · exact ih (by omega)
      · rfl

/-- Let there be no mark before the first index other than at 0. Then the marks fill the
last cells exactly when there is none there either, or nothing else is left. -/
theorem closeGaps_tail_iff {n toRemove first : ℕ} (hcount : marked mark m n = toRemove)
    (hmarks : ∀ k < first, m k = mark → k = 0) :
    (∀ k, n - toRemove ≤ k → k < n →
        closeGaps mark toRemove (n + 1) first n 0 m k = mark) ↔
      first = 0 ∨ m 0 ≠ mark ∨ toRemove = n := by
  have hperm : (firstCells (closeGaps mark toRemove (n + 1) first n 0 m) n).Perm
      (firstCells m n) := firstCells_closeGaps le_rfl
  have hmarked : marked mark (closeGaps mark toRemove (n + 1) first n 0 m) n = toRemove :=
    (hperm.count_eq mark).trans hcount
  constructor
  · intro htail
    by_contra hnot
    obtain ⟨hpos, hzero, hsome⟩ : first ≠ 0 ∧ m 0 = mark ∧ toRemove ≠ n := by
      simpa only [not_or, ne_eq, not_not] using hnot
    have hle : (live mark m n).length + marked mark m n = n := length_live
    -- the mark at 0 is where an entry should be
    obtain ⟨-, hleft⟩ := live_of_marked_tail (by omega) htail
    refine hleft 0 (by omega) ?_
    rw [closeGaps_front (Nat.pos_of_ne_zero hpos), hzero]
  · rintro (hzero | hzero | hall)
    · subst hzero
      have hstart := Compacting.start (fun k hk => absurd hk k.not_lt_zero) hcount
      exact (hstart.closeGaps_spec (Nat.lt_succ_self n) (Nat.succ_pos n)).2
    · have hfront : ∀ k < first, m k ≠ mark := by
        intro k hk hmark
        rw [hmarks k hk hmark] at hmark
        exact hzero hmark
      have hstart := Compacting.start hfront hcount
      exact (hstart.closeGaps_spec (Nat.lt_add_right _ (Nat.lt_succ_self n)) (Nat.succ_pos n)).2
    · exact fun k _ hk => eq_mark_of_marked_eq (hmarked.trans hall) hk

end UnixLabs.Library
