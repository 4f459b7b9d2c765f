import UnixLabs.Library.Run

/-!
Schedules: runs of a machine whose inputs are what happens next.

An input without a step is one that cannot happen in the state. Where every step lowers
a measure, the measure bounds each schedule.
-/

namespace UnixLabs.Library

variable {σ ι : Type*} {step : σ → ι → Option σ}

/-- Nothing can happen. -/
def Stuck (step : σ → ι → Option σ) (s : σ) : Prop := ∀ i, step s i = none

/-- What cannot happen in `I` does not happen in a run that stays there. -/
theorem not_mem_of_run {I : σ → Prop} {is : List ι} {j : ι} (hnone : ∀ s, I s → step s j = none)
    (hstep : ∀ s, ∀ i ∈ is, ∀ s', I s → step s i = some s' → I s') {s s' : σ} (hs : I s)
    (hrun : run step s is = some s') : j ∉ is := by
  induction is generalizing s with
  | nil => exact List.not_mem_nil
  | cons i is ih =>
      obtain ⟨s₁, h₁, hrest⟩ := Option.bind_eq_some_iff.mp hrun
      rw [List.mem_cons, not_or]
      constructor
      · rintro rfl
        rw [hnone s hs] at h₁
        cases h₁
      · exact ih (fun s k hk => hstep s k (List.mem_cons_of_mem i hk))
          (hstep s i List.mem_cons_self s₁ hs h₁) hrest

structure Lowers (I : σ → Prop) (step : σ → ι → Option σ) (m : σ → ℕ) : Prop where
  keeps : ∀ s i s', I s → step s i = some s' → I s'
  lt : ∀ s i s', I s → step s i = some s' → m s' < m s

namespace Lowers

variable {I : σ → Prop} {m : σ → ℕ}

theorem length_add_le (h : Lowers I step m) {s s' : σ} (hs : I s) {is : List ι}
    (hrun : run step s is = some s') : is.length + m s' ≤ m s := by
  induction is generalizing s with
  | nil =>
      cases hrun
      exact Nat.le_of_eq (Nat.zero_add _)
  | cons i is ih =>
      obtain ⟨s₁, h₁, hrest⟩ := Option.bind_eq_some_iff.mp hrun
      have hfirst := h.lt s i s₁ hs h₁
      have hlater := ih (h.keeps s i s₁ hs h₁) hrest
      rw [List.length_cons]
      omega

theorem length_le (h : Lowers I step m) {s s' : σ} (hs : I s) {is : List ι}
    (hrun : run step s is = some s') : is.length ≤ m s :=
  Nat.le_trans (Nat.le_add_right _ _) (h.length_add_le hs hrun)

end Lowers

end UnixLabs.Library
