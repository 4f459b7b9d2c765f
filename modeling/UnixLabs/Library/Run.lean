import Mathlib.Tactic.Common

/-!
Runs of a partial transition function.

A machine is a state type, an input type and a partial step; a run feeds it a
list of inputs. The rules below are the only inductions over runs that a
development needs: steps that are defined and keep an invariant make runs that do,
and the same when the steps are only known to do so under a condition on the state
before the step and its input.
-/

namespace UnixLabs.Library

variable {σ ι : Type*}

def run (step : σ → ι → Option σ) : σ → List ι → Option σ
  | s, [] => some s
  | s, i :: is => (step s i).bind fun s' => run step s' is

@[simp] theorem run_nil (step : σ → ι → Option σ) (s : σ) : run step s [] = some s := rfl

theorem run_cons (step : σ → ι → Option σ) (s : σ) (i : ι) (is : List ι) :
    run step s (i :: is) = (step s i).bind fun s' => run step s' is := rfl

theorem run_append (step : σ → ι → Option σ) (s : σ) (is js : List ι) :
    run step s (is ++ js) = (run step s is).bind fun s' => run step s' js := by
  induction is generalizing s with
  | nil => rfl
  | cons i is ih =>
      rw [List.cons_append, run_cons, run_cons, Option.bind_assoc]
      exact congrArg (step s i).bind (funext fun s' => ih s')

theorem run_congr {f g : σ → ι → Option σ} {is : List ι} (h : ∀ i ∈ is, ∀ s, f s i = g s i)
    (s : σ) : run f s is = run g s is := by
  induction is generalizing s with
  | nil => rfl
  | cons i is ih =>
      rw [run_cons, run_cons, h i List.mem_cons_self s]
      have hrest : ∀ s', run f s' is = run g s' is := ih fun j hj => h j (List.mem_cons_of_mem i hj)
      exact congrArg (g s i).bind (funext hrest)

theorem run_of_fixed {step : σ → ι → Option σ} {s : σ} {is : List ι}
    (h : ∀ i ∈ is, step s i = some s) : run step s is = some s := by
  induction is with
  | nil => rfl
  | cons i is ih =>
      rw [run_cons, h i List.mem_cons_self, Option.bind_some]
      exact ih fun j hj => h j (List.mem_cons_of_mem i hj)

/-- Every step of the run meets `C`, a condition on the state before the step
and the input of the step. -/
def RunMeets (C : σ → ι → Prop) (step : σ → ι → Option σ) : σ → List ι → Prop
  | _, [] => True
  | s, i :: is => C s i ∧ ∀ s', step s i = some s' → RunMeets C step s' is

/-- The run is defined to its end and all its states, the first and the last
included, satisfy `P`. -/
def RunKeeps (P : σ → Prop) (step : σ → ι → Option σ) : σ → List ι → Prop
  | s, [] => P s
  | s, i :: is => P s ∧ ∃ s', step s i = some s' ∧ RunKeeps P step s' is

theorem runMeets_cons_none {C : σ → ι → Prop} {step : σ → ι → Option σ} {s : σ} {i : ι}
    {is : List ι} (h : step s i = none) : RunMeets C step s (i :: is) ↔ C s i := by
  simp [RunMeets, h]

theorem runMeets_cons_some {C : σ → ι → Prop} {step : σ → ι → Option σ} {s s' : σ} {i : ι}
    {is : List ι} (h : step s i = some s') :
    RunMeets C step s (i :: is) ↔ C s i ∧ RunMeets C step s' is := by
  simp [RunMeets, h]

instance decidableRunMeets {C : σ → ι → Prop} [∀ s i, Decidable (C s i)]
    {step : σ → ι → Option σ} : ∀ s is, Decidable (RunMeets C step s is)
  | _, [] => isTrue trivial
  | s, i :: is =>
      match h : step s i with
      | none => decidable_of_iff' (C s i) (runMeets_cons_none h)
      | some s' =>
          have : Decidable (RunMeets C step s' is) := decidableRunMeets s' is
          decidable_of_iff' (C s i ∧ RunMeets C step s' is) (runMeets_cons_some h)

theorem RunKeeps.first {P : σ → Prop} {step : σ → ι → Option σ} {s : σ} {is : List ι}
    (h : RunKeeps P step s is) : P s := by
  cases is with
  | nil => exact h
  | cons i is => exact h.1

theorem RunKeeps.last {P : σ → Prop} {step : σ → ι → Option σ} {s : σ} {is : List ι}
    (h : RunKeeps P step s is) : ∃ s', run step s is = some s' ∧ P s' := by
  induction is generalizing s with
  | nil => exact ⟨s, rfl, h⟩
  | cons i is ih =>
      obtain ⟨-, s₁, h₁, hrest⟩ := h
      obtain ⟨s', h', hP⟩ := ih hrest
      exact ⟨s', by rw [run_cons, h₁]; exact h', hP⟩

/-- A run whose steps are all defined, and keep an invariant, is defined and
ends inside the invariant. Only the inputs of the run matter. -/
theorem run_total_of_mem {step : σ → ι → Option σ} {I : σ → Prop} {is : List ι}
    (hstep : ∀ s, ∀ i ∈ is, I s → ∃ s', step s i = some s' ∧ I s') {s : σ} (hs : I s) :
    ∃ s', run step s is = some s' ∧ I s' := by
  induction is generalizing s with
  | nil => exact ⟨s, rfl, hs⟩
  | cons i is ih =>
      obtain ⟨s₁, h₁, hI⟩ := hstep s i List.mem_cons_self hs
      obtain ⟨s', h', hI'⟩ := ih (fun s j hj => hstep s j (List.mem_cons_of_mem _ hj)) hI
      exact ⟨s', by rw [run_cons, h₁]; exact h', hI'⟩

theorem run_total {step : σ → ι → Option σ} {I : σ → Prop}
    (hstep : ∀ s i, I s → ∃ s', step s i = some s' ∧ I s') {s : σ} (hs : I s)
    (is : List ι) : ∃ s', run step s is = some s' ∧ I s' :=
  run_total_of_mem (fun s i _ => hstep s i) hs

theorem run_invariant {step : σ → ι → Option σ} {I : σ → Prop}
    (hstep : ∀ s i s', I s → step s i = some s' → I s') {s s' : σ} (hs : I s) {is : List ι}
    (hrun : run step s is = some s') : I s' := by
  induction is generalizing s with
  | nil =>
      cases hrun
      exact hs
  | cons i is ih =>
      obtain ⟨s₁, h₁, hrest⟩ := Option.bind_eq_some_iff.mp hrun
      exact ih (hstep s i s₁ hs h₁) hrest

theorem run_invariant_of_mem {step : σ → ι → Option σ} {I : σ → Prop} {is : List ι}
    (hstep : ∀ s, ∀ i ∈ is, ∀ s', I s → step s i = some s' → I s') {s s' : σ} (hs : I s)
    (hrun : run step s is = some s') : I s' := by
  induction is generalizing s with
  | nil =>
      cases hrun
      exact hs
  | cons i is ih =>
      obtain ⟨s₁, h₁, hrest⟩ := Option.bind_eq_some_iff.mp hrun
      have hfirst := hstep s i List.mem_cons_self s₁ hs h₁
      exact ih (fun s j hj => hstep s j (List.mem_cons_of_mem i hj)) hfirst hrest

/-- A run whose steps meet `C` has `P` in all its states, when `I` implies `P` and
every step that meets `C` is defined and keeps `I`. -/
theorem runKeeps_of_meets {step : σ → ι → Option σ} {C : σ → ι → Prop} {I P : σ → Prop}
    (hP : ∀ s, I s → P s) (hstep : ∀ s i, I s → C s i → ∃ s', step s i = some s' ∧ I s')
    {s : σ} (hs : I s) {is : List ι} (hC : RunMeets C step s is) : RunKeeps P step s is := by
  induction is generalizing s with
  | nil => exact hP s hs
  | cons i is ih =>
      obtain ⟨s₁, h₁, hI⟩ := hstep s i hs hC.1
      exact ⟨hP s hs, s₁, h₁, ih hI (hC.2 s₁ h₁)⟩

/-- The same where steps need not be defined: a run whose steps meet `C` has steps
that meet `P`, as far as it goes. -/
theorem runMeets_of_meets {step : σ → ι → Option σ} {C P : σ → ι → Prop} {I : σ → Prop}
    (hP : ∀ s i, I s → P s i) (hstep : ∀ s i s', I s → C s i → step s i = some s' → I s')
    {s : σ} (hs : I s) {is : List ι} (hC : RunMeets C step s is) : RunMeets P step s is := by
  induction is generalizing s with
  | nil => trivial
  | cons i is ih =>
      exact ⟨hP s i hs, fun s' h' => ih (hstep s i s' hs hC.1 h') (hC.2 s' h')⟩

/-- Let `P` and `C` be the same inside `I`, and let the steps that meet them keep `I`.
Then they are met along the same runs. -/
theorem runMeets_iff_of_steps {step : σ → ι → Option σ} {C P : σ → ι → Prop} {I : σ → Prop}
    (hiff : ∀ s i, I s → (P s i ↔ C s i))
    (hstep : ∀ s i s', I s → C s i → step s i = some s' → I s')
    {s : σ} (hs : I s) (is : List ι) : RunMeets P step s is ↔ RunMeets C step s is := by
  induction is generalizing s with
  | nil => exact Iff.rfl
  | cons i is ih =>
      simp only [RunMeets, hiff s i hs]
      refine and_congr_right fun hC => forall₂_congr fun s' h' => ?_
      exact ih (hstep s i s' hs hC h')

/-- What the steps that meet `C` keep, a run that meets `C` keeps, as far as it is
defined. -/
theorem RunMeets.invariant {C : σ → ι → Prop} {step : σ → ι → Option σ} {I : σ → Prop} {s s' : σ}
    {is : List ι} (h : RunMeets C step s is)
    (hstep : ∀ s i s', I s → C s i → step s i = some s' → I s') (hs : I s)
    (hrun : run step s is = some s') : I s' := by
  induction is generalizing s with
  | nil =>
      cases hrun
      exact hs
  | cons i is ih =>
      obtain ⟨s₁, h₁, hrest⟩ := Option.bind_eq_some_iff.mp hrun
      exact ih (h.2 s₁ h₁) (hstep s i s₁ hs h.1 h₁) hrest

theorem RunMeets.snoc {C : σ → ι → Prop} {step : σ → ι → Option σ} {s s' : σ} {is : List ι} {i : ι}
    (h : RunMeets C step s is) (hrun : run step s is = some s') (hi : C s' i) :
    RunMeets C step s (is ++ [i]) := by
  induction is generalizing s with
  | nil =>
      cases hrun
      exact ⟨hi, fun _ _ => trivial⟩
  | cons j js ih =>
      obtain ⟨s₁, h₁, hrest⟩ := Option.bind_eq_some_iff.mp hrun
      rw [List.cons_append, runMeets_cons_some h₁]
      exact ⟨h.1, ih (h.2 s₁ h₁) hrest⟩

theorem RunMeets.after {C : σ → ι → Prop} {step : σ → ι → Option σ} {s s' : σ} {is : List ι}
    {i : ι} (h : RunMeets C step s (is ++ [i])) (hrun : run step s is = some s') : C s' i := by
  induction is generalizing s with
  | nil =>
      cases hrun
      exact h.1
  | cons j js ih =>
      obtain ⟨s₁, h₁, hrest⟩ := Option.bind_eq_some_iff.mp hrun
      exact ih (h.2 s₁ h₁) hrest

/-- Let every step that meets `C`, and no other, keep `Q`. Then a run that starts in `Q`
ends in `Q` exactly when its steps meet `C`. -/
theorem runMeets_iff_last {step : σ → ι → Option σ} {C : σ → ι → Prop} {Q : σ → Prop}
    (hstep : ∀ s i s', step s i = some s' → (Q s' ↔ Q s ∧ C s i)) {s s' : σ} {is : List ι}
    (hrun : run step s is = some s') : Q s' ↔ Q s ∧ RunMeets C step s is := by
  induction is generalizing s with
  | nil =>
      cases hrun
      exact (and_iff_left trivial).symm
  | cons i is ih =>
      obtain ⟨s₁, h₁, hrest⟩ := Option.bind_eq_some_iff.mp hrun
      rw [ih hrest, hstep s i s₁ h₁, runMeets_cons_some h₁, and_assoc]

/-- A condition on the inputs alone is met along every run over such inputs. -/
theorem runMeets_of_forall {step : σ → ι → Option σ} {C : ι → Prop} {s : σ} {is : List ι}
    (h : ∀ i ∈ is, C i) : RunMeets (fun _ i => C i) step s is := by
  induction is generalizing s with
  | nil => trivial
  | cons i is ih =>
      exact ⟨h i List.mem_cons_self, fun s' _ => ih fun j hj => h j (List.mem_cons_of_mem i hj)⟩

/-- Let `I` imply `P` and be kept by the steps that meet `C`, and let the other steps
end outside `P` or nowhere. Then a run that starts in `I` has `P` in all its states
exactly when all its steps meet `C`. -/
theorem runKeeps_iff_of_steps {step : σ → ι → Option σ} {C : σ → ι → Prop} {I P : σ → Prop}
    (hP : ∀ s, I s → P s) (hgood : ∀ s i, I s → C s i → ∃ s', step s i = some s' ∧ I s')
    (hbad : ∀ s i s', I s → ¬C s i → step s i = some s' → ¬P s')
    {s : σ} (hs : I s) (is : List ι) :
    RunKeeps P step s is ↔ RunMeets C step s is := by
  refine ⟨fun hkeep => ?_, runKeeps_of_meets hP hgood hs⟩
  induction is generalizing s with
  | nil => trivial
  | cons i is ih =>
      obtain ⟨-, s₁, h₁, hkeep⟩ := hkeep
      have hC : C s i := by
        by_contra hC
        exact hbad s i s₁ hs hC h₁ hkeep.first
      obtain ⟨s', h', hI⟩ := hgood s i hs hC
      rw [h₁] at h'
      cases h'
      refine ⟨hC, fun s' h' => ?_⟩
      rw [h₁] at h'
      cases h'
      exact ih hI hkeep

theorem runKeeps_iff_runMeets {step : σ → ι → Option σ} {C : σ → ι → Prop} {I P : σ → Prop}
    (hP : ∀ s, I s → P s)
    (hgood : ∀ s i s', I s → C s i → step s i = some s' → I s')
    (hbad : ∀ s i s', I s → ¬C s i → step s i = some s' → ¬P s')
    (hdef : ∀ s i, I s → ∃ s', step s i = some s')
    {s : σ} (hs : I s) (is : List ι) :
    RunKeeps P step s is ↔ RunMeets C step s is := by
  refine runKeeps_iff_of_steps hP (fun s i hI hC => ?_) hbad hs is
  obtain ⟨s', h'⟩ := hdef s i hI
  exact ⟨s', h', hgood s i s' hI hC h'⟩

end UnixLabs.Library
