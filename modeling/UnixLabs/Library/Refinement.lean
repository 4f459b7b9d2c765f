import UnixLabs.Library.Run

/-!
Machines that answer, and refinement between two of them.

A machine takes inputs and answers each of them. One machine refines another when
related states give the same answers and lead to related states, for every input
that may be given in the state. Then whole runs give the same answers.
-/

namespace UnixLabs.Library

variable {σ τ ι ο : Type*}

def answers (step : σ → ι → Option (ο × σ)) : σ → List ι → Option (List ο × σ)
  | s, [] => some ([], s)
  | s, i :: is => (step s i).bind fun (o, s') =>
      (answers step s' is).map fun (os, s'') => (o :: os, s'')

def silent (step : σ → ι → Option (ο × σ)) (s : σ) (i : ι) : Option σ :=
  (step s i).map Prod.snd

/-- `step` refines `spec` on the inputs that `pre` admits, up to `R`. -/
structure Refines (pre : σ → ι → Prop) (R : σ → τ → Prop) (step : σ → ι → Option (ο × σ))
    (spec : τ → ι → Option (ο × τ)) : Prop where
  step_sim : ∀ s t i, R s t → pre s i →
    ∃ o s' t', step s i = some (o, s') ∧ spec t i = some (o, t') ∧ R s' t'

/-- From related states the runs are both defined, give the same answers and end in
related states. -/
theorem Refines.answers_eq {pre : σ → ι → Prop} {R : σ → τ → Prop}
    {step : σ → ι → Option (ο × σ)} {spec : τ → ι → Option (ο × τ)}
    (h : Refines pre R step spec) {s : σ} {t : τ} (hR : R s t) {is : List ι}
    (hpre : RunMeets pre (silent step) s is) :
    ∃ os s' t', answers step s is = some (os, s') ∧ answers spec t is = some (os, t') ∧
      R s' t' := by
  induction is generalizing s t with
  | nil => exact ⟨[], s, t, rfl, rfl, hR⟩
  | cons i is ih =>
      obtain ⟨o, s₁, t₁, hstep, hspec, hR₁⟩ := h.step_sim s t i hR hpre.1
      have hsilent : silent step s i = some s₁ := by rw [silent, hstep]; rfl
      obtain ⟨os, s', t', hrun, hrun', hR'⟩ := ih hR₁ (hpre.2 s₁ hsilent)
      refine ⟨o :: os, s', t', ?_, ?_, hR'⟩
      · simp only [answers, hstep, Option.bind_some, hrun, Option.map_some]
      · simp only [answers, hspec, Option.bind_some, hrun', Option.map_some]

/-- The two machines stay related whatever the inputs are, and answer an input alike
exactly when `C` holds of it. -/
structure AgreesWhen (C : σ → ι → Prop) (R : σ → τ → Prop) (step : σ → ι → Option (ο × σ))
    (spec : τ → ι → Option (ο × τ)) : Prop where
  step_sim : ∀ s t i, R s t → ∃ o o' s' t', step s i = some (o, s') ∧ spec t i = some (o', t') ∧
    R s' t' ∧ (o = o' ↔ C s i)

/-- Then whole runs give the same answers exactly when `C` holds along the run. -/
theorem AgreesWhen.answers_iff {C : σ → ι → Prop} {R : σ → τ → Prop}
    {step : σ → ι → Option (ο × σ)} {spec : τ → ι → Option (ο × τ)}
    (h : AgreesWhen C R step spec) {s : σ} {t : τ} (hR : R s t) (is : List ι) :
    ∃ os os' s' t', answers step s is = some (os, s') ∧ answers spec t is = some (os', t') ∧
      R s' t' ∧ (os = os' ↔ RunMeets C (silent step) s is) := by
  induction is generalizing s t with
  | nil => exact ⟨[], [], s, t, rfl, rfl, hR, iff_of_true rfl trivial⟩
  | cons i is ih =>
      obtain ⟨o, o', s₁, t₁, hstep, hspec, hR₁, hiff⟩ := h.step_sim s t i hR
      have hsilent : silent step s i = some s₁ := by rw [silent, hstep]; rfl
      obtain ⟨os, os', s', t', hrun, hrun', hR', hrest⟩ := ih hR₁
      refine ⟨o :: os, o' :: os', s', t', ?_, ?_, hR', ?_⟩
      · simp only [answers, hstep, Option.bind_some, hrun, Option.map_some]
      · simp only [answers, hspec, Option.bind_some, hrun', Option.map_some]
      · rw [List.cons.injEq, hiff, hrest, runMeets_cons_some hsilent]

end UnixLabs.Library
