import UnixLabs.Library.Run
import Mathlib.Logic.Function.Basic

/-!
Logs in which keys are opened, used and closed.

A log is bracketed if, for each key, openings and closings alternate, beginning
with an opening, and every use is between an opening and its closing. For one key
this is a partial automaton; `Leaves` says that no automaton gets stuck and which
keys the log leaves open.
-/

namespace UnixLabs.Library

inductive KeyEvent (κ : Type*)
  | opens (k : κ)
  | uses (k : κ)
  | closes (k : κ)

variable {κ : Type*} [DecidableEq κ]

def keyStep (k : κ) (opened : Bool) : KeyEvent κ → Option Bool
  | .opens j => if j ≠ k then some opened else if opened then none else some true
  | .uses j => if j ≠ k ∨ opened then some opened else none
  | .closes j => if j ≠ k then some opened else if opened then some false else none

def Bracketed (log : List (KeyEvent κ)) : Prop := ∀ k, (run (keyStep k) false log).isSome

def Leaves (log : List (KeyEvent κ)) (opened : κ → Bool) : Prop :=
  ∀ k, run (keyStep k) false log = some (opened k)

namespace Leaves

variable {log : List (KeyEvent κ)} {opened : κ → Bool}

theorem bracketed (h : Leaves log opened) : Bracketed log := fun k => by rw [h k]; rfl

theorem nil : Leaves ([] : List (KeyEvent κ)) fun _ => false := fun _ => rfl

theorem append (h : Leaves log opened) {e : KeyEvent κ} {opened' : κ → Bool}
    (hstep : ∀ k, keyStep k (opened k) e = some (opened' k)) : Leaves (log ++ [e]) opened' := by
  intro k
  rw [run_append, h k, Option.bind_some, run_cons, hstep k]
  rfl

theorem opens (h : Leaves log opened) {k : κ} (hk : opened k = false) :
    Leaves (log ++ [.opens k]) (Function.update opened k true) := by
  refine h.append fun j => ?_
  by_cases hj : k = j
  · subst hj
    simp [keyStep, hk]
  · simp [keyStep, hj, Function.update_of_ne (Ne.symm hj)]

theorem uses (h : Leaves log opened) {k : κ} (hk : opened k = true) :
    Leaves (log ++ [.uses k]) opened := by
  refine h.append fun j => ?_
  by_cases hj : k = j
  · subst hj
    simp [keyStep, hk]
  · simp [keyStep, hj]

theorem closes (h : Leaves log opened) {k : κ} (hk : opened k = true) :
    Leaves (log ++ [.closes k]) (Function.update opened k false) := by
  refine h.append fun j => ?_
  by_cases hj : k = j
  · subst hj
    simp [keyStep, hk]
  · simp [keyStep, hj, Function.update_of_ne (Ne.symm hj)]

end Leaves

end UnixLabs.Library
