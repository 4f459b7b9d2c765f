import Mathlib.Data.List.Infix
import Mathlib.Logic.Function.Basic
import Mathlib.Tactic.Common

/-!
Queues that are opened and closed under keys.

What a relay does with its clients: a session is opened under a key, bytes are
received into its backlog, bytes are consumed from the front of it, and a session
without backlog is closed, after which the key can be used again. The histories
of a key are those of its latest session. Whatever happens, what was received is
what was consumed followed by the backlog.
-/

namespace UnixLabs.Library

variable {κ α : Type*}

inductive SessionEvent (κ α : Type*)
  | opened (k : κ)
  | received (k : κ) (xs : List α)
  | consumed (k : κ) (xs : List α)
  | closed (k : κ)

abbrev Backlogs (κ α : Type*) := κ → Option (List α)

structure Histories (κ α : Type*) where
  received : κ → List α
  consumed : κ → List α

def Histories.empty : Histories κ α := ⟨fun _ => [], fun _ => []⟩

/-- What was received is what was consumed and the backlog; without a session
there is no backlog. -/
def Conserved (b : Backlogs κ α) (h : Histories κ α) : Prop :=
  ∀ k, h.received k = h.consumed k ++ (b k).getD []

theorem Conserved.empty : Conserved (fun _ => none) (Histories.empty : Histories κ α) :=
  fun _ => rfl

variable [DecidableEq κ]

/-- One event, when it is one that can happen: keys are not opened twice, nothing
is received or consumed without a session, only the front of a backlog is consumed
and no backlog is dropped. -/
inductive BacklogStep (b : Backlogs κ α) : SessionEvent κ α → Backlogs κ α → Prop
  | opened (k : κ) (hk : b k = none) : BacklogStep b (.opened k) (Function.update b k (some []))
  | received (k : κ) (xs q : List α) (hk : b k = some q) :
      BacklogStep b (.received k xs) (Function.update b k (some (q ++ xs)))
  | consumed (k : κ) (xs q : List α) (hk : b k = some (xs ++ q)) :
      BacklogStep b (.consumed k xs) (Function.update b k (some q))
  | closed (k : κ) (hk : b k = some []) : BacklogStep b (.closed k) (Function.update b k none)

def Histories.record (h : Histories κ α) : SessionEvent κ α → Histories κ α
  | .opened k => ⟨Function.update h.received k [], Function.update h.consumed k []⟩
  | .received k xs => { h with received := Function.update h.received k (h.received k ++ xs) }
  | .consumed k xs => { h with consumed := Function.update h.consumed k (h.consumed k ++ xs) }
  | .closed _ => h

/-- An event moves bytes of its own key from one side to the other and keeps those
of the others. -/
theorem Conserved.step {b b' : Backlogs κ α} {h : Histories κ α} (hb : Conserved b h)
    {e : SessionEvent κ α} (hstep : BacklogStep b e b') : Conserved b' (h.record e) := by
  intro k
  cases hstep with
  | opened j hj =>
      by_cases hk : k = j
      · simp [Histories.record, hk]
      · simpa [Histories.record, hk] using hb k
  | received j xs q hj =>
      by_cases hk : k = j
      · simp [Histories.record, hk, hb j, hj]
      · simpa [Histories.record, hk] using hb k
  | consumed j xs q hj =>
      by_cases hk : k = j
      · simp [Histories.record, hk, hb j, hj]
      · simpa [Histories.record, hk] using hb k
  | closed j hj =>
      by_cases hk : k = j
      · simp [Histories.record, hk, hb j, hj]
      · simpa [Histories.record, hk] using hb k

def BacklogMove (b : Backlogs κ α) : Option (SessionEvent κ α) → Backlogs κ α → Prop
  | none, b' => b' = b
  | some e, b' => BacklogStep b e b'

def Histories.note (h : Histories κ α) : Option (SessionEvent κ α) → Histories κ α
  | none => h
  | some e => h.record e

theorem Conserved.move {b b' : Backlogs κ α} {h : Histories κ α} (hb : Conserved b h)
    {e : Option (SessionEvent κ α)} (hmove : BacklogMove b e b') : Conserved b' (h.note e) := by
  cases e with
  | none => exact hmove ▸ hb
  | some e => exact hb.step hmove

end UnixLabs.Library
