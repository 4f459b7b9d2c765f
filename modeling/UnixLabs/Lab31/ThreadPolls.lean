import UnixLabs.Lab31.ThreadTables

/-!
Which clients the reader of `lab31/multithreading` polls.

It polls as many entries as there were when it began. A new client is behind them, so
`restart_if_waits` replaces the reader, unless it is in a pass. A reader that finds the lock
taken waits in `pause`, and only `restart_if_waits` brings it back. A client that is added
while the gaps are closed may fall off the table, and then no reader polls it.
-/

namespace UnixLabs.Lab31.Multiplexer

open Library

variable {max : Somaxconn}

/-- The reader polls these clients, now or when its pass is over. -/
def ReaderAt.covers (clientCount : ℕ) : ReaderAt → Prop
  | .begins => True
  | .polls n | .tries n | .sees n | .reads n _ _ | .commits n | .compacts n _ | .shrinks n _
  | .unlocks n => clientCount ≤ n
  | .pauses | .ended => False

/-- The client is in an entry that the reader polls, now or when its pass is over. -/
def ReaderAt.attendsTo (table : ClientTable max) (fd : ℤ) : ReaderAt → Prop
  | .begins => fd ∈ firstCells (fds table.clients) table.clientCount
  | .polls n | .tries n | .sees n | .reads n _ _ | .commits n | .compacts n _ | .shrinks n _
  | .unlocks n => fd ∈ firstCells (fds table.clients) n
  | .pauses | .ended => False

theorem ReaderAt.covers.attendsTo {table : ClientTable max} {reader : ReaderAt} {fd : ℤ}
    (h : reader.covers table.clientCount)
    (hlisted : fd ∈ firstCells (fds table.clients) table.clientCount) :
    reader.attendsTo table fd := by
  obtain ⟨i, hi, hcell⟩ := mem_firstCells.mp hlisted
  cases reader with
  | begins => exact hlisted
  | polls | tries | sees | reads | commits | compacts | shrinks | unlocks =>
      exact mem_firstCells.mpr ⟨i, hi.trans_le h, hcell⟩
  | pauses | ended => exact h.elim

instance decidableCovers (clientCount : ℕ) :
    ∀ reader : ReaderAt, Decidable (reader.covers clientCount)
  | .begins => isTrue trivial
  | .polls n | .tries n | .sees n | .reads n _ _ | .commits n | .compacts n _ | .shrinks n _
  | .unlocks n => inferInstanceAs (Decidable (clientCount ≤ n))
  | .pauses | .ended => isFalse id

instance decidableUndisturbed (table : ClientTable max) :
    ∀ reader : ReaderAt, Decidable (reader.undisturbed table)
  | .compacts _ count => inferInstanceAs (Decidable (table.firstClientToRemove = 0 ∨
      fds table.clients 0 ≠ removedClient ∨ table.clientsToRemoveCount = count))
  | .shrinks _ count => inferInstanceAs (Decidable (table.clientCount = count))
  | .begins | .polls _ | .tries _ | .sees _ | .reads _ _ _ | .commits _ | .unlocks _ | .pauses
  | .ended => isTrue trivial

instance decidableAsks : ∀ reader : ReaderAt, Decidable (∀ n, reader ≠ .tries n)
  | .tries n => isFalse fun h => h n rfl
  | .begins | .polls _ | .sees _ | .reads _ _ _ | .commits _ | .compacts _ _ | .shrinks _ _
  | .unlocks _ | .pauses | .ended => isTrue fun _ => ReaderAt.noConfusion

namespace Threads

variable {s s' : Threads max} {e : Event}

/-- Once a client was added, and `main` has replaced the reader or left it alone, the reader
polls all clients. -/
def Attended (s : Threads max) : Prop :=
  s.main = .accepts ∨ s.main = .unlocks → s.reader.covers s.table.clientCount

/-- The reader is left alone only if it polls all clients, and a new one does not ask for
the lock before `main` has given it back. -/
def InTime (s : Threads max) : Event → Prop
  | .main => s.main = .tries → s.readingLock ≠ none → s.reader.covers s.table.clientCount
  | .reader => s.main = .unlocks → ∀ n, s.reader ≠ .tries n
  | _ => True

instance decidableInTime (s : Threads max) : ∀ e, Decidable (InTime s e)
  | .main => inferInstanceAs
      (Decidable (s.main = .tries → s.readingLock ≠ none → s.reader.covers s.table.clientCount))
  | .reader => inferInstanceAs (Decidable (s.main = .unlocks → ∀ n, s.reader ≠ .tries n))
  | .accept _ | .quit | .visit _ | .cancel => isTrue trivial

instance decidableQuiet (s : Threads max) : ∀ e, Decidable (Undisturbed s e)
  | .reader => decidableUndisturbed s.table s.reader
  | .accept _ | .quit | .main | .visit _ | .cancel => isTrue trivial

def Attends (s : Threads max) (e : Event) : Prop := ∀ s', s.step e = some s' → Attended s'

/-- `main` holds no lock in `accept`, and nor does a reader that asks for it. -/
theorem Locks.free (h : Locks s) {n : ℕ} (hmain : s.main = .accepts)
    (hreader : s.reader = .tries n) : s.readingLock = none := by
  rcases hlock : s.readingLock with _ | holder
  · rfl
  cases holder with
  | main =>
      have hreplaces := h.main.mp hlock
      rw [hmain] at hreplaces
      exact hreplaces.elim
  | reader =>
      rcases h.reader hlock with hpass | hleaves
      · rw [hreader] at hpass
        exact hpass.elim
      · rw [hmain] at hleaves
        exact hleaves.elim

theorem attended_move (hlocks : Locks s) (hcounts : Counts s) (h : Attended s)
    (htime : InTime s e) (hmove : Moves s e s') : Attended s' := by
  cases hmove with
  | busy hmain hlock => exact fun _ => htime hmain hlock
  | starts hmain => exact fun _ => trivial
  | unlocks hmain => exact fun _ => h (.inr hmain)
  | accepts | refuses | quit | adds | locks | cancels | joins | quits | quitJoins =>
      rintro (hmain | hmain) <;> cases hmain
  | begins hreader => exact fun _ => Nat.le_refl _
  | pauses hreader hlock =>
      rintro (hmain | hmain)
      · exact absurd (hlocks.free hmain hreader) hlock
      · exact absurd hreader (htime hmain _)
  | shrinks hreader htable =>
      intro hmain
      have hcovers := h hmain
      rw [incClientCount_eq hcounts.inOrder] at htable
      cases htable
      rw [hreader] at hcovers
      exact (Nat.sub_le _ _).trans hcovers
  | removes hreader hi hremove =>
      intro hmain
      have hcovers := h hmain
      rw [hreader] at hcovers
      rcases mark_cases hremove with ⟨-, rfl⟩ | ⟨-, clients, -, rfl⟩
      · exact hcovers
      · exact hcovers
  | ends hcancelled hreader =>
      have hasked := hlocks.cancelled.mp hcancelled
      rintro (hmain | hmain)
      · rw [show s.main = .accepts from hmain] at hasked
        exact hasked.elim
      · rw [show s.main = .unlocks from hmain] at hasked
        exact hasked.elim
  | polls hreader | takes hreader | sees hreader | passes hreader | commits hreader
  | counts hreader | compacts hreader | releases hreader | visits hreader =>
      intro hmain
      have hcovers := h hmain
      rw [hreader] at hcovers
      exact hcovers

theorem not_attended_of_late (hlocks : Locks s) (hlate : ¬InTime s e) :
    ∃ s', s.step e = some s' ∧ ¬Attended s' := by
  cases e with
  | main =>
      obtain ⟨hmain, hlate⟩ := Classical.not_imp.mp hlate
      obtain ⟨hlock, hcovers⟩ := Classical.not_imp.mp hlate
      refine ⟨{ s with main := .accepts }, ?_, fun h => hcovers (h (.inl rfl))⟩
      rw [step, mainStep.eq_def, hmain]
      exact if_neg hlock
  | reader =>
      obtain ⟨hmain, hlate⟩ := Classical.not_imp.mp hlate
      obtain ⟨n, hreader⟩ := not_forall_not.mp hlate
      refine ⟨{ s with reader := .pauses }, ?_, fun h => h (.inr hmain)⟩
      have hlock : s.readingLock = some .main := by
        rw [hlocks.main, hmain]
        trivial
      rw [step, readerStep.eq_def, hreader]
      exact if_neg (by simp [hlock])
  | _ => exact absurd trivial hlate

structure Covered (s : Threads max) : Prop where
  locks : Locks s
  counts : Counts s
  attended : Attended s

theorem covered_start (max : Somaxconn) : Covered (start max) :=
  ⟨locks_start max, counts_start max, fun _ => trivial⟩

theorem Covered.step {s s' : Threads max} {e : Event} (h : Covered s) (htime : InTime s e)
    (hstep : s.step e = some s') : Covered s' := by
  have hmove := moves_of_step hstep
  exact ⟨locks_move h.locks hmove, counts_move h.counts hmove,
    attended_move h.locks h.counts h.attended htime hmove⟩

theorem Covered.attends_iff (h : Covered s) : Attends s e ↔ InTime s e := by
  constructor
  · intro hattends
    by_contra hlate
    obtain ⟨s', hstep, hnot⟩ := not_attended_of_late h.locks hlate
    exact hnot (hattends s' hstep)
  · exact fun htime s' hstep => (h.step htime hstep).attended

theorem Attended.attendsTo (h : Attended s) (hbooks : Books s)
    (hmain : s.main = .accepts ∨ s.main = .unlocks) {fd : ℤ} (hfd : fd ∈ s.opened) :
    s.reader.attendsTo s.table fd := by
  have hlive := hbooks.kept.listed.mem_iff.mp hfd
  exact (h hmain).attendsTo (mem_live.mp hlive).1

end Threads

end UnixLabs.Lab31.Multiplexer
