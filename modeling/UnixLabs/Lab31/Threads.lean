import UnixLabs.Lab31.TableBounds
import UnixLabs.Library.Schedule

/-!
The two threads of `lab31/multithreading`: `main` accepts clients, and a thread polls them
and reads from them.

`reading_lock` is held by the reader during a pass over its clients, and by `main` while it
replaces the reader, so that the new one polls the new client. Each of them only tries to
take it. What is done under `client_size_lock` has no wait in it and is one step here.
-/

namespace UnixLabs.Lab31.Multiplexer

open Library

/-- Where `main` is: in `accept`, in `mx_add`, at one of the calls of `restart_if_waits`,
or in `mx_cleanup`. -/
inductive MainAt
  | accepts
  | adds (fd : ℤ)
  | tries
  | cancels
  | joins
  | starts
  | unlocks
  | quits
  | quitJoins
  | quit
  deriving DecidableEq

/-- Where the reader is, with the count it read when it began: before that, in `poll`,
before `pthread_mutex_trylock`, in `try_read` with the count and the index of the pass, in
`commit_remove_clients` with the count that was read there, or in `pause`. -/
inductive ReaderAt
  | begins
  | polls (localCount : ℕ)
  | tries (localCount : ℕ)
  | sees (localCount : ℕ)
  | reads (localCount seen i : ℕ)
  | commits (localCount : ℕ)
  | compacts (localCount count : ℕ)
  | shrinks (localCount count : ℕ)
  | unlocks (localCount : ℕ)
  | pauses
  | ended
  deriving DecidableEq

inductive Holder
  | main
  | reader
  deriving DecidableEq

def MainAt.replaces : MainAt → Prop
  | .cancels | .joins | .starts | .unlocks => True
  | _ => False

/-- Where `main` has asked the reader to end. -/
def MainAt.asked : MainAt → Prop
  | .joins | .starts | .quitJoins | .quit => True
  | _ => False

def MainAt.leaves : MainAt → Prop
  | .quitJoins | .quit => True
  | _ => False

def ReaderAt.inPass : ReaderAt → Prop
  | .sees _ | .reads _ _ _ | .commits _ | .compacts _ _ | .shrinks _ _ | .unlocks _ => True
  | _ => False

/-- Where the reader waits for nothing. The descriptors are left blocking, since `F_SETFD`
does not set `O_NONBLOCK`, so that it may wait in `read`. -/
def ReaderAt.goes : ReaderAt → Prop
  | .polls _ | .reads _ _ _ | .pauses | .ended => False
  | _ => True

def ReaderAt.delay (clientCount : ℕ) : ReaderAt → ℕ
  | .ended => 0
  | .polls _ | .pauses => 1
  | .begins | .unlocks _ => 2
  | .shrinks _ _ => 3
  | .compacts _ _ => 4
  | .commits _ => 5
  | .reads _ seen i => 6 + (seen - i)
  | .sees _ => 7 + clientCount
  | .tries _ => 8 + clientCount

def ReaderAt.within {max : Somaxconn} (table : ClientTable max) : ReaderAt → Prop
  | .reads _ seen _ => seen ≤ table.clientCount
  | .compacts _ count | .shrinks _ count =>
      table.clientsToRemoveCount ≤ count ∧ count ≤ table.clientCount
  | _ => True

/-- `struct multiplexer` and its threads. `cancelled` is a request the reader has not acted
on, and `opened` lists the clients that were added and not closed. -/
structure Threads (max : Somaxconn) where
  table : ClientTable max
  main : MainAt
  reader : ReaderAt
  readingLock : Option Holder
  cancelled : Bool
  opened : List ℤ

namespace Threads

variable {max : Somaxconn}

/-- After the first `mx_start`. -/
def start (max : Somaxconn) : Threads max :=
  ⟨mxInit max, .accepts, .begins, none, false, []⟩

/-- A new client, the signal that ends the loop of `main`, the next step of a thread, a
round of the pass, which may remove the client, and the end of a cancelled reader. -/
inductive Event
  | accept (client : Connection)
  | quit
  | main
  | visit (removes : Bool)
  | reader
  | cancel

def mainStep (s : Threads max) : Option (Threads max) :=
  match s.main with
  | .adds fd => (s.table.put fd).map fun table =>
      { s with table, main := .tries, opened := fd :: s.opened }
  | .tries =>
      if s.readingLock = none then some { s with readingLock := some .main, main := .cancels }
      else some { s with main := .accepts }
  | .cancels => some { s with cancelled := true, main := .joins }
  | .joins => if s.reader = .ended then some { s with main := .starts } else none
  | .starts => some { s with reader := .begins, cancelled := false, main := .unlocks }
  | .unlocks => some { s with readingLock := none, main := .accepts }
  | .quits => some { s with cancelled := true, main := .quitJoins }
  | .quitJoins => if s.reader = .ended then some { s with main := .quit } else none
  | _ => none

/-- The next step of the reader. `poll` does not return to a cancelled thread, and a pass
may end at any index, when all descriptors that `poll` has found were seen. -/
def readerStep (s : Threads max) : Option (Threads max) :=
  match s.reader with
  | .begins => some { s with reader := .polls (getClientCount s.table) }
  | .polls n => if s.cancelled then none else some { s with reader := .tries n }
  | .tries n =>
      if s.readingLock = none then some { s with readingLock := some .reader, reader := .sees n }
      else some { s with reader := .pauses }
  | .sees n => some { s with reader := .reads n (getClientCount s.table) 0 }
  | .reads n _ _ =>
      some { s with reader := if s.table.clientsToRemoveCount = 0 then .unlocks n else .commits n }
  | .commits n => some { s with reader := .compacts n (getClientCount s.table) }
  | .compacts n count =>
      (compactFrom s.table.clientsToRemoveCount (count + 1) s.table.firstClientToRemove
        (sizeT ((count : ℤ) - 1)) 0 s.table.clients).map fun clients =>
          { s with table := { s.table with clients }, reader := .shrinks n count }
  | .shrinks n _ =>
      let table := incClientCount s.table (BitVec.ofInt 32 (-s.table.clientsToRemoveCount))
      some { s with
        table := { table with clientsToRemoveCount := 0, firstClientToRemove := 0 }
        reader := .unlocks n }
  | .unlocks n => some { s with readingLock := none, reader := .polls n }
  | _ => none

def closes (s : Threads max) (i : ℕ) : List ℤ :=
  if fds s.table.clients i = removedClient then s.opened
  else s.opened.erase (fds s.table.clients i)

def visit (s : Threads max) (removes : Bool) : Option (Threads max) :=
  match s.reader with
  | .reads n seen i =>
      if i < seen then
        if removes then
          (removeClient s.table i).map fun table =>
            { s with table, reader := .reads n seen (i + 1), opened := s.closes i }
        else some { s with reader := .reads n seen (i + 1) }
      else none
  | _ => none

/-- A cancelled thread ends in `poll`, in `pause` or in `read`. -/
def cancel (s : Threads max) : Option (Threads max) :=
  if s.cancelled then
    match s.reader with
    | .polls _ | .reads _ _ _ | .pauses => some { s with reader := .ended }
    | _ => none
  else none

def step (s : Threads max) : Event → Option (Threads max)
  | .accept client =>
      if s.main = .accepts ∧ client.fd ≠ -1 then
        some { s with main :=
          if client.oldFlags = -1 ∨ client.setFlags = -1 then .quits else .adds client.fd }
      else none
  | .quit => if s.main = .accepts then some { s with main := .quits } else none
  | .main => s.mainStep
  | .visit removes => s.visit removes
  | .reader => s.readerStep
  | .cancel => s.cancel

def turn (s : Threads max) : Event → Option (Threads max)
  | .visit removes => s.visit removes
  | .reader => s.readerStep
  | .cancel => s.cancel
  | _ => none

/-! ### What a step can do -/

inductive Moves (s : Threads max) : Event → Threads max → Prop
  | accepts {client : Connection} (hmain : s.main = .accepts) (hfd : client.fd ≠ -1) :
      Moves s (.accept client) { s with main := .adds client.fd }
  | refuses {client : Connection} (hmain : s.main = .accepts) :
      Moves s (.accept client) { s with main := .quits }
  | quit (hmain : s.main = .accepts) : Moves s .quit { s with main := .quits }
  | adds {fd : ℤ} {table : ClientTable max} (hmain : s.main = .adds fd)
      (hput : s.table.put fd = some table) :
      Moves s .main { s with table, main := .tries, opened := fd :: s.opened }
  | locks (hmain : s.main = .tries) (hlock : s.readingLock = none) :
      Moves s .main { s with readingLock := some .main, main := .cancels }
  | busy (hmain : s.main = .tries) (hlock : s.readingLock ≠ none) :
      Moves s .main { s with main := .accepts }
  | cancels (hmain : s.main = .cancels) :
      Moves s .main { s with cancelled := true, main := .joins }
  | joins (hmain : s.main = .joins) (hreader : s.reader = .ended) :
      Moves s .main { s with main := .starts }
  | starts (hmain : s.main = .starts) :
      Moves s .main { s with reader := .begins, cancelled := false, main := .unlocks }
  | unlocks (hmain : s.main = .unlocks) :
      Moves s .main { s with readingLock := none, main := .accepts }
  | quits (hmain : s.main = .quits) :
      Moves s .main { s with cancelled := true, main := .quitJoins }
  | quitJoins (hmain : s.main = .quitJoins) (hreader : s.reader = .ended) :
      Moves s .main { s with main := .quit }
  | begins (hreader : s.reader = .begins) :
      Moves s .reader { s with reader := .polls s.table.clientCount }
  | polls {n : ℕ} (hreader : s.reader = .polls n) (hgoes : s.cancelled = false) :
      Moves s .reader { s with reader := .tries n }
  | takes {n : ℕ} (hreader : s.reader = .tries n) (hlock : s.readingLock = none) :
      Moves s .reader { s with readingLock := some .reader, reader := .sees n }
  | pauses {n : ℕ} (hreader : s.reader = .tries n) (hlock : s.readingLock ≠ none) :
      Moves s .reader { s with reader := .pauses }
  | sees {n : ℕ} (hreader : s.reader = .sees n) :
      Moves s .reader { s with reader := .reads n s.table.clientCount 0 }
  | passes {n seen i : ℕ} (hreader : s.reader = .reads n seen i)
      (hnone : s.table.clientsToRemoveCount = 0) :
      Moves s .reader { s with reader := .unlocks n }
  | commits {n seen i : ℕ} (hreader : s.reader = .reads n seen i)
      (hsome : s.table.clientsToRemoveCount ≠ 0) :
      Moves s .reader { s with reader := .commits n }
  | counts {n : ℕ} (hreader : s.reader = .commits n) :
      Moves s .reader { s with reader := .compacts n s.table.clientCount }
  | compacts {n count : ℕ} {clients : CArray max.size Pollfd}
      (hreader : s.reader = .compacts n count)
      (hcompact : compactFrom s.table.clientsToRemoveCount (count + 1)
        s.table.firstClientToRemove (sizeT ((count : ℤ) - 1)) 0 s.table.clients = some clients) :
      Moves s .reader
        { s with table := { s.table with clients }, reader := .shrinks n count }
  | shrinks {n count : ℕ} {table : ClientTable max} (hreader : s.reader = .shrinks n count)
      (htable : incClientCount s.table (BitVec.ofInt 32 (-s.table.clientsToRemoveCount)) = table) :
      Moves s .reader { s with
        table := { table with clientsToRemoveCount := 0, firstClientToRemove := 0 }
        reader := .unlocks n }
  | releases {n : ℕ} (hreader : s.reader = .unlocks n) :
      Moves s .reader { s with readingLock := none, reader := .polls n }
  | visits {n seen i : ℕ} (hreader : s.reader = .reads n seen i) (hi : i < seen) :
      Moves s (.visit false) { s with reader := .reads n seen (i + 1) }
  | removes {n seen i : ℕ} {table : ClientTable max} (hreader : s.reader = .reads n seen i)
      (hi : i < seen) (hremove : removeClient s.table i = some table) :
      Moves s (.visit true)
        { s with table, reader := .reads n seen (i + 1), opened := s.closes i }
  | ends (hcancelled : s.cancelled = true)
      (hreader : (∃ n, s.reader = .polls n) ∨ (∃ n seen i, s.reader = .reads n seen i) ∨
        s.reader = .pauses) :
      Moves s .cancel { s with reader := .ended }

variable {s s' : Threads max} {e : Event}

theorem moves_of_mainStep (h : s.mainStep = some s') : Moves s .main s' := by
  rw [mainStep.eq_def] at h
  split at h
  · obtain ⟨table, hput, rfl⟩ := Option.map_eq_some_iff.mp h
    exact .adds ‹_› hput
  · split_ifs at h with hlock
    · cases h
      exact .locks ‹_› hlock
    · cases h
      exact .busy ‹_› hlock
  · cases h
    exact .cancels ‹_›
  · obtain ⟨hreader, hs'⟩ := Option.ite_none_right_eq_some.mp h
    cases hs'
    exact .joins ‹_› hreader
  · cases h
    exact .starts ‹_›
  · cases h
    exact .unlocks ‹_›
  · cases h
    exact .quits ‹_›
  · obtain ⟨hreader, hs'⟩ := Option.ite_none_right_eq_some.mp h
    cases hs'
    exact .quitJoins ‹_› hreader
  · cases h

theorem moves_of_readerStep (h : s.readerStep = some s') : Moves s .reader s' := by
  rw [readerStep.eq_def] at h
  split at h
  · cases h
    exact .begins ‹_›
  · obtain ⟨hgoes, hs'⟩ := Option.ite_none_left_eq_some.mp h
    cases hs'
    exact .polls ‹_› (Bool.eq_false_iff.mpr hgoes)
  · split_ifs at h with hlock
    · cases h
      exact .takes ‹_› hlock
    · cases h
      exact .pauses ‹_› hlock
  · cases h
    exact .sees ‹_›
  · split_ifs at h with hnone
    · cases h
      exact .passes ‹_› hnone
    · cases h
      exact .commits ‹_› hnone
  · cases h
    exact .counts ‹_›
  · obtain ⟨clients, hcompact, rfl⟩ := Option.map_eq_some_iff.mp h
    exact .compacts ‹_› hcompact
  · cases h
    exact .shrinks ‹_› rfl
  · cases h
    exact .releases ‹_›
  · cases h

theorem moves_of_step (h : s.step e = some s') : Moves s e s' := by
  cases e with
  | accept client =>
      obtain ⟨⟨hmain, hfd⟩, hs'⟩ := Option.ite_none_right_eq_some.mp h
      cases hs'
      split_ifs
      · exact .refuses hmain
      · exact .accepts hmain hfd
  | quit =>
      obtain ⟨hmain, hs'⟩ := Option.ite_none_right_eq_some.mp h
      cases hs'
      exact .quit hmain
  | main => exact moves_of_mainStep h
  | visit removes =>
      rw [step, visit.eq_def] at h
      split at h
      · split_ifs at h with hi hremoves
        · subst hremoves
          obtain ⟨table, hremove, rfl⟩ := Option.map_eq_some_iff.mp h
          exact .removes ‹_› hi hremove
        · rw [Bool.not_eq_true] at hremoves
          subst hremoves
          cases h
          exact .visits ‹_› hi
      · cases h
  | reader => exact moves_of_readerStep h
  | cancel =>
      rw [step, Threads.cancel] at h
      split_ifs at h with hcancelled
      split at h
      · cases h
        exact .ends hcancelled (.inl ⟨_, ‹_›⟩)
      · cases h
        exact .ends hcancelled (.inr (.inl ⟨_, _, _, ‹_›⟩))
      · cases h
        exact .ends hcancelled (.inr (.inr ‹_›))
      · cases h

/-! ### The lock -/

/-- Each thread holds the lock where it should. A reader that is cancelled in a pass keeps
it, but then `main` leaves. -/
structure Locks (s : Threads max) : Prop where
  main : s.readingLock = some .main ↔ s.main.replaces
  pass : s.reader.inPass → s.readingLock = some .reader
  reader : s.readingLock = some .reader → s.reader.inPass ∨ s.main.leaves
  cancelled : s.cancelled = true ↔ s.main.asked
  ended : s.reader = .ended → s.main.asked
  starts : s.main = .starts → s.reader = .ended

theorem locks_start (max : Somaxconn) : Locks (start max) := by
  constructor <;> simp [start, MainAt.replaces, ReaderAt.inPass, MainAt.asked]

theorem Locks.leaves (h : Locks s) (hasked : s.main.asked) (hlock : s.readingLock = some .reader) :
    s.main.leaves := by
  have hnot : ¬s.main.replaces := by
    rw [← h.main, hlock]
    simp
  revert hasked hnot
  cases s.main <;> simp [MainAt.asked, MainAt.replaces, MainAt.leaves]

theorem Locks.not_inPass (h : Locks s) (hmain : s.main.replaces) : ¬s.reader.inPass := by
  intro hpass
  have hlock := (h.main.mpr hmain).symm.trans (h.pass hpass)
  cases hlock

theorem locks_move (h : Locks s) (hmove : Moves s e s') : Locks s' := by
  have hleaves := h.leaves
  obtain ⟨table, main, reader, lock, cancelled, opened⟩ := s
  obtain ⟨hmain, hpass, hreader, hcancelled, hended, hstarts⟩ := h
  cases hmove with
  | ends hasked hat =>
      refine ⟨hmain, fun h => h.elim, fun hlock => ?_, hcancelled, fun _ => hcancelled.mp hasked,
        fun _ => rfl⟩
      exact .inr (hleaves (hcancelled.mp hasked) hlock)
  | _ =>
      subst_vars
      constructor <;> grind [MainAt.replaces, MainAt.asked, MainAt.leaves, ReaderAt.inPass]

/-! ### The table -/

theorem put_cases {t t' : ClientTable max} {fd : ℤ} (h : t.put fd = some t') :
    t.clientCount < max.size ∧ ∃ clients,
      fds clients = Function.update (fds t.clients) t.clientCount fd ∧
      t' = { t with clients, clientCount := t.clientCount + 1 } := by
  have hplace : t.clientCount < max.size := by
    by_contra hfull
    rw [ClientTable.put_of_le fd (Nat.le_of_not_lt hfull)] at h
    cases h
  refine ⟨hplace, _, ?_, Option.some_inj.mp (h.symm.trans (t.put_of_lt fd hplace))⟩
  ext k
  show (Function.update t.clients.cells t.clientCount _ k).fd = _
  rw [Function.update_apply, Function.update_apply]
  split_ifs <;> rfl

theorem mark_cases {t t' : ClientTable max} {i : ℕ} (h : t.mark i = some t') :
    fds t.clients i = removedClient ∧ t' = t ∨
    fds t.clients i ≠ removedClient ∧ ∃ clients,
      fds clients = Function.update (fds t.clients) i removedClient ∧
      t' = { t with
        clients
        clientsToRemoveCount := t.clientsToRemoveCount + 1
        firstClientToRemove :=
          if t.firstClientToRemove = 0 ∨ t.firstClientToRemove > i then i
          else t.firstClientToRemove } := by
  rw [ClientTable.mark] at h
  obtain ⟨client, hload, h⟩ := Option.bind_eq_some_iff.mp h
  have hclient := CArray.cells_of_load hload
  subst hclient
  rcases eq_or_ne (fds t.clients i) removedClient with hremoved | hremoved
  · rw [if_pos (by exact hremoved)] at h
    cases h
    exact .inl ⟨hremoved, rfl⟩
  · rw [if_neg (by exact hremoved)] at h
    obtain ⟨clients, hstore, h⟩ := Option.bind_eq_some_iff.mp h
    cases h
    exact .inr ⟨hremoved, clients, fds_store hstore, rfl⟩

theorem incClientCount_eq {t : ClientTable max} (h : InOrder t) :
    incClientCount t (BitVec.ofInt 32 (-t.clientsToRemoveCount)) =
      { t with clientCount := t.clientCount - t.clientsToRemoveCount } := by
  have hle := h.toRemove_le
  have hsize : t.clientCount ≤ max.size := h.inArray
  have hint := max.lt
  have hdelta : (BitVec.ofInt 32 (-(t.clientsToRemoveCount : ℤ))).toInt =
      -(t.clientsToRemoveCount : ℤ) := by
    rw [BitVec.toInt_ofInt]
    apply Int.bmod_eq_of_le
    · omega
    · omega
  rw [incClientCount, hdelta, ← sub_eq_add_neg, ← Nat.cast_sub hle, sizeT_natCast (by omega)]

/-- The loops of `commit_remove_clients` over as many entries as there were before. -/
theorem compactFrom_of_le {t : ClientTable max} (h : InOrder t) {count : ℕ}
    (hremove : t.clientsToRemoveCount ≤ count) (hcount : count ≤ t.clientCount) :
    ∃ clients, compactFrom t.clientsToRemoveCount (count + 1) t.firstClientToRemove
        (sizeT ((count : ℤ) - 1)) 0 t.clients = some clients ∧
      fds clients = closeGaps removedClient t.clientsToRemoveCount (count + 1)
        t.firstClientToRemove count 0 (fds t.clients) :=
  compactFrom_eq (hcount.trans h.inArray) max.lt hremove t.clients (Nat.add_zero _)
    (Nat.lt_add_right _ (Nat.lt_succ_self _)) (Nat.succ_pos _)

structure Counts (s : Threads max) : Prop where
  inOrder : InOrder s.table
  within : s.reader.within s.table

theorem counts_start (max : Somaxconn) : Counts (start max) := ⟨inOrder_init max, trivial⟩

theorem counts_move (h : Counts s) (hmove : Moves s e s') : Counts s' := by
  obtain ⟨hinOrder, hwithin⟩ := h
  cases hmove with
  | adds hmain hput =>
      rename_i fd table
      obtain ⟨hplace, clients, -, rfl⟩ := put_cases hput
      obtain ⟨table, hput', horder⟩ := hinOrder.put hplace fd
      cases hput.symm.trans hput'
      refine ⟨horder, ?_⟩
      revert hwithin
      show s.reader.within s.table → s.reader.within _
      cases s.reader with
      | reads n seen i => exact Nat.le_succ_of_le
      | compacts n count => exact And.imp_right Nat.le_succ_of_le
      | shrinks n count => exact And.imp_right Nat.le_succ_of_le
      | _ => exact id
  | sees hreader => exact ⟨hinOrder, Nat.le_refl _⟩
  | counts hreader => exact ⟨hinOrder, hinOrder.toRemove_le, Nat.le_refl _⟩
  | compacts hreader hcompact =>
      rw [hreader] at hwithin
      obtain ⟨clients, hcompact', hfds⟩ := compactFrom_of_le hinOrder hwithin.1 hwithin.2
      cases hcompact.symm.trans hcompact'
      refine ⟨⟨hinOrder.inArray, ?_⟩, hwithin⟩
      show s.table.clientsToRemoveCount ≤ marked removedClient (fds _) s.table.clientCount
      rw [hfds, marked, (firstCells_closeGaps hwithin.2).count_eq]
      exact hinOrder.marks
  | shrinks hreader htable =>
      rw [incClientCount_eq hinOrder] at htable
      cases htable
      exact ⟨hinOrder.closed s.table.clients 0, trivial⟩
  | visits hreader hi =>
      rw [hreader] at hwithin
      exact ⟨hinOrder, hwithin⟩
  | removes hreader hi hremove =>
      rw [hreader] at hwithin
      obtain ⟨table, hmark, horder⟩ := hinOrder.mark (hi.trans_le hwithin)
      cases hremove.symm.trans hmark
      refine ⟨horder, ?_⟩
      rcases mark_cases hmark with ⟨-, rfl⟩ | ⟨-, clients, -, rfl⟩
      · exact hwithin
      · exact hwithin
  | begins | polls | takes | pauses | passes | commits | releases | ends | starts =>
      exact ⟨hinOrder, trivial⟩
  | _ => exact ⟨hinOrder, hwithin⟩

/-! ### The wait for the reader -/

/-- Where the reader waits for nothing it goes on: its accesses are inside the array. -/
theorem Counts.readerStep_isSome (h : Counts s) (hgoes : s.reader.goes) :
    s.readerStep.isSome := by
  have hwithin := h.within
  revert hwithin hgoes
  rw [readerStep.eq_def]
  cases s.reader with
  | tries n =>
      intro _ _
      dsimp only
      split_ifs <;> rfl
  | compacts n count =>
      intro _ hwithin
      obtain ⟨clients, hcompact, -⟩ := compactFrom_of_le h.inOrder hwithin.1 hwithin.2
      simp only [hcompact, Option.map_some, Option.isSome_some]
  | polls | reads | pauses | ended => exact fun hgoes => hgoes.elim
  | _ => exact fun _ _ => rfl

/-- The loop of `try_read` can be left at any index. -/
theorem readerStep_isSome_of_reads {n seen i : ℕ} (hreader : s.reader = .reads n seen i) :
    s.readerStep.isSome := by
  rw [readerStep.eq_def, hreader]
  rfl

theorem Counts.visit_isSome (h : Counts s) {n seen i : ℕ} (hreader : s.reader = .reads n seen i)
    (hi : i < seen) (removes : Bool) : (s.visit removes).isSome := by
  have hwithin := h.within
  rw [hreader] at hwithin
  obtain ⟨table, hmark, -⟩ := h.inOrder.mark (hi.trans_le hwithin)
  rw [visit.eq_def, hreader]
  simp only [if_pos hi, removeClient, hmark]
  split_ifs <;> rfl

structure Waits (s : Threads max) : Prop where
  locks : Locks s
  counts : Counts s
  main : s.main = .joins ∨ s.main = .quitJoins

theorem Waits.cancelled (h : Waits s) : s.cancelled = true := by
  rw [h.locks.cancelled]
  rcases h.main with hmain | hmain <;> rw [hmain] <;> trivial

theorem step_of_turn (h : s.turn e = some s') : s.step e = some s' := by
  cases e with
  | visit | reader | cancel => exact h
  | accept | quit | main => cases h

theorem waits_lowers :
    Lowers (@Waits max) turn fun s => s.reader.delay s.table.clientCount where
  keeps s e s' h hturn := by
    have hmove := moves_of_step (step_of_turn hturn)
    refine ⟨locks_move h.locks hmove, counts_move h.counts hmove, ?_⟩
    have hmain := h.main
    cases e with
    | visit | reader | cancel => cases hmove <;> exact hmain
    | accept | quit | main => cases hturn
  lt s e s' h hturn := by
    have hmove := moves_of_step (step_of_turn hturn)
    have hcancelled := h.cancelled
    cases e with
    | accept | quit | main => cases hturn
    | visit removes =>
        cases hmove with
        | visits hreader hi | removes hreader hi =>
          rw [hreader]
          show 6 + (_ - (_ + 1)) < 6 + (_ - _)
          omega
    | cancel =>
        cases hmove with
        | ends _ hreader =>
            rcases hreader with ⟨n, hreader⟩ | ⟨n, seen, i, hreader⟩ | hreader
            · rw [hreader]
              exact Nat.one_pos
            · rw [hreader]
              exact Nat.add_pos_left (by decide) _
            · rw [hreader]
              exact Nat.one_pos
    | reader =>
        cases hmove with
        | polls hreader hgoes =>
            rw [hcancelled] at hgoes
            cases hgoes
        | begins hreader | takes hreader | pauses hreader | sees hreader | passes hreader
        | commits hreader | counts hreader | compacts hreader | shrinks hreader
        | releases hreader =>
            rw [hreader]
            simp only [ReaderAt.delay]
            omega

/-- When the reader cannot go on it has ended, and `pthread_join` returns. -/
theorem Waits.ended_of_stuck (h : Waits s) (hstuck : Stuck turn s) : s.reader = .ended := by
  have hcancelled := h.cancelled
  have hcancel : s.cancel = none := hstuck .cancel
  have hreader : s.readerStep = none := hstuck .reader
  rw [cancel, if_pos hcancelled] at hcancel
  have hwaits : ¬s.reader.goes := by
    intro hgoes
    have hsome := h.counts.readerStep_isSome hgoes
    rw [hreader] at hsome
    cases hsome
  cases hat : s.reader with
  | ended => rfl
  | polls | reads | pauses =>
      rw [hat] at hcancel
      cases hcancel
  | _ =>
      rw [hat] at hwaits
      exact absurd trivial hwaits

theorem Counts.delay_le (h : Counts s) :
    s.reader.delay s.table.clientCount ≤ s.table.clientCount + 8 := by
  have hwithin := h.within
  revert hwithin
  cases s.reader with
  | reads n seen i =>
      show seen ≤ s.table.clientCount → 6 + (seen - i) ≤ s.table.clientCount + 8
      omega
  | _ =>
      intro _
      simp only [ReaderAt.delay]
      omega

/-! ### Safety -/

structure Safe (s : Threads max) : Prop where
  exclusive : s.main.replaces → ¬s.reader.inPass
  single : s.main = .starts → s.reader = .ended
  inArray : InArray s.table
  reader : s.reader.goes → (s.step .reader).isSome
  leaves : ∀ n seen i, s.reader = .reads n seen i → (s.step .reader).isSome
  visit : ∀ n seen i, s.reader = .reads n seen i → i < seen →
    ∀ removes, (s.step (.visit removes)).isSome
  adds : ∀ fd, s.main = .adds fd → s.table.clientCount < max.size → (s.step .main).isSome
  joins : s.main = .joins ∨ s.main = .quitJoins → ∀ es s', run turn s es = some s' →
    es.length ≤ s.table.clientCount + 8 ∧ (Stuck turn s' → (s'.step .main).isSome)

end Threads

end UnixLabs.Lab31.Multiplexer
