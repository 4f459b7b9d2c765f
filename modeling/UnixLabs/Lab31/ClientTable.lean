import UnixLabs.Library.Compaction
import UnixLabs.Platform

/-!
The table of clients that `lab31-server.c` and `multithreading/multiplexer.c` poll.

Both keep the descriptors in an array of `pollfd`, mark the removed ones and close the
gaps afterwards. What their functions have in common is given here once; each program
has its own functions over it. No function clears `revents`, and none but the loops
looks at the size of the array.
-/

namespace UnixLabs.Lab31

open Library

/-- `SOMAXCONN`, a constant of the platform. It is an `int` and positive. -/
structure Somaxconn where
  size : ℕ
  pos : 0 < size
  lt : size < 2 ^ 31

def Somaxconn.linux : Somaxconn := ⟨4096, by decide, by decide⟩

def removedClient : ℤ := -1

/-- The fields of `struct server`, and of `struct multiplexer`, that list the clients. -/
structure ClientTable (max : Somaxconn) where
  clients : CArray max.size Pollfd
  clientCount : ℕ
  clientsToRemoveCount : ℕ
  firstClientToRemove : ℕ

namespace ClientTable

variable {max : Somaxconn}

/-- After `memset`, and the loop that asks for `POLLIN` everywhere. -/
def init (max : Somaxconn) : ClientTable max where
  clients := CArray.fill max.size { Pollfd.zero with events := pollIn }
  clientCount := 0
  clientsToRemoveCount := 0
  firstClientToRemove := 0

def put (t : ClientTable max) (clientFd : ℤ) : Option (ClientTable max) := do
  let client ← t.clients.load t.clientCount
  let clients ← t.clients.store t.clientCount { client with fd := clientFd }
  some { t with clients, clientCount := t.clientCount + 1 }

/-- Mark a client, and remember the lowest index with a mark; 0 stands for none. -/
def mark (t : ClientTable max) (index : ℕ) : Option (ClientTable max) := do
  let client ← t.clients.load index
  if client.fd = removedClient then some t
  else do
    let clients ← t.clients.store index { client with fd := removedClient }
    some { t with
      clients
      clientsToRemoveCount := t.clientsToRemoveCount + 1
      firstClientToRemove :=
        if t.firstClientToRemove = 0 ∨ t.firstClientToRemove > index then index
        else t.firstClientToRemove }

end ClientTable

/-! ### Closing the gaps -/

section Gaps

variable {n : ℕ}

def swapFds (clients : CArray n Pollfd) (i j : ℕ) : Option (CArray n Pollfd) := do
  let left ← clients.load i
  let right ← clients.load j
  let clients ← clients.store i { left with fd := right.fd }
  let right ← clients.load j
  clients.store j { right with fd := left.fd }

/-- The inner loop of `commit_remove_clients`: `j` and `removed_count` at its end. -/
def skipRemoved (clients : CArray n Pollfd) (i : ℕ) : ℕ → ℕ → Option (ℕ × ℕ)
  | 0, removedCount => (clients.load (0 : ℕ)).map fun _ => (0, removedCount)
  | j + 1, removedCount => do
      let client ← clients.load (j + 1 : ℕ)
      if client.fd = removedClient ∧ j + 1 > i then skipRemoved clients i j (removedCount + 1)
      else some (j + 1, removedCount)

/-- The outer loop, with at most `fuel` tests of its condition. -/
def compactFrom (toRemove : ℕ) :
    ℕ → ℕ → ℕ → ℕ → CArray n Pollfd → Option (CArray n Pollfd)
  | 0, _, _, _, _ => none
  | fuel + 1, i, j, removedCount, clients =>
      if removedCount < toRemove ∧ i < j then do
        let client ← clients.load i
        if client.fd = removedClient then do
          let (j, removedCount) ← skipRemoved clients i j removedCount
          let clients ← swapFds clients i j
          compactFrom toRemove fuel (i + 1) (sizeT ((j : ℤ) - 1)) (removedCount + 1) clients
        else compactFrom toRemove fuel (i + 1) j removedCount clients
      else some clients

end Gaps

def ClientTable.compact {max : Somaxconn} (t : ClientTable max) :
    Option (CArray max.size Pollfd) :=
  compactFrom t.clientsToRemoveCount (t.clientCount + 1) t.firstClientToRemove
    (sizeT ((t.clientCount : ℤ) - 1)) 0 t.clients

/-! ### What stays inside the array -/

section Bounds

variable {n : ℕ}

theorem ClientTable.put_of_lt {max : Somaxconn} (t : ClientTable max) (clientFd : ℤ)
    (h : t.clientCount < max.size) : t.put clientFd = some { t with
      clients := ⟨Function.update t.clients.cells t.clientCount
        { t.clients.cells t.clientCount with fd := clientFd }⟩
      clientCount := t.clientCount + 1 } := by
  rw [put, CArray.load_of_lt _ h, Option.bind_eq_bind, Option.bind_some, CArray.store_of_lt _ _ h]
  rfl

theorem ClientTable.put_of_le {max : Somaxconn} {t : ClientTable max} (clientFd : ℤ)
    (h : max.size ≤ t.clientCount) : t.put clientFd = none := by
  have hload : t.clients.load t.clientCount = none := if_neg (by omega)
  rw [put, hload]
  rfl

def fds (clients : CArray n Pollfd) (i : ℕ) : ℤ := (clients.cells i).fd

theorem fds_store {clients clients' : CArray n Pollfd} {i : ℕ} {entry : Pollfd}
    (h : clients.store i entry = some clients') :
    fds clients' = Function.update (fds clients) i entry.fd := by
  ext k
  rw [fds, CArray.cells_of_store h, Function.update_apply, Function.update_apply]
  split_ifs <;> rfl

theorem swapFds_eq (clients : CArray n Pollfd) {i j : ℕ} (hi : i < n) (hj : j < n) :
    ∃ clients', swapFds clients i j = some clients' ∧
      fds clients' = swapCells (fds clients) i j := by
  obtain ⟨clients₁, hleft⟩ : ∃ clients₁, clients.store i
      { clients.cells i with fd := (clients.cells j).fd } = some clients₁ :=
    ⟨_, CArray.store_of_lt _ _ hi⟩
  obtain ⟨clients₂, hright⟩ : ∃ clients₂, clients₁.store j
      { clients₁.cells j with fd := (clients.cells i).fd } = some clients₂ :=
    ⟨_, CArray.store_of_lt _ _ hj⟩
  refine ⟨clients₂, ?_, ?_⟩
  · simp only [swapFds, CArray.load_of_lt _ hi, CArray.load_of_lt _ hj, hleft, hright,
      Option.bind_eq_bind, Option.bind_some]
  · rw [fds_store hright, fds_store hleft]
    rfl

/-! ### The loops are those of the library -/

theorem skipRemoved_eq (clients : CArray n Pollfd) (i : ℕ) {j : ℕ} (hj : j < n)
    (removedCount : ℕ) : skipRemoved clients i j removedCount =
      some (skipMarks removedClient (fds clients) i j removedCount) := by
  induction j generalizing removedCount with
  | zero => rw [skipRemoved, CArray.load_of_lt _ hj, Option.map_some, skipMarks]
  | succ j ih =>
      simp only [skipRemoved, CArray.load_of_lt _ hj, Option.bind_eq_bind, Option.bind_some]
      rw [skipMarks]
      by_cases hmark : (clients.cells (j + 1)).fd = removedClient ∧ j + 1 > i
      · rw [if_pos hmark, if_pos (by exact hmark)]
        exact ih (by omega) (removedCount + 1)
      · rw [if_neg hmark, if_neg (by exact hmark)]

/-- `j` and `removed_count` are in balance, so when `j` passes below zero all of the
entries are counted and the loop ends. -/
theorem compactFrom_eq {count toRemove : ℕ} (hcount : count ≤ n) (hint : n < 2 ^ 31)
    (hremove : toRemove ≤ count) {fuel i left removedCount : ℕ} (clients : CArray n Pollfd)
    (hsum : left + removedCount = count) (hfuel : count < fuel + i) (hpos : 0 < fuel) :
    ∃ clients', compactFrom toRemove fuel i (sizeT ((left : ℤ) - 1)) removedCount clients =
        some clients' ∧
      fds clients' = closeGaps removedClient toRemove fuel i left removedCount (fds clients) := by
  induction fuel generalizing i left removedCount clients with
  | zero => omega
  | succ fuel ih =>
      have hpred : ∀ j < n, sizeT (((j + 1 : ℕ) : ℤ) - 1) = j := fun j hj => by
        rw [Nat.cast_succ, add_sub_cancel_right, sizeT_natCast (by omega)]
      have hiff : (removedCount < toRemove ∧ i < sizeT ((left : ℤ) - 1)) ↔
          i + 1 < left ∧ removedCount < toRemove := by
        cases left with
        | zero => omega
        | succ j =>
            rw [hpred j (by omega)]
            omega
      rw [compactFrom, closeGaps]
      by_cases hloop : i + 1 < left ∧ removedCount < toRemove
      · obtain ⟨j, rfl⟩ : ∃ j, left = j + 1 := ⟨left - 1, by omega⟩
        rw [if_pos (hiff.mpr hloop), if_pos hloop, hpred j (by omega), Nat.add_sub_cancel]
        simp only [CArray.load_of_lt clients (by omega : i < n), Option.bind_eq_bind,
          Option.bind_some]
        by_cases hmark : (clients.cells i).fd = removedClient
        · obtain ⟨j', removedCount', hskip, hij, hle, hsum', -⟩ :=
            skipMarks_spec removedClient (fds clients) (by omega : i ≤ j) removedCount
          obtain ⟨clients', hswap, hfds⟩ :=
            swapFds_eq clients (by omega : i < n) (by omega : j' < n)
          obtain ⟨clients'', hrest, hclosed⟩ := ih (i := i + 1) clients'
            (by omega : j' + (removedCount' + 1) = count) (by omega) (by omega)
          refine ⟨clients'', ?_, ?_⟩
          · simp only [if_pos hmark, skipRemoved_eq clients i (by omega : j < n), hskip, hswap,
              Option.bind_some, hrest]
          · rw [if_pos (by exact hmark), hskip, hclosed, hfds]
        · obtain ⟨clients', hrest, hclosed⟩ := ih (i := i + 1) clients hsum (by omega) (by omega)
          rw [hpred j (by omega)] at hrest
          exact ⟨clients', by rw [if_neg hmark, hrest], by rw [if_neg (by exact hmark), hclosed]⟩
      · rw [if_neg (mt hiff.mp hloop), if_neg hloop]
        exact ⟨clients, rfl, rfl⟩

end Bounds

end UnixLabs.Lab31
