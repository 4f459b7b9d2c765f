import UnixLabs.Library.Compaction
import UnixLabs.Library.Run
import UnixLabs.Lab33.ServerManagement

/-!
The table of ids in `lab33-proxy.c` and `lab33-server.c`.

Both programs keep next to their `Server` a list of its ids in `id_table`. While a
round visits them, the ids of removed clients are overwritten with
`REMOVED_CLIENT`; `commit_remove` then closes the gaps. The functions are the same
in both files, so they are given here once, over the type of the server.
-/

namespace UnixLabs.Lab33

open Library

structure ProxyServer (σ : Type) where
  server : σ
  idTable : CArray maxClients ℤ
  clientCount : ℕ
  removedCount : ℕ

/-- `id_table[i]` for an index that is in use, of `n`. -/
def entry (t : CArray maxClients ℤ) (n i : ℕ) : Option ℤ := if i < n then t.load i else none

def skipRemoved (t : CArray maxClients ℤ) (n i : ℕ) : ℕ → ℕ → Option (ℕ × ℕ)
  | 0, removed => (entry t n 0).map fun _ => (0, removed)
  | j + 1, removed => do
      let id ← entry t n (j + 1)
      if id = removedClient ∧ j + 1 > i then skipRemoved t n i j (removed + 1)
      else some (j + 1, removed)

def compactFrom (n removedCount : ℕ) :
    ℕ → ℕ → ℕ → ℕ → CArray maxClients ℤ → Option (CArray maxClients ℤ)
  | 0, _, _, _, _ => none
  | fuel + 1, i, j, removed, t =>
      if i < j ∧ removed < removedCount then do
        let id ← entry t n i
        if id = removedClient then do
          let (j, removed) ← skipRemoved t n i j removed
          let left ← entry t n i
          let right ← entry t n j
          let t ← t.store i right
          let t ← t.store j left
          compactFrom n removedCount fuel (i + 1) (sizeT ((j : ℤ) - 1)) (removed + 1) t
        else compactFrom n removedCount fuel (i + 1) j removed t
      else some t

namespace ProxyServer

variable {σ α : Type}

def prInitServer (server : σ) : ProxyServer σ :=
  ⟨server, CArray.fill maxClients removedClient, 0, 0⟩

/-- `commit_remove`. Of the indices in use the outer loop visits each at most once. -/
def commitRemove (p : ProxyServer σ) : Option (ProxyServer σ) := do
  let n := p.clientCount
  let idTable ← compactFrom n p.removedCount (n + 1) 0 (sizeT ((n : ℤ) - 1)) 0 p.idTable
  some { p with
    idTable
    clientCount := sizeT ((n : ℤ) - p.removedCount)
    removedCount := 0 }

def prRemoveClient (removeClient : σ → ℕ → Option σ) (p : ProxyServer σ) (i : ℕ) :
    Option (ProxyServer σ) := do
  let id ← entry p.idTable p.clientCount i
  if id = removedClient then some p
  else do
    let server ← removeClient p.server (sizeT id)
    let idTable ← p.idTable.store i removedClient
    some { p with server, idTable, removedCount := p.removedCount + 1 }

def listClient (addClient : σ → α → Option (ℤ × σ)) (p : ProxyServer σ) (fds : α) :
    Option (ProxyServer σ) := do
  let (id, server) ← addClient p.server fds
  if id = noId then some { p with server }
  else do
    let idTable ← p.idTable.store p.clientCount id
    some { p with server, idTable, clientCount := p.clientCount + 1 }

end ProxyServer

/-! ### Closing the gaps -/

theorem entry_of_lt {t : CArray maxClients ℤ} {n i : ℕ} (hn : n ≤ maxClients) (h : i < n) :
    entry t n i = some (t.cells i) := by
  rw [entry, if_pos h, CArray.load_of_lt _ (by omega)]

theorem skipRemoved_eq {t : CArray maxClients ℤ} {n : ℕ} (hn : n ≤ maxClients) (i : ℕ) {j : ℕ}
    (hj : j < n) (removed : ℕ) :
    skipRemoved t n i j removed = some (skipMarks removedClient t.cells i j removed) := by
  induction j generalizing removed with
  | zero => rw [skipRemoved, entry_of_lt hn hj, Option.map_some, skipMarks]
  | succ j ih =>
      simp only [skipRemoved, entry_of_lt hn hj, Option.bind_eq_bind, Option.bind_some, skipMarks]
      split_ifs
      · exact ih (by omega) (removed + 1)
      · rfl

theorem exchange_eq {t : CArray maxClients ℤ} {i j : ℕ} (hi : i < maxClients)
    (hj : j < maxClients) : ((t.store i (t.cells j)).bind fun t' => t'.store j (t.cells i)) =
      some ⟨swapCells t.cells i j⟩ := by
  rw [CArray.store_of_lt _ _ hi, Option.bind_some, CArray.store_of_lt _ _ hj]
  rfl

theorem sizeT_pred {n m : ℕ} (hn : n ≤ maxClients) (hm : m < n) :
    sizeT (((m + 1 : ℕ) : ℤ) - 1) = m := by
  unfold maxClients at hn
  rw [Nat.cast_succ, add_sub_cancel_right, sizeT_natCast (by omega)]

/-- The outer loop is that of the library. Once `j` passes below zero all marks are
counted. -/
theorem compactFrom_eq {n removedCount : ℕ} (hn : n ≤ maxClients) (hle : removedCount ≤ n)
    {fuel i m removed : ℕ} (t : CArray maxClients ℤ) (hsum : m + removed = n)
    (hfuel : n < fuel + i) (hpos : 0 < fuel) :
    compactFrom n removedCount fuel i (sizeT ((m : ℤ) - 1)) removed t =
      some ⟨closeGaps removedClient removedCount fuel i m removed t.cells⟩ := by
  induction fuel generalizing i m removed t with
  | zero => omega
  | succ fuel ih =>
      have hiff : (i < sizeT ((m : ℤ) - 1) ∧ removed < removedCount) ↔
          i + 1 < m ∧ removed < removedCount := by
        cases m with
        | zero => omega
        | succ r =>
            rw [sizeT_pred hn (by omega : r < n)]
            omega
      rw [compactFrom, closeGaps]
      by_cases hloop : i + 1 < m ∧ removed < removedCount
      · rw [if_pos (hiff.mpr hloop), if_pos hloop]
        obtain ⟨r, rfl⟩ : ∃ r, m = r + 1 := ⟨m - 1, by omega⟩
        rw [sizeT_pred hn (by omega : r < n), Nat.add_sub_cancel, entry_of_lt hn (by omega : i < n),
          skipRemoved_eq hn i (by omega : r < n)]
        simp only [Option.bind_eq_bind, Option.bind_some]
        by_cases hmark : t.cells i = removedClient
        · obtain ⟨j, removed', hskip, hij, hjr, hsum', -⟩ :=
            skipMarks_spec removedClient t.cells (by omega : i ≤ r) removed
          rw [if_pos hmark, if_pos hmark, hskip]
          simp only [entry_of_lt hn (by omega : j < n), Option.bind_some]
          rw [← Option.bind_assoc, exchange_eq (by omega) (by omega), Option.bind_some]
          exact ih _ (by omega) (by omega) (by omega)
        · have hrest := ih (i := i + 1) t hsum (by omega) (by omega)
          rw [sizeT_pred hn (by omega : r < n)] at hrest
          rw [if_neg hmark, if_neg hmark, hrest]
      · rw [if_neg (mt hiff.mp hloop), if_neg hloop]

namespace ProxyServer

variable {σ α : Type}

/-- `commit_remove` keeps the entries that are left, and nothing else, whatever the
pattern of the marks. -/
theorem commitRemove_spec {p : ProxyServer σ} (hn : p.clientCount ≤ maxClients)
    (hcount : marked removedClient p.idTable.cells p.clientCount = p.removedCount) :
    ∃ idTable, commitRemove p = some { p with
        idTable, clientCount := p.clientCount - p.removedCount, removedCount := 0 } ∧
      (firstCells idTable.cells (p.clientCount - p.removedCount)).Perm
        (live removedClient p.idTable.cells p.clientCount) ∧
      ∀ i < p.clientCount - p.removedCount, idTable.cells i ≠ removedClient := by
  have hle : p.removedCount ≤ p.clientCount := by
    have hlength : (live removedClient p.idTable.cells p.clientCount).length +
        marked removedClient p.idTable.cells p.clientCount = p.clientCount := length_live
    omega
  have hcompact := compactFrom_eq hn hle p.idTable (Nat.add_zero _)
    (by omega : p.clientCount < p.clientCount + 1 + 0) (Nat.succ_pos p.clientCount)
  have hstart : Compacting removedClient p.clientCount p.removedCount 0 p.clientCount 0
      p.idTable.cells := .start (fun k hk => absurd hk k.not_lt_zero) hcount
  obtain ⟨hperm, htail⟩ := hstart.closeGaps_spec
    (by omega : p.clientCount < p.clientCount + 1 + 0) (Nat.succ_pos p.clientCount)
  have hmarked : marked removedClient (closeGaps removedClient p.removedCount (p.clientCount + 1) 0
      p.clientCount 0 p.idTable.cells) p.clientCount = p.removedCount :=
    (hperm.count_eq removedClient).trans hcount
  obtain ⟨hlive, hnone⟩ := live_of_marked_tail (by omega) htail
  refine ⟨⟨closeGaps removedClient p.removedCount (p.clientCount + 1) 0 p.clientCount 0
    p.idTable.cells⟩, ?_, ?_, hnone⟩
  · have hsize : sizeT ((p.clientCount : ℤ) - p.removedCount) =
        p.clientCount - p.removedCount := by
      unfold maxClients at hn
      rw [← Nat.cast_sub hle, sizeT_natCast (by omega)]
    simp only [commitRemove, hcompact, hsize, Option.bind_eq_bind, Option.bind_some]
  · rw [← hlive]
    exact hperm.filter _

/-! ### Accepting and removing -/

theorem prRemoveClient_cells {removeClient : σ → ℕ → Option σ} {p p' : ProxyServer σ} {i : ℕ}
    (h : prRemoveClient removeClient p i = some p') :
    p'.idTable.cells = Function.update p.idTable.cells i removedClient := by
  obtain ⟨id, hentry, h⟩ := Option.bind_eq_some_iff.mp h
  have hid : p.idTable.cells i = id := by
    rw [entry] at hentry
    split_ifs at hentry
    exact CArray.cells_of_load hentry
  rcases eq_or_ne id removedClient with hmark | hleft
  · rw [if_pos hmark] at h
    cases h
    rw [← hmark, ← hid, Function.update_eq_self]
  · rw [if_neg hleft] at h
    obtain ⟨server, -, h⟩ := Option.bind_eq_some_iff.mp h
    obtain ⟨idTable, hstore, heq⟩ := Option.bind_eq_some_iff.mp h
    cases heq
    exact CArray.cells_of_store hstore

/-- What the table relies on: `Active s ids` says that `ids` are the active ids of the
server, and the two functions change them by one id. -/
structure Manages (Active : σ → List ℕ → Prop) (addClient : σ → α → Option (ℤ × σ))
    (removeClient : σ → ℕ → Option σ) : Prop where
  nodup : ∀ s ids, Active s ids → ids.Nodup
  lt : ∀ s ids, Active s ids → ∀ id ∈ ids, id < maxClients
  length_le : ∀ s ids, Active s ids → ids.length ≤ maxClients
  add : ∀ s ids fds, Active s ids →
    (∃ s', addClient s fds = some (noId, s') ∧ Active s' ids) ∨
      ∃ (id : ℕ) (s' : σ), addClient s fds = some ((id : ℤ), s') ∧ Active s' (ids ++ [id])
  remove : ∀ s ids id, Active s ids → id ∈ ids →
    ∃ s' ids', removeClient s id = some s' ∧ Active s' ids' ∧ (id :: ids').Perm ids

/-- `id_table` lists the active ids, next to the marks of a round in progress. -/
structure Lists (Active : σ → List ℕ → Prop) (p : ProxyServer σ) (ids : List ℕ) : Prop where
  active : Active p.server ids
  listed : (live removedClient p.idTable.cells p.clientCount).Perm (ids.map Nat.cast)
  removed : marked removedClient p.idTable.cells p.clientCount = p.removedCount
  count_le : p.clientCount ≤ maxClients

section Steps

variable {Active : σ → List ℕ → Prop} {addClient : σ → α → Option (ℤ × σ)}
  {removeClient : σ → ℕ → Option σ} {p : ProxyServer σ} {ids : List ℕ}

theorem Lists.entry_active (h : Lists Active p ids) {i : ℕ} (hi : i < p.clientCount)
    (hleft : p.idTable.cells i ≠ removedClient) : ∃ id ∈ ids, p.idTable.cells i = (id : ℤ) := by
  have hmem : p.idTable.cells i ∈ live removedClient p.idTable.cells p.clientCount :=
    mem_live.mpr ⟨mem_firstCells.mpr ⟨i, hi, rfl⟩, hleft⟩
  obtain ⟨id, hid, he⟩ := List.mem_map.mp (h.listed.mem_iff.mp hmem)
  exact ⟨id, hid, he.symm⟩

theorem Lists.clientCount_eq (h : Lists Active p ids) (hzero : p.removedCount = 0) :
    p.clientCount = ids.length := by
  have hlength : (live removedClient p.idTable.cells p.clientCount).length +
      marked removedClient p.idTable.cells p.clientCount = p.clientCount := length_live
  rw [h.listed.length_eq, List.length_map, h.removed, hzero] at hlength
  exact hlength.symm

theorem Lists.listClient (hm : Manages Active addClient removeClient) (h : Lists Active p ids)
    (hzero : p.removedCount = 0) (fds : α) :
    ∃ p' ids', listClient addClient p fds = some p' ∧ Lists Active p' ids' ∧
      p'.removedCount = 0 := by
  rcases hm.add _ _ fds h.active with ⟨s', hadd, hactive⟩ | ⟨id, s', hadd, hactive⟩
  · refine ⟨{ p with server := s' }, ids, ?_, ⟨hactive, h.listed, h.removed, h.count_le⟩, hzero⟩
    simp only [ProxyServer.listClient, hadd, Option.bind_eq_bind, Option.bind_some, if_true]
  · have hne : (id : ℤ) ≠ noId := by unfold noId; omega
    have hleft : (id : ℤ) ≠ removedClient := by unfold removedClient; omega
    have hroom : p.clientCount < maxClients := by
      have := hm.length_le _ _ hactive
      rw [List.length_append, List.length_singleton] at this
      rw [h.clientCount_eq hzero]
      omega
    refine ⟨{ p with
        server := s'
        idTable := ⟨Function.update p.idTable.cells p.clientCount id⟩
        clientCount := p.clientCount + 1 }, ids ++ [id], ?_, ⟨hactive, ?_, ?_, hroom⟩, hzero⟩
    · simp only [ProxyServer.listClient, hadd, Option.bind_eq_bind, Option.bind_some, if_neg hne,
        CArray.store_of_lt _ _ hroom]
    · simp only [live_push hleft, List.map_append, List.map_cons, List.map_nil]
      exact h.listed.append_right _
    · simp only [marked_push hleft]
      exact h.removed

theorem Lists.prRemoveClient (hm : Manages Active addClient removeClient)
    (h : Lists Active p ids) {i : ℕ} (hi : i < p.clientCount) :
    ∃ p' ids', prRemoveClient removeClient p i = some p' ∧ Lists Active p' ids' ∧
      p'.clientCount = p.clientCount ∧
      ∀ k ≠ i, p'.idTable.cells k = p.idTable.cells k := by
  have hentry := entry_of_lt (t := p.idTable) h.count_le hi
  by_cases hmark : p.idTable.cells i = removedClient
  · refine ⟨p, ids, ?_, h, rfl, fun _ _ => rfl⟩
    simp only [ProxyServer.prRemoveClient, hentry, Option.bind_eq_bind, Option.bind_some,
      if_pos hmark]
  · obtain ⟨id, hid, he⟩ := h.entry_active hi hmark
    obtain ⟨s', ids', hremove, hactive, hperm⟩ := hm.remove _ _ _ h.active hid
    have hlt := hm.lt _ _ h.active id hid
    have hsize : sizeT (p.idTable.cells i) = id := by
      unfold maxClients at hlt
      rw [he, sizeT_natCast (by omega)]
    refine ⟨{ p with
        server := s'
        idTable := ⟨Function.update p.idTable.cells i removedClient⟩
        removedCount := p.removedCount + 1 }, ids', ?_, ⟨hactive, ?_, ?_, h.count_le⟩, rfl,
      fun k hk => Function.update_of_ne hk _ _⟩
    · simp only [ProxyServer.prRemoveClient, hentry, Option.bind_eq_bind, Option.bind_some,
        if_neg hmark, hsize, hremove, CArray.store_of_lt _ _ (hi.trans_le h.count_le)]
    · have hleft := (live_mark hi hmark).trans h.listed
      rw [he] at hleft
      exact (hleft.trans (hperm.map Nat.cast).symm).cons_inv
    · simp only [marked_mark hi hmark, h.removed]

theorem Lists.commitRemove (h : Lists Active p ids) :
    ∃ p', commitRemove p = some p' ∧ Lists Active p' ids ∧ p'.removedCount = 0 := by
  obtain ⟨t, hcommit, hperm, hnone⟩ := commitRemove_spec h.count_le h.removed
  refine ⟨_, hcommit, ⟨h.active, ?_, ?_, ?_⟩, rfl⟩
  · rw [live_eq_firstCells hnone]
    exact hperm.trans h.listed
  · exact marked_eq_zero_iff.mpr hnone
  · exact (Nat.sub_le _ _).trans h.count_le

end Steps

/-! ### Runs -/

inductive TableOp (α : Type)
  | accept (fds : α)
  | round (removes : ℕ → Bool)

def removeRound (removeClient : σ → ℕ → Option σ) (removes : ℕ → Bool) (p : ProxyServer σ) :
    Option (ProxyServer σ) :=
  (run (prRemoveClient removeClient) p ((List.range p.clientCount).filter removes)).bind
    commitRemove

def tableStep (addClient : σ → α → Option (ℤ × σ)) (removeClient : σ → ℕ → Option σ)
    (p : ProxyServer σ) : TableOp α → Option (ProxyServer σ)
  | .accept fds => listClient addClient p fds
  | .round removes => removeRound removeClient removes p

/-- `id_table[0..client_count)` is a list of exactly the active ids, without marks
and without repetition. -/
structure ListsActive (isActive : σ → ℕ → Bool) (p : ProxyServer σ) : Prop where
  no_mark : ∀ i < p.clientCount, p.idTable.cells i ≠ removedClient
  nodup : (firstCells p.idTable.cells p.clientCount).Nodup
  mem_iff : ∀ x, x ∈ firstCells p.idTable.cells p.clientCount ↔
    ∃ id : ℕ, x = id ∧ isActive p.server id
  removedCount : p.removedCount = 0

section Runs

variable {Active : σ → List ℕ → Prop} {addClient : σ → α → Option (ℤ × σ)}
  {removeClient : σ → ℕ → Option σ}

theorem Lists.listsActive {p : ProxyServer σ} {ids : List ℕ}
    (hm : Manages Active addClient removeClient) {isActive : σ → ℕ → Bool}
    (hactive : ∀ s ids id, Active s ids → (isActive s id = true ↔ id ∈ ids))
    (h : Lists Active p ids) (hzero : p.removedCount = 0) : ListsActive isActive p := by
  have hnone : ∀ i < p.clientCount, p.idTable.cells i ≠ removedClient :=
    marked_eq_zero_iff.mp (h.removed.trans hzero)
  have hlisted := h.listed
  rw [live_eq_firstCells hnone] at hlisted
  refine ⟨hnone, ?_, fun x => ?_, hzero⟩
  · rw [hlisted.nodup_iff]
    exact (hm.nodup _ _ h.active).map Nat.cast_injective
  · rw [hlisted.mem_iff, List.mem_map]
    constructor
    · rintro ⟨id, hid, rfl⟩
      exact ⟨id, rfl, (hactive _ _ _ h.active).mpr hid⟩
    · rintro ⟨id, rfl, hid⟩
      exact ⟨id, (hactive _ _ _ h.active).mp hid, rfl⟩

theorem Lists.removeRound (hm : Manages Active addClient removeClient) {p : ProxyServer σ}
    {ids : List ℕ} (h : Lists Active p ids) (removes : ℕ → Bool) :
    ∃ p' ids', removeRound removeClient removes p = some p' ∧ Lists Active p' ids' ∧
      p'.removedCount = 0 := by
  have hvisits : ∀ (is : List ℕ) (q : ProxyServer σ) (ids : List ℕ), Lists Active q ids →
      (∀ i ∈ is, i < q.clientCount) →
      ∃ q' ids', run (ProxyServer.prRemoveClient removeClient) q is = some q' ∧
        Lists Active q' ids' := by
    intro is
    induction is with
    | nil => exact fun q ids hq _ => ⟨q, ids, rfl, hq⟩
    | cons i is ih =>
        intro q ids hq hlt
        obtain ⟨q₁, ids₁, hstep, hq₁, hcount, -⟩ := hq.prRemoveClient hm (hlt i List.mem_cons_self)
        obtain ⟨q', ids', hrest, hq'⟩ := ih q₁ ids₁ hq₁ fun j hj =>
          hcount ▸ hlt j (List.mem_cons_of_mem i hj)
        exact ⟨q', ids', by rw [run_cons, hstep]; exact hrest, hq'⟩
  obtain ⟨q, ids', hrun, hq⟩ := hvisits _ p ids h fun i hi =>
    List.mem_range.mp (List.mem_of_mem_filter hi)
  obtain ⟨p', hcommit, hp', hzero⟩ := hq.commitRemove
  refine ⟨p', ids', ?_, hp', hzero⟩
  rw [ProxyServer.removeRound, hrun]
  exact hcommit

theorem Lists.tableStep (hm : Manages Active addClient removeClient) {p : ProxyServer σ}
    {ids : List ℕ} (h : Lists Active p ids) (hzero : p.removedCount = 0) (op : TableOp α) :
    ∃ p' ids', tableStep addClient removeClient p op = some p' ∧ Lists Active p' ids' ∧
      p'.removedCount = 0 := by
  cases op with
  | accept fds => exact h.listClient hm hzero fds
  | round removes => exact h.removeRound hm removes

/-- Every run over a server that manages its ids is defined, and after every step the
table lists the active ids. -/
theorem listsActive_run (hm : Manages Active addClient removeClient) {isActive : σ → ℕ → Bool}
    (hactive : ∀ s ids id, Active s ids → (isActive s id = true ↔ id ∈ ids)) {server : σ}
    (hserver : Active server []) (ops : List (TableOp α)) :
    RunKeeps (ListsActive isActive) (ProxyServer.tableStep addClient removeClient)
      (prInitServer server) ops := by
  refine runKeeps_of_meets (C := fun _ _ => True)
    (I := fun p => ∃ ids, Lists Active p ids ∧ p.removedCount = 0) ?_ ?_ ?_ ?_
  · rintro p ⟨ids, h, hzero⟩
    exact h.listsActive hm hactive hzero
  · rintro p op ⟨ids, h, hzero⟩ -
    obtain ⟨p', ids', hstep, h', hzero'⟩ := h.tableStep hm hzero op
    exact ⟨p', hstep, ids', h', hzero'⟩
  · exact ⟨[], ⟨hserver, List.Perm.refl _, rfl, Nat.zero_le _⟩, rfl⟩
  · exact runMeets_of_forall (C := fun _ => True) fun _ _ => trivial

end Runs

end ProxyServer

end UnixLabs.Lab33
