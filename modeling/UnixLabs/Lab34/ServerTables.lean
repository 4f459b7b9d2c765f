import UnixLabs.Library.Run
import UnixLabs.Library.SlotTable
import UnixLabs.Lab34.ServerManagement

/-!
The tables of the server through every run of `add_client`, `disconnect_client`
and `remove_client`.

`Tables s ids` says that the server lists the clients `ids`, in the order of
their indices. Each operation is first computed on a server with such a list, as
one equation or one specification; every later statement reads those and never
unfolds the operation again.
-/

namespace UnixLabs.Lab34

open Library

/-- The tables list exactly the ids `ids`, and the client slots past the last
index are free. -/
structure Tables (s : Server) (ids : List ℕ) : Prop where
  count : s.clientCount = ids.length
  indexed : Indexed maxClients removedClient noId s.idTable.cells s.indexToId.cells ids
  free : ∀ p, ids.length ≤ p → p < maxClients →
    (s.clients.cells (p + pollClientOffset)).fd = removedClient

def Active (s : Server) (id : ℕ) : Prop :=
  id < maxClients ∧ s.idTable.cells id ≠ removedClient

instance (s : Server) (id : ℕ) : Decidable (Active s id) :=
  inferInstanceAs (Decidable (_ ∧ _))

theorem getClient_eq_none_iff {s : Server} {id : ℕ} : getClient s id = none ↔ ¬Active s id := by
  unfold getClient Active
  split_ifs with h
  · simp only [true_iff]
    rintro ⟨h₁, h₂⟩
    rcases h with h | h
    · omega
    · exact h₂ h
  · push Not at h
    simpa using h

theorem slot_eq_none {s : Server} {id : ℕ} (h : ¬Active s id) : slot s id = none := by
  rw [slot, getClient_eq_none_iff.mpr h]
  rfl

theorem clientFd_of_slot {s : Server} {id : ℕ} {pollfd : Pollfd} (h : slot s id = some pollfd) :
    clientFd s id = some pollfd.fd := by
  unfold slot at h
  unfold clientFd
  cases hc : getClient s id with
  | none => rw [hc] at h; cases h
  | some client =>
      rw [hc, Option.bind_some] at h
      simp [h]

namespace Tables

variable {s : Server} {ids : List ℕ}

theorem length_le (h : Tables s ids) : ids.length ≤ maxClients := h.indexed.length_le

theorem active_iff (h : Tables s ids) {id : ℕ} : Active s id ↔ id ∈ ids :=
  h.indexed.active_iff (by decide)

theorem getClient_eq (h : Tables s ids) {p : ℕ} (hp : p < ids.length) :
    getClient s ids[p] = some ((p + pollClientOffset : ℕ) : ℤ) := by
  have hact := h.active_iff.mpr (List.getElem_mem hp)
  unfold getClient
  rw [if_neg (by rintro (hge | he); · exact absurd hact.1 (by omega)
                 · exact hact.2 he), h.indexed.index_eq p hp]
  rfl

theorem load_slot (h : Tables s ids) (c : CArray (maxClients + 2) Pollfd) {p : ℕ}
    (hp : p < ids.length) :
    c.load ((p + pollClientOffset : ℕ) : ℤ) = some (c.cells (p + pollClientOffset)) :=
  c.load_of_lt (by have := h.length_le; unfold pollClientOffset; omega)

theorem slot_eq (h : Tables s ids) {p : ℕ} (hp : p < ids.length) :
    slot s ids[p] = some (s.clients.cells (p + pollClientOffset)) := by
  rw [slot, h.getClient_eq hp, Option.bind_some, h.load_slot _ hp]

theorem built (listenFd tunnelFd : ℤ) : Tables (builtServer listenFd tunnelFd) [] where
  count := rfl
  indexed := Indexed.empty (fun _ _ => rfl) (fun _ _ => rfl)
  free := by
    intro p _ _
    simp [builtServer, pollListenerIndex, pollTunnelIndex, pollClientOffset, freeSlot]

/-! ### One operation -/

/-- Disconnecting a listed client writes its descriptor, and nothing else. -/
theorem disconnectClient_eq (h : Tables s ids) {p : ℕ} (hp : p < ids.length) :
    disconnectClient s ids[p] = some { s with
      clients := ⟨Function.update s.clients.cells (p + pollClientOffset)
        { s.clients.cells (p + pollClientOffset) with fd := removedClient }⟩ } := by
  simp only [disconnectClient, h.getClient_eq hp, h.load_slot _ hp, Option.bind_eq_bind,
    Option.bind_some]
  split_ifs with hfd
  · -- the slot is free already, so the write would not change it
    have : ({ s.clients.cells (p + pollClientOffset) with fd := removedClient } : Pollfd) =
        s.clients.cells (p + pollClientOffset) := by rw [← hfd]
    rw [this, Function.update_eq_self]
  · have hlt : p + pollClientOffset < maxClients + 2 := by
      have := h.length_le
      unfold pollClientOffset
      omega
    rw [CArray.store_of_lt _ _ hlt]
    rfl

theorem swapPoll_eq (c : CArray (maxClients + 2) Pollfd) {l r : ℕ} (hl : l < maxClients + 2)
    (hr : r < maxClients + 2) : swapPoll c l r = some ⟨swapCells c.cells l r⟩ := by
  simp only [swapPoll, c.load_of_lt hl, c.load_of_lt hr, Option.bind_eq_bind, Option.bind_some,
    CArray.store_of_lt _ _ hl, CArray.store_of_lt _ _ hr]
  rfl

/-- The server after the client at index `p` of `ids` is removed: its descriptor
is gone, its slot has changed places with the last one, and the last id has its
index. When the last client is the only one the source skips the exchange, which
would not have changed anything. -/
def removed (s : Server) (ids : List ℕ) (p : ℕ) (hp : p < ids.length) : Server where
  clients := ⟨swapCells (Function.update s.clients.cells (p + pollClientOffset)
      { s.clients.cells (p + pollClientOffset) with fd := removedClient })
    (p + pollClientOffset) (ids.length - 1 + pollClientOffset)⟩
  clientCount := ids.length - 1
  idTable := ⟨Function.update
    (Function.update s.idTable.cells (getElem ids (ids.length - 1) (last_lt hp)) p)
    ids[p] removedClient⟩
  indexToId := ⟨Function.update
    (Function.update s.indexToId.cells p (getElem ids (ids.length - 1) (last_lt hp)))
    (ids.length - 1) noId⟩

theorem removeClient_eq (h : Tables s ids) {p : ℕ} (hp : p < ids.length) :
    removeClient s ids[p] = some (removed s ids p hp) := by
  have hlen := h.length_le
  have hlt := h.indexed.lt _ (List.getElem_mem hp)
  have hlast : ids[ids.length - 1] < maxClients := h.indexed.lt _ (List.getElem_mem _)
  simp only [removeClient, h.getClient_eq hp, h.disconnectClient_eq hp, Option.bind_eq_bind,
    Option.bind_some, h.count]
  by_cases hone : ids.length - 1 = 0
  · -- the only client: nothing to exchange
    have hp0 : p = 0 := by omega
    subst hp0
    simp only [hone, ne_eq, not_true_eq_false, if_false]
    rw [CArray.store_of_lt _ _ (show 0 < maxClients by decide), CArray.store_of_lt _ _ hlt]
    simp [removed, hone, swapCells, Function.update_idem]
  · -- the exchange with the last slot, whose client takes the free index
    have hcell : s.indexToId.cells (ids.length - 1) = (ids[ids.length - 1] : ℤ) :=
      h.indexed.key_eq _ (by omega)
    have hget : ∀ (c : CArray (maxClients + 2) Pollfd) (n q : ℕ) (hq : q < ids.length),
        getClient { s with clients := c, clientCount := n } ids[q] =
          some ((q + pollClientOffset : ℕ) : ℤ) := fun c n q hq => h.getClient_eq hq
    simp only [ne_eq, hone, not_false_eq_true, if_true]
    rw [CArray.load_of_lt _ (show ids.length - 1 < maxClients by omega), hcell]
    simp only [Option.bind_some, sizeT_natCast (show ids[ids.length - 1] < 2 ^ 64 by
      unfold maxClients at hlast; omega)]
    rw [hget _ _ p hp, hget _ _ (ids.length - 1) (by omega)]
    simp only [Option.bind_some]
    rw [swapPoll_eq _ (by unfold pollClientOffset; omega) (by unfold pollClientOffset; omega)]
    simp only [Option.bind_some]
    rw [CArray.load_of_lt _ hlt, Option.bind_some, h.indexed.index_eq p hp,
      CArray.store_of_lt _ _ (show p < maxClients by omega), Option.bind_some,
      CArray.store_of_lt _ _ hlast]
    simp only [Option.bind_some]
    rw [CArray.store_of_lt _ _ (show ids.length - 1 < maxClients by omega), Option.bind_some,
      CArray.store_of_lt _ _ hlt]
    rfl

/-- The tables after a removal list the other clients, the last one in the place
of the removed one. -/
theorem tables_removed (h : Tables s ids) {p : ℕ} (hp : p < ids.length) :
    Tables (removed s ids p hp) (swapRemove ids p) where
  count := by simp [removed]
  indexed := h.indexed.remove hp
  free := by
    intro q hq hqm
    rw [length_swapRemove] at hq
    simp only [removed, swapCells_apply, Function.update_apply]
    by_cases hlast : q = ids.length - 1
    · simp [hlast]
    · have h₁ : q + pollClientOffset ≠ ids.length - 1 + pollClientOffset := by omega
      have h₂ : q + pollClientOffset ≠ p + pollClientOffset := by omega
      simp only [h₁, h₂, if_false]
      exact h.free q (by omega) hqm

theorem slot_removed (h : Tables s ids) {p : ℕ} (hp : p < ids.length) {id : ℕ} (hid : id ∈ ids)
    (hne : id ≠ ids[p]) : slot (removed s ids p hp) id = slot s id := by
  obtain ⟨q, hq, rfl⟩ := List.getElem_of_mem hid
  have hqp : q ≠ p := fun he => hne (by simp [he])
  have htables := h.tables_removed hp
  rw [h.slot_eq hq]
  by_cases hlast : q = ids.length - 1
  · -- the last client has moved to index `p`
    have hp' : p < (swapRemove ids p).length := by rw [length_swapRemove]; omega
    have hmoved : ids[q] = (swapRemove ids p)[p] := by
      rw [getElem_swapRemove, if_pos rfl]
      simp [hlast]
    rw [hmoved, htables.slot_eq hp']
    simp only [removed, swapCells_apply]
    rw [if_neg (by omega), if_pos trivial, Function.update_of_ne (by omega), hlast]
  · have hq' : q < (swapRemove ids p).length := by rw [length_swapRemove]; omega
    have hstay : ids[q] = (swapRemove ids p)[q] := by
      rw [getElem_swapRemove, if_neg hqp, List.get_eq_getElem]
    rw [hstay, htables.slot_eq hq']
    simp [removed, swapCells_apply, hqp, hlast]

/-! ### Adding -/

/-- `next_id` finds an id that is not listed, as long as there is one. -/
theorem nextId_spec (h : Tables s ids) (hlen : ids.length < maxClients) :
    ∃ id : ℕ, nextId s = id ∧ id < maxClients ∧ id ∉ ids := by
  obtain ⟨id, hfind, hid, hfresh⟩ := h.indexed.find?_fresh (by decide) hlen
  refine ⟨id, ?_, hid, hfresh⟩
  unfold nextId
  rw [hfind]

theorem nextId_full (h : Tables s ids) (hlen : ids.length = maxClients) : nextId s = noId := by
  unfold nextId
  rw [h.indexed.find?_full (by decide) hlen]

def added (s : Server) (id : ℕ) (fd : ℤ) : Server where
  clients := ⟨Function.update s.clients.cells (s.clientCount + pollClientOffset)
    { s.clients.cells (s.clientCount + pollClientOffset) with fd }⟩
  clientCount := s.clientCount + 1
  idTable := ⟨Function.update s.idTable.cells id s.clientCount⟩
  indexToId := ⟨Function.update s.indexToId.cells s.clientCount id⟩

theorem tables_added (h : Tables s ids) {id : ℕ} (fd : ℤ) (hid : id < maxClients)
    (hfresh : id ∉ ids) : Tables (added s id fd) (ids ++ [id]) where
  count := by simp [added, h.count]
  indexed := by simpa only [added, h.count] using h.indexed.push hid hfresh
  free := by
    intro q hq hqm
    rw [List.length_append, List.length_singleton] at hq
    have hne : q + pollClientOffset ≠ s.clientCount + pollClientOffset := by
      rw [h.count]; omega
    simp only [added, Function.update_of_ne hne]
    exact h.free q (by omega) hqm

theorem addClient_eq (h : Tables s ids) (hlen : ids.length < maxClients) (fd : ℤ) :
    ∃ id : ℕ, id < maxClients ∧ id ∉ ids ∧ addClient s fd = some ((id : ℤ), added s id fd) := by
  obtain ⟨id, hnext, hid, hfresh⟩ := h.nextId_spec hlen
  refine ⟨id, hid, hfresh, ?_⟩
  have hne : (id : ℤ) ≠ noId := by unfold noId; omega
  have hcount : s.clientCount < maxClients := by rw [h.count]; exact hlen
  have hget : ∀ key : CArray maxClients ℤ, getClient { s with
      idTable := ⟨Function.update s.idTable.cells id s.clientCount⟩, indexToId := key } id =
        some ((s.clientCount + pollClientOffset : ℕ) : ℤ) := by
    intro key
    simp only [getClient, Function.update_self]
    rw [if_neg]
    · rfl
    · rintro (hge | he)
      · omega
      · unfold removedClient at he; omega
  simp only [addClient, hnext, hne, if_false, Option.bind_eq_bind]
  rw [CArray.store_of_lt _ _ hid]
  simp only [Option.bind_some]
  rw [CArray.store_of_lt _ _ hcount]
  simp only [Option.bind_some]
  rw [sizeT_natCast (by unfold maxClients at hid; omega), hget]
  simp only [Option.bind_some]
  have hslot : s.clientCount + pollClientOffset < maxClients + 2 := by
    unfold pollClientOffset; omega
  rw [CArray.load_of_lt _ hslot]
  simp only [Option.bind_some]
  rw [CArray.store_of_lt _ _ hslot]
  rfl

theorem lt_of_not_isFull (h : Tables s ids) (hfull : ¬isFull s) : ids.length < maxClients := by
  have hle := h.length_le
  have hne : s.clientCount ≠ maxClients := fun he => hfull (by simp [isFull, he])
  rw [h.count] at hne
  omega

theorem addClient_full (h : Tables s ids) (hlen : ids.length = maxClients) (fd : ℤ) :
    addClient s fd = some (noId, s) := by
  simp [addClient, h.nextId_full hlen]

theorem slot_added_self (h : Tables s ids) {id : ℕ} (fd : ℤ) (hid : id < maxClients)
    (hfresh : id ∉ ids) : (slot (added s id fd) id).map Pollfd.fd = some fd := by
  have htables := h.tables_added fd hid hfresh
  have hp : ids.length < (ids ++ [id]).length := by simp
  have hslot := htables.slot_eq hp
  rw [List.getElem_concat_length rfl] at hslot
  rw [hslot]
  simp [added, h.count]

theorem slot_added (h : Tables s ids) {id j : ℕ} (fd : ℤ) (hid : id < maxClients)
    (hfresh : id ∉ ids) (hj : j ∈ ids) : slot (added s id fd) j = slot s j := by
  obtain ⟨q, hq, rfl⟩ := List.getElem_of_mem hj
  have htables := h.tables_added fd hid hfresh
  have hq' : q < (ids ++ [id]).length := by simp; omega
  have hslot := htables.slot_eq hq'
  rw [List.getElem_append_left hq] at hslot
  rw [hslot, h.slot_eq hq]
  have hne : q + pollClientOffset ≠ s.clientCount + pollClientOffset := by rw [h.count]; omega
  simp [added, Function.update_of_ne hne]

/-! ### Disconnecting -/

def disconnected (s : Server) (p : ℕ) : Server := { s with
  clients := ⟨Function.update s.clients.cells (p + pollClientOffset)
    { s.clients.cells (p + pollClientOffset) with fd := removedClient }⟩ }

theorem tables_disconnected (h : Tables s ids) {p : ℕ} (hp : p < ids.length) :
    Tables (disconnected s p) ids where
  count := h.count
  indexed := h.indexed
  free := by
    intro q hq hqm
    simp only [disconnected]
    rw [Function.update_of_ne (by omega)]
    exact h.free q hq hqm

theorem slot_disconnected_eq (h : Tables s ids) {p : ℕ} (hp : p < ids.length) :
    slot (disconnected s p) ids[p] =
      (slot s ids[p]).map fun pollfd => { pollfd with fd := removedClient } := by
  rw [(h.tables_disconnected hp).slot_eq hp, h.slot_eq hp]
  simp [disconnected]

theorem slot_disconnected_self (h : Tables s ids) {p : ℕ} (hp : p < ids.length) :
    (slot (disconnected s p) ids[p]).map Pollfd.fd = some removedClient := by
  rw [h.slot_disconnected_eq hp, h.slot_eq hp]
  rfl

theorem slot_disconnected (h : Tables s ids) {p : ℕ} (hp : p < ids.length) {id : ℕ}
    (hne : id ≠ ids[p]) : slot (disconnected s p) id = slot s id := by
  by_cases hid : id ∈ ids
  · obtain ⟨q, hq, rfl⟩ := List.getElem_of_mem hid
    have hqp : q ≠ p := fun he => hne (by simp [he])
    rw [(h.tables_disconnected hp).slot_eq hq, h.slot_eq hq]
    simp [disconnected, hqp]
  · rw [slot_eq_none (fun ha => hid ((h.tables_disconnected hp).active_iff.mp ha)),
      slot_eq_none (fun ha => hid (h.active_iff.mp ha))]

end Tables

theorem disconnectClient_inactive {s : Server} {id : ℕ} (h : ¬Active s id) :
    disconnectClient s id = some s := by
  simp [disconnectClient, getClient_eq_none_iff.mpr h]

theorem removeClient_inactive {s : Server} {id : ℕ} (h : ¬Active s id) :
    removeClient s id = some s := by
  simp [removeClient, getClient_eq_none_iff.mpr h]

/-! ### Runs

The abstract view of the tables is a finite map from ids to descriptors. It is
kept by the caller: an id maps to the descriptor of the `add_client` that
returned it until the id is disconnected or removed. -/

inductive TableOp
  | add (fd : ℤ)
  | disconnect (id : ℕ)
  | remove (id : ℕ)

def TableOp.target : TableOp → Option ℕ
  | .add _ => none
  | .disconnect id | .remove id => some id

/-- One operation on the server, and what its caller knows of the descriptors
afterwards. -/
def tableStep : Server × (ℕ → Option ℤ) → TableOp → Option (Server × (ℕ → Option ℤ))
  | (s, given), .add fd => (addClient s fd).map fun (id, s') =>
      (s', if id = noId then given else Function.update given id.toNat (some fd))
  | (s, given), .disconnect id => (disconnectClient s id).map fun s' =>
      (s', Function.update given id ((given id).map fun _ => removedClient))
  | (s, given), .remove id => (removeClient s id).map fun s' =>
      (s', Function.update given id none)

/-- The tables are right: they are mutually inverse between the active ids and
the indices below `client_count` and marked elsewhere, every active id has its
descriptor and the slots past the last index have none. -/
structure TablesRight (s : Server) (given : ℕ → Option ℤ) : Prop where
  count_le : s.clientCount ≤ maxClients
  id_to_index : ∀ id < maxClients, s.idTable.cells id = removedClient ∨
    ∃ p < s.clientCount, s.idTable.cells id = p ∧ s.indexToId.cells p = id
  index_to_id : ∀ p < s.clientCount, ∃ id < maxClients,
    s.indexToId.cells p = id ∧ s.idTable.cells id = p
  no_id : ∀ p, s.clientCount ≤ p → p < maxClients → s.indexToId.cells p = noId
  active_iff : ∀ id, Active s id ↔ (given id).isSome
  fd_eq : ∀ id fd, given id = some fd → clientFd s id = some fd
  free : ∀ p, s.clientCount ≤ p → p < maxClients →
    (s.clients.cells (p + pollClientOffset)).fd = removedClient

/-- The server lists some clients, and they hold what their callers gave. -/
def Holds (s : Server) (given : ℕ → Option ℤ) : Prop :=
  ∃ ids, Tables s ids ∧ (∀ id, (given id).isSome ↔ id ∈ ids) ∧
    ∀ id fd, given id = some fd → (slot s id).map Pollfd.fd = some fd

theorem Holds.tablesRight {s : Server} {given : ℕ → Option ℤ} (h : Holds s given) :
    TablesRight s given := by
  obtain ⟨ids, htables, hsome, hfd⟩ := h
  have hcount := htables.count
  refine ⟨hcount ▸ htables.length_le, ?_, ?_, ?_, ?_, ?_, ?_⟩
  · intro id hid
    by_cases hmem : id ∈ ids
    · obtain ⟨p, hp, rfl⟩ := List.getElem_of_mem hmem
      exact .inr ⟨p, hcount ▸ hp, htables.indexed.index_eq p hp, htables.indexed.key_eq p hp⟩
    · exact .inl (htables.indexed.index_none id hid hmem)
  · intro p hp
    rw [hcount] at hp
    exact ⟨ids[p], htables.indexed.lt _ (List.getElem_mem hp), htables.indexed.key_eq p hp,
      htables.indexed.index_eq p hp⟩
  · intro p hp hpm
    exact htables.indexed.key_none p (hcount ▸ hp) hpm
  · intro id
    rw [htables.active_iff, hsome]
  · intro id fd hid
    obtain ⟨pollfd, hslot, rfl⟩ := Option.map_eq_some_iff.mp (hfd id fd hid)
    exact clientFd_of_slot hslot
  · intro p hp hpm
    exact htables.free p (hcount ▸ hp) hpm

theorem given_none {given : ℕ → Option ℤ} {ids : List ℕ}
    (hsome : ∀ id, (given id).isSome ↔ id ∈ ids) {id : ℕ} (hmem : id ∉ ids) : given id = none := by
  simpa using mt (hsome id).mp hmem

theorem Holds.add {s : Server} {given : ℕ → Option ℤ} (h : Holds s given) (fd : ℤ) :
    ∃ s' given', tableStep (s, given) (.add fd) = some (s', given') ∧ Holds s' given' ∧
      ∀ id, Active s id → slot s' id = slot s id := by
  obtain ⟨ids, htables, hsome, hfd⟩ := h
  by_cases hlen : ids.length < maxClients
  · obtain ⟨id, hid, hfresh, heq⟩ := htables.addClient_eq hlen fd
    have hne : (id : ℤ) ≠ noId := by unfold noId; omega
    refine ⟨_, _, by rw [tableStep, heq]; rfl, ⟨ids ++ [id],
      htables.tables_added fd hid hfresh, ?_, ?_⟩,
      fun j hj => htables.slot_added fd hid hfresh (htables.active_iff.mp hj)⟩
    · intro j
      simp only [hne, if_false, Int.toNat_natCast, Function.update_apply, List.mem_append,
        List.mem_singleton]
      split_ifs with hj
      · simp [hj]
      · simpa [hj] using hsome j
    · intro j fd' hj
      simp only [hne, if_false, Int.toNat_natCast, Function.update_apply] at hj
      split_ifs at hj with hjid
      · cases hj
        rw [hjid]
        exact htables.slot_added_self fd hid hfresh
      · have hmem : j ∈ ids := (hsome j).mp (by simp [hj])
        rw [htables.slot_added fd hid hfresh hmem]
        exact hfd j fd' hj
  · have hfull : ids.length = maxClients := le_antisymm htables.length_le (by omega)
    exact ⟨s, given, by simp [tableStep, htables.addClient_full hfull],
      ⟨ids, htables, hsome, hfd⟩, fun _ _ => rfl⟩

theorem Holds.disconnect {s : Server} {given : ℕ → Option ℤ} (h : Holds s given) (id : ℕ) :
    ∃ s' given', tableStep (s, given) (.disconnect id) = some (s', given') ∧ Holds s' given' ∧
      ∀ j, j ≠ id → slot s' j = slot s j := by
  obtain ⟨ids, htables, hsome, hfd⟩ := h
  by_cases hmem : id ∈ ids
  · obtain ⟨p, hp, rfl⟩ := List.getElem_of_mem hmem
    refine ⟨Tables.disconnected s p, _,
      by simp only [tableStep, htables.disconnectClient_eq hp]; rfl,
      ⟨ids, htables.tables_disconnected hp, ?_, ?_⟩, fun j hj => htables.slot_disconnected hp hj⟩
    · intro j
      rw [Function.update_apply]
      split_ifs with hj
      · rw [hj, Option.isSome_map]
        exact hsome ids[p]
      · exact hsome j
    · intro j fd hj
      rw [Function.update_apply] at hj
      split_ifs at hj with hjid
      · subst hjid
        obtain ⟨_, _, rfl⟩ := Option.map_eq_some_iff.mp hj
        exact htables.slot_disconnected_self hp
      · rw [htables.slot_disconnected hp hjid]
        exact hfd j fd hj
  · have hnone := given_none hsome hmem
    refine ⟨s, given, ?_, ⟨ids, htables, hsome, hfd⟩, fun _ _ => rfl⟩
    simp only [tableStep, disconnectClient_inactive (mt htables.active_iff.mp hmem),
      Option.map_some, hnone, Option.map_none]
    rw [← hnone, Function.update_eq_self]

theorem Holds.remove {s : Server} {given : ℕ → Option ℤ} (h : Holds s given) (id : ℕ) :
    ∃ s' given', tableStep (s, given) (.remove id) = some (s', given') ∧ Holds s' given' ∧
      ∀ j, Active s j → j ≠ id → slot s' j = slot s j := by
  obtain ⟨ids, htables, hsome, hfd⟩ := h
  by_cases hmem : id ∈ ids
  · obtain ⟨p, hp, rfl⟩ := List.getElem_of_mem hmem
    have hmem' : ∀ j, j ∈ swapRemove ids p ↔ j ∈ ids ∧ j ≠ ids[p] := fun j =>
      mem_swapRemove htables.indexed.nodup hp
    refine ⟨Tables.removed s ids p hp, _, by rw [tableStep, htables.removeClient_eq hp]; rfl,
      ⟨swapRemove ids p, htables.tables_removed hp, ?_, ?_⟩,
      fun j hj hne => htables.slot_removed hp (htables.active_iff.mp hj) hne⟩
    · intro j
      rw [Function.update_apply, hmem' j]
      split_ifs with hj
      · simp [hj]
      · simpa [hj] using hsome j
    · intro j fd hj
      rw [Function.update_apply] at hj
      split_ifs at hj with hjid
      rw [htables.slot_removed hp ((hsome j).mp (by simp [hj])) hjid]
      exact hfd j fd hj
  · have hnone := given_none hsome hmem
    refine ⟨s, given, ?_, ⟨ids, htables, hsome, hfd⟩, fun _ _ _ => rfl⟩
    simp only [tableStep, removeClient_inactive (mt htables.active_iff.mp hmem),
      Option.map_some]
    rw [← hnone, Function.update_eq_self]

/-- What one operation does to a server that holds its clients: the next server
holds them too, and the slots of the other ids are as they were. -/
theorem Holds.step {s : Server} {given : ℕ → Option ℤ} (h : Holds s given) (op : TableOp) :
    ∃ s' given', tableStep (s, given) op = some (s', given') ∧ Holds s' given' ∧
      ∀ id, Active s id → op.target ≠ some id → slot s' id = slot s id := by
  cases op with
  | add fd =>
      obtain ⟨s', given', hstep, hholds, hframe⟩ := h.add fd
      exact ⟨s', given', hstep, hholds, fun j hj _ => hframe j hj⟩
  | disconnect id =>
      obtain ⟨s', given', hstep, hholds, hframe⟩ := h.disconnect id
      exact ⟨s', given', hstep, hholds, fun j _ hne => hframe j fun he =>
        hne (congrArg some he.symm)⟩
  | remove id =>
      obtain ⟨s', given', hstep, hholds, hframe⟩ := h.remove id
      exact ⟨s', given', hstep, hholds, fun j hj hne => hframe j hj fun he =>
        hne (congrArg some he.symm)⟩

/-- `add_client` answers with an id that was free, and refuses exactly when
every id is taken, leaving the server alone. -/
theorem Holds.addClient {s : Server} {given : ℕ → Option ℤ} (h : Holds s given) (fd : ℤ) :
    ∃ id s', addClient s fd = some (id, s') ∧
      (id = noId ↔ ∀ j < maxClients, Active s j) ∧ (id = noId → s' = s) ∧
      (id ≠ noId → ∃ j < maxClients, id = j ∧ ¬Active s j ∧ Active s' j) := by
  obtain ⟨ids, htables, -, -⟩ := h
  by_cases hlen : ids.length < maxClients
  · obtain ⟨j, hj, hfresh, heq⟩ := htables.addClient_eq hlen fd
    have hne : (j : ℤ) ≠ noId := by unfold noId; omega
    have hnot : ¬Active s j := mt htables.active_iff.mp hfresh
    refine ⟨j, _, heq, ⟨fun he => absurd he hne, fun hall => absurd (hall j hj) hnot⟩,
      fun he => absurd he hne, fun _ => ⟨j, hj, rfl, hnot, ?_⟩⟩
    exact (htables.tables_added fd hj hfresh).active_iff.mpr (by simp)
  · have hfull : ids.length = maxClients := le_antisymm htables.length_le (by omega)
    refine ⟨noId, s, htables.addClient_full hfull fd, ⟨fun _ j hj => ?_, fun _ => rfl⟩,
      fun _ => rfl, fun hne => absurd rfl hne⟩
    exact htables.active_iff.mpr (htables.indexed.mem_of_full hfull hj)

/-- Through every run of the three operations, on any ids, from the server
`init_server` builds: the run is defined, the tables are right, `add_client`
takes a free id or refuses on a full table only, and an operation on one id
leaves the descriptor of every other active id as it was. -/
theorem serverTables_run (listenFd tunnelFd : ℤ) (ops : List TableOp) :
    ∃ s given, run tableStep (builtServer listenFd tunnelFd, fun _ => none) ops =
        some (s, given) ∧ TablesRight s given ∧
      (∀ fd, ∃ id s', addClient s fd = some (id, s') ∧
        (id = noId ↔ ∀ j < maxClients, Active s j) ∧ (id = noId → s' = s) ∧
        (id ≠ noId → ∃ j < maxClients, id = j ∧ ¬Active s j ∧ Active s' j)) ∧
      ∀ op s' given', tableStep (s, given) op = some (s', given') →
        ∀ id, Active s id → op.target ≠ some id → clientFd s' id = clientFd s id := by
  have hstart : Holds (builtServer listenFd tunnelFd) fun _ => none :=
    ⟨[], Tables.built listenFd tunnelFd, by simp, by simp⟩
  have hsteps : ∀ (w : Server × (ℕ → Option ℤ)) (op : TableOp), Holds w.1 w.2 →
      ∃ w', tableStep w op = some w' ∧ Holds w'.1 w'.2 := by
    intro w op hw
    obtain ⟨s', given', hstep, hholds', -⟩ := Holds.step hw op
    exact ⟨(s', given'), hstep, hholds'⟩
  obtain ⟨⟨s, given⟩, hrun, hholds⟩ := @run_total _ _ tableStep (fun w => Holds w.1 w.2) hsteps
    (builtServer listenFd tunnelFd, fun _ => none) hstart ops
  refine ⟨s, given, hrun, hholds.tablesRight, hholds.addClient, ?_⟩
  intro op s' given' hstep id hid hne
  obtain ⟨s₁, given₁, hstep₁, -, hframe⟩ := hholds.step op
  rw [hstep] at hstep₁
  cases hstep₁
  have hslot := hframe id hid hne
  obtain ⟨ids, htables, -, -⟩ := hholds
  obtain ⟨p, hp, rfl⟩ := List.getElem_of_mem (htables.active_iff.mp hid)
  have hold := htables.slot_eq hp
  rw [clientFd_of_slot hold, clientFd_of_slot (hslot.trans hold)]

end UnixLabs.Lab34
