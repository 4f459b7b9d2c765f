import UnixLabs.Library.SlotTable
import UnixLabs.Lab33.ServerManagement

/-!
`lab33/usual_server_management.c`: the clients of the server program.

It is the proxy's `server_management.c` for clients that have a single descriptor
and no buffers. The constants of the two headers are the same.
-/

namespace UnixLabs.Lab33.Usual

open Library

def pollClientIndex (i : ℤ) : ℤ := i + pollClientOffset

structure Server where
  clients : CArray (maxClients + pollClientOffset) Pollfd
  clientCount : ℕ
  idTable : CArray maxClients ℤ
  indexToId : CArray maxClients ℤ

def isValidId (s : Server) (id : ℕ) : Bool :=
  id < maxClients && s.idTable.cells id ≠ removedClient

def getClient (s : Server) (id : ℕ) : Option ℤ :=
  if !isValidId s id then none else some (pollClientIndex (s.idTable.cells id))

def builtServer (listenFd : ℤ) : Server where
  clients := ⟨fun k => if k = pollListenerIndex then ⟨listenFd, pollIn, 0⟩ else freeSlot⟩
  clientCount := 0
  idTable := CArray.fill maxClients removedClient
  indexToId := CArray.fill maxClients noId

def swapPoll (clients : CArray (maxClients + pollClientOffset) Pollfd) (lhs rhs : ℤ) :
    Option (CArray (maxClients + pollClientOffset) Pollfd) := do
  let left ← clients.load lhs
  let right ← clients.load rhs
  let clients ← clients.store lhs right
  clients.store rhs left

def disconnectClient (s : Server) (id : ℕ) : Option Server :=
  if !isValidId s id then some s
  else do
    let client ← getClient s id
    let slot ← s.clients.load client
    if slot.fd = removedClient then some s
    else do
      let clients ← s.clients.store client { slot with fd := removedClient }
      some { s with clients }

def removeClient (s : Server) (id : ℕ) : Option Server :=
  if !isValidId s id then some s
  else do
    let s ← disconnectClient s id
    let s := { s with clientCount := s.clientCount - 1 }
    let s ←
      if s.clientCount ≠ 0 then do
        let lastId ← s.indexToId.load s.clientCount
        let lhs ← getClient s id
        let rhs ← getClient s (sizeT lastId)
        let clients ← swapPoll s.clients lhs rhs
        let index ← s.idTable.load id
        let indexToId ← s.indexToId.store index lastId
        let idTable ← s.idTable.store lastId index
        some { s with clients, idTable, indexToId }
      else some s
    let indexToId ← s.indexToId.store s.clientCount noId
    let idTable ← s.idTable.store id removedClient
    some { s with idTable, indexToId }

def nextId (s : Server) : ℤ :=
  match (List.range maxClients).find? fun i => s.idTable.cells i = removedClient with
  | some i => i
  | none => noId

def addClient (s : Server) (clientFd : ℤ) : Option (ℤ × Server) :=
  if clientFd < 0 then some (noId, s)
  else
    let id := nextId s
    if id = noId then some (noId, s)
    else do
      let idTable ← s.idTable.store id s.clientCount
      let indexToId ← s.indexToId.store s.clientCount id
      let s := { s with idTable, indexToId }
      let client ← getClient s (sizeT id)
      let slot ← s.clients.load client
      let clients ← s.clients.store client { slot with fd := clientFd }
      some (id, { s with clients, clientCount := s.clientCount + 1 })

structure Tables (s : Server) (ids : List ℕ) : Prop where
  count : s.clientCount = ids.length
  indexed : Indexed maxClients removedClient noId s.idTable.cells s.indexToId.cells ids

theorem pollClientIndex_natCast (p : ℕ) : pollClientIndex p = ((p + 1 : ℕ) : ℤ) := by
  unfold pollClientIndex pollClientOffset
  omega

def disconnected (s : Server) (p : ℕ) : CArray (maxClients + pollClientOffset) Pollfd :=
  ⟨Function.update s.clients.cells (p + 1) { s.clients.cells (p + 1) with fd := removedClient }⟩

namespace Tables

variable {s : Server} {ids : List ℕ}

theorem built (listenFd : ℤ) : Tables (builtServer listenFd) [] where
  count := rfl
  indexed := Indexed.empty (fun _ _ => rfl) (fun _ _ => rfl)

theorem isValidId_iff (h : Tables s ids) {id : ℕ} : isValidId s id = true ↔ id ∈ ids := by
  simp only [isValidId, Bool.and_eq_true, decide_eq_true_eq]
  exact h.indexed.active_iff (by decide)

theorem getClient_eq (h : Tables s ids) {p : ℕ} (hp : p < ids.length) :
    getClient s ids[p] = some ((p + 1 : ℕ) : ℤ) := by
  rw [getClient, h.isValidId_iff.mpr (List.getElem_mem hp), h.indexed.index_eq p hp,
    pollClientIndex_natCast]
  rfl

theorem slot_lt (h : Tables s ids) {p : ℕ} (hp : p < ids.length) :
    p + 1 < maxClients + pollClientOffset := by
  have := h.indexed.length_le
  unfold pollClientOffset
  omega

/-- `disconnect_client` leaves the client at index `p` without its descriptor. -/
theorem disconnectClient_eq (h : Tables s ids) {p : ℕ} (hp : p < ids.length) :
    disconnectClient s ids[p] = some { s with clients := disconnected s p } := by
  have hslot := h.slot_lt hp
  simp only [disconnectClient, h.isValidId_iff.mpr (List.getElem_mem hp), Bool.not_true,
    Bool.false_eq_true, if_false, h.getClient_eq hp, Option.bind_eq_bind, Option.bind_some,
    CArray.load_of_lt _ hslot]
  split_ifs with hfd
  · -- the write would change nothing
    rw [disconnected, ← hfd, Function.update_eq_self]
  · rw [CArray.store_of_lt _ _ hslot, Option.bind_some]
    rfl

theorem swapPoll_eq (c : CArray (maxClients + pollClientOffset) Pollfd) {l r : ℕ}
    (hl : l < maxClients + pollClientOffset) (hr : r < maxClients + pollClientOffset) :
    swapPoll c l r = some ⟨swapCells c.cells l r⟩ := by
  simp only [swapPoll, c.load_of_lt hl, c.load_of_lt hr, Option.bind_eq_bind, Option.bind_some,
    CArray.store_of_lt _ _ hl, CArray.store_of_lt _ _ hr]
  rfl

theorem removeClient_eq (h : Tables s ids) {p : ℕ} (hp : p < ids.length) :
    ∃ s', removeClient s ids[p] = some s' ∧ Tables s' (swapRemove ids p) ∧
      s'.clients.cells = swapCells (disconnected s p).cells (p + 1) ids.length := by
  have hlen := h.indexed.length_le
  have hlt := h.indexed.lt _ (List.getElem_mem hp)
  have hlast : ids[ids.length - 1] < maxClients := h.indexed.lt _ (List.getElem_mem _)
  have hcount : ids.length - 1 = (swapRemove ids p).length := (length_swapRemove _ _).symm
  simp only [removeClient, h.isValidId_iff.mpr (List.getElem_mem hp), Bool.not_true,
    Bool.false_eq_true, if_false, h.disconnectClient_eq hp, Option.bind_eq_bind, Option.bind_some,
    h.count]
  by_cases hone : ids.length - 1 = 0
  · -- the only client: nothing to exchange
    have hp0 : p = 0 := by omega
    subst hp0
    simp only [hone, ne_eq, not_true_eq_false, if_false]
    rw [CArray.store_of_lt _ _ (show 0 < maxClients by decide), Option.bind_some,
      CArray.store_of_lt _ _ hlt]
    refine ⟨_, rfl, ⟨by simp [← hcount, hone], ?_⟩, ?_⟩
    · have hindexed := h.indexed.remove hp
      simp only [hone, Function.update_idem] at hindexed
      exact hindexed
    · have hlength : ids.length = 0 + 1 := by omega
      rw [hlength, swapCells_self]
  · -- the exchange with the last slot, whose client takes the free index
    have hcell : s.indexToId.cells (ids.length - 1) = (ids[ids.length - 1] : ℤ) :=
      h.indexed.key_eq _ (by omega)
    have hget : ∀ (n q : ℕ) (hq : q < ids.length),
        getClient { s with clients := disconnected s p, clientCount := n } ids[q] =
          some ((q + 1 : ℕ) : ℤ) :=
      fun _ _ hq => h.getClient_eq hq
    simp only [ne_eq, hone, not_false_eq_true, if_true]
    rw [CArray.load_of_lt _ (show ids.length - 1 < maxClients by omega), hcell]
    simp only [Option.bind_some, sizeT_natCast (show ids[ids.length - 1] < 2 ^ 64 by
      unfold maxClients at hlast; omega)]
    rw [hget _ p hp, hget _ (ids.length - 1) (by omega)]
    simp only [Option.bind_some]
    rw [swapPoll_eq _ (h.slot_lt hp) (h.slot_lt (by omega)), Option.bind_some,
      CArray.load_of_lt _ hlt, h.indexed.index_eq p hp, Option.bind_some,
      CArray.store_of_lt _ _ (show p < maxClients by omega), Option.bind_some,
      CArray.store_of_lt _ _ hlast]
    simp only [Option.bind_some]
    rw [CArray.store_of_lt _ _ (show ids.length - 1 < maxClients by omega), Option.bind_some,
      CArray.store_of_lt _ _ hlt]
    refine ⟨_, rfl, ⟨hcount, h.indexed.remove hp⟩, ?_⟩
    rw [Nat.sub_add_cancel (by omega : 1 ≤ ids.length)]

theorem nextId_spec (h : Tables s ids) (hlen : ids.length < maxClients) :
    ∃ id : ℕ, nextId s = id ∧ id < maxClients ∧ id ∉ ids := by
  obtain ⟨id, hfind, hid, hfresh⟩ := h.indexed.find?_fresh (by decide) hlen
  refine ⟨id, ?_, hid, hfresh⟩
  unfold nextId
  rw [hfind]

theorem nextId_full (h : Tables s ids) (hlen : ids.length = maxClients) : nextId s = noId := by
  unfold nextId
  rw [h.indexed.find?_full (by decide) hlen]

theorem addClient_eq (h : Tables s ids) (hlen : ids.length < maxClients) {fd : ℤ}
    (hfd : 0 ≤ fd) :
    ∃ (id : ℕ) (s' : Server), addClient s fd = some ((id : ℤ), s') ∧ Tables s' (ids ++ [id]) ∧
      s'.clients.cells = Function.update s.clients.cells (ids.length + 1)
        { s.clients.cells (ids.length + 1) with fd } := by
  obtain ⟨id, hnext, hid, hfresh⟩ := h.nextId_spec hlen
  have hne : (id : ℤ) ≠ noId := by unfold noId; omega
  have hcount : s.clientCount < maxClients := by rw [h.count]; exact hlen
  have hslot : s.clientCount + 1 < maxClients + pollClientOffset := by
    unfold pollClientOffset
    omega
  have hvalid : ∀ key : CArray maxClients ℤ, isValidId { s with
      idTable := ⟨Function.update s.idTable.cells id s.clientCount⟩, indexToId := key } id =
        true := by
    intro key
    simp only [isValidId, Function.update_self, Bool.and_eq_true, decide_eq_true_eq]
    exact ⟨hid, by unfold removedClient; omega⟩
  simp only [addClient, hnext, hne, if_false, Option.bind_eq_bind, not_lt.mpr hfd]
  simp only [CArray.store_of_lt _ _ hid, CArray.store_of_lt _ _ hcount, Option.bind_some,
    sizeT_natCast (show id < 2 ^ 64 by unfold maxClients at hid; omega), getClient, hvalid,
    Bool.not_true, Bool.false_eq_true, if_false, Function.update_self, pollClientIndex_natCast,
    CArray.load_of_lt _ hslot, CArray.store_of_lt _ _ hslot]
  refine ⟨id, _, rfl, ⟨by simp [h.count], ?_⟩, by simp only [h.count]⟩
  simpa only [h.count] using h.indexed.push hid hfresh

end Tables

end UnixLabs.Lab33.Usual
