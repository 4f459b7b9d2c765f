import UnixLabs.Library.Run
import UnixLabs.Library.SlotTable
import UnixLabs.Lab33.ServerManagement

/-!
The two descriptors of a session through every run of `add_client`,
`disconnect_client` and `remove_client`.

`remove_client` moves the client slot of the last session into the hole but
leaves its server slot behind. The pairs stay together exactly as long as a
removal never has to move a connected session.
-/

namespace UnixLabs.Lab33

open Library

/-- The tables list exactly the sessions `ids`, in the order of their indices. -/
structure Tables (s : Server) (ids : List ℕ) : Prop where
  count : s.clientCount = ids.length
  indexed : Indexed maxClients removedClient noId s.idTable.cells s.indexToId.cells ids

theorem pollClientIndex_natCast (p : ℕ) : pollClientIndex p = ((2 * p + 1 : ℕ) : ℤ) := by
  unfold pollClientIndex clientIndex pollClientOffset
  omega

theorem pollServerIndex_natCast (p : ℕ) : pollServerIndex p = ((2 * p + 2 : ℕ) : ℤ) := by
  unfold pollServerIndex serverIndex pollClientOffset
  omega

/-- The session at an index loses both descriptors, unless it lost them before. -/
def disconnected (s : Server) (p : ℕ) : Server :=
  if (s.clients.cells (2 * p + 1)).fd = removedClient then s
  else { s with
    clients := ⟨Function.update (Function.update s.clients.cells (2 * p + 1)
        { s.clients.cells (2 * p + 1) with fd := removedClient }) (2 * p + 2)
      { s.clients.cells (2 * p + 2) with fd := removedClient }⟩
    closed := s.closed ++ [(s.clients.cells (2 * p + 1)).fd, (s.clients.cells (2 * p + 2)).fd] }

namespace Tables

variable {s : Server} {ids : List ℕ}

theorem length_le (h : Tables s ids) : ids.length ≤ maxClients := h.indexed.length_le

theorem isValidId_iff (h : Tables s ids) {id : ℕ} : isValidId s id = true ↔ id ∈ ids := by
  simp only [isValidId, Bool.and_eq_true, decide_eq_true_eq]
  exact h.indexed.active_iff (by decide)

theorem getClient_eq (h : Tables s ids) {p : ℕ} (hp : p < ids.length) :
    getClient s ids[p] = some ((2 * p + 1 : ℕ) : ℤ) := by
  rw [getClient, h.isValidId_iff.mpr (List.getElem_mem hp), h.indexed.index_eq p hp,
    pollClientIndex_natCast]
  rfl

theorem getServer_eq (h : Tables s ids) {p : ℕ} (hp : p < ids.length) :
    getServer s ids[p] = some ((2 * p + 2 : ℕ) : ℤ) := by
  rw [getServer, h.isValidId_iff.mpr (List.getElem_mem hp), h.indexed.index_eq p hp,
    pollServerIndex_natCast]
  rfl

theorem slots_lt (h : Tables s ids) {p : ℕ} (hp : p < ids.length) :
    2 * p + 1 < 2 * maxClients + pollClientOffset ∧
      2 * p + 2 < 2 * maxClients + pollClientOffset := by
  have := h.length_le
  unfold pollClientOffset
  omega

theorem disconnectClient_eq (h : Tables s ids) {p : ℕ} (hp : p < ids.length) :
    disconnectClient s ids[p] = some (disconnected s p) := by
  obtain ⟨hc, hs⟩ := h.slots_lt hp
  simp only [disconnectClient, h.isValidId_iff.mpr (List.getElem_mem hp), Bool.not_true,
    Bool.false_eq_true, if_false, h.getClient_eq hp, h.getServer_eq hp, Option.bind_eq_bind,
    Option.bind_some, CArray.load_of_lt _ hc, CArray.load_of_lt _ hs, disconnected]
  split_ifs with hfd
  · rfl
  · simp only [CArray.store_of_lt _ _ hc, CArray.store_of_lt _ _ hs, Option.bind_some]

theorem disconnected_fields (s : Server) (p : ℕ) :
    (disconnected s p).clientCount = s.clientCount ∧
      (disconnected s p).idTable = s.idTable ∧ (disconnected s p).indexToId = s.indexToId ∧
      (disconnected s p).ctosBuffers = s.ctosBuffers ∧
      (disconnected s p).stocBuffers = s.stocBuffers := by
  unfold disconnected
  split_ifs <;> exact ⟨rfl, rfl, rfl, rfl, rfl⟩

theorem tables_disconnected (h : Tables s ids) (p : ℕ) : Tables (disconnected s p) ids := by
  obtain ⟨hcount, hid, hix, -⟩ := disconnected_fields s p
  exact ⟨hcount ▸ h.count, by rw [hid, hix]; exact h.indexed⟩

/-- The server after the session at index `p` is removed. The client slots of
that index and the last one have changed places, the server slots have not. -/
def removed (s : Server) (ids : List ℕ) (p : ℕ) (hp : p < ids.length) : Server where
  clients := ⟨swapCells (disconnected s p).clients.cells (2 * p + 1) (2 * (ids.length - 1) + 1)⟩
  stocBuffers := ⟨Function.update s.stocBuffers.cells ids[p]
    (s.stocBuffers.cells ids[p]).freeIobuf⟩
  ctosBuffers := ⟨Function.update s.ctosBuffers.cells ids[p]
    (s.ctosBuffers.cells ids[p]).freeIobuf⟩
  clientCount := ids.length - 1
  idTable := ⟨Function.update
    (Function.update s.idTable.cells (getElem ids (ids.length - 1) (last_lt hp)) p)
    ids[p] removedClient⟩
  indexToId := ⟨Function.update
    (Function.update s.indexToId.cells p (getElem ids (ids.length - 1) (last_lt hp)))
    (ids.length - 1) noId⟩
  closed := (disconnected s p).closed

theorem swapPoll_eq (c : CArray (2 * maxClients + pollClientOffset) Pollfd) {l r : ℕ}
    (hl : l < 2 * maxClients + pollClientOffset) (hr : r < 2 * maxClients + pollClientOffset) :
    swapPoll c l r = some ⟨swapCells c.cells l r⟩ := by
  simp only [swapPoll, c.load_of_lt hl, c.load_of_lt hr, Option.bind_eq_bind, Option.bind_some,
    CArray.store_of_lt _ _ hl, CArray.store_of_lt _ _ hr]
  rfl

theorem removeClient_eq (h : Tables s ids) {p : ℕ} (hp : p < ids.length) :
    removeClient s ids[p] = some (removed s ids p hp) := by
  have hlen := h.length_le
  have hlt := h.indexed.lt _ (List.getElem_mem hp)
  have hlast : ids[ids.length - 1] < maxClients := h.indexed.lt _ (List.getElem_mem _)
  obtain ⟨hcount, hid, hix, hctos, hstoc⟩ := disconnected_fields s p
  have htab := h.tables_disconnected p
  simp only [removeClient, h.isValidId_iff.mpr (List.getElem_mem hp), Bool.not_true,
    Bool.false_eq_true, if_false, h.disconnectClient_eq hp, Option.bind_eq_bind,
    Option.bind_some, CArray.load_of_lt _ hlt, CArray.store_of_lt _ _ hlt, hcount, h.count]
  by_cases hone : ids.length - 1 = 0
  · -- the only session: nothing to exchange
    have hp0 : p = 0 := by omega
    subst hp0
    simp only [hone, ne_eq, not_true_eq_false, if_false]
    rw [CArray.store_of_lt _ _ (show 0 < maxClients by decide)]
    simp [removed, hone, swapCells, hid, hix, hctos, hstoc, Function.update_idem]
  · -- the exchange with the last client slot, whose session takes the free index
    have hcell : (disconnected s p).indexToId.cells (ids.length - 1) =
        (ids[ids.length - 1] : ℤ) := htab.indexed.key_eq _ (by omega)
    have hget : ∀ (stoc ctos : CArray maxClients IOBuffer) (n q : ℕ) (hq : q < ids.length),
        getClient
          { disconnected s p with
            stocBuffers := stoc
            ctosBuffers := ctos
            clientCount := n } ids[q] = some ((2 * q + 1 : ℕ) : ℤ) := fun _ _ _ _ hq =>
      htab.getClient_eq hq
    simp only [ne_eq, hone, not_false_eq_true, if_true]
    rw [CArray.load_of_lt _ (show ids.length - 1 < maxClients by omega), hcell]
    simp only [Option.bind_some, sizeT_natCast (show ids[ids.length - 1] < 2 ^ 64 by
      unfold maxClients at hlast; omega)]
    rw [hget _ _ _ p hp, hget _ _ _ (ids.length - 1) (by omega)]
    simp only [Option.bind_some]
    rw [swapPoll_eq _ (by unfold pollClientOffset; omega) (by unfold pollClientOffset; omega)]
    simp only [Option.bind_some]
    rw [htab.indexed.index_eq p hp, CArray.store_of_lt _ _ (show p < maxClients by omega),
      Option.bind_some, CArray.store_of_lt _ _ hlast]
    simp only [Option.bind_some]
    rw [CArray.store_of_lt _ _ (show ids.length - 1 < maxClients by omega), Option.bind_some]
    simp [removed, hid, hix, hctos, hstoc]

theorem tables_removed (h : Tables s ids) {p : ℕ} (hp : p < ids.length) :
    Tables (removed s ids p hp) (swapRemove ids p) where
  count := by simp [removed]
  indexed := h.indexed.remove hp

/-! ### Adding -/

theorem nextId_spec (h : Tables s ids) (hlen : ids.length < maxClients) :
    ∃ id : ℕ, nextId s = id ∧ id < maxClients ∧ id ∉ ids := by
  obtain ⟨id, hfind, hid, hfresh⟩ := h.indexed.find?_fresh (by decide) hlen
  refine ⟨id, ?_, hid, hfresh⟩
  unfold nextId
  rw [hfind]

theorem nextId_full (h : Tables s ids) (hlen : ids.length = maxClients) : nextId s = noId := by
  unfold nextId
  rw [h.indexed.find?_full (by decide) hlen]

def added (s : Server) (id : ℕ) (clientFd serverFd : ℤ) (stocJunk ctosJunk : ℕ → CChar) :
    Server where
  clients := ⟨Function.update (Function.update s.clients.cells (2 * s.clientCount + 1)
      { s.clients.cells (2 * s.clientCount + 1) with fd := clientFd }) (2 * s.clientCount + 2)
    { s.clients.cells (2 * s.clientCount + 2) with fd := serverFd }⟩
  stocBuffers := ⟨Function.update s.stocBuffers.cells id
    (IOBuffer.initIobuf stocJunk bufferSize)⟩
  ctosBuffers := ⟨Function.update s.ctosBuffers.cells id
    (IOBuffer.initIobuf ctosJunk bufferSize)⟩
  clientCount := s.clientCount + 1
  idTable := ⟨Function.update s.idTable.cells id s.clientCount⟩
  indexToId := ⟨Function.update s.indexToId.cells s.clientCount id⟩
  closed := s.closed

theorem tables_added (h : Tables s ids) {id : ℕ} (c v : ℤ) (stocJunk ctosJunk : ℕ → CChar)
    (hid : id < maxClients) (hfresh : id ∉ ids) :
    Tables (added s id c v stocJunk ctosJunk) (ids ++ [id]) where
  count := by simp [added, h.count]
  indexed := by simpa only [added, h.count] using h.indexed.push hid hfresh

theorem addClient_eq (h : Tables s ids) (hlen : ids.length < maxClients) {c v : ℤ} (hc : 0 ≤ c)
    (hv : 0 ≤ v) (stocJunk ctosJunk : ℕ → CChar) :
    ∃ id : ℕ, id < maxClients ∧ id ∉ ids ∧
      addClient s c v stocJunk ctosJunk = some ((id : ℤ), added s id c v stocJunk ctosJunk) := by
  obtain ⟨id, hnext, hid, hfresh⟩ := h.nextId_spec hlen
  refine ⟨id, hid, hfresh, ?_⟩
  have hne : (id : ℤ) ≠ noId := by unfold noId; omega
  have hcount : s.clientCount < maxClients := by rw [h.count]; exact hlen
  have hc' : 2 * s.clientCount + 1 < 2 * maxClients + pollClientOffset := by
    unfold pollClientOffset; omega
  have hv' : 2 * s.clientCount + 2 < 2 * maxClients + pollClientOffset := by
    unfold pollClientOffset; omega
  have hvalid : ∀ key : CArray maxClients ℤ, isValidId { s with
      idTable := ⟨Function.update s.idTable.cells id s.clientCount⟩, indexToId := key } id =
        true := by
    intro key
    simp only [isValidId, Function.update_self, Bool.and_eq_true, decide_eq_true_eq]
    exact ⟨hid, by unfold removedClient; omega⟩
  simp only [addClient, hnext, hne, if_false, Option.bind_eq_bind,
    show ¬(c < 0 ∨ v < 0) by omega]
  simp only [CArray.store_of_lt _ _ hid, CArray.store_of_lt _ _ hcount, Option.bind_some,
    sizeT_natCast (show id < 2 ^ 64 by unfold maxClients at hid; omega), getClient, getServer,
    hvalid, Bool.not_true, Bool.false_eq_true, if_false, Function.update_self,
    pollClientIndex_natCast, pollServerIndex_natCast, CArray.load_of_lt _ hc',
    CArray.load_of_lt _ hv', CArray.store_of_lt _ _ hc', CArray.store_of_lt _ _ hv']
  rw [Function.update_of_ne (by omega : 2 * s.clientCount + 2 ≠ 2 * s.clientCount + 1)]
  rfl

theorem addClient_full (h : Tables s ids) (hlen : ids.length = maxClients) (c v : ℤ)
    (stocJunk ctosJunk : ℕ → CChar) : addClient s c v stocJunk ctosJunk = some (noId, s) := by
  simp [addClient, h.nextId_full hlen]

theorem built (listenFd : ℤ) : Tables (builtServer listenFd) [] where
  count := rfl
  indexed := Indexed.empty (fun _ _ => rfl) (fun _ _ => rfl)

end Tables

/-! ### Runs -/

def sessionFds (s : Server) (id : ℕ) : Option (ℤ × ℤ) := do
  let client ← getClient s id
  let server ← getServer s id
  let clientSlot ← s.clients.load client
  let serverSlot ← s.clients.load server
  some (clientSlot.fd, serverSlot.fd)

/-- The server, the pair each session should have, and all descriptors that were
handed to `add_client`. -/
structure World where
  server : Server
  given : ℕ → Option (ℤ × ℤ)
  handed : List ℤ

def World.unclosed (w : World) : List ℤ := w.handed.diff w.server.closed

def World.start (listenFd : ℤ) : World := ⟨builtServer listenFd, fun _ => none, []⟩

inductive SessionOp
  | add (clientFd serverFd : ℕ) (stocJunk ctosJunk : ℕ → CChar)
  | disconnect (id : ℕ)
  | remove (id : ℕ)

def sessionStep (w : World) : SessionOp → Option World
  | .add clientFd serverFd stocJunk ctosJunk =>
      (addClient w.server clientFd serverFd stocJunk ctosJunk).map fun (id, server) =>
        { server
          given :=
            if id = noId then w.given
            else Function.update w.given id.toNat (some (clientFd, serverFd))
          handed := w.handed ++ [(clientFd : ℤ), (serverFd : ℤ)] }
  | .disconnect id => (disconnectClient w.server id).map fun server =>
      { w with
        server
        given := Function.update w.given id
          ((w.given id).map fun _ => (removedClient, removedClient)) }
  | .remove id => (removeClient w.server id).map fun server =>
      { w with server, given := Function.update w.given id none }

/-- Every session reads the pair it was given, inside the polled entries, and
outside of them there is no descriptor that is still to be closed. -/
structure PairsRight (w : World) : Prop where
  pair : ∀ id, isValidId w.server id → ∃ fds,
    w.given id = some fds ∧ sessionFds w.server id = some fds
  inside : ∀ id, isValidId w.server id → ∃ client server,
    getClient w.server id = some client ∧ getServer w.server id = some server ∧
    0 ≤ client ∧ client < getPollCount w.server ∧ 0 ≤ server ∧ server < getPollCount w.server
  outside : ∀ k, getPollCount w.server ≤ k → k < 2 * maxClients + pollClientOffset →
    (w.server.clients.cells k).fd ∉ w.unclosed

/-- The step does not have to move a connected session: a removal is of an id
without a session, of the session with the last index, or happens while the
session with the last index is disconnected. -/
def MovesNoSession (w : World) : SessionOp → Prop
  | .add .. | .disconnect _ => True
  | .remove id =>
      isValidId w.server id = false ∨
      w.server.idTable.cells id = (w.server.clientCount : ℤ) - 1 ∨
      (w.server.clients.cells (pollServerIndex (w.server.clientCount - 1 : ℕ)).toNat).fd =
        removedClient

/-- The sessions `ids` hold the pairs they were given, each pair connected or
disconnected as a whole, and the slots past the last index are free. -/
structure Paired (w : World) (ids : List ℕ) : Prop where
  tables : Tables w.server ids
  given_iff : ∀ id, (w.given id).isSome ↔ id ∈ ids
  given_eq : ∀ p (hp : p < ids.length), w.given ids[p] =
    some ((w.server.clients.cells (2 * p + 1)).fd, (w.server.clients.cells (2 * p + 2)).fd)
  whole : ∀ p < ids.length, (w.server.clients.cells (2 * p + 1)).fd = removedClient ↔
    (w.server.clients.cells (2 * p + 2)).fd = removedClient
  free : ∀ p, ids.length ≤ p → p < maxClients →
    (w.server.clients.cells (2 * p + 1)).fd = removedClient ∧
      (w.server.clients.cells (2 * p + 2)).fd = removedClient
  handed_nonneg : ∀ fd ∈ w.handed, 0 ≤ fd

theorem Paired.start (listenFd : ℤ) : Paired (World.start listenFd) [] where
  tables := Tables.built listenFd
  given_iff := by simp [World.start]
  given_eq := by simp
  whole := by simp
  free := by
    intro p _ _
    simp [World.start, builtServer, pollListenerIndex, freeSlot]
  handed_nonneg := by simp [World.start]

theorem sessionFds_eq {s : Server} {ids : List ℕ} (h : Tables s ids) {p : ℕ}
    (hp : p < ids.length) : sessionFds s ids[p] =
      some ((s.clients.cells (2 * p + 1)).fd, (s.clients.cells (2 * p + 2)).fd) := by
  obtain ⟨hc, hs⟩ := h.slots_lt hp
  simp only [sessionFds, h.getClient_eq hp, h.getServer_eq hp, Option.bind_eq_bind,
    Option.bind_some, CArray.load_of_lt _ hc, CArray.load_of_lt _ hs]

theorem Paired.pairsRight {w : World} {ids : List ℕ} (h : Paired w ids) : PairsRight w := by
  have hcount := h.tables.count
  refine ⟨?_, ?_, ?_⟩
  · intro id hid
    obtain ⟨p, hp, rfl⟩ := List.getElem_of_mem (h.tables.isValidId_iff.mp hid)
    exact ⟨_, h.given_eq p hp, sessionFds_eq h.tables hp⟩
  · intro id hid
    obtain ⟨p, hp, rfl⟩ := List.getElem_of_mem (h.tables.isValidId_iff.mp hid)
    refine ⟨_, _, h.tables.getClient_eq hp, h.tables.getServer_eq hp, ?_⟩
    unfold getPollCount getClientCount pollClientOffset
    omega
  · intro k hk hlt hmem
    have hnonneg := h.handed_nonneg _ (List.diff_subset _ _ hmem)
    have hfree : (w.server.clients.cells k).fd = removedClient := by
      unfold getPollCount getClientCount pollClientOffset at hk
      unfold pollClientOffset at hlt
      obtain ⟨h₁, h₂⟩ := h.free ((k - 1) / 2) (by omega) (by omega)
      rcases Nat.even_or_odd' k with ⟨c, hc | hc⟩
      · rwa [show k = 2 * ((k - 1) / 2) + 2 by omega]
      · rwa [show k = 2 * ((k - 1) / 2) + 1 by omega]
    rw [hfree] at hnonneg
    exact absurd hnonneg (by decide)

/-! ### One step -/

/-- After a disconnection the two descriptors are gone and the others stay. -/
theorem disconnected_fd {s : Server} {p : ℕ}
    (hwhole : (s.clients.cells (2 * p + 1)).fd = removedClient ↔
      (s.clients.cells (2 * p + 2)).fd = removedClient) (k : ℕ) :
    ((disconnected s p).clients.cells k).fd =
      if k = 2 * p + 1 ∨ k = 2 * p + 2 then removedClient else (s.clients.cells k).fd := by
  unfold disconnected
  by_cases hfd : (s.clients.cells (2 * p + 1)).fd = removedClient
  · rw [if_pos hfd]
    split_ifs with hk
    · rcases hk with rfl | rfl
      · exact hfd
      · exact hwhole.mp hfd
    · rfl
  · rw [if_neg hfd]
    dsimp only
    split_ifs with hk
    · rcases hk with rfl | rfl
      · rw [Function.update_of_ne (by omega), Function.update_self]
      · rw [Function.update_self]
    · push Not at hk
      rw [Function.update_of_ne hk.2, Function.update_of_ne hk.1]

/-- After a removal the last client slot is free, the removed session's client
slot has the last one's descriptor, and the server slots are where they were. -/
theorem removed_fd {s : Server} {ids : List ℕ} {p : ℕ} (hp : p < ids.length)
    (hwhole : (s.clients.cells (2 * p + 1)).fd = removedClient ↔
      (s.clients.cells (2 * p + 2)).fd = removedClient) (k : ℕ) :
    ((Tables.removed s ids p hp).clients.cells k).fd =
      if k = 2 * (ids.length - 1) + 1 then removedClient
      else if k = 2 * p + 1 then (s.clients.cells (2 * (ids.length - 1) + 1)).fd
      else if k = 2 * p + 2 then removedClient
      else (s.clients.cells k).fd := by
  simp only [Tables.removed, swapCells_apply]
  split_ifs with h₁ h₂ h₃
  · rw [disconnected_fd hwhole, if_pos (.inl rfl)]
  · rw [disconnected_fd hwhole, if_neg (by omega)]
  · rw [disconnected_fd hwhole, if_pos (.inr h₃)]
  · rw [disconnected_fd hwhole, if_neg (by omega)]

/-- An id that is not listed was given nothing, and the operations return at once. -/
theorem Paired.inactive {w : World} {ids : List ℕ} (h : Paired w ids) {id : ℕ}
    (hmem : id ∉ ids) : w.given id = none ∧ isValidId w.server id = false := by
  refine ⟨by simpa using mt (h.given_iff id).mp hmem, ?_⟩
  rw [Bool.eq_false_iff, ne_eq, h.tables.isValidId_iff]
  exact hmem

theorem Paired.nonneg_of_mem_append {w : World} {ids : List ℕ} (h : Paired w ids) (c v : ℕ) :
    ∀ fd ∈ w.handed ++ [(c : ℤ), (v : ℤ)], 0 ≤ fd := by
  intro fd hfd
  rcases List.mem_append.mp hfd with hfd | hfd
  · exact h.handed_nonneg fd hfd
  · simp only [List.mem_cons, List.not_mem_nil, or_false] at hfd
    omega

/-- Where a removal moves no session, the last index is removed or its session has
no descriptors to move. -/
theorem Paired.last_free {w : World} {ids : List ℕ} (h : Paired w ids) {p : ℕ}
    (hp : p < ids.length) (hok : MovesNoSession w (.remove ids[p])) :
    p = ids.length - 1 ∨
      (w.server.clients.cells (2 * (ids.length - 1) + 1)).fd = removedClient ∧
      (w.server.clients.cells (2 * (ids.length - 1) + 2)).fd = removedClient := by
  have hcount := h.tables.count
  rcases hok with hno | hpos | hfree
  · rw [h.tables.isValidId_iff.mpr (List.getElem_mem hp)] at hno
    cases hno
  · rw [h.tables.indexed.index_eq p hp, hcount] at hpos
    exact .inl (by omega)
  · rw [hcount, pollServerIndex_natCast, Int.toNat_natCast] at hfree
    exact .inr ⟨(h.whole _ (by omega)).mpr hfree, hfree⟩

theorem Paired.add {w : World} {ids : List ℕ} (h : Paired w ids) (c v : ℕ)
    (stocJunk ctosJunk : ℕ → CChar) :
    ∃ w' ids', sessionStep w (.add c v stocJunk ctosJunk) = some w' ∧ Paired w' ids' := by
  by_cases hlen : ids.length < maxClients
  · obtain ⟨id, hid, hfresh, heq⟩ := h.tables.addClient_eq hlen (Int.natCast_nonneg c)
      (Int.natCast_nonneg v) stocJunk ctosJunk
    have hne : (id : ℤ) ≠ noId := by unfold noId; omega
    have hcount := h.tables.count
    refine ⟨_, ids ++ [id], by rw [sessionStep, heq]; rfl,
      h.tables.tables_added c v stocJunk ctosJunk hid hfresh, ?_, ?_, ?_, ?_, ?_⟩
    · intro j
      simp only [hne, if_false, Int.toNat_natCast, Function.update_apply, List.mem_append,
        List.mem_singleton]
      split_ifs with hj
      · simp [hj]
      · simpa [hj] using h.given_iff j
    · intro p hp
      rw [List.length_append, List.length_singleton] at hp
      simp only [hne, if_false, Int.toNat_natCast, Tables.added, hcount]
      by_cases hpl : p < ids.length
      · have hpid : ids[p] ≠ id := fun he => hfresh (he ▸ List.getElem_mem hpl)
        rw [List.getElem_append_left hpl, Function.update_of_ne hpid, h.given_eq p hpl]
        repeat rw [Function.update_of_ne (by omega)]
      · obtain rfl : p = ids.length := by omega
        rw [List.getElem_concat_length rfl, Function.update_self, Function.update_self,
          Function.update_of_ne (by omega), Function.update_self]
    · intro p hp
      rw [List.length_append, List.length_singleton] at hp
      simp only [Tables.added, hcount]
      by_cases hpl : p < ids.length
      · repeat rw [Function.update_of_ne (by omega)]
        exact h.whole p hpl
      · obtain rfl : p = ids.length := by omega
        rw [Function.update_of_ne (by omega), Function.update_self, Function.update_self]
        unfold removedClient
        constructor <;> intro he <;> simp only at he <;> omega
    · intro p hp hpm
      rw [List.length_append, List.length_singleton] at hp
      simp only [Tables.added, hcount]
      repeat rw [Function.update_of_ne (by omega)]
      exact h.free p (by omega) hpm
    · exact h.nonneg_of_mem_append c v
  · have hfull : ids.length = maxClients := le_antisymm h.tables.length_le (by omega)
    refine ⟨{ w with handed := w.handed ++ [(c : ℤ), (v : ℤ)] }, ids,
      by rw [sessionStep, h.tables.addClient_full hfull]; rfl, h.tables,
      h.given_iff, h.given_eq, h.whole, h.free, h.nonneg_of_mem_append c v⟩

theorem Paired.disconnect {w : World} {ids : List ℕ} (h : Paired w ids) (id : ℕ) :
    ∃ w', sessionStep w (.disconnect id) = some w' ∧ Paired w' ids := by
  by_cases hmem : id ∈ ids
  · obtain ⟨p, hp, rfl⟩ := List.getElem_of_mem hmem
    have hfd := disconnected_fd (h.whole p hp)
    refine ⟨{ w with
        server := disconnected w.server p
        given := Function.update w.given ids[p]
          ((w.given ids[p]).map fun _ => (removedClient, removedClient)) },
      by rw [sessionStep, h.tables.disconnectClient_eq hp]; rfl,
      h.tables.tables_disconnected p, ?_, ?_, ?_, ?_, h.handed_nonneg⟩
    · intro j
      simp only [Function.update_apply]
      split_ifs with hj
      · rw [hj, Option.isSome_map]
        exact h.given_iff ids[p]
      · exact h.given_iff j
    · intro q hq
      simp only [hfd]
      by_cases hqp : q = p
      · subst hqp
        rw [Function.update_self, h.given_eq q hq, if_pos (.inl rfl), if_pos (.inr rfl)]
        rfl
      · have hne : ids[q] ≠ ids[p] := fun he =>
          hqp ((List.Nodup.getElem_inj_iff h.tables.indexed.nodup).mp he)
        rw [Function.update_of_ne hne, h.given_eq q hq, if_neg (by omega), if_neg (by omega)]
    · intro q hq
      simp only [hfd]
      by_cases hqp : q = p
      · simp [hqp]
      · rw [if_neg (by omega), if_neg (by omega)]
        exact h.whole q hq
    · intro q hq hqm
      simp only [hfd]
      rw [if_neg (by omega), if_neg (by omega)]
      exact h.free q hq hqm
  · obtain ⟨hnone, hvalid⟩ := h.inactive hmem
    have hsame : Function.update w.given id
        ((w.given id).map fun _ => (removedClient, removedClient)) = w.given := by
      rw [hnone, Option.map_none, ← hnone, Function.update_eq_self]
    refine ⟨w, ?_, h⟩
    simp only [sessionStep, disconnectClient, hvalid, Bool.not_false, if_true, Option.map_some,
      hsame]

def removedWorld (w : World) (ids : List ℕ) (p : ℕ) (hp : p < ids.length) : World :=
  { w with
    server := Tables.removed w.server ids p hp
    given := Function.update w.given ids[p] none }

/-- The last session takes the removed one's place, with both of its descriptors. -/
theorem Paired.removed {w : World} {ids : List ℕ} (h : Paired w ids) {p : ℕ}
    (hp : p < ids.length)
    (hlast : p = ids.length - 1 ∨
      (w.server.clients.cells (2 * (ids.length - 1) + 1)).fd = removedClient ∧
      (w.server.clients.cells (2 * (ids.length - 1) + 2)).fd = removedClient) :
    Paired (removedWorld w ids p hp) (swapRemove ids p) := by
  have hfd := removed_fd hp (h.whole p hp)
  have hmem : ∀ j, j ∈ swapRemove ids p ↔ j ∈ ids ∧ j ≠ ids[p] := fun j =>
    mem_swapRemove h.tables.indexed.nodup hp
  refine ⟨h.tables.tables_removed hp, ?_, ?_, ?_, ?_, h.handed_nonneg⟩
  · intro j
    simp only [removedWorld, Function.update_apply, hmem j]
    split_ifs with hj
    · simp [hj]
    · simpa [hj] using h.given_iff j
  · intro q hq
    have hne := ((hmem _).mp (List.getElem_mem hq)).2
    rw [length_swapRemove] at hq
    dsimp only [removedWorld]
    rw [Function.update_of_ne hne, getElem_swapRemove]
    simp only [hfd]
    by_cases hqp : q = p
    · subst hqp
      obtain ⟨h₁, h₂⟩ := hlast.resolve_left (by omega)
      rw [if_pos rfl, List.get_eq_getElem, h.given_eq _ (by omega), h₁, h₂, if_neg (by omega),
        if_pos rfl, if_neg (by omega), if_neg (by omega), if_pos rfl]
    · rw [if_neg hqp, List.get_eq_getElem, h.given_eq q (by omega)]
      repeat rw [if_neg (by omega)]
  · intro q hq
    rw [length_swapRemove] at hq
    simp only [removedWorld, hfd]
    by_cases hqp : q = p
    · subst hqp
      obtain ⟨h₁, h₂⟩ := hlast.resolve_left (by omega)
      rw [if_neg (by omega), if_pos rfl, if_neg (by omega), if_neg (by omega), if_pos rfl, h₁]
    · repeat rw [if_neg (by omega)]
      exact h.whole q (by omega)
  · intro q hq hqm
    rw [length_swapRemove] at hq
    simp only [removedWorld, hfd]
    by_cases hql : q = ids.length - 1
    · subst hql
      refine ⟨by rw [if_pos rfl], ?_⟩
      rw [if_neg (by omega), if_neg (by omega)]
      split_ifs with hpq
      · rfl
      · exact (hlast.resolve_left (by omega)).2
    · obtain ⟨h₁, h₂⟩ := h.free q (by omega) hqm
      refine ⟨?_, ?_⟩
      · repeat rw [if_neg (by omega)]
        exact h₁
      · repeat rw [if_neg (by omega)]
        exact h₂

/-- A removal that moves no connected session keeps the pairs together. -/
theorem Paired.remove {w : World} {ids : List ℕ} (h : Paired w ids) (id : ℕ)
    (hok : MovesNoSession w (.remove id)) :
    ∃ w' ids', sessionStep w (.remove id) = some w' ∧ Paired w' ids' := by
  by_cases hmem : id ∈ ids
  · obtain ⟨p, hp, rfl⟩ := List.getElem_of_mem hmem
    refine ⟨removedWorld w ids p hp, swapRemove ids p, ?_, h.removed hp (h.last_free hp hok)⟩
    rw [sessionStep, h.tables.removeClient_eq hp]
    rfl
  · obtain ⟨hnone, hvalid⟩ := h.inactive hmem
    have hsame : Function.update w.given id none = w.given := by
      rw [← hnone, Function.update_eq_self]
    refine ⟨w, ids, ?_, h⟩
    simp only [sessionStep, removeClient, hvalid, Bool.not_false, if_true, Option.map_some, hsame]

/-- Any other removal separates the last session's pair: its client slot moves
and its server slot stays behind. -/
theorem Paired.not_pairsRight_of_moves {w w' : World} {ids : List ℕ} (h : Paired w ids) {id : ℕ}
    (hmoves : ¬MovesNoSession w (.remove id)) (hstep : sessionStep w (.remove id) = some w') :
    ¬PairsRight w' := by
  simp only [MovesNoSession, not_or, Bool.not_eq_false] at hmoves
  obtain ⟨hvalid, hpos, hfd⟩ := hmoves
  obtain ⟨p, hp, rfl⟩ := List.getElem_of_mem (h.tables.isValidId_iff.mp hvalid)
  have hcount := h.tables.count
  rw [h.tables.indexed.index_eq p hp, hcount] at hpos
  rw [hcount, pollServerIndex_natCast, Int.toNat_natCast] at hfd
  rw [sessionStep, h.tables.removeClient_eq hp] at hstep
  cases hstep
  -- the session that had the last index now has index `p`
  have htables := h.tables.tables_removed hp
  have hp' : p < (swapRemove ids p).length := by rw [length_swapRemove]; omega
  have hmoved : (swapRemove ids p)[p] = ids[ids.length - 1] := by
    rw [getElem_swapRemove, if_pos rfl, List.get_eq_getElem]
  have hne : ids[ids.length - 1] ≠ ids[p] := fun he => by
    have := (List.Nodup.getElem_inj_iff h.tables.indexed.nodup).mp he
    omega
  intro hright
  obtain ⟨fds, hgiven, hread⟩ := hright.pair ids[ids.length - 1]
    (htables.isValidId_iff.mpr (hmoved ▸ List.getElem_mem hp'))
  rw [← hmoved, sessionFds_eq htables hp'] at hread
  simp only [Function.update_of_ne hne, h.given_eq _ (by omega : ids.length - 1 < ids.length)]
    at hgiven
  have hsnd := congrArg Prod.snd ((Option.some.inj hgiven).trans (Option.some.inj hread).symm)
  simp only [removed_fd hp (h.whole p hp)] at hsnd
  rw [if_neg (by omega), if_neg (by omega), if_pos trivial] at hsnd
  exact hfd hsnd

/-- Through every run of the three operations from the server `init_server`
builds: all states have the pairs right exactly when no step moves a connected
session. -/
theorem pairsRight_run_iff (listenFd : ℤ) (ops : List SessionOp) :
    RunKeeps PairsRight sessionStep (World.start listenFd) ops ↔
      RunMeets MovesNoSession sessionStep (World.start listenFd) ops := by
  refine runKeeps_iff_runMeets (I := fun w => ∃ ids, Paired w ids) ?_ ?_ ?_ ?_
    ⟨[], Paired.start listenFd⟩ ops
  · rintro w ⟨ids, h⟩
    exact h.pairsRight
  · rintro w op w' ⟨ids, h⟩ hok hstep
    cases op with
    | add c v stocJunk ctosJunk =>
        obtain ⟨w₁, ids₁, h₁, hw⟩ := h.add c v stocJunk ctosJunk
        rw [h₁] at hstep
        exact ⟨ids₁, Option.some.inj hstep ▸ hw⟩
    | disconnect id =>
        obtain ⟨w₁, h₁, hw⟩ := h.disconnect id
        rw [h₁] at hstep
        exact ⟨ids, Option.some.inj hstep ▸ hw⟩
    | remove id =>
        obtain ⟨w₁, ids₁, h₁, hw⟩ := h.remove id hok
        rw [h₁] at hstep
        exact ⟨ids₁, Option.some.inj hstep ▸ hw⟩
  · rintro w op w' ⟨ids, h⟩ hmoves hstep
    cases op with
    | add | disconnect => exact absurd trivial hmoves
    | remove id => exact h.not_pairsRight_of_moves hmoves hstep
  · rintro w op ⟨ids, h⟩
    cases op with
    | add c v stocJunk ctosJunk =>
        obtain ⟨w₁, -, h₁, -⟩ := h.add c v stocJunk ctosJunk
        exact ⟨w₁, h₁⟩
    | disconnect id =>
        obtain ⟨w₁, h₁, -⟩ := h.disconnect id
        exact ⟨w₁, h₁⟩
    | remove id =>
        by_cases hmem : id ∈ ids
        · obtain ⟨p, hp, rfl⟩ := List.getElem_of_mem hmem
          exact ⟨_, by rw [sessionStep, h.tables.removeClient_eq hp]; rfl⟩
        · obtain ⟨w₁, -, h₁, -⟩ := h.remove id (.inl (h.inactive hmem).2)
          exact ⟨w₁, h₁⟩

/-- Two sessions, and the first one is removed: `get_server` of the second then
reads no descriptor, its server socket 21 is left outside the polled entries. -/
theorem pairs_separated_by_first_removal :
    ¬RunKeeps PairsRight sessionStep (World.start 3)
      [.add 10 20 (fun _ => 0) (fun _ => 0), .add 11 21 (fun _ => 0) (fun _ => 0), .remove 0] := by
  intro h
  obtain ⟨w, hw, hright⟩ := h.last
  have hread : (run sessionStep (World.start 3)
      [.add 10 20 (fun _ => 0) (fun _ => 0), .add 11 21 (fun _ => 0) (fun _ => 0),
        .remove 0]).map (fun w => (isValidId w.server 1, w.given 1, sessionFds w.server 1)) =
      some (true, some (11, 21), some (11, removedClient)) := by
    decide +kernel
  rw [hw, Option.map_some, Option.some_inj, Prod.mk.injEq, Prod.mk.injEq] at hread
  obtain ⟨hvalid, hgiven, hfds⟩ := hread
  obtain ⟨fds, hgiven', hfds'⟩ := hright.pair 1 hvalid
  rw [hgiven] at hgiven'
  rw [hfds] at hfds'
  exact absurd (hgiven'.trans hfds'.symm) (by decide)

end UnixLabs.Lab33
