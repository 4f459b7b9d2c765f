import UnixLabs.Lab34.SenderMoves
import UnixLabs.Lab34.SenderPolls
import UnixLabs.Library.MarkedTable

/-!
What becomes of the descriptors that `main_loop` of `lab34/lab34-sender.c` accepts.

Every function that closes has the descriptors it closes beside it. The tables of the server are
right whoever is released, so that a descriptor is in one slot until it is closed, also where
the position table of the sender is out of order.
-/

namespace UnixLabs.Lab34

open Library

/-! ### What is closed -/

/-- `disconnect_client` closes a slot once. `remove_client` closes what it closes. -/
def disconnectCloses (s : Server) (id : ℕ) : List ℤ :=
  match slot s id with
  | none => []
  | some pollfd => if pollfd.fd = removedClient then [] else [pollfd.fd]

def closesAt (ts : TunnelServer) (i : ℤ) : List ℤ :=
  match ts.idTable.load i with
  | none => []
  | some id => disconnectCloses ts.server (sizeT id)

def leaves (ts : TunnelServer) (i : ℕ) (input : Option (List CChar)) : Option Bool := do
  let id ← ts.idTable.load i
  let failed ← clientHasErrors ts.server (sizeT id)
  if failed then some true
  else
    let buffer ← ts.clientBuffers.load id
    let readable ← clientReadable ts.server (sizeT id)
    some (!buffer.cbFull && readable && decide ((buffer.cbRecv input).1 = -1))

def performClientIoCloses (ts : TunnelServer) (i : ℕ) (input : Option (List CChar)) : List ℤ :=
  if leaves ts i input = some true then closesAt ts i else []

/-- An iteration of `process_empty_removed` calls `ts_actual_remove` for the position that is
the id, if it puts the event. -/
def processEmptyRemovedCloses (ts : TunnelServer) (i : ℕ) : List ℤ :=
  match processEmptyRemovedAt ts i with
  | some (.next j, _) => if j = i then (ts.idTable.load i).elim [] (closesAt ts) else []
  | _ => []

def accepts (ts : TunnelServer) (accepted : ℤ) : List ℤ :=
  if isPollable (ts.server.clients.cells pollListenerIndex) pollIn ∧ accepted ≠ -1 then [accepted]
  else []

def acceptCloses (ts : TunnelServer) (accepted : ℤ) : List ℤ :=
  if isFull ts.server then accepts ts accepted else []

def fdAt (s : Server) (i : ℕ) : Option ℤ := do
  let id ← s.indexToId.load i
  let client ← getClient s (sizeT id)
  let pollfd ← s.clients.load client
  some pollfd.fd

/-- `safe_cleanup`, which knows nothing of clients that were disconnected. -/
def safeCleanup (s : Server) : Option (List ℤ) := do
  let listener ← s.clients.load getListener
  let tunnel ← s.clients.load getTunnel
  let fds ← (List.range (getClientCount s)).mapM (fdAt s)
  some (listener.fd :: tunnel.fd :: fds)

/-- What a step closes; `ts_cleanup` follows a `poll` that fails. -/
def stepCloses (s : Sender) (answers : Answers) : List ℤ :=
  match s.place with
  | .poll => if answers.revents.isNone then (safeCleanup s.ts.server).getD [] else []
  | .accept _ => acceptCloses s.ts answers.accepted
  | .clientIo ioableCount i processed =>
      if processed < ioableCount ∧ i < s.ts.clientCount then
        performClientIoCloses s.ts i answers.input
      else []
  | .emptyRemoved i => processEmptyRemovedCloses s.ts i
  | _ => []

def stepAccepts (s : Sender) (answers : Answers) : List ℤ :=
  match s.place with
  | .accept _ => accepts s.ts answers.accepted
  | _ => []

/-! ### The descriptors in the slots -/

def slotFd (s : Server) (k : ℕ) : ℤ := (s.clients.cells (k + pollClientOffset)).fd

def connected (s : Server) : List ℤ := live removedClient (slotFd s) s.clientCount

def SameEnds (s s' : Server) : Prop :=
  ∀ k < pollClientOffset, (s'.clients.cells k).fd = (s.clients.cells k).fd

namespace Tables

variable {s : Server} {ids : List ℕ} {p : ℕ}

theorem closes_eq (h : Tables s ids) (hp : p < ids.length) :
    disconnectCloses s ids[p] = if slotFd s p = removedClient then [] else [slotFd s p] := by
  rw [disconnectCloses, h.slot_eq hp]
  rfl

theorem slotFd_disconnected (s : Server) (p : ℕ) :
    slotFd (disconnected s p) = Function.update (slotFd s) p removedClient := by
  ext k
  rw [slotFd, disconnected]
  rcases eq_or_ne k p with rfl | hne
  · simp only [Function.update_self]
  · rw [Function.update_of_ne hne]
    show (Function.update s.clients.cells _ _ (k + pollClientOffset)).fd = _
    rw [Function.update_of_ne (by omega)]
    rfl

theorem connected_disconnected (h : Tables s ids) (hp : p < ids.length) :
    (disconnectCloses s ids[p] ++ connected (disconnected s p)).Perm (connected s) := by
  rw [h.closes_eq hp, connected, slotFd_disconnected]
  exact live_unset (h.count ▸ hp)

theorem slotFd_removed (s : Server) (ids : List ℕ) (hp : p < ids.length) :
    slotFd (removed s ids p hp) =
      swapCells (slotFd (disconnected s p)) p (ids.length - 1) := by
  ext k
  show Pollfd.fd (swapCells _ _ _ _) = _
  rw [swapCells_apply, swapCells_apply]
  simp only [Nat.add_right_cancel_iff]
  split_ifs
  · rfl
  · rfl
  · rfl

theorem connected_removed (h : Tables s ids) (hp : p < ids.length) :
    (disconnectCloses s ids[p] ++ connected (removed s ids p hp)).Perm (connected s) := by
  refine List.Perm.trans ?_ (h.connected_disconnected hp)
  apply List.Perm.append_left
  have hlast : ids.length - 1 < ids.length := last_lt hp
  have hfree : slotFd (removed s ids p hp) (ids.length - 1) = removedClient :=
    (h.tables_removed hp).free _ (length_swapRemove ids p).le (hlast.trans_le h.length_le)
  show (live removedClient (slotFd (removed s ids p hp)) (ids.length - 1)).Perm
    (live removedClient (slotFd (disconnected s p)) s.clientCount)
  rw [h.count, ← live_succ_mark hfree, Nat.sub_add_cancel (Nat.zero_lt_of_lt hp),
    slotFd_removed s ids hp]
  exact live_swapCells hp hlast

theorem connected_added {id : ℕ} {fd : ℤ} (hfd : fd ≠ removedClient) :
    connected (added s id fd) = connected s ++ [fd] := by
  have hslots : slotFd (added s id fd) = Function.update (slotFd s) s.clientCount fd := by
    ext k
    rw [slotFd, added]
    rcases eq_or_ne k s.clientCount with rfl | hne
    · simp only [Function.update_self]
    · rw [Function.update_of_ne hne]
      show (Function.update s.clients.cells _ _ (k + pollClientOffset)).fd = _
      rw [Function.update_of_ne (by omega)]
      rfl
  rw [connected, hslots]
  exact live_push hfd

/-- The slots of the listener and of the tunnel are not those of clients. -/
theorem cells_removed_of_lt (h : Tables s ids) (hp : p < ids.length) {k : ℕ}
    (hk : k < pollClientOffset) :
    (removed s ids p hp).clients.cells k = s.clients.cells k := by
  have hlen := h.length_le
  show swapCells _ _ _ _ = _
  rw [swapCells_apply, if_neg (by omega), if_neg (by omega), Function.update_of_ne (by omega)]

/-! ### Any id -/

theorem connected_disconnectClient (h : Tables s ids) {id : ℕ} {s' : Server}
    (hstep : disconnectClient s id = some s') :
    (disconnectCloses s id ++ connected s').Perm (connected s) := by
  by_cases hmem : id ∈ ids
  · obtain ⟨p, hp, rfl⟩ := List.getElem_of_mem hmem
    rw [h.disconnectClient_eq hp] at hstep
    cases hstep
    exact h.connected_disconnected hp
  · have hnone := mt h.active_iff.mp hmem
    rw [disconnectClient_inactive hnone] at hstep
    cases hstep
    rw [disconnectCloses, slot_eq_none hnone]
    exact List.Perm.refl _

theorem connected_removeClient (h : Tables s ids) {id : ℕ} {s' : Server}
    (hstep : removeClient s id = some s') :
    (disconnectCloses s id ++ connected s').Perm (connected s) := by
  by_cases hmem : id ∈ ids
  · obtain ⟨p, hp, rfl⟩ := List.getElem_of_mem hmem
    rw [h.removeClient_eq hp] at hstep
    cases hstep
    exact h.connected_removed hp
  · have hnone := mt h.active_iff.mp hmem
    rw [removeClient_inactive hnone] at hstep
    cases hstep
    rw [disconnectCloses, slot_eq_none hnone]
    exact List.Perm.refl _

theorem sameEnds_disconnectClient (h : Tables s ids) {id : ℕ} {s' : Server}
    (hstep : disconnectClient s id = some s') : SameEnds s s' := by
  intro k hk
  by_cases hmem : id ∈ ids
  · obtain ⟨p, hp, rfl⟩ := List.getElem_of_mem hmem
    rw [h.disconnectClient_eq hp] at hstep
    cases hstep
    show Pollfd.fd (Function.update s.clients.cells _ _ k) = _
    rw [Function.update_of_ne (by omega)]
  · rw [disconnectClient_inactive (mt h.active_iff.mp hmem)] at hstep
    cases hstep
    rfl

theorem sameEnds_removeClient (h : Tables s ids) {id : ℕ} {s' : Server}
    (hstep : removeClient s id = some s') : SameEnds s s' := by
  intro k hk
  by_cases hmem : id ∈ ids
  · obtain ⟨p, hp, rfl⟩ := List.getElem_of_mem hmem
    rw [h.removeClient_eq hp] at hstep
    cases hstep
    rw [h.cells_removed_of_lt hp hk]
  · rw [removeClient_inactive (mt h.active_iff.mp hmem)] at hstep
    cases hstep
    rfl

/-- `safe_cleanup` closes the listener, the tunnel and every slot in use. -/
theorem safeCleanup_eq (h : Tables s ids) : safeCleanup s = some
    ((s.clients.cells pollListenerIndex).fd :: (s.clients.cells pollTunnelIndex).fd ::
      firstCells (slotFd s) s.clientCount) := by
  have hlistener : s.clients.load getListener = some (s.clients.cells pollListenerIndex) :=
    s.clients.load_of_lt (by decide)
  have heach : ∀ i < getClientCount s, fdAt s i = some (slotFd s i) := by
    intro i hi
    rw [getClientCount, h.count] at hi
    have hid := h.indexed.lt _ (List.getElem_mem hi)
    have hsize : sizeT (ids[i] : ℤ) = ids[i] := sizeT_natCast (by unfold maxClients at hid; omega)
    have hlen := h.length_le
    simp only [fdAt, s.indexToId.load_of_lt (by omega : i < maxClients), h.indexed.key_eq i hi,
      hsize, h.getClient_eq hi, h.load_slot _ hi, Option.bind_eq_bind, Option.bind_some]
    rfl
  simp only [safeCleanup, hlistener, load_getTunnel, mapM_eq_firstCells heach,
    Option.bind_eq_bind, Option.bind_some]
  rfl

end Tables

/-! ### One call -/

section Calls

variable {ts ts' : TunnelServer} {ids : List ℕ} {i : ℕ}

theorem closesAt_congr (htable : ts'.idTable = ts.idTable) (hserver : ts'.server = ts.server)
    {i : ℤ} : closesAt ts' i = closesAt ts i := by
  rw [closesAt, closesAt, htable, hserver]

theorem connected_tsRemoveClient (h : Tables ts.server ids) {i : ℤ}
    (hremove : tsRemoveClient ts i = some ts') :
    (closesAt ts i ++ connected ts'.server).Perm (connected ts.server) := by
  simp only [tsRemoveClient, Option.bind_eq_bind, Option.bind_eq_some_iff] at hremove
  obtain ⟨id, hload, server, hserver, removeFlag, -, hremove⟩ := hremove
  cases hremove
  rw [closesAt, hload]
  exact h.connected_disconnectClient hserver

theorem connected_tsActualRemove (h : Tables ts.server ids) {i : ℤ}
    (hremove : tsActualRemove ts i = some ts') :
    (closesAt ts i ++ connected ts'.server).Perm (connected ts.server) := by
  simp only [tsActualRemove, Option.bind_eq_bind, Option.bind_eq_some_iff] at hremove
  obtain ⟨id, hload, server, hserver, clientBuffers, -, tunnelBuffers, -, last, -, idTable, -,
    hremove⟩ := hremove
  cases hremove
  rw [closesAt, hload]
  exact h.connected_removeClient hserver

theorem connected_performClientIoAt (h : Tables ts.server ids) {processed processed' : ℕ}
    {input : Option (List CChar)} {received : Option (ℤ × List CChar)}
    (hio : performClientIoAt ts i processed input = some (received, processed', ts')) :
    (performClientIoCloses ts i input ++ connected ts'.server).Perm (connected ts.server) := by
  simp only [performClientIoAt, Option.bind_eq_bind, Option.bind_eq_some_iff] at hio
  obtain ⟨id, hid, ioable, -, failed, hfailed, hio⟩ := hio
  generalize (if ioable = true then processed + 1 else processed) = p at hio
  cases failed with
  | true =>
      rw [if_pos rfl, Option.bind_eq_some_iff] at hio
      obtain ⟨ts₁, hremove, hio⟩ := hio
      cases hio
      have hleaves : leaves ts i input = some true := by
        simp only [leaves, hid, hfailed, Option.bind_eq_bind, Option.bind_some, if_true]
      rw [performClientIoCloses, if_pos hleaves]
      exact connected_tsRemoveClient h hremove
  | false =>
      rw [if_neg Bool.false_ne_true] at hio
      simp only [Option.bind_eq_some_iff] at hio
      obtain ⟨buffer, hbuffer, readable, hreadable, hio⟩ := hio
      have hleaves : leaves ts i input =
          some (!buffer.cbFull && readable && decide ((buffer.cbRecv input).1 = -1)) := by
        simp only [leaves, hid, hfailed, hbuffer, hreadable, Option.bind_eq_bind,
          Option.bind_some, Bool.false_eq_true, if_false]
      rw [performClientIoCloses, hleaves]
      cases hread : !buffer.cbFull && readable with
      | false =>
          rw [hread, if_neg Bool.false_ne_true] at hio
          cases hio
          exact List.Perm.refl _
      | true =>
          rw [hread, if_pos rfl, Option.bind_eq_some_iff] at hio
          obtain ⟨clientBuffers, -, hio⟩ := hio
          rw [Bool.true_and]
          rcases eq_or_ne (buffer.cbRecv input).1 (-1) with hend | hmore
          · rw [if_pos hend, Option.bind_eq_some_iff] at hio
            obtain ⟨ts₁, hremove, hio⟩ := hio
            cases hio
            rw [decide_eq_true hend, if_pos rfl]
            have hread' : Tables { ts with clientBuffers }.server ids := h
            have hsame : closesAt { ts with clientBuffers } (i : ℤ) = closesAt ts i := by
              apply closesAt_congr
              · rfl
              · rfl
            rw [← hsame]
            exact connected_tsRemoveClient hread' hremove
          · rw [if_neg hmore] at hio
            cases hio
            rw [decide_eq_false hmore]
            exact List.Perm.refl _

theorem connected_processEmptyRemovedAt (h : Tables ts.server ids) {turn : Turn ℕ}
    (honce : processEmptyRemovedAt ts i = some (turn, ts')) :
    (processEmptyRemovedCloses ts i ++ connected ts'.server).Perm (connected ts.server) := by
  rw [processEmptyRemovedCloses, honce]
  unfold processEmptyRemovedAt at honce
  split_ifs at honce with hend
  · cases honce
    exact List.Perm.refl _
  simp only [Option.bind_eq_bind, Option.bind_eq_some_iff] at honce
  obtain ⟨id, hload, flag, -, buffer, -, honce⟩ := honce
  split_ifs at honce with hskip hput
  · cases honce
    have hne : i + 1 ≠ i := Nat.succ_ne_self i
    simp only [if_neg hne]
    exact List.Perm.refl _
  · cases honce
    exact List.Perm.refl _
  · simp only [Option.bind_eq_some_iff] at honce
    obtain ⟨removeFlag, -, ts₁, hremove, honce⟩ := honce
    cases honce
    simp only [if_true, hload, Option.elim_some]
    have hperm := connected_tsActualRemove (by exact h) hremove
    exact hperm

end Calls

/-! ### One step -/

theorem slotFd_pollServer (s : Server) (revents : ℕ → BitVec 16) :
    slotFd (pollServer s revents) = slotFd s := by
  ext k
  rw [slotFd, slotFd, pollServer]
  simp only [polled]
  split_ifs <;> rfl

theorem slotFd_setTunnelWriteable {s s' : Server} {writeable : Bool}
    (h : setTunnelWriteable s writeable = some s') :
    slotFd s' = slotFd s ∧ s'.clientCount = s.clientCount := by
  simp only [setTunnelWriteable, load_getTunnel, Option.bind_eq_bind, Option.bind_some] at h
  rw [getTunnel, CArray.store_of_lt _ _ (by decide)] at h
  cases h
  refine ⟨?_, rfl⟩
  ext k
  have hne : k + pollClientOffset ≠ pollTunnelIndex := by
    unfold pollClientOffset pollTunnelIndex
    omega
  show Pollfd.fd (Function.update s.clients.cells _ _ (k + pollClientOffset)) = _
  rw [Function.update_of_ne hne]
  rfl

theorem connected_acceptOnce {ts : TunnelServer} {ids : List ℕ} (h : Tables ts.server ids)
    {fdCount : ℕ} {answers : Answers} {happening : Option Happening} {s' : Sender}
    (hstep : acceptOnce ts fdCount answers = some (happening, s')) :
    (acceptCloses ts answers.accepted ++ connected s'.ts.server).Perm
      (connected ts.server ++ accepts ts answers.accepted) := by
  simp only [acceptOnce, Option.bind_eq_bind, Option.bind_eq_some_iff] at hstep
  obtain ⟨listener, hlistener, ioable, -, hstep⟩ := hstep
  obtain rfl := CArray.cells_of_load (i := pollListenerIndex) hlistener
  generalize (if ioable = true then 1 else 0) = processed at hstep
  have hnone : ∀ {n}, ¬(isPollable (ts.server.clients.cells pollListenerIndex) pollIn = true ∧
      n ≠ -1) → accepts ts n = [] ∧ acceptCloses ts n = [] := by
    intro n hno
    have haccepts : accepts ts n = [] := if_neg hno
    rw [acceptCloses, haccepts, ite_self]
    exact ⟨rfl, rfl⟩
  split_ifs at hstep with hpending hfailed hfull
  · cases hstep
    obtain ⟨haccepts, hcloses⟩ := hnone fun hboth => hboth.2 hfailed
    rw [haccepts, hcloses, List.append_nil]
    exact List.Perm.refl _
  · cases hstep
    rw [acceptCloses, if_pos hfull]
    exact List.perm_append_comm
  · simp only [Option.bind_eq_some_iff] at hstep
    obtain ⟨⟨id, ts₁⟩, hadd, hstep⟩ := hstep
    cases hstep
    have haccepts : accepts ts answers.accepted = [answers.accepted] := if_pos ⟨hpending, hfailed⟩
    rw [acceptCloses, if_neg hfull, haccepts, List.nil_append]
    obtain ⟨new, hid, hfresh, hnew⟩ := h.addClient_eq (h.lt_of_not_isFull hfull) answers.accepted
    have hserver : ts₁.server = Tables.added ts.server new answers.accepted := by
      obtain ⟨server, hserver, ⟨-, rfl⟩ | ⟨-, _, _, _, _, -, rfl⟩⟩ := tsAddClient_cases hadd
      all_goals
        rw [hnew] at hserver
        cases hserver
        rfl
    rw [hserver, Tables.connected_added hfailed]
  · cases hstep
    obtain ⟨haccepts, hcloses⟩ := hnone fun hboth => hpending hboth.1
    rw [haccepts, hcloses, List.append_nil]
    exact List.Perm.refl _

/-- A step that does not end the run moves descriptors from the slots to those closed. -/
theorem Moves.connected {ts : TunnelServer} {place : Place} {answers : Answers}
    {happening : Option Happening} {s' : Sender} {ids : List ℕ}
    (hmove : Moves ts answers place happening s') (h : Tables ts.server ids)
    (hgoing : s'.place ≠ .stopped) :
    (stepCloses ⟨ts, place⟩ answers ++ connected s'.ts.server).Perm
      (connected ts.server ++ stepAccepts ⟨ts, place⟩ answers) := by
  cases hmove with
  | fails | stays => exact absurd rfl hgoing
  | @polls revents hpolls =>
      simp only [stepCloses, stepAccepts, hpolls, List.append_nil]
      show (Lab34.connected (pollServer ts.server revents)).Perm _
      rw [Lab34.connected, slotFd_pollServer]
      exact List.Perm.refl _
  | accepts honce => exact connected_acceptOnce h honce
  | visits hmore honce =>
      simp only [stepCloses, stepAccepts, List.append_nil, if_pos hmore]
      exact connected_performClientIoAt h honce
  | visited hend =>
      simp only [stepCloses, stepAccepts, List.append_nil, if_neg hend]
      exact List.Perm.refl _
  | checks honce | checked honce =>
      simp only [stepCloses, stepAccepts, List.append_nil]
      exact connected_processEmptyRemovedAt h honce
  | announces honce | announced honce =>
      obtain ⟨_, _, rfl⟩ := processAddedOnce_cases honce
      simp only [stepCloses, stepAccepts, List.append_nil, List.nil_append]
      exact List.Perm.refl _
  | sends honce =>
      obtain ⟨_, _, _, _, rfl⟩ := sendOnce_cases honce
      simp only [stepCloses, stepAccepts, List.append_nil, List.nil_append]
      exact List.Perm.refl _
  | writes honce =>
      obtain ⟨_, server, writeable, hserver, rfl⟩ := tunnelOnce_cases honce
      obtain ⟨hslots, hcount⟩ := slotFd_setTunnelWriteable hserver
      simp only [stepCloses, stepAccepts, List.append_nil, List.nil_append]
      rw [Lab34.connected, Lab34.connected, hslots, hcount]

theorem sameEnds_update {s s' : Server} {k : ℕ} {pollfd : Pollfd} (hk : pollClientOffset ≤ k)
    (hcells : s'.clients.cells = Function.update s.clients.cells k pollfd) : SameEnds s s' := by
  intro l hl
  rw [hcells, Function.update_of_ne (by omega)]

theorem sameEnds_senderStep {s s' : Sender} {answers : Answers} {happening : Option Happening}
    (h : Listed s.ts.server) (hstep : senderStep s answers = some (happening, s')) :
    SameEnds s.ts.server s'.ts.server := by
  refine senderStep_rel (R := fun ts ts' => Listed ts.server → SameEnds ts.server ts'.server) hstep
    (fun _ _ _ _ => rfl) ?_ ?_ ?_ ?_ ?_ ?_ ?_ h
  · intro ts revents _ k _
    simp only [pollServer, polled]
    split_ifs <;> rfl
  · rintro ts ts' fd clientJunk tunnelJunk id hadd ⟨ids, h⟩
    obtain ⟨server, hserver, hfields⟩ := tsAddClient_cases hadd
    have hends : SameEnds ts.server server := by
      rcases Nat.lt_or_ge ids.length maxClients with hroom | hfull
      · obtain ⟨new, -, -, hnew⟩ := h.addClient_eq hroom fd
        rw [hnew] at hserver
        cases hserver
        exact sameEnds_update (Nat.le_add_left _ _) rfl
      · rw [h.addClient_full (h.length_le.antisymm hfull)] at hserver
        cases hserver
        exact fun _ _ => rfl
    obtain ⟨-, rfl⟩ | ⟨-, _, _, _, _, -, rfl⟩ := hfields
    · exact hends
    · exact hends
  · rintro ts ts' i processed input received processed' hio ⟨ids, h⟩
    obtain ⟨id, ioable, -, -, -, ⟨-, -, rfl⟩ | ⟨-, _, rfl | hremove⟩⟩ := performClientIoAt_cases hio
    · exact fun _ _ => rfl
    · exact fun _ _ => rfl
    · obtain ⟨_, _, _, hserver, rfl⟩ := tsRemoveClient_cases hremove
      exact h.sameEnds_disconnectClient hserver
  · rintro ts ts' i turn hiter ⟨ids, h⟩
    obtain ⟨_, rfl | ⟨_, _, hremove⟩⟩ := processEmptyRemovedAt_cases hiter
    · exact fun _ _ => rfl
    · obtain ⟨_, _, _, _, _, hserver, rfl⟩ := tsActualRemove_cases hremove
      exact h.sameEnds_removeClient hserver
  · intro ts ts' turn honce _
    obtain ⟨_, _, rfl⟩ := processAddedOnce_cases honce
    exact fun _ _ => rfl
  · intro ts ts' messageLength consumed again _ honce _
    obtain ⟨_, _, _, _, rfl⟩ := sendOnce_cases honce
    exact fun _ _ => rfl
  · intro ts ts' written honce _
    obtain ⟨_, server, writeable, hserver, rfl⟩ := tunnelOnce_cases honce
    simp only [setTunnelWriteable, load_getTunnel, Option.bind_eq_bind, Option.bind_some] at hserver
    rw [getTunnel, CArray.store_of_lt _ _ (by decide)] at hserver
    cases hserver
    intro k _
    show Pollfd.fd (Function.update ts.server.clients.cells pollTunnelIndex _ k) = _
    rw [Function.update_apply]
    split_ifs with htunnel
    · rw [htunnel, setPollableOn]
      split_ifs <;> rfl
    · rfl

theorem Moves.stopped {ts : TunnelServer} {place : Place} {answers : Answers}
    {happening : Option Happening} {s' : Sender} (hmove : Moves ts answers place happening s')
    (hstopped : s'.place = .stopped) :
    s' = ⟨ts, place⟩ ∧ place = .stopped ∨ place = .poll ∧ answers.revents = none := by
  cases hmove with
  | fails hfails => exact .inr ⟨rfl, hfails⟩
  | stays => exact .inl ⟨rfl, rfl⟩
  | accepts honce =>
      obtain ⟨ioable, -, ⟨-, rfl | rfl⟩ | ⟨-, -, -, id, ts', -, rfl, -⟩⟩ := acceptOnce_cases honce
      all_goals cases hstopped
  | @checked i result | @announced result | @sends consumed result =>
      cases result with
      | true | false => cases hstopped
  | _ => cases hstopped

/-! ### Runs -/

structure DescriptorWorld where
  sender : Sender
  accepted : List ℤ
  closed : List ℤ

namespace DescriptorWorld

def start (listenFd tunnelFd : ℤ) (tpbJunk queueJunk : ℕ → CChar) : DescriptorWorld :=
  ⟨Sender.start listenFd tunnelFd tpbJunk queueJunk, [], []⟩

def step (w : DescriptorWorld) (answers : Answers) : Option DescriptorWorld :=
  (senderStep w.sender answers).map fun (_, sender) =>
    ⟨sender, w.accepted ++ stepAccepts w.sender answers, w.closed ++ stepCloses w.sender answers⟩

/-- While the program runs, each accepted descriptor is in one slot or was closed once. When it
has ended, these were closed once, and so were the listener and the tunnel; nothing is closed
for the clients that were gone and not yet released. -/
structure Accounted (listenFd tunnelFd : ℤ) (w : DescriptorWorld) : Prop where
  going : w.sender.place ≠ .stopped →
    w.accepted.Perm (connected w.sender.ts.server ++ w.closed)
  ended : w.sender.place = .stopped →
    w.closed.Perm (listenFd :: tunnelFd :: (w.accepted ++ List.replicate
      (marked removedClient (slotFd w.sender.ts.server) w.sender.ts.server.clientCount)
      removedClient))

structure InOrder (listenFd tunnelFd : ℤ) (w : DescriptorWorld) : Prop where
  listed : Listed w.sender.ts.server
  listener : (w.sender.ts.server.clients.cells pollListenerIndex).fd = listenFd
  tunnel : (w.sender.ts.server.clients.cells pollTunnelIndex).fd = tunnelFd
  accounted : w.Accounted listenFd tunnelFd

theorem InOrder.start (listenFd tunnelFd : ℤ) (tpbJunk queueJunk : ℕ → CChar) :
    (DescriptorWorld.start listenFd tunnelFd tpbJunk queueJunk).InOrder listenFd tunnelFd where
  listed := ⟨[], Tables.built listenFd tunnelFd⟩
  listener := rfl
  tunnel := rfl
  accounted := ⟨fun _ => List.Perm.refl _, fun hstopped => by cases hstopped⟩

variable {w w' : DescriptorWorld} {listenFd tunnelFd : ℤ} {answers : Answers}

theorem InOrder.ends (h : w.InOrder listenFd tunnelFd) (hplace : w.sender.place = .poll)
    (hfails : answers.revents = none) (hstep : w.step answers = some w') :
    w'.InOrder listenFd tunnelFd := by
  obtain ⟨⟨ts, place⟩, accepted, closed⟩ := w
  obtain rfl : place = .poll := hplace
  simp only [step, senderStep, hfails, Option.map_some] at hstep
  cases hstep
  obtain ⟨ids, htables⟩ := h.listed
  have hcloses : stepCloses ⟨ts, .poll⟩ answers =
      listenFd :: tunnelFd :: firstCells (slotFd ts.server) ts.server.clientCount := by
    have hlistener := h.listener
    have htunnel := h.tunnel
    simp only [stepCloses, hfails, htables.safeCleanup_eq, Option.isNone_none, if_true,
      Option.getD_some] at hlistener htunnel ⊢
    rw [hlistener, htunnel]
  refine ⟨h.listed, h.listener, h.tunnel, fun hgoing => absurd rfl hgoing, fun _ => ?_⟩
  have haccepted : accepted.Perm (connected ts.server ++ closed) := h.accounted.going (by
    intro hstopped
    cases hstopped)
  show (closed ++ stepCloses ⟨ts, .poll⟩ answers).Perm
    (listenFd :: tunnelFd :: (accepted ++ [] ++ _))
  rw [hcloses, List.append_nil]
  refine List.perm_middle.trans ((List.perm_middle.trans ?_).cons listenFd)
  apply List.Perm.cons
  calc (closed ++ firstCells (slotFd ts.server) ts.server.clientCount).Perm
        (closed ++ (connected ts.server ++ List.replicate _ removedClient)) :=
        firstCells_perm.append_left closed
    _ = (closed ++ connected ts.server) ++ List.replicate _ removedClient :=
        (List.append_assoc _ _ _).symm
    _ |>.Perm (accepted ++ List.replicate _ removedClient) :=
        (List.perm_append_comm.trans haccepted.symm).append_right _

theorem InOrder.step (h : w.InOrder listenFd tunnelFd) (hstep : w.step answers = some w') :
    w'.InOrder listenFd tunnelFd := by
  obtain ⟨⟨happening, s'⟩, hsender, rfl⟩ := Option.map_eq_some_iff.mp hstep
  have hlisted := h.listed.senderStep hsender
  have hends := sameEnds_senderStep h.listed hsender
  have hlistener := (hends pollListenerIndex (by decide)).trans h.listener
  have htunnel := (hends pollTunnelIndex (by decide)).trans h.tunnel
  have hmove := moves_of_senderStep hsender
  rcases eq_or_ne s'.place .stopped with hstopped | hgoing
  · rcases hmove.stopped hstopped with ⟨rfl, hplace⟩ | ⟨hplace, hfails⟩
    · -- nothing happens any more
      refine ⟨hlisted, hlistener, htunnel, fun hgoing => absurd hstopped hgoing, fun _ => ?_⟩
      simp only [stepCloses, stepAccepts, hplace, List.append_nil]
      exact h.accounted.ended hplace
    · exact h.ends hplace hfails hstep
  · refine ⟨hlisted, hlistener, htunnel, fun _ => ?_, fun hstopped => absurd hstopped hgoing⟩
    have hplace : w.sender.place ≠ .stopped := by
      intro hstopped
      simp only [senderStep, hstopped] at hsender
      cases hsender
      exact hgoing hstopped
    obtain ⟨ids, htables⟩ := h.listed
    have hmoved : (stepCloses w.sender answers ++ connected s'.ts.server).Perm
        (connected w.sender.ts.server ++ stepAccepts w.sender answers) :=
      hmove.connected htables hgoing
    have haccepted := h.accounted.going hplace
    show (w.accepted ++ stepAccepts w.sender answers).Perm
      (connected s'.ts.server ++ (w.closed ++ stepCloses w.sender answers))
    calc (w.accepted ++ stepAccepts w.sender answers).Perm
          ((connected w.sender.ts.server ++ w.closed) ++ stepAccepts w.sender answers) :=
          haccepted.append_right _
      _ |>.Perm (w.closed ++ (connected w.sender.ts.server ++ stepAccepts w.sender answers)) := by
          rw [← List.append_assoc]
          exact List.perm_append_comm.append_right _
      _ |>.Perm (w.closed ++ (stepCloses w.sender answers ++ connected s'.ts.server)) :=
          hmoved.symm.append_left _
      _ |>.Perm (connected s'.ts.server ++ (w.closed ++ stepCloses w.sender answers)) := by
          rw [← List.append_assoc]
          exact List.perm_append_comm

/-- In every run of the main loop, whoever is released, every descriptor is accounted for. -/
theorem accounted_run (listenFd tunnelFd : ℤ) (tpbJunk queueJunk : ℕ → CChar)
    (answers : List Answers) :
    RunMeets (fun w _ => w.Accounted listenFd tunnelFd) DescriptorWorld.step
      (DescriptorWorld.start listenFd tunnelFd tpbJunk queueJunk) answers :=
  runMeets_of_meets (C := fun _ _ => True) (I := InOrder listenFd tunnelFd)
    (fun _ _ h => h.accounted) (fun _ _ _ h _ hstep => h.step hstep)
    (InOrder.start listenFd tunnelFd tpbJunk queueJunk)
    (runMeets_of_forall (C := fun _ => True) fun _ _ => trivial)

end DescriptorWorld

end UnixLabs.Lab34
