import UnixLabs.Lab34.RoundRobin
import UnixLabs.Lab34.SenderLoop
import UnixLabs.Lab34.SenderTables
import UnixLabs.Library.Sessions

/-!
What one step of the sender does, seen from its clients.

`Steady` is what a sender in order looks like between two steps, and `Effect` says
all that the results about runs need to know of a step: the bytes it moves between
the backlogs of the clients and the events it puts. Each function of the sender is
taken apart once, here.
-/

namespace UnixLabs.Lab34

open Library

def backlogs (ts : TunnelServer) (ids : List ℕ) : Backlogs ℕ CChar := fun id =>
  if id ∈ ids then some (ts.clientBuffers.cells id).contents else none

/-- The tables list `ids`, the buffers are allocated, and a half-sent chunk is at
the front of the buffer of the client it belongs to. -/
structure Steady (ts : TunnelServer) (ids : List ℕ) : Prop where
  positions : Positions ts ids
  clientSize : ∀ id ∈ ids, 0 < (ts.clientBuffers.cells id).size
  tunnelSize : 0 < ts.tunnelTpb.buffer.size
  queueSize : ts.addQueue.size = maxClients
  chunk : ts.sendCount ≠ 0 → ∃ k < maxClients, ∃ id ∈ ids, ts.sendOrder = (k : ℕ) ∧
    ts.idTable.cells k = id ∧ ts.sendCount ≤ (ts.clientBuffers.cells id).count

theorem backlogs_mem {ts : TunnelServer} {ids : List ℕ} {id : ℕ} (h : id ∈ ids) :
    backlogs ts ids id = some (ts.clientBuffers.cells id).contents := if_pos h

theorem backlogs_not_mem {ts : TunnelServer} {ids : List ℕ} {id : ℕ} (h : id ∉ ids) :
    backlogs ts ids id = none := if_neg h

theorem backlogs_update {ts ts' : TunnelServer} {ids : List ℕ} {id : ℕ} (h : id ∈ ids)
    {buffer : CyclicBuffer}
    (hbuffers : ts'.clientBuffers = ⟨Function.update ts.clientBuffers.cells id buffer⟩) :
    backlogs ts' ids = Function.update (backlogs ts ids) id (some buffer.contents) := by
  ext j : 1
  by_cases hj : j = id
  · subst hj
    rw [Function.update_self, backlogs_mem h, hbuffers]
    simp only [Function.update_self]
  · rw [Function.update_of_ne hj]
    simp only [backlogs, hbuffers, Function.update_of_ne hj]

/-! ### `poll` and the tables -/

theorem load_getTunnel (c : CArray (maxClients + 2) Pollfd) :
    c.load getTunnel = some (c.cells pollTunnelIndex) := c.load_of_lt (by decide)

theorem tunnelIoable_eq (s : Server) : tunnelIoable s =
    some (isPollable (s.clients.cells pollTunnelIndex) (pollIn ||| pollOut ||| pollErr)) := by
  rw [tunnelIoable, tunnelPollable, load_getTunnel]
  rfl

namespace Tables

variable {s : Server} {ids : List ℕ}

theorem polled (h : Tables s ids) (revents : ℕ → BitVec 16) :
    Tables (pollServer s revents) ids := by
  refine ⟨h.count, h.indexed, fun p hp hpm => ?_⟩
  have hfree := h.free p hp hpm
  simp only [pollServer, UnixLabs.polled]
  split_ifs
  all_goals exact hfree

theorem setTunnelWriteable (h : Tables s ids) (writeable : Bool) :
    ∃ server, Lab34.setTunnelWriteable s writeable = some server ∧ Tables server ids := by
  simp only [Lab34.setTunnelWriteable, load_getTunnel, Option.bind_eq_bind, Option.bind_some]
  rw [getTunnel, CArray.store_of_lt _ _ (by decide)]
  refine ⟨_, rfl, h.count, h.indexed, fun p hp hpm => ?_⟩
  have hne : p + pollClientOffset ≠ pollTunnelIndex := by
    unfold pollClientOffset pollTunnelIndex
    omega
  simpa only [Function.update_of_ne hne] using h.free p hp hpm

end Tables

namespace Steady

variable {ts : TunnelServer} {ids : List ℕ}

theorem built (listenFd tunnelFd : ℤ) (tpbJunk queueJunk : ℕ → CChar) :
    Steady (builtTserver (builtServer listenFd tunnelFd) tpbJunk queueJunk) [] where
  positions := Positions.built listenFd tunnelFd tpbJunk queueJunk
  clientSize := nofun
  tunnelSize := by simp [builtTserver, TPBuffer.tpbInit, CyclicBuffer.cbInit, messageSize]
  queueSize := rfl
  chunk := fun h => absurd rfl h

/-- The tables may change as long as they list the same clients, and so may the
contents of the tunnel and of the queue. -/
theorem congr (h : Steady ts ids) {ts' : TunnelServer} (hpos : Positions ts' ids)
    (htable : ts'.idTable = ts.idTable) (hbuffers : ts'.clientBuffers = ts.clientBuffers)
    (htunnel : ts'.tunnelTpb.buffer.size = ts.tunnelTpb.buffer.size)
    (hqueue : ts'.addQueue.size = ts.addQueue.size) (horder : ts'.sendOrder = ts.sendOrder)
    (hcount : ts'.sendCount = ts.sendCount) : Steady ts' ids where
  positions := hpos
  clientSize := hbuffers ▸ h.clientSize
  tunnelSize := htunnel ▸ h.tunnelSize
  queueSize := hqueue.trans h.queueSize
  chunk := by
    rw [htable, hbuffers, horder, hcount]
    exact h.chunk

/-- Bytes that are appended to a client's buffer stay behind the chunk. -/
theorem received (h : Steady ts ids) {id : ℕ} (hid : id ∈ ids) {buffer : CyclicBuffer}
    (hsize : buffer.size = (ts.clientBuffers.cells id).size)
    (hcount : (ts.clientBuffers.cells id).count ≤ buffer.count) :
    Steady { ts with clientBuffers := ⟨Function.update ts.clientBuffers.cells id buffer⟩ } ids where
  positions := h.positions.congr rfl rfl rfl
  clientSize := by
    intro j hj
    simp only [Function.update_apply]
    split_ifs with he
    · rw [hsize]
      exact h.clientSize id hid
    · exact h.clientSize j hj
  tunnelSize := h.tunnelSize
  queueSize := h.queueSize
  chunk := by
    intro hne
    obtain ⟨k, hk, j, hj, horder, hcell, hle⟩ := h.chunk hne
    refine ⟨k, hk, j, hj, horder, hcell, ?_⟩
    simp only [Function.update_apply]
    split_ifs with he
    · exact (he ▸ hle).trans hcount
    · exact hle

theorem marked (h : Steady ts ids) {i : ℕ} (hi : i < ids.length) :
    Steady (Positions.marked ts ids i hi) ids :=
  h.congr (h.positions.marked_positions hi) rfl rfl rfl rfl rfl rfl

/-! ### `poll` and the tunnel -/

theorem polled (h : Steady ts ids) (revents : ℕ → BitVec 16) :
    Steady { ts with server := pollServer ts.server revents } ids :=
  h.congr ⟨h.positions.tables.polled revents, h.positions.count, h.positions.position,
    h.positions.range⟩ rfl rfl rfl rfl rfl rfl

theorem sendTunnel (h : Steady ts ids) (written : Option ℕ) :
    ∃ tunnelTpb, Lab34.sendTunnel ts written = some tunnelTpb ∧
      tunnelTpb.buffer.size = ts.tunnelTpb.buffer.size := by
  simp only [Lab34.sendTunnel, tunnelWriteable, tunnelPollable, load_getTunnel, Option.map_some,
    Option.bind_eq_bind, Option.bind_some]
  split_ifs
  · obtain ⟨ret, tpb, hsend, -, hsize, -⟩ := TPBuffer.tpbSend_spec h.tunnelSize written
    exact ⟨tpb, by rw [hsend]; rfl, hsize⟩
  · exact ⟨_, rfl, rfl⟩

theorem tunnelOnce (h : Steady ts ids) (written : Option ℕ) :
    ∃ ts', Lab34.tunnelOnce ts written = some ts' ∧ Steady ts' ids ∧
      ts'.clientBuffers = ts.clientBuffers ∧ ts'.addQueue = ts.addQueue := by
  obtain ⟨tunnelTpb, hsend, hsize⟩ := h.sendTunnel written
  obtain ⟨server, hset, htables⟩ := h.positions.tables.setTunnelWriteable (!tunnelTpb.tpbEmpty)
  refine ⟨{ ts with server, tunnelTpb }, ?_, ?_, rfl, rfl⟩
  · simp only [Lab34.tunnelOnce, hsend, hset, Option.bind_eq_bind, Option.bind_some]
  · exact h.congr ⟨htables, h.positions.count, h.positions.position, h.positions.range⟩
      rfl rfl hsize rfl rfl rfl

/-! ### Accepting -/

/-- A new client takes the first free position. A chunk must not be remembered for
that position. -/
theorem joined (h : Steady ts ids) {id : ℕ} (hid : id < maxClients) (hfresh : id ∉ ids) (fd : ℤ)
    (clientJunk tunnelJunk : ℕ → CChar)
    (hchunk : ts.sendCount ≠ 0 → ts.sendOrder ≠ ts.clientCount) :
    Steady (Positions.joined ts id fd clientJunk tunnelJunk) (ids ++ [id]) where
  positions := h.positions.joined_positions hid hfresh fd clientJunk tunnelJunk
  clientSize := by
    intro j hj
    simp only [Positions.joined, Function.update_apply]
    split_ifs with he
    · exact Nat.succ_pos _
    · exact h.clientSize j (by simpa [he] using hj)
  tunnelSize := h.tunnelSize
  queueSize := (CyclicBuffer.size_cbPutc _ _).trans h.queueSize
  chunk := by
    intro hne
    obtain ⟨k, hk, j, hj, horder, hcell, hle⟩ := h.chunk hne
    have hkn : k ≠ ts.clientCount := by
      rintro rfl
      exact hchunk hne horder
    have hjid : j ≠ id := fun he => hfresh (he ▸ hj)
    refine ⟨k, hk, j, List.mem_append_left _ hj, horder, ?_, ?_⟩
    · simpa only [Positions.joined, Function.update_of_ne hkn] using hcell
    · simpa only [Positions.joined, Function.update_of_ne hjid] using hle

theorem backlogs_joined {id : ℕ} (hfresh : id ∉ ids) (fd : ℤ)
    (clientJunk tunnelJunk : ℕ → CChar) :
    backlogs (Positions.joined ts id fd clientJunk tunnelJunk) (ids ++ [id]) =
      Function.update (backlogs ts ids) id (some []) := by
  ext j : 1
  by_cases hj : j = id
  · subst hj
    rw [Function.update_self, backlogs_mem (by simp)]
    simp only [Positions.joined, Function.update_self, CyclicBuffer.contents_cbInit]
  · rw [Function.update_of_ne hj]
    simp only [backlogs, Positions.joined, Function.update_of_ne hj, List.mem_append,
      List.mem_singleton, hj, or_false]

/-! ### Reading -/

theorem clientPollable (h : Steady ts ids) {i : ℕ} (hi : i < ids.length) (mask : BitVec 16) :
    ∃ pollable, Lab34.clientPollable ts.server ids[i] mask = some pollable := by
  simp only [Lab34.clientPollable, h.positions.tables.getClient_eq hi,
    h.positions.tables.load_slot _ hi]
  exact ⟨_, rfl⟩

/-- A client is read from or marked or left alone; what is reported as received is
appended to its backlog. -/
theorem performClientIoAt (h : Steady ts ids) {i : ℕ} (hi : i < ids.length) (processed : ℕ)
    (input : Option (List CChar)) :
    ∃ received processed' ts',
      Lab34.performClientIoAt ts i processed input = some (received, processed', ts') ∧
      Steady ts' ids ∧ ts'.addQueue = ts.addQueue ∧
      (received = none ∧ backlogs ts' ids = backlogs ts ids ∨
        ∃ bytes, received = some ((ids[i] : ℤ), bytes) ∧
          backlogs ts' ids = Function.update (backlogs ts ids) ids[i]
            (some ((ts.clientBuffers.cells ids[i]).contents ++ bytes))) := by
  have hmem : ids[i] ∈ ids := List.getElem_mem hi
  have hlt := h.positions.id_lt hi
  obtain ⟨ioable, hioable⟩ := h.clientPollable hi (pollIn ||| pollOut ||| pollErr)
  obtain ⟨failed, hfailed⟩ := h.clientPollable hi pollErr
  obtain ⟨readable, hreadable⟩ := h.clientPollable hi pollIn
  simp only [Lab34.performClientIoAt, clientIoable, clientHasErrors, clientReadable,
    h.positions.load_idTable hi, sizeT_id hlt, hioable, hfailed, hreadable,
    ts.clientBuffers.load_of_lt hlt, CArray.store_of_lt _ _ hlt, Option.bind_eq_bind,
    Option.bind_some]
  by_cases hfail : failed = true
  · rw [if_pos hfail, h.positions.tsRemoveClient_eq hi]
    exact ⟨_, _, _, rfl, h.marked hi, rfl, .inl ⟨rfl, rfl⟩⟩
  rw [if_neg hfail]
  by_cases hread : (!(ts.clientBuffers.cells ids[i]).cbFull && readable) = true
  · rw [if_pos hread]
    have hsize := (ts.clientBuffers.cells ids[i]).size_cbRecv input
    rcases (ts.clientBuffers.cells ids[i]).cbRecv_spec input with
      ⟨hret, hcontents⟩ | ⟨bytes, rfl, hret, hcontents⟩
    · -- `read` failed or found the end of the input
      have hcount := congrArg List.length hcontents
      simp only [CyclicBuffer.length_contents] at hcount
      have hnext := h.received hmem hsize hcount.ge
      simp only [hret, if_true]
      rw [hnext.positions.tsRemoveClient_eq hi]
      refine ⟨_, _, _, rfl, hnext.marked hi, rfl, .inl ⟨rfl, ?_⟩⟩
      rw [backlogs_update hmem rfl, hcontents, ← backlogs_mem hmem, Function.update_eq_self]
    · have hcount := congrArg List.length hcontents
      simp only [List.length_append, CyclicBuffer.length_contents] at hcount
      have hnext := h.received hmem hsize (by omega)
      have hne : ((ts.clientBuffers.cells ids[i]).cbRecv (some bytes)).1 ≠ -1 := by omega
      simp only [hne, if_false, Option.map_some]
      exact ⟨_, _, _, rfl, hnext, rfl, .inr ⟨_, rfl, by rw [backlogs_update hmem rfl, hcontents]⟩⟩
  · rw [if_neg hread]
    exact ⟨_, _, _, rfl, h, rfl, .inl ⟨rfl, rfl⟩⟩

/-! ### Releasing and announcing -/

/-- A client that is released at its own position had an empty backlog. -/
theorem released (h : Steady ts ids) {i id : ℕ} (hrel : Releases ts i id)
    (hown : OwnPosition ts i id) :
    ∃ ts' ids', processEmptyRemovedAt ts i = some (.next i, ts') ∧ Steady ts' ids' ∧
      ts.idTable.load i = some (id : ℤ) ∧ id ∈ ids ∧ (∀ j, j ∈ ids' ↔ j ∈ ids ∧ j ≠ id) ∧
      ts'.addQueue = ts.addQueue ∧
      ts'.tunnelTpb = (ts.tunnelTpb.tpbContolMessage clientRemove id).2 ∧
      backlogs ts ids id = some [] ∧
      backlogs ts' ids' = Function.update (backlogs ts ids) id none := by
  obtain ⟨hi, rfl, hiter, hpos⟩ := h.positions.iterate_own hrel hown
  have hmem : ∀ j, j ∈ swapRemove ids i ↔ j ∈ ids ∧ j ≠ ids[i] := fun j =>
    mem_swapRemove h.positions.tables.indexed.nodup hi
  have hempty := CyclicBuffer.cbEmpty_iff.mp hrel.empty
  refine ⟨_, _, hiter, ⟨hpos, ?_, ?_, h.queueSize, ?_⟩, h.positions.load_idTable hi,
    List.getElem_mem hi, hmem, rfl, rfl, ?_, ?_⟩
  · intro j hj
    obtain ⟨hj, hne⟩ := (hmem j).mp hj
    simp only [Positions.released, announced, Function.update_of_ne hne]
    exact h.clientSize j hj
  · exact (TPBuffer.size_tpbContolMessage _ _ _).symm ▸ h.tunnelSize
  · -- the chunk belongs to another client, at another position
    intro hne
    obtain ⟨k, hk, j, hj, horder, hcell, hle⟩ := h.chunk hne
    have hji : j ≠ ids[i] := by
      rintro rfl
      rw [← CyclicBuffer.length_contents, hempty] at hle
      exact hne (Nat.le_zero.mp hle)
    have hki : k ≠ ids[i] := by
      rintro rfl
      have := hcell.symm.trans hown.1
      exact hji (by exact_mod_cast this)
    refine ⟨k, hk, j, (hmem j).mpr ⟨hj, hji⟩, horder, ?_, ?_⟩
    · simpa only [Positions.released, announced, Function.update_of_ne hki] using hcell
    · simpa only [Positions.released, announced, Function.update_of_ne hji] using hle
  · rw [backlogs_mem (List.getElem_mem hi), hempty]
  · ext j : 1
    by_cases hj : j = ids[i]
    · rw [hj, Function.update_self, backlogs_not_mem fun hin => ((hmem _).mp hin).2 rfl]
    · rw [Function.update_of_ne hj]
      simp only [backlogs, hmem j, hj, ne_eq, not_false_eq_true, and_true, Positions.released,
        announced, Function.update_of_ne hj]

/-- `process_added` puts the event of the first client in the queue, if it can. -/
theorem processAddedOnce (h : Steady ts ids) :
    ∃ turn ts', Lab34.processAddedOnce ts = some (turn, ts') ∧ Steady ts' ids ∧
      ts'.clientBuffers = ts.clientBuffers ∧
      (turn = .done true ∧ ts' = ts ∧ ts.addQueue.contents = [] ∨
        turn = .done false ∧ ts'.addQueue = ts.addQueue ∨
        turn = .next () ∧ ∃ id rest, ts.addQueue.contents = id :: rest ∧
          ts'.addQueue.contents = rest ∧
          (ts.tunnelTpb.tpbContolMessage clientAdd id.toInt).1 = true ∧
          ts'.tunnelTpb = (ts.tunnelTpb.tpbContolMessage clientAdd id.toInt).2) := by
  unfold Lab34.processAddedOnce
  rw [CyclicBuffer.cbPeek_eq]
  cases hqueue : ts.addQueue.contents with
  | nil => exact ⟨_, _, rfl, h, rfl, .inl ⟨rfl, rfl, rfl⟩⟩
  | cons id rest =>
      have hsize := TPBuffer.size_tpbContolMessage ts.tunnelTpb clientAdd id.toInt
      simp only [List.head?_cons]
      cases hput : (ts.tunnelTpb.tpbContolMessage clientAdd id.toInt).1 with
      | false =>
          refine ⟨_, _, rfl, ?_, rfl, .inr (.inl ⟨rfl, rfl⟩)⟩
          exact h.congr (h.positions.congr rfl rfl rfl) rfl rfl hsize rfl rfl rfl
      | true =>
          obtain ⟨addQueue, hskip, hdrop, hqsize⟩ := CyclicBuffer.cbSkip_spec
            (h.queueSize ▸ (by decide) : 0 < ts.addQueue.size) 1
          refine ⟨.next (), { ts with
              tunnelTpb := (ts.tunnelTpb.tpbContolMessage clientAdd id.toInt).2, addQueue },
            by simp only [hskip]; rfl, ?_, rfl, .inr (.inr ⟨rfl, id, rest, rfl, ?_, hput, rfl⟩)⟩
          · exact h.congr (h.positions.congr rfl rfl rfl) rfl rfl hsize hqsize rfl rfl
          · rw [hdrop, hqueue, List.drop_one, List.tail_cons]

/-! ### Sending -/

theorem searchable (h : Steady ts ids) : Searchable ts where
  count_le := h.positions.count ▸ h.positions.length_le
  position := fun k hk => by
    rw [h.positions.count] at hk
    exact ⟨ids[k], h.positions.id_lt hk, h.positions.position k hk⟩

theorem nextMessageClient (h : Steady ts ids) (previous : ℤ) :
    ∃ order, Lab34.nextMessageClient ts previous = some order ∧
      (order = noOrder ∨ ∃ k < ids.length, order = (k : ℕ)) := by
  by_cases hnone : ts.clientCount = 0
  · exact ⟨noOrder, if_pos hnone, .inl rfl⟩
  obtain ⟨order, hnext, -, hfirst⟩ :=
    h.searchable.nextMessageClient_any (Nat.pos_of_ne_zero hnone) previous
  refine ⟨order, hnext, or_iff_not_imp_left.mpr fun hne => ?_⟩
  obtain ⟨k, hk, horder, -⟩ := hfirst hne
  exact ⟨k, h.positions.count ▸ hk, horder⟩

/-- A chunk is sent from the front of the backlog of the client it belongs to. -/
theorem sendChunk (h : Steady ts ids) {k id : ℕ} (hk : k < maxClients) (hid : id ∈ ids)
    (horder : ts.sendOrder = (k : ℕ)) (hcell : ts.idTable.cells k = id)
    (hle : ts.sendCount ≤ (ts.clientBuffers.cells id).count) (messageLength : ℕ → ℕ) :
    ∃ consumed again ts', Lab34.sendChunk ts messageLength = some (consumed, again, ts') ∧
      Steady ts' ids ∧ ts'.addQueue = ts.addQueue ∧
      (consumed = none ∧ backlogs ts' ids = backlogs ts ids ∨
        ∃ bytes q, consumed = some ((id : ℤ), bytes) ∧ backlogs ts ids id = some (bytes ++ q) ∧
          backlogs ts' ids = Function.update (backlogs ts ids) id (some q)) := by
  have hlt := h.positions.tables.indexed.lt id hid
  have hcount : ∃ c, (if ts.sendCount = 0 then (ts.clientBuffers.cells id).count
      else ts.sendCount) = c ∧ c ≤ (ts.clientBuffers.cells id).count := by
    refine ⟨_, rfl, ?_⟩
    split_ifs
    · exact le_rfl
    · exact hle
  obtain ⟨c, hc, hcle⟩ := hcount
  simp only [Lab34.sendChunk, horder, ts.idTable.load_of_lt hk, hcell, Option.bind_eq_bind,
    Option.bind_some, ts.clientBuffers.load_of_lt hlt, hc, CArray.store_of_lt _ _ hlt,
    CyclicBuffer.cbData_cbShift _ hcle]
  by_cases hzero : c = 0
  · rw [if_pos hzero]
    refine ⟨none, false, { ts with sendOrder := (k : ℕ), sendCount := c }, rfl, ?_, rfl,
      .inl ⟨rfl, rfl⟩⟩
    exact ⟨h.positions.congr rfl rfl rfl, h.clientSize, h.tunnelSize, h.queueSize,
      fun hne => absurd hzero hne⟩
  rw [if_neg hzero]
  obtain ⟨n, tpb, hput, hn, hsize⟩ := TPBuffer.tpbEncapsulate_spec h.tunnelSize
    ((ts.clientBuffers.cells id).contents.take c) id messageLength
  rw [List.length_take, CyclicBuffer.length_contents, Nat.min_eq_left hcle] at hn
  obtain ⟨dataBuf, hskip, hdrop, hbsize⟩ := CyclicBuffer.cbSkip_spec
    (show 0 < (ts.clientBuffers.cells id).cbShift.size by
      rw [CyclicBuffer.size_cbShift]; exact h.clientSize id hid) n
  rw [CyclicBuffer.contents_cbShift] at hdrop
  rw [CyclicBuffer.size_cbShift] at hbsize
  simp only [hput, hskip, Option.bind_some]
  refine ⟨_, _, _, rfl, ⟨h.positions.congr rfl rfl rfl, ?_, hsize.symm ▸ h.tunnelSize, h.queueSize,
    fun _ => ⟨k, hk, id, hid, rfl, hcell, ?_⟩⟩, rfl,
    .inr ⟨_, dataBuf.contents, rfl, ?_, backlogs_update hid rfl⟩⟩
  · intro j hj
    simp only [Function.update_apply]
    split_ifs with he
    · rw [hbsize]
      exact h.clientSize id hid
    · exact h.clientSize j hj
  · have hrest := congrArg List.length hdrop
    rw [List.length_drop, CyclicBuffer.length_contents, CyclicBuffer.length_contents] at hrest
    simp only [Function.update_self, hrest]
    omega
  · rw [backlogs_mem hid, hdrop, List.take_take, Nat.min_eq_left hn, List.take_append_drop]

theorem chosen (h : Steady ts ids) (hzero : ts.sendCount = 0) (order : ℤ) :
    Steady { ts with sendOrder := order } ids :=
  ⟨h.positions.congr rfl rfl rfl, h.clientSize, h.tunnelSize, h.queueSize,
    fun hne => absurd hzero hne⟩

theorem sendCount_eq_zero (h : Steady ts ids)
    (hchoose : ts.sendOrder = noOrder ∨ ts.sendCount = 0) : ts.sendCount = 0 := by
  by_contra hne
  obtain ⟨k, -, id, -, horder, -⟩ := h.chunk hne
  have := hchoose.resolve_right hne
  rw [horder] at this
  unfold noOrder at this
  omega

theorem sendOnce (h : Steady ts ids) (messageLength : ℕ → ℕ) :
    ∃ consumed again ts', Lab34.sendOnce ts messageLength = some (consumed, again, ts') ∧
      Steady ts' ids ∧ ts'.addQueue = ts.addQueue ∧
      (consumed = none ∧ backlogs ts' ids = backlogs ts ids ∨
        ∃ id ∈ ids, ∃ bytes q, consumed = some ((id : ℤ), bytes) ∧
          backlogs ts ids id = some (bytes ++ q) ∧
          backlogs ts' ids = Function.update (backlogs ts ids) id (some q)) := by
  unfold Lab34.sendOnce
  by_cases hchoose : ts.sendOrder = noOrder ∨ ts.sendCount = 0
  · rw [if_pos hchoose]
    have hzero := h.sendCount_eq_zero hchoose
    obtain ⟨order, hnext, hcases⟩ := h.nextMessageClient ts.sendOrder
    have h' := h.chosen hzero order
    simp only [hnext, Option.bind_eq_bind, Option.bind_some]
    rcases hcases with rfl | ⟨k, hk, rfl⟩
    · exact ⟨none, false, _, if_pos rfl, h', rfl, .inl ⟨rfl, rfl⟩⟩
    · rw [if_neg (by unfold noOrder; omega)]
      obtain ⟨consumed, again, ts', hsend, hsteady, hqueue, hmove⟩ :=
        h'.sendChunk (hk.trans_le h.positions.length_le) (List.getElem_mem hk) rfl
          (h.positions.position k hk) (by simp [hzero]) messageLength
      refine ⟨consumed, again, ts', hsend, hsteady, hqueue, hmove.imp_right ?_⟩
      rintro ⟨bytes, q, hmove⟩
      exact ⟨ids[k], List.getElem_mem hk, bytes, q, hmove⟩
  · rw [if_neg hchoose]
    push Not at hchoose
    obtain ⟨k, hk, id, hid, horder, hcell, hle⟩ := h.chunk hchoose.2
    obtain ⟨consumed, again, ts', hsend, hsteady, hqueue, hmove⟩ :=
      h.sendChunk hk hid horder hcell hle messageLength
    refine ⟨consumed, again, ts', hsend, hsteady, hqueue, hmove.imp_right ?_⟩
    rintro ⟨bytes, q, hmove⟩
    exact ⟨id, hid, bytes, q, hmove⟩

end Steady

/-! ### One step -/

/-- A client is released only at its own position, and accepted only when no chunk
is remembered for the position it gets. -/
def StepSafe (s : Sender) (answers : Answers) : Prop :=
  match s.place with
  | .emptyRemoved i => ∀ id, Releases s.ts i id → OwnPosition s.ts i id
  | .accept _ => isPollable (s.ts.server.clients.cells pollListenerIndex) pollIn →
      answers.accepted ≠ -1 → ¬isFull s.ts.server →
      ¬(s.ts.sendCount ≠ 0 ∧ s.ts.sendOrder = s.ts.clientCount)
  | _ => True

instance : ∀ (s : Sender) (answers : Answers), Decidable (StepSafe s answers)
  | ⟨ts, .emptyRemoved i⟩, _ =>
      inferInstanceAs (Decidable (∀ id, Releases ts i id → OwnPosition ts i id))
  | ⟨ts, .accept _⟩, answers =>
      inferInstanceAs (Decidable (isPollable (ts.server.clients.cells pollListenerIndex) pollIn →
        answers.accepted ≠ -1 → ¬isFull ts.server →
        ¬(ts.sendCount ≠ 0 ∧ ts.sendOrder = ts.clientCount)))
  | ⟨_, .poll⟩, _ | ⟨_, .clientIo _ _ _⟩, _ | ⟨_, .added⟩, _ | ⟨_, .send⟩, _ | ⟨_, .tunnel⟩, _
  | ⟨_, .stopped⟩, _ => isTrue trivial

/-- What a step does, seen from the clients: to the list of ids, to the backlogs, to
`add_queue`, and which event it puts. Chunks are sent when all clients are
announced. -/
inductive Effect (s s' : Sender) (ids : List ℕ) : Option Happening → List ℕ → Prop
  | quiet (hbacklogs : backlogs s'.ts ids = backlogs s.ts ids)
      (hqueue : s'.ts.addQueue = s.ts.addQueue)
      (hsend : s'.place = .send → s.place = .send ∨ s.ts.addQueue.contents = []) :
      Effect s s' ids none ids
  | accepted {id : ℕ} (hid : id < maxClients) (hfresh : id ∉ ids)
      (hbacklogs : backlogs s'.ts (ids ++ [id]) = Function.update (backlogs s.ts ids) id (some []))
      (hqueue : s'.ts.addQueue = (s.ts.addQueue.cbPutc (BitVec.ofInt 8 id)).2)
      (hsend : s'.place ≠ .send) : Effect s s' ids (some (.accepted id)) (ids ++ [id])
  | received {id : ℕ} {bytes q : List CChar} (hold : backlogs s.ts ids id = some q)
      (hbacklogs : backlogs s'.ts ids = Function.update (backlogs s.ts ids) id (some (q ++ bytes)))
      (hqueue : s'.ts.addQueue = s.ts.addQueue) (hsend : s'.place ≠ .send) :
      Effect s s' ids (some (.received id bytes)) ids
  | consumed {id : ℕ} {bytes q : List CChar} (hold : backlogs s.ts ids id = some (bytes ++ q))
      (hbacklogs : backlogs s'.ts ids = Function.update (backlogs s.ts ids) id (some q))
      (hqueue : s'.ts.addQueue = s.ts.addQueue) (hsend : s.place = .send) :
      Effect s s' ids (some (.consumed id bytes)) ids
  | announced {id : CChar} {rest : List CChar} (hplace : s.place = .added)
      (hbacklogs : backlogs s'.ts ids = backlogs s.ts ids)
      (hold : s.ts.addQueue.contents = id :: rest) (hqueue : s'.ts.addQueue.contents = rest)
      (hput : (s.ts.tunnelTpb.tpbContolMessage clientAdd id.toInt).1 = true)
      (htunnel : s'.ts.tunnelTpb = (s.ts.tunnelTpb.tpbContolMessage clientAdd id.toInt).2)
      (hsend : s'.place ≠ .send) : Effect s s' ids (some (.announced id)) ids
  | released {i id : ℕ} {ids' : List ℕ} (hplace : s.place = .emptyRemoved i)
      (hrel : Releases s.ts i id) (hmem : id ∈ ids) (hids : ∀ j, j ∈ ids' ↔ j ∈ ids ∧ j ≠ id)
      (hold : backlogs s.ts ids id = some [])
      (hbacklogs : backlogs s'.ts ids' = Function.update (backlogs s.ts ids) id none)
      (hqueue : s'.ts.addQueue = s.ts.addQueue)
      (htunnel : s'.ts.tunnelTpb = (s.ts.tunnelTpb.tpbContolMessage clientRemove id).2)
      (hsend : s'.place ≠ .send) : Effect s s' ids (some (.released id)) ids'

namespace Steady

variable {s : Sender} {ids : List ℕ}

theorem acceptStep (h : Steady s.ts ids) {fdCount : ℕ} (hplace : s.place = .accept fdCount)
    {answers : Answers} (hsafe : StepSafe s answers) :
    ∃ happening s' ids', acceptOnce s.ts fdCount answers = some (happening, s') ∧
      Steady s'.ts ids' ∧ Effect s s' ids happening ids' := by
  have hlistener : s.ts.server.clients.load getListener =
      some (s.ts.server.clients.cells pollListenerIndex) :=
    s.ts.server.clients.load_of_lt (by decide)
  simp only [StepSafe, hplace] at hsafe
  simp only [acceptOnce, hlistener, tunnelIoable_eq, Option.bind_eq_bind, Option.bind_some]
  by_cases hpending : isPollable (s.ts.server.clients.cells pollListenerIndex) pollIn
  · rw [if_pos hpending]
    by_cases hfailed : answers.accepted = -1
    · rw [if_pos hfailed]
      exact ⟨_, _, ids, rfl, h, .quiet rfl rfl nofun⟩
    rw [if_neg hfailed]
    by_cases hfull : isFull s.ts.server = true
    · rw [if_pos hfull]
      exact ⟨_, _, ids, rfl, h, .quiet rfl rfl nofun⟩
    rw [if_neg hfull]
    obtain ⟨id, hid, hfresh, hadd⟩ := h.positions.tsAddClient_eq
      (h.positions.tables.lt_of_not_isFull hfull) answers.accepted answers.clientJunk
      answers.tunnelJunk
    have hne : (id : ℤ) ≠ noId := by
      unfold noId
      omega
    have hchunk := hsafe hpending hfailed hfull
    push Not at hchunk
    simp only [hadd, Option.bind_some, hne, if_false, Int.toNat_natCast]
    exact ⟨_, _, ids ++ [id], rfl, h.joined hid hfresh _ _ _ hchunk,
      .accepted hid hfresh (backlogs_joined hfresh _ _ _) rfl nofun⟩
  · rw [if_neg hpending]
    exact ⟨_, _, ids, rfl, h, .quiet rfl rfl nofun⟩

theorem clientIoStep (h : Steady s.ts ids) {ioableCount i processed : ℕ}
    (hplace : s.place = .clientIo ioableCount i processed) (answers : Answers) :
    ∃ happening s' ids', senderStep s answers = some (happening, s') ∧
      Steady s'.ts ids' ∧ Effect s s' ids happening ids' := by
  simp only [senderStep, hplace]
  by_cases hmore : processed < ioableCount ∧ i < s.ts.clientCount
  · rw [if_pos hmore]
    have hi : i < ids.length := h.positions.count ▸ hmore.2
    obtain ⟨received, processed', ts', hio, hsteady, hqueue, hmove⟩ :=
      h.performClientIoAt hi processed answers.input
    simp only [hio, Option.bind_eq_bind, Option.bind_some]
    rcases hmove with ⟨rfl, hbacklogs⟩ | ⟨bytes, rfl, hbacklogs⟩
    · exact ⟨_, _, ids, rfl, hsteady, .quiet hbacklogs hqueue nofun⟩
    · exact ⟨_, _, ids, rfl, hsteady,
        .received (backlogs_mem (List.getElem_mem hi)) hbacklogs hqueue nofun⟩
  · rw [if_neg hmore]
    exact ⟨_, _, ids, rfl, h, .quiet rfl rfl nofun⟩

theorem emptyRemovedStep (h : Steady s.ts ids) {i : ℕ} (hplace : s.place = .emptyRemoved i)
    {answers : Answers} (hsafe : StepSafe s answers) :
    ∃ happening s' ids', senderStep s answers = some (happening, s') ∧
      Steady s'.ts ids' ∧ Effect s s' ids happening ids' := by
  simp only [StepSafe, hplace] at hsafe
  simp only [senderStep, hplace]
  by_cases hsome : ∃ id, Releases s.ts i id
  · obtain ⟨id, hrel⟩ := hsome
    obtain ⟨ts', ids', hiter, hsteady, hload, hmem, hids, hqueue, htunnel, hold, hbacklogs⟩ :=
      h.released hrel (hsafe id hrel)
    simp only [hiter, hload, Option.bind_eq_bind, Option.bind_some, if_true, Int.toNat_natCast]
    exact ⟨_, _, ids', rfl, hsteady,
      .released hplace hrel hmem hids hold hbacklogs hqueue htunnel nofun⟩
  · push Not at hsome
    obtain ⟨turn, tunnelTpb, hiter, hsize, hnext⟩ := h.positions.iterate_of_not_releases hsome
    have hsteady : Steady { s.ts with tunnelTpb } ids :=
      h.congr (h.positions.congr rfl rfl rfl) rfl rfl hsize rfl rfl rfl
    simp only [hiter, Option.bind_eq_bind, Option.bind_some]
    cases turn with
    | next j =>
        obtain ⟨rfl, hi⟩ := hnext j rfl
        simp only [h.positions.load_idTable hi, Option.bind_some, Nat.succ_ne_self, if_false]
        exact ⟨_, _, ids, rfl, hsteady, .quiet rfl rfl nofun⟩
    | done result =>
        cases result with
        | true => exact ⟨_, _, ids, rfl, hsteady, .quiet rfl rfl nofun⟩
        | false => exact ⟨_, _, ids, rfl, hsteady, .quiet rfl rfl nofun⟩

theorem addedStep (h : Steady s.ts ids) (hplace : s.place = .added) (answers : Answers) :
    ∃ happening s' ids', senderStep s answers = some (happening, s') ∧
      Steady s'.ts ids' ∧ Effect s s' ids happening ids' := by
  obtain ⟨turn, ts', honce, hsteady, hbuffers, hcases⟩ := h.processAddedOnce
  have hbacklogs : backlogs ts' ids = backlogs s.ts ids := by
    unfold backlogs
    rw [hbuffers]
  simp only [senderStep, hplace, honce, Option.bind_eq_bind, Option.bind_some]
  rcases hcases with
    ⟨rfl, rfl, hempty⟩ | ⟨rfl, hqueue⟩ | ⟨rfl, id, rest, hold, hrest, hput, htunnel⟩
  · exact ⟨_, _, ids, rfl, hsteady, .quiet rfl rfl fun _ => .inr hempty⟩
  · exact ⟨_, _, ids, rfl, hsteady, .quiet hbacklogs hqueue nofun⟩
  · simp only [CyclicBuffer.cbPeek_eq, hold, List.head?_cons, Option.map_some]
    exact ⟨_, _, ids, rfl, hsteady, .announced hplace hbacklogs hold hrest hput htunnel nofun⟩

theorem sendStep (h : Steady s.ts ids) (hplace : s.place = .send) (answers : Answers) :
    ∃ happening s' ids', senderStep s answers = some (happening, s') ∧
      Steady s'.ts ids' ∧ Effect s s' ids happening ids' := by
  obtain ⟨consumed, again, ts', honce, hsteady, hqueue, hmove⟩ := h.sendOnce answers.messageLength
  simp only [senderStep, hplace, honce, Option.bind_eq_bind, Option.bind_some]
  rcases hmove with ⟨rfl, hbacklogs⟩ | ⟨id, -, bytes, q, rfl, hold, hbacklogs⟩
  · exact ⟨_, _, ids, rfl, hsteady, .quiet hbacklogs hqueue fun _ => .inl hplace⟩
  · exact ⟨_, _, ids, rfl, hsteady, .consumed hold hbacklogs hqueue hplace⟩

/-- A safe step of a sender in order is defined, leaves it in order and has an
effect. -/
theorem step (h : Steady s.ts ids) {answers : Answers} (hsafe : StepSafe s answers) :
    ∃ happening s' ids', senderStep s answers = some (happening, s') ∧
      Steady s'.ts ids' ∧ Effect s s' ids happening ids' := by
  cases hplace : s.place with
  | poll =>
      simp only [senderStep, hplace]
      cases answers.revents with
      | none => exact ⟨_, _, ids, rfl, h, .quiet rfl rfl nofun⟩
      | some revents => exact ⟨_, _, ids, rfl, h.polled revents, .quiet rfl rfl nofun⟩
  | accept fdCount =>
      simp only [senderStep, hplace]
      exact h.acceptStep hplace hsafe
  | clientIo ioableCount i processed => exact h.clientIoStep hplace answers
  | emptyRemoved i => exact h.emptyRemovedStep hplace hsafe
  | added => exact h.addedStep hplace answers
  | send => exact h.sendStep hplace answers
  | tunnel =>
      obtain ⟨ts', honce, hsteady, hbuffers, hqueue⟩ := h.tunnelOnce answers.written
      simp only [senderStep, hplace, honce, Option.map_some]
      refine ⟨_, _, ids, rfl, hsteady, .quiet ?_ hqueue nofun⟩
      unfold backlogs
      rw [hbuffers]
  | stopped =>
      simp only [senderStep, hplace]
      exact ⟨_, _, ids, rfl, h, .quiet rfl rfl fun hsend => .inl hsend⟩

end Steady

end UnixLabs.Lab34
