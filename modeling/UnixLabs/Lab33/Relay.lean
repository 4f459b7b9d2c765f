import UnixLabs.Library.Run
import UnixLabs.Lab33.ProxyIds

/-!
`try_transfer` of `lab33-proxy.c` and the bytes that go through a session.

A session has a buffer for each direction. Next to the server are kept, for every
session and direction, the bytes that were read from the sender and those that were
written to the receiver since the session was added.
-/

namespace UnixLabs.Lab33

open Library

def canReadFrom (pollfd : Pollfd) : Bool := pollfd.revents &&& pollIn ≠ 0

def canWriteTo (pollfd : Pollfd) : Bool := pollfd.revents &&& pollOut ≠ 0

def hasErrors (pollfd : Pollfd) : Bool := pollfd.revents &&& pollErr ≠ 0

def isIoable (pollfd : Pollfd) : Bool := canReadFrom pollfd || canWriteTo pollfd || hasErrors pollfd

/-! ### One call -/

/-- What a call of `try_transfer` answers and does: the size it passes to `read`, if
it calls it, whether `read` saw the end of the file, and the bytes that were read and
written. -/
structure Transfer where
  ok : Bool
  buffer : IOBuffer
  asked : Option ℕ
  endOfFile : Bool
  received : List CChar
  written : List CChar

def tryTransfer (sender : Pollfd) (buffer : IOBuffer) (receiver : Pollfd)
    (input : Option (List CChar)) (written : Option ℕ) : Transfer :=
  let reads := !buffer.iobFull && canReadFrom sender
  let (count, filled) := if reads then buffer.iobRecv input else (0, buffer)
  let asked := if reads then some buffer.iobFreeSpace else none
  let endOfFile := reads && input = some []
  let received := (input.getD []).take count.toNat
  if count = -1 then ⟨false, filled, asked, endOfFile, received, []⟩
  else if !filled.iobEmpty && canWriteTo receiver then
    let (count, rest) := filled.iobSend written
    ⟨count ≠ -1, rest, asked, endOfFile, received, filled.contents.take count.toNat⟩
  else ⟨true, filled, asked, endOfFile, received, []⟩

theorem received_spec (sender : Pollfd) (buffer : IOBuffer) (input : Option (List CChar)) :
    ∃ count filled, (if !buffer.iobFull && canReadFrom sender then buffer.iobRecv input
        else (0, buffer)) = (count, filled) ∧
      filled.contents = buffer.contents ++ (input.getD []).take count.toNat ∧
      filled.size = buffer.size := by
  by_cases hreads : (!buffer.iobFull && canReadFrom sender) = true
  · rw [if_pos hreads]
    refine ⟨_, _, rfl, ?_, buffer.size_iobRecv input⟩
    cases input with
    | none => exact (List.append_nil _).symm
    | some bytes => exact (IOBuffer.contents_iobRecv buffer bytes).1
  · rw [if_neg hreads]
    exact ⟨0, buffer, rfl, (List.append_nil _).symm, rfl⟩

theorem sent_spec (filled : IOBuffer) (written : Option ℕ) :
    filled.contents.take (filled.iobSend written).1.toNat ++ (filled.iobSend written).2.contents =
        filled.contents ∧ (filled.iobSend written).2.size = filled.size := by
  cases written with
  | none => exact ⟨rfl, rfl⟩
  | some count =>
      simp only [IOBuffer.iobSend, IOBuffer.contents_iobShift, IOBuffer.size_iobShift,
        Int.toNat_natCast]
      exact ⟨List.take_append_drop _ _, trivial⟩

theorem tryTransfer_stream (sender : Pollfd) (buffer : IOBuffer) (receiver : Pollfd)
    (input : Option (List CChar)) (written : Option ℕ) :
    let t := tryTransfer sender buffer receiver input written
    t.written ++ t.buffer.contents = buffer.contents ++ t.received ∧
      t.buffer.size = buffer.size := by
  obtain ⟨count, filled, hrecv, hcontents, hsize⟩ := received_spec sender buffer input
  obtain ⟨hsent, hsize'⟩ := sent_spec filled written
  simp only [tryTransfer, hrecv]
  by_cases hfail : count = -1
  · rw [if_pos hfail]
    exact ⟨hcontents, hsize⟩
  · rw [if_neg hfail]
    by_cases hsend : (!filled.iobEmpty && canWriteTo receiver) = true
    · rw [if_pos hsend]
      exact ⟨hsent.trans hcontents, hsize'.trans hsize⟩
    · rw [if_neg hsend]
      exact ⟨hcontents, hsize⟩

/-- `read` is called only on a buffer with room, for all the room there is. -/
theorem tryTransfer_asked {sender : Pollfd} {buffer : IOBuffer} {receiver : Pollfd}
    {input : Option (List CChar)} {written : Option ℕ} {n : ℕ}
    (h : (tryTransfer sender buffer receiver input written).asked = some n) :
    buffer.iobFull = false ∧ n = buffer.iobFreeSpace := by
  have hasked : (tryTransfer sender buffer receiver input written).asked =
      if !buffer.iobFull && canReadFrom sender then some buffer.iobFreeSpace else none := by
    unfold tryTransfer
    dsimp only
    split_ifs <;> rfl
  rw [hasked] at h
  split_ifs at h with hreads
  cases h
  simp only [Bool.and_eq_true, Bool.not_eq_true'] at hreads
  exact ⟨hreads.1, rfl⟩

/-! ### Sessions and their streams -/

inductive Direction
  | ctos
  | stoc
  deriving DecidableEq

def getBuffer (s : Server) : Direction → ℕ → Option IOBuffer
  | .ctos, id => if !isValidId s id then none else s.ctosBuffers.load id
  | .stoc, id => if !isValidId s id then none else s.stocBuffers.load id

def setBuffer (s : Server) : Direction → ℕ → IOBuffer → Option Server
  | .ctos, id, b => (s.ctosBuffers.store id b).map fun ctosBuffers => { s with ctosBuffers }
  | .stoc, id, b => (s.stocBuffers.store id b).map fun stocBuffers => { s with stocBuffers }

abbrev Streams := Direction → ℕ → List CChar

def Streams.set (streams : Streams) (d : Direction) (id : ℕ) (bytes : List CChar) : Streams :=
  fun d' id' => if d' = d ∧ id' = id then bytes else streams d' id'

def Streams.reset (streams : Streams) (id : ℤ) : Streams :=
  fun d id' => if (id' : ℤ) = id then [] else streams d id'

structure Relay where
  server : Server
  received : Streams
  written : Streams

namespace Relay

def start (listenFd : ℤ) : Relay := ⟨builtServer listenFd, fun _ _ => [], fun _ _ => []⟩

def addSession (r : Relay) (a : Accepted) : Option (ℤ × Relay) := do
  let (id, server) ← Lab33.addSession r.server a
  some (id, ⟨server, r.received.reset id, r.written.reset id⟩)

def removeClient (r : Relay) (id : ℕ) : Option Relay :=
  (Lab33.removeClient r.server id).map fun server => { r with server }

def record (r : Relay) (d : Direction) (id : ℕ) (t : Transfer) (server : Server) : Relay where
  server := server
  received := r.received.set d id (r.received d id ++ t.received)
  written := r.written.set d id (r.written d id ++ t.written)

def transfer (r : Relay) (d : Direction) (id : ℕ) (sender receiver : Pollfd)
    (input : Option (List CChar)) (written : Option ℕ) : Option (Transfer × Relay) := do
  let buffer ← getBuffer r.server d id
  let t := tryTransfer sender buffer receiver input written
  let server ← setBuffer r.server d id t.buffer
  some (t, r.record d id t server)

end Relay

def bufferAt (s : Server) : Direction → ℕ → IOBuffer
  | .ctos, id => s.ctosBuffers.cells id
  | .stoc, id => s.stocBuffers.cells id

/-- The sessions `ids`, each with a buffer that holds in either direction what was
received and not yet written. -/
structure Relaying (r : Relay) (ids : List ℕ) : Prop where
  tables : Tables r.server ids
  stream : ∀ id ∈ ids, ∀ d,
    r.written d id ++ (bufferAt r.server d id).contents = r.received d id
  size : ∀ id ∈ ids, ∀ d, (bufferAt r.server d id).size = bufferSize

namespace Relaying

variable {r : Relay} {ids : List ℕ}

theorem start (listenFd : ℤ) : Relaying (Relay.start listenFd) [] :=
  ⟨Tables.built listenFd, by simp, by simp⟩

theorem getBuffer_eq (h : Relaying r ids) {id : ℕ} (hid : id ∈ ids) (d : Direction) :
    getBuffer r.server d id = some (bufferAt r.server d id) := by
  have hlt := h.tables.indexed.lt id hid
  cases d <;>
    simp only [getBuffer, h.tables.isValidId_iff.mpr hid, Bool.not_true, Bool.false_eq_true,
      if_false, CArray.load_of_lt _ hlt, bufferAt]

theorem setBuffer_eq (h : Relaying r ids) {id : ℕ} (hid : id ∈ ids) (d : Direction)
    (b : IOBuffer) :
    ∃ s', setBuffer r.server d id b = some s' ∧ Tables s' ids ∧
      s'.clients = r.server.clients ∧
      ∀ d' id', bufferAt s' d' id' = if d' = d ∧ id' = id then b else bufferAt r.server d' id' := by
  have hlt := h.tables.indexed.lt id hid
  cases d with
  | ctos =>
      refine ⟨{ r.server with
          ctosBuffers := ⟨Function.update r.server.ctosBuffers.cells id b⟩ },
        by rw [setBuffer, CArray.store_of_lt _ _ hlt]; rfl,
        ⟨h.tables.count, h.tables.indexed⟩, rfl, fun d' id' => ?_⟩
      cases d' <;> simp [bufferAt, Function.update_apply]
  | stoc =>
      refine ⟨{ r.server with
          stocBuffers := ⟨Function.update r.server.stocBuffers.cells id b⟩ },
        by rw [setBuffer, CArray.store_of_lt _ _ hlt]; rfl,
        ⟨h.tables.count, h.tables.indexed⟩, rfl, fun d' id' => ?_⟩
      cases d' <;> simp [bufferAt, Function.update_apply]

theorem transfer (h : Relaying r ids) {id : ℕ} (hid : id ∈ ids) (d : Direction)
    (sender receiver : Pollfd) (input : Option (List CChar)) (written : Option ℕ) :
    ∃ r', r.transfer d id sender receiver input written =
        some (tryTransfer sender (bufferAt r.server d id) receiver input written, r') ∧
      Relaying r' ids ∧ r'.server.clients = r.server.clients ∧
      ∀ d' id', bufferAt r'.server d' id' = if d' = d ∧ id' = id then
        (tryTransfer sender (bufferAt r.server d id) receiver input written).buffer
      else bufferAt r.server d' id' := by
  obtain ⟨t, ht⟩ : ∃ t, tryTransfer sender (bufferAt r.server d id) receiver input written = t :=
    ⟨_, rfl⟩
  have hstream := tryTransfer_stream sender (bufferAt r.server d id) receiver input written
  simp only [ht] at hstream
  obtain ⟨s', hset, htables, hclients, hbuffer⟩ := h.setBuffer_eq hid d t.buffer
  refine ⟨r.record d id t s', ?_, ⟨htables, ?_, ?_⟩, hclients, ht ▸ hbuffer⟩
  · simp only [Relay.transfer, h.getBuffer_eq hid d, ht, hset, Option.bind_eq_bind,
      Option.bind_some]
  · intro id' hid' d'
    simp only [Relay.record, Streams.set, hbuffer]
    split_ifs
    · rw [List.append_assoc, hstream.1, ← List.append_assoc, h.stream id hid d]
    · exact h.stream id' hid' d'
  · intro id' hid' d'
    simp only [Relay.record, hbuffer]
    split_ifs
    · exact hstream.2.trans (h.size id hid d)
    · exact h.size id' hid' d'

theorem addSession (h : Relaying r ids) (a : Accepted) :
    (∃ r', r.addSession a = some (noId, r') ∧ Relaying r' ids) ∨
      ∃ (id : ℕ) (r' : Relay), r.addSession a = some ((id : ℤ), r') ∧
        Relaying r' (ids ++ [id]) := by
  rcases h.tables.addSession_cases a with hadd | ⟨id, hid, hfresh, hadd⟩
  · refine .inl ⟨⟨r.server, r.received.reset noId, r.written.reset noId⟩, ?_, h.tables, ?_, h.size⟩
    · simp only [Relay.addSession, hadd, Option.bind_eq_bind, Option.bind_some]
    · intro id hid d
      have hne : (id : ℤ) ≠ noId := by unfold noId; omega
      simp only [Streams.reset, if_neg hne]
      exact h.stream id hid d
  · have htables := h.tables.tables_added a.clientFd a.serverFd a.stocJunk a.ctosJunk hid hfresh
    have hbuffer : ∀ d, ∃ junk, ∀ id',
        bufferAt (Tables.added r.server id a.clientFd a.serverFd a.stocJunk a.ctosJunk) d id' =
          if id' = id then IOBuffer.initIobuf junk bufferSize else bufferAt r.server d id' := by
      intro d
      cases d with
      | ctos => exact ⟨a.ctosJunk, fun id' => by simp [bufferAt, Tables.added,
          Function.update_apply]⟩
      | stoc => exact ⟨a.stocJunk, fun id' => by simp [bufferAt, Tables.added,
          Function.update_apply]⟩
    have hold : ∀ id' ∈ ids ++ [id], id' ≠ id → id' ∈ ids := by
      intro id' hid' hne
      simpa [hne] using hid'
    refine .inr ⟨id, ⟨Tables.added r.server id a.clientFd a.serverFd a.stocJunk a.ctosJunk,
      r.received.reset id, r.written.reset id⟩, ?_, htables, ?_, ?_⟩
    · simp only [Relay.addSession, hadd, Option.bind_eq_bind, Option.bind_some]
    · intro id' hid' d
      obtain ⟨junk, hcell⟩ := hbuffer d
      simp only [hcell, Streams.reset, Nat.cast_inj]
      split_ifs with hsame
      · rfl
      · exact h.stream id' (hold id' hid' hsame) d
    · intro id' hid' d
      obtain ⟨junk, hcell⟩ := hbuffer d
      simp only [hcell]
      split_ifs with hsame
      · rfl
      · exact h.size id' (hold id' hid' hsame) d

theorem removeClient (h : Relaying r ids) {p : ℕ} (hp : p < ids.length) :
    ∃ r', r.removeClient ids[p] = some r' ∧ Relaying r' (swapRemove ids p) := by
  have hother : ∀ id ∈ swapRemove ids p, id ∈ ids ∧ ∀ d,
      bufferAt (Tables.removed r.server ids p hp) d id = bufferAt r.server d id := by
    intro id hid
    obtain ⟨hmem, hne⟩ := (mem_swapRemove h.tables.indexed.nodup hp).mp hid
    refine ⟨hmem, fun d => ?_⟩
    cases d <;> simp [bufferAt, Tables.removed, hne]
  refine ⟨{ r with server := Tables.removed r.server ids p hp }, ?_,
    h.tables.tables_removed hp, ?_, ?_⟩
  · rw [Relay.removeClient, h.tables.removeClient_eq hp]
    rfl
  · intro id hid d
    rw [(hother id hid).2 d]
    exact h.stream id (hother id hid).1 d
  · intro id hid d
    rw [(hother id hid).2 d]
    exact h.size id (hother id hid).1 d

end Relaying

/-! ### Runs -/

inductive RelayOp
  | add (a : Accepted)
  | remove (id : ℕ)
  | transfer (d : Direction) (id : ℕ) (sender receiver : Pollfd) (input : Option (List CChar))
      (written : Option ℕ)

def relayStep (r : Relay) : RelayOp → Option Relay
  | .add a => (r.addSession a).map Prod.snd
  | .remove id => r.removeClient id
  | .transfer d id sender receiver input written =>
      (r.transfer d id sender receiver input written).map Prod.snd

def OnSession (r : Relay) : RelayOp → Prop
  | .add _ | .remove _ => True
  | .transfer _ id _ _ _ _ => isValidId r.server id = true

instance (r : Relay) : ∀ op, Decidable (OnSession r op)
  | .add _ => isTrue trivial
  | .remove _ => isTrue trivial
  | .transfer _ id _ _ _ _ => inferInstanceAs (Decidable (isValidId r.server id = true))

/-- In both directions of every session, what was written and what is in the buffer
is what was read, the buffer is in its bounds, and a call of `try_transfer` reads only
into a buffer with room, and at most as much as there is room for. -/
def StreamsRight (r : Relay) : Prop :=
  ∀ id, isValidId r.server id = true → ∀ d, ∃ b, getBuffer r.server d id = some b ∧
    r.written d id ++ b.contents = r.received d id ∧ b.count ≤ b.size ∧ b.size = bufferSize ∧
    ∀ sender receiver input written n,
      (tryTransfer sender b receiver input written).asked = some n →
        b.iobFull = false ∧ n = b.iobFreeSpace

theorem Relaying.streamsRight {r : Relay} {ids : List ℕ} (h : Relaying r ids) :
    StreamsRight r := by
  intro id hvalid d
  have hid := h.tables.isValidId_iff.mp hvalid
  exact ⟨_, h.getBuffer_eq hid d, h.stream id hid d, (bufferAt r.server d id).count_le,
    h.size id hid d, fun _ _ _ _ _ hasked => tryTransfer_asked hasked⟩

theorem Relaying.step {r : Relay} {ids : List ℕ} (h : Relaying r ids) {op : RelayOp}
    (hop : OnSession r op) : ∃ r' ids', relayStep r op = some r' ∧ Relaying r' ids' := by
  cases op with
  | add a =>
      rcases h.addSession a with ⟨r', hadd, h'⟩ | ⟨id, r', hadd, h'⟩
      · exact ⟨r', ids, by rw [relayStep, hadd]; rfl, h'⟩
      · exact ⟨r', _, by rw [relayStep, hadd]; rfl, h'⟩
  | remove id =>
      by_cases hid : id ∈ ids
      · obtain ⟨p, hp, rfl⟩ := List.getElem_of_mem hid
        obtain ⟨r', hremove, h'⟩ := h.removeClient hp
        exact ⟨r', _, hremove, h'⟩
      · have hvalid : isValidId r.server id = false := by
          rw [Bool.eq_false_iff, ne_eq, h.tables.isValidId_iff]
          exact hid
        refine ⟨r, ids, ?_, h⟩
        simp only [relayStep, Relay.removeClient, Lab33.removeClient, hvalid, Bool.not_false,
          if_true, Option.map_some]
  | transfer d id sender receiver input written =>
      obtain ⟨r', htransfer, h', -, -⟩ :=
        h.transfer (h.tables.isValidId_iff.mp hop) d sender receiver input written
      exact ⟨r', ids, by rw [relayStep, htransfer]; rfl, h'⟩

/-- Nothing is lost, repeated or reordered between the two ends of a session, however
the calls of `try_transfer` for all sessions and directions follow each other and
whatever flags and partial reads and writes they meet. -/
theorem relay_streams (listenFd : ℤ) {ops : List RelayOp}
    (h : RunMeets OnSession relayStep (Relay.start listenFd) ops) :
    RunKeeps StreamsRight relayStep (Relay.start listenFd) ops := by
  refine runKeeps_of_meets (I := fun r => ∃ ids, Relaying r ids) ?_ ?_
    ⟨[], Relaying.start listenFd⟩ h
  · rintro r ⟨ids, hr⟩
    exact hr.streamsRight
  · rintro r op ⟨ids, hr⟩ hop
    obtain ⟨r', ids', hstep, hr'⟩ := hr.step hop
    exact ⟨r', hstep, ids', hr'⟩

def RelayOp.twoSessions : List RelayOp :=
  [.add ⟨10, 20, fun _ => 0, fun _ => 0⟩, .add ⟨11, 21, fun _ => 0, fun _ => 0⟩,
    .transfer .ctos 0 ⟨10, 0, pollIn⟩ ⟨20, 0, pollOut⟩ (some [1, 2, 3]) (some 2),
    .transfer .stoc 1 ⟨21, 0, pollIn⟩ ⟨11, 0, pollOut⟩ (some [4]) (some 1),
    .remove 1,
    .transfer .ctos 0 ⟨10, 0, pollIn⟩ ⟨20, 0, 0⟩ (some [5]) none]

theorem relay_streams_two : RunKeeps StreamsRight relayStep (Relay.start 3) RelayOp.twoSessions :=
  relay_streams 3 (by decide +kernel)

end UnixLabs.Lab33
