import UnixLabs.Lab34.SenderFrames
import UnixLabs.Lab34.SenderSteps

/-!
On whose flags `perform_client_io` acts.

`poll` rewrites the flags of the slots in use, and `add_client` leaves the flags of
the slot it takes as they are. They are those of an earlier connection, and they are
acted on when the scan that follows comes that far.
-/

namespace UnixLabs.Lab34

open Library

/-! ### Flags -/

def flags (s : Server) (id : ℕ) : Option (BitVec 16) := (slot s id).map Pollfd.revents

theorem clientPollable_iff {s : Server} {id : ℕ} {mask : BitVec 16} :
    clientPollable s id mask = some true ↔
      ∃ revents, flags s id = some revents ∧ revents &&& mask ≠ 0 := by
  unfold clientPollable flags slot
  cases getClient s id with
  | none => simp
  | some client =>
      simp only [Option.bind_some, Option.map_eq_some_iff, isPollable, decide_eq_true_eq]
      constructor
      · rintro ⟨pollfd, hload, hmask⟩
        exact ⟨pollfd.revents, ⟨pollfd, hload, rfl⟩, hmask⟩
      · rintro ⟨revents, ⟨pollfd, hload, rfl⟩, hmask⟩
        exact ⟨pollfd, hload, hmask⟩

/-- Flags on which nothing is done. -/
def Harmless (revents : BitVec 16) : Prop := revents &&& (pollIn ||| pollErr) = 0

instance (revents : BitVec 16) : Decidable (Harmless revents) :=
  inferInstanceAs (Decidable (_ = _))

theorem ActsOn.flags {ts : TunnelServer} {id : ℤ} (h : ActsOn ts id) :
    ∃ revents, Lab34.flags ts.server (sizeT id) = some revents ∧ ¬Harmless revents := by
  have hmask : ∀ revents : BitVec 16, Harmless revents →
      revents &&& pollErr = 0 ∧ revents &&& pollIn = 0 := by
    intro revents hharmless
    unfold Harmless at hharmless
    rw [BitVec.and_or_distrib_left] at hharmless
    exact (BitVec.or_eq_zero_iff.mp hharmless).symm
  rcases h with herrors | ⟨-, -, -, hreadable⟩
  · obtain ⟨revents, hflags, hne⟩ := clientPollable_iff.mp herrors
    exact ⟨revents, hflags, fun hharmless => hne (hmask revents hharmless).1⟩
  · obtain ⟨revents, hflags, hne⟩ := clientPollable_iff.mp hreadable
    exact ⟨revents, hflags, fun hharmless => hne (hmask revents hharmless).2⟩

theorem flags_disconnectClient {s s' : Server} {id : ℕ} (h : disconnectClient s id = some s')
    (j : ℕ) : flags s' j = flags s j := by
  unfold disconnectClient at h
  split at h
  · cases h
    rfl
  · simp only [Option.bind_eq_bind, Option.bind_eq_some_iff] at h
    obtain ⟨pollfd, hload, h⟩ := h
    split_ifs at h with hfree
    · cases h
      rfl
    · simp only [Option.bind_eq_some_iff] at h
      obtain ⟨clients, hstore, h⟩ := h
      cases h
      have hsame : ∀ c, (clients.load c).map Pollfd.revents =
          (s.clients.load c).map Pollfd.revents := by
        intro c
        rw [CArray.load_store hstore]
        split_ifs with hc
        · rw [hc, hload]
          rfl
        · rfl
      simp only [flags, slot]
      change ((getClient s j).bind clients.load).map Pollfd.revents = _
      cases getClient s j with
      | none => rfl
      | some client => exact hsame client

namespace Tables

variable {s : Server} {ids : List ℕ}

theorem flags_added_self (h : Tables s ids) {id : ℕ} (fd : ℤ) (hid : id < maxClients)
    (hfresh : id ∉ ids) : flags (added s id fd) id =
      some (s.clients.cells (s.clientCount + pollClientOffset)).revents := by
  have hp : ids.length < (ids ++ [id]).length := by simp
  have hslot := (h.tables_added fd hid hfresh).slot_eq hp
  rw [List.getElem_concat_length rfl] at hslot
  rw [flags, hslot]
  simp [added, h.count]

theorem flags_added (h : Tables s ids) {id j : ℕ} (fd : ℤ) (hid : id < maxClients)
    (hfresh : id ∉ ids) (hj : j ≠ id) : flags (added s id fd) j = flags s j := by
  unfold flags
  by_cases hmem : j ∈ ids
  · rw [h.slot_added fd hid hfresh hmem]
  · have hnew : j ∉ ids ++ [id] := by simp [hmem, hj]
    rw [slot_eq_none (mt h.active_iff.mp hmem),
      slot_eq_none (mt (h.tables_added fd hid hfresh).active_iff.mp hnew)]

end Tables

/-! ### The tables in any state -/

def Listed (s : Server) : Prop := ∃ ids, Tables s ids

theorem Listed.disconnectClient {s s' : Server} {id : ℕ} (h : Listed s)
    (hstep : disconnectClient s id = some s') : Listed s' := by
  obtain ⟨ids, h⟩ := h
  by_cases hmem : id ∈ ids
  · obtain ⟨p, hp, rfl⟩ := List.getElem_of_mem hmem
    rw [h.disconnectClient_eq hp] at hstep
    cases hstep
    exact ⟨ids, h.tables_disconnected hp⟩
  · rw [disconnectClient_inactive (mt h.active_iff.mp hmem)] at hstep
    cases hstep
    exact ⟨ids, h⟩

theorem Listed.removeClient {s s' : Server} {id : ℕ} (h : Listed s)
    (hstep : removeClient s id = some s') : Listed s' := by
  obtain ⟨ids, h⟩ := h
  by_cases hmem : id ∈ ids
  · obtain ⟨p, hp, rfl⟩ := List.getElem_of_mem hmem
    rw [h.removeClient_eq hp] at hstep
    cases hstep
    exact ⟨_, h.tables_removed hp⟩
  · rw [removeClient_inactive (mt h.active_iff.mp hmem)] at hstep
    cases hstep
    exact ⟨ids, h⟩

theorem Listed.addClient {s s' : Server} {fd id : ℤ} (h : Listed s)
    (hstep : addClient s fd = some (id, s')) : Listed s' := by
  obtain ⟨ids, h⟩ := h
  by_cases hlen : ids.length < maxClients
  · obtain ⟨new, hid, hfresh, hadd⟩ := h.addClient_eq hlen fd
    rw [hadd] at hstep
    cases hstep
    exact ⟨_, h.tables_added fd hid hfresh⟩
  · rw [h.addClient_full (le_antisymm h.length_le (by omega))] at hstep
    cases hstep
    exact ⟨ids, h⟩

theorem Listed.senderStep {s s' : Sender} {answers : Answers} {happening : Option Happening}
    (h : Listed s.ts.server) (hstep : senderStep s answers = some (happening, s')) :
    Listed s'.ts.server := by
  refine senderStep_rel (R := fun ts ts' => Listed ts.server → Listed ts'.server) hstep
    (fun _ => id) ?_ ?_ ?_ ?_ ?_ ?_ ?_ h
  · rintro ts revents ⟨ids, h⟩
    exact ⟨ids, h.polled revents⟩
  · intro ts ts' fd clientJunk tunnelJunk id hadd h
    obtain ⟨server, hserver, ⟨-, rfl⟩ | ⟨-, _, _, _, _, -, rfl⟩⟩ := tsAddClient_cases hadd
    · exact h.addClient hserver
    · exact h.addClient hserver
  · intro ts ts' i processed input received processed' hio h
    obtain ⟨id, ioable, -, -, -, ⟨-, -, rfl⟩ | ⟨-, _, rfl | hremove⟩⟩ := performClientIoAt_cases hio
    · exact h
    · exact h
    · obtain ⟨_, _, _, hserver, rfl⟩ := tsRemoveClient_cases hremove
      exact h.disconnectClient hserver
  · intro ts ts' i turn hiter h
    obtain ⟨_, rfl | ⟨_, _, hremove⟩⟩ := processEmptyRemovedAt_cases hiter
    · exact h
    · obtain ⟨_, _, _, _, _, hserver, rfl⟩ := tsActualRemove_cases hremove
      exact h.removeClient hserver
  · intro ts ts' turn honce h
    obtain ⟨_, _, rfl⟩ := processAddedOnce_cases honce
    exact h
  · intro ts ts' messageLength consumed again hplace honce h
    obtain ⟨_, _, _, _, rfl⟩ := sendOnce_cases honce
    exact h
  · rintro ts ts' written honce ⟨ids, h⟩
    obtain ⟨_, server, writeable, hserver, rfl⟩ := tunnelOnce_cases honce
    obtain ⟨server', hserver', htables⟩ := h.setTunnelWriteable writeable
    rw [hserver] at hserver'
    cases hserver'
    exact ⟨ids, htables⟩

/-! ### The sender and what `poll` has reported -/

def covered (s : Server) (id : ℕ) : Bool :=
  (getClient s id).any (fun client : ℤ => client < (getPollCount s : ℤ)) &&
    (slot s id).any fun pollfd => 0 ≤ pollfd.fd

/-- The sender, and for each client the flags that the last poll call that covered its
descriptor has set, if there was one since it was accepted. -/
structure PollWorld where
  sender : Sender
  reported : ℕ → Option (BitVec 16)

namespace PollWorld

def start (listenFd tunnelFd : ℤ) (tpbJunk queueJunk : ℕ → CChar) : PollWorld :=
  ⟨Sender.start listenFd tunnelFd tpbJunk queueJunk, fun _ => none⟩

def reportedAfter (w : PollWorld) (answers : Answers) (after : Server) :
    Option Happening → ℕ → Option (BitVec 16)
  | some (.accepted id) => Function.update w.reported id none
  | _ =>
      match w.sender.place, answers.revents with
      | .poll, some _ => fun id =>
          if covered w.sender.ts.server id then flags after id else w.reported id
      | _, _ => w.reported

def step (w : PollWorld) (answers : Answers) : Option PollWorld :=
  (senderStep w.sender answers).map fun (happening, sender) =>
    ⟨sender, w.reportedAfter answers sender.ts.server happening⟩

/-- The next iteration of `perform_client_io` acts only on flags that a poll call has
set for that client. -/
def Right (w : PollWorld) : Prop :=
  match w.sender.place with
  | .clientIo ioableCount i processed =>
      processed < ioableCount → i < w.sender.ts.clientCount →
        ∀ id, w.sender.ts.idTable.load i = some id → ActsOn w.sender.ts id →
          ∃ revents, flags w.sender.ts.server (sizeT id) = some revents ∧
            w.reported (sizeT id) = some revents
  | _ => True

end PollWorld

/-! ### The scan -/

def ioableAt (ts : TunnelServer) (k : ℕ) : Bool :=
  clientIoable ts.server (sizeT (ts.idTable.cells k)) = some true

def ioables (ts : TunnelServer) (k : ℕ) : ℕ := (List.range k).countP (ioableAt ts)

theorem ioables_succ (ts : TunnelServer) (k : ℕ) :
    ioables ts (k + 1) = ioables ts k + if ioableAt ts k then 1 else 0 := by
  simp [ioables, List.range_succ]

theorem ioables_le {ts ts' : TunnelServer} {k : ℕ}
    (htable : ∀ l < k, ts'.idTable.cells l = ts.idTable.cells l)
    (hflags : ∀ l < k, ∀ revents, flags ts.server (sizeT (ts.idTable.cells l)) = some revents →
      flags ts'.server (sizeT (ts.idTable.cells l)) = some revents) :
    ioables ts k ≤ ioables ts' k := by
  refine List.countP_mono_left fun l hl => ?_
  have hlk := List.mem_range.mp hl
  simp only [ioableAt, decide_eq_true_eq, clientIoable, clientPollable_iff, htable l hlk]
  rintro ⟨revents, hset, hmask⟩
  exact ⟨revents, hflags l hlk revents hset, hmask⟩

/-- The flags of a client are harmless or what a poll call has set for it. -/
def Settled (s : Server) (reported : ℕ → Option (BitVec 16)) (id : ℕ) : Prop :=
  ∀ revents, flags s id = some revents → reported id = some revents ∨ Harmless revents

/-- From position `i` on the scan ends before it comes to a client whose flags are
not settled. -/
def ScanSafe (ts : TunnelServer) (reported : ℕ → Option (BitVec 16)) (ioableCount base i : ℕ) :
    Prop :=
  ∀ k, i ≤ k → k < ts.clientCount →
    Settled ts.server reported (sizeT (ts.idTable.cells k)) ∨ ioableCount ≤ base + ioables ts k

structure SameScan (before after : TunnelServer) : Prop where
  flags_eq : ∀ id, flags after.server id = flags before.server id
  table : after.idTable = before.idTable
  count : after.clientCount = before.clientCount

namespace SameScan

variable {ts ts' : TunnelServer}

theorem ioables (h : SameScan ts ts') (k : ℕ) : Lab34.ioables ts' k = Lab34.ioables ts k := by
  refine List.countP_congr fun l _ => ?_
  simp only [ioableAt, decide_eq_true_eq, clientIoable, clientPollable_iff, h.flags_eq, h.table]

theorem scanSafe (h : SameScan ts ts') {reported : ℕ → Option (BitVec 16)}
    {ioableCount base i : ℕ} (hscan : ScanSafe ts reported ioableCount base i) :
    ScanSafe ts' reported ioableCount base (i + 1) := by
  intro k hik hk
  rw [h.count] at hk
  rw [h.ioables, h.table]
  refine (hscan k (by omega) hk).imp_left fun hsettled revents hflags => ?_
  rw [h.flags_eq] at hflags
  exact hsettled revents hflags

theorem performClientIoAt {i processed processed' : ℕ} {input : Option (List CChar)}
    {received : Option (ℤ × List CChar)}
    (h : Lab34.performClientIoAt ts i processed input = some (received, processed', ts')) :
    SameScan ts ts' := by
  obtain ⟨id, ioable, -, -, -, ⟨-, -, rfl⟩ | ⟨-, _, rfl | hremove⟩⟩ := performClientIoAt_cases h
  · exact ⟨fun _ => rfl, rfl, rfl⟩
  · exact ⟨fun _ => rfl, rfl, rfl⟩
  · obtain ⟨_, _, _, hserver, rfl⟩ := tsRemoveClient_cases hremove
    exact ⟨flags_disconnectClient hserver, rfl, rfl⟩

end SameScan

theorem performClientIoAt_processed {ts ts' : TunnelServer} {i processed processed' : ℕ}
    {input : Option (List CChar)} {received : Option (ℤ × List CChar)}
    (h : performClientIoAt ts i processed input = some (received, processed', ts')) :
    processed' = processed + if ioableAt ts i then 1 else 0 := by
  obtain ⟨id, ioable, hload, hioable, hprocessed, -⟩ := performClientIoAt_cases h
  rw [hprocessed, ioableAt, CArray.cells_of_load hload, hioable]
  cases ioable
  · rfl
  · rfl

/-! ### One step -/

/-- A new client gets a slot with harmless flags, or the scan that follows ends before
it comes to the client. `add_client` takes the first free slot and the id of
`next_id`; the client is at the next position, and wherever else its id is listed. -/
def ReuseSafe (s : Sender) (answers : Answers) : Prop :=
  match s.place with
  | .accept fdCount => isPollable (s.ts.server.clients.cells pollListenerIndex) pollIn →
      answers.accepted ≠ -1 → ¬isFull s.ts.server →
      Harmless (s.ts.server.clients.cells (s.ts.server.clientCount + pollClientOffset)).revents ∨
      ∀ k ≤ s.ts.clientCount, k = s.ts.clientCount ∨
        sizeT (s.ts.idTable.cells k) = sizeT (nextId s.ts.server) →
        fdCount - 1 ≤ (if tunnelIoable s.ts.server = some true then 1 else 0) + ioables s.ts k
  | _ => True

namespace PollWorld

def InOrder (w : PollWorld) : Prop :=
  Listed w.sender.ts.server ∧
    match w.sender.place with
    | .accept _ => ∀ id, Settled w.sender.ts.server w.reported id
    | .clientIo ioableCount i processed => ∃ base, processed = base + ioables w.sender.ts i ∧
        ScanSafe w.sender.ts w.reported ioableCount base i
    | _ => True

theorem InOrder.start (listenFd tunnelFd : ℤ) (tpbJunk queueJunk : ℕ → CChar) :
    (PollWorld.start listenFd tunnelFd tpbJunk queueJunk).InOrder :=
  ⟨⟨[], Tables.built listenFd tunnelFd⟩, trivial⟩

theorem InOrder.right {w : PollWorld} (h : w.InOrder) : w.Right := by
  obtain ⟨-, h⟩ := h
  unfold Right
  split
  · rename_i ioableCount i processed hplace
    rw [hplace] at h
    obtain ⟨base, rfl, hscan⟩ := h
    intro hmore hi id hload hacts
    obtain ⟨revents, hflags, hharm⟩ := hacts.flags
    refine ⟨revents, hflags, ?_⟩
    rw [← CArray.cells_of_load hload] at hflags ⊢
    have hsettled := (hscan i le_rfl hi).resolve_right (by omega)
    exact (hsettled revents hflags).resolve_right hharm
  · trivial

end PollWorld

theorem settled_pollServer {s : Server} (h : Listed s) (revents : ℕ → BitVec 16)
    (reported : ℕ → Option (BitVec 16)) (id : ℕ) :
    Settled (pollServer s revents)
      (fun id => if covered s id then flags (pollServer s revents) id else reported id) id := by
  obtain ⟨ids, h⟩ := h
  intro new hnew
  by_cases hmem : id ∈ ids
  · obtain ⟨p, hp, rfl⟩ := List.getElem_of_mem hmem
    have hcount : p + pollClientOffset < getPollCount s := by
      rw [getPollCount, getClientCount, h.count]
      omega
    by_cases hfd : 0 ≤ (s.clients.cells (p + pollClientOffset)).fd
    · have hcovered : covered s ids[p] = true := by
        simp only [covered, h.getClient_eq hp, h.slot_eq hp, Option.any_some, Bool.and_eq_true,
          decide_eq_true_eq, hfd, and_true]
        exact_mod_cast hcount
      simp only [hcovered, if_true]
      exact .inl hnew
    · right
      rw [flags, (h.polled revents).slot_eq hp, Option.map_some, Option.some_inj] at hnew
      simp only [pollServer, if_pos hcount, polled, if_pos (not_le.mp hfd)] at hnew
      rw [← hnew]
      decide
  · rw [flags, slot_eq_none (mt (h.polled revents).active_iff.mp hmem)] at hnew
    cases hnew

theorem addClient_id {s s' : Server} {fd id : ℤ} (h : addClient s fd = some (id, s')) :
    id = nextId s := by
  unfold addClient at h
  dsimp only at h
  split_ifs at h with hnone
  · cases h
    exact hnone.symm
  · simp only [Option.bind_eq_bind, Option.bind_eq_some_iff] at h
    obtain ⟨idTable, -, indexToId, -, client, -, pollfd, -, clients, -, h⟩ := h
    cases h
    rfl

/-- A new client is the only one whose flags are not settled, and the scan does not
come to it. -/
theorem scanSafe_joined {ts ts' : TunnelServer} (h : Listed ts.server)
    (hfull : ¬isFull ts.server) {reported : ℕ → Option (BitVec 16)}
    (hsettled : ∀ id, Settled ts.server reported id) {fd id : ℤ} {clientJunk tunnelJunk : ℕ → CChar}
    (hadd : tsAddClient ts fd clientJunk tunnelJunk = some (id, ts')) {ioableCount base : ℕ}
    (hsafe : Harmless (ts.server.clients.cells (ts.server.clientCount + pollClientOffset)).revents ∨
      ∀ k ≤ ts.clientCount,
        k = ts.clientCount ∨ sizeT (ts.idTable.cells k) = sizeT (nextId ts.server) →
          ioableCount ≤ base + ioables ts k) :
    id ≠ noId ∧ ScanSafe ts' (Function.update reported id.toNat none) ioableCount base 0 := by
  obtain ⟨ids, h⟩ := h
  obtain ⟨server, hserver, hcases⟩ := tsAddClient_cases hadd
  have hnext := addClient_id hserver
  obtain ⟨new, hid, hfresh, hadded⟩ := h.addClient_eq (h.lt_of_not_isFull hfull) fd
  rw [hserver] at hadded
  cases hadded
  have hne : (new : ℤ) ≠ noId := by
    unfold noId
    omega
  obtain ⟨-, clientBuffers, tunnelBuffers, addQueue, idTable, hstore, rfl⟩ :=
    hcases.resolve_left fun hnone => hne hnone.1
  have hold : ∀ k < ts.clientCount, idTable.cells k = ts.idTable.cells k := fun k hk => by
    rw [CArray.cells_of_store hstore, Function.update_of_ne hk.ne]
  refine ⟨hne, fun k _ hk => ?_⟩
  simp only at hk ⊢
  rw [Int.toNat_natCast]
  by_cases hnew : sizeT (idTable.cells k) = new
  · rcases hsafe with hharmless | hscan
    · refine .inl fun revents hflags => .inr ?_
      rw [hnew, h.flags_added_self fd hid hfresh, Option.some_inj] at hflags
      exact hflags ▸ hharmless
    · right
      have hlisted : k = ts.clientCount ∨
          sizeT (ts.idTable.cells k) = sizeT (nextId ts.server) := by
        by_cases hlast : k = ts.clientCount
        · exact .inl hlast
        · rw [← hold k (by omega), ← hnext, sizeT_id hid]
          exact .inr hnew
      refine (hscan k (by omega) hlisted).trans (Nat.add_le_add_left (ioables_le ?_ ?_) base)
      · exact fun l hl => hold l (by omega)
      · intro l hl revents hflags
        have hne : sizeT (ts.idTable.cells l) ≠ new := by
          intro he
          rw [he, flags, slot_eq_none (mt h.active_iff.mp hfresh)] at hflags
          cases hflags
        exact (h.flags_added fd hid hfresh hne).trans hflags
  · refine .inl fun revents hflags => ?_
    rw [h.flags_added fd hid hfresh hnew] at hflags
    rw [Function.update_of_ne hnew]
    exact hsettled _ revents hflags

namespace PollWorld.InOrder

variable {w w' : PollWorld} {answers : Answers}

theorem pollStep (h : w.InOrder) (hplace : w.sender.place = .poll)
    (hstep : PollWorld.step w answers = some w') : w'.InOrder := by
  obtain ⟨⟨happening, s'⟩, hs, rfl⟩ := Option.map_eq_some_iff.mp hstep
  refine ⟨h.1.senderStep hs, ?_⟩
  simp only [senderStep, hplace] at hs
  cases hrevents : answers.revents with
  | none =>
      rw [hrevents] at hs
      cases hs
      trivial
  | some revents =>
      rw [hrevents] at hs
      cases hs
      intro id
      simp only [reportedAfter, hplace, hrevents]
      exact settled_pollServer h.1 revents w.reported id

theorem acceptStep (h : w.InOrder) {fdCount : ℕ} (hplace : w.sender.place = .accept fdCount)
    (hsafe : ReuseSafe w.sender answers) (hstep : PollWorld.step w answers = some w') :
    w'.InOrder := by
  obtain ⟨⟨happening, s'⟩, hs, rfl⟩ := Option.map_eq_some_iff.mp hstep
  refine ⟨h.1.senderStep hs, ?_⟩
  obtain ⟨hlisted, hsettled⟩ := h
  simp only [senderStep, hplace] at hs
  simp only [hplace] at hsettled
  simp only [ReuseSafe, hplace] at hsafe
  obtain ⟨ioable, hioable, ⟨rfl, rfl | rfl⟩ |
    ⟨hpending, hfailed, hfull, id, ts', hadd, rfl, rfl⟩⟩ := acceptOnce_cases hs
  · trivial
  · refine ⟨_, rfl, fun k _ _ => .inl ?_⟩
    simp only [reportedAfter, hplace]
    exact hsettled _
  · have hsafe := hsafe hpending hfailed hfull
    simp only [hioable, Option.some_inj] at hsafe
    obtain ⟨hne, hscan⟩ := scanSafe_joined hlisted hfull hsettled hadd hsafe
    refine ⟨if ioable then 1 else 0, rfl, ?_⟩
    simpa only [hne, if_false, reportedAfter] using hscan

theorem clientIoStep (h : w.InOrder) {ioableCount i processed : ℕ}
    (hplace : w.sender.place = .clientIo ioableCount i processed)
    (hstep : PollWorld.step w answers = some w') : w'.InOrder := by
  obtain ⟨⟨happening, s'⟩, hs, rfl⟩ := Option.map_eq_some_iff.mp hstep
  refine ⟨h.1.senderStep hs, ?_⟩
  obtain ⟨-, hscan⟩ := h
  simp only [hplace] at hscan
  obtain ⟨base, rfl, hscan⟩ := hscan
  simp only [senderStep, hplace] at hs
  split_ifs at hs with hmore
  · simp only [Option.bind_eq_bind, Option.bind_eq_some_iff] at hs
    obtain ⟨⟨received, processed', ts'⟩, hio, hs⟩ := hs
    cases hs
    have hsame := SameScan.performClientIoAt hio
    have hreported : w.reportedAfter answers ts'.server
        (received.map fun r => .received r.1.toNat r.2) = w.reported := by
      cases received with
      | none => simp only [Option.map_none, reportedAfter, hplace]
      | some r => simp only [Option.map_some, reportedAfter, hplace]
    refine ⟨base, ?_, ?_⟩
    · rw [performClientIoAt_processed hio, hsame.ioables, ioables_succ, Nat.add_assoc]
    · change ScanSafe ts' (w.reportedAfter answers ts'.server
        (received.map fun r => .received r.1.toNat r.2)) ioableCount base (i + 1)
      rw [hreported]
      exact hsame.scanSafe hscan
  · cases hs
    trivial

theorem otherStep (h : w.InOrder) (hpoll : w.sender.place ≠ .poll)
    (haccept : ∀ fdCount, w.sender.place ≠ .accept fdCount)
    (hio : ∀ ioableCount i processed, w.sender.place ≠ .clientIo ioableCount i processed)
    (hstep : PollWorld.step w answers = some w') : w'.InOrder := by
  obtain ⟨⟨happening, s'⟩, hs, rfl⟩ := Option.map_eq_some_iff.mp hstep
  refine ⟨h.1.senderStep hs, ?_⟩
  cases hplace : w.sender.place with
  | poll => exact absurd hplace hpoll
  | accept fdCount => exact absurd hplace (haccept fdCount)
  | clientIo ioableCount i processed => exact absurd hplace (hio ioableCount i processed)
  | emptyRemoved i =>
      simp only [senderStep, hplace, Option.bind_eq_bind, Option.bind_eq_some_iff] at hs
      obtain ⟨⟨turn, ts⟩, -, hs⟩ := hs
      split at hs
      · simp only [Option.bind_eq_some_iff] at hs
        obtain ⟨id, -, hs⟩ := hs
        cases hs
        trivial
      · cases hs
        trivial
      · cases hs
        trivial
  | added =>
      simp only [senderStep, hplace, Option.bind_eq_bind, Option.bind_eq_some_iff] at hs
      obtain ⟨⟨turn, ts⟩, -, hs⟩ := hs
      split at hs
      · cases hs
        trivial
      · cases hs
        trivial
      · cases hs
        trivial
  | send =>
      simp only [senderStep, hplace, Option.bind_eq_bind, Option.bind_eq_some_iff] at hs
      obtain ⟨⟨consumed, again, ts⟩, -, hs⟩ := hs
      cases hs
      cases again
      · trivial
      · trivial
  | tunnel =>
      simp only [senderStep, hplace, Option.map_eq_some_iff] at hs
      obtain ⟨ts, -, hs⟩ := hs
      cases hs
      trivial
  | stopped =>
      simp only [senderStep, hplace] at hs
      cases hs
      simp only [hplace]

theorem step (h : w.InOrder) (hsafe : ReuseSafe w.sender answers)
    (hstep : PollWorld.step w answers = some w') : w'.InOrder := by
  cases hplace : w.sender.place with
  | poll => exact h.pollStep hplace hstep
  | accept fdCount => exact h.acceptStep hplace hsafe hstep
  | clientIo ioableCount i processed => exact h.clientIoStep hplace hstep
  | _ => exact h.otherStep (by simp [hplace]) (by simp [hplace]) (by simp [hplace]) hstep

end PollWorld.InOrder

/-! ### Runs -/

/-- In every run of the main loop that gives new clients slots with harmless flags, or
ends the scan that follows before it comes to them, `perform_client_io` acts only on
flags that `poll` has set for the client. -/
theorem polls_run (listenFd tunnelFd : ℤ) (tpbJunk queueJunk : ℕ → CChar) (answers : List Answers)
    (hsafe : RunMeets (fun w answers => ReuseSafe w.sender answers) PollWorld.step
      (PollWorld.start listenFd tunnelFd tpbJunk queueJunk) answers) :
    RunMeets (fun w _ => w.Right) PollWorld.step
      (PollWorld.start listenFd tunnelFd tpbJunk queueJunk) answers :=
  runMeets_of_meets (fun _ _ h => h.right) (fun _ _ _ h hsafe hstep => h.step hsafe hstep)
    (PollWorld.InOrder.start listenFd tunnelFd tpbJunk queueJunk) hsafe

instance : ∀ (s : Sender) (answers : Answers), Decidable (ReuseSafe s answers)
  | ⟨ts, .accept fdCount⟩, answers =>
      inferInstanceAs (Decidable (isPollable (ts.server.clients.cells pollListenerIndex) pollIn →
        answers.accepted ≠ -1 → ¬isFull ts.server →
        Harmless (ts.server.clients.cells (ts.server.clientCount + pollClientOffset)).revents ∨
        ∀ k ≤ ts.clientCount, k = ts.clientCount ∨
          sizeT (ts.idTable.cells k) = sizeT (nextId ts.server) →
          fdCount - 1 ≤ (if tunnelIoable ts.server = some true then 1 else 0) + ioables ts k))
  | ⟨_, .poll⟩, _ | ⟨_, .clientIo _ _ _⟩, _ | ⟨_, .emptyRemoved _⟩, _ | ⟨_, .added⟩, _
  | ⟨_, .send⟩, _ | ⟨_, .tunnel⟩, _ | ⟨_, .stopped⟩, _ => isTrue trivial

theorem polls_run_visits :
    RunMeets (fun w answers => ReuseSafe w.sender answers) PollWorld.step
        (PollWorld.start 3 4 (fun _ => 0) (fun _ => 0))
        (Answers.visit ++ [.polls [pollListenerIndex], .accepts 11] ++ List.replicate 5 .quiet) ∧
      RunMeets (fun w _ => w.Right) PollWorld.step
        (PollWorld.start 3 4 (fun _ => 0) (fun _ => 0))
        (Answers.visit ++ [.polls [pollListenerIndex], .accepts 11] ++
          List.replicate 5 .quiet) := by
  have hsafe : RunMeets (fun w answers => ReuseSafe w.sender answers) PollWorld.step
      (PollWorld.start 3 4 (fun _ => 0) (fun _ => 0))
      (Answers.visit ++ [.polls [pollListenerIndex], .accepts 11] ++
        List.replicate 5 .quiet) := by
    decide +kernel
  exact ⟨hsafe, polls_run 3 4 (fun _ => 0) (fun _ => 0) _ hsafe⟩

def pollHup : BitVec 16 := 0x010

/-- The client of `visit` has left with `POLLIN` in its slot. Another one comes while
the tunnel has nothing but `POLLHUP`, which `poll` counts and the scan does not. -/
def Answers.reuse : List Answers :=
  visit ++ [{ quiet with revents := some fun k =>
    if k = pollListenerIndex then pollIn else if k = pollTunnelIndex then pollHup else 0 },
    accepts 11]

/-- Then the new client is read from in the round in which it was accepted, on the
flags of the old one. -/
theorem reuse_reads_on_old_flags :
    ¬RunMeets (fun w _ => w.Right) PollWorld.step
      (PollWorld.start 3 4 (fun _ => 0) (fun _ => 0)) (Answers.reuse ++ [.quiet]) := by
  intro h
  have hread : (run PollWorld.step (PollWorld.start 3 4 (fun _ => 0) (fun _ => 0))
      Answers.reuse).any (fun w => w.sender.place = .clientIo 1 0 0 ∧
        w.sender.ts.clientCount = 1 ∧ w.sender.ts.idTable.load 0 = some 0 ∧
        (w.sender.ts.clientBuffers.load 0).map CyclicBuffer.cbFull = some false ∧
        clientReadable w.sender.ts.server 0 = some true ∧ w.reported 0 = none) = true := by
    decide +kernel
  obtain ⟨w, hw, hread⟩ := (Option.any_eq_true _ _).mp hread
  simp only [decide_eq_true_eq, Option.map_eq_some_iff] at hread
  obtain ⟨hplace, hcount, hload, ⟨buffer, hbuffer, hroom⟩, hreadable, hreported⟩ := hread
  have hright : w.Right := h.after hw
  simp only [PollWorld.Right, hplace] at hright
  obtain ⟨revents, -, hsome⟩ := hright one_pos (hcount ▸ one_pos) 0 hload
    (.inr ⟨buffer, hbuffer, hroom, hreadable⟩)
  rw [show sizeT 0 = 0 from rfl, hreported] at hsome
  cases hsome

end UnixLabs.Lab34
