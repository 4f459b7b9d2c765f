import UnixLabs.Lab34.SendLoop
import UnixLabs.Lab34.SenderMoves
import UnixLabs.Lab34.SenderPolls
import UnixLabs.Library.Run
import Mathlib.Algebra.Group.Action.Defs

/-!
How long a round of `main_loop` in `lab34/lab34-sender.c` can be.

Every loop of a round counts something down: the positions that are left, the ids in
`add_queue`, the bytes in the client buffers. Only the sizes of the buffers matter, so a
round ends even when the position table is out of order, as long as no array is left.
-/

namespace UnixLabs.Lab34

open Library

/-! ### Sizes -/

/-- The positions lead to ids, and they and the buffers have no more room than they were made
with. -/
structure Fits (ts : TunnelServer) : Prop where
  count : ts.clientCount ≤ maxClients
  position : ∀ k, ∃ id : ℕ, id < maxClients ∧ ts.idTable.cells k = id
  client : ∀ id, (ts.clientBuffers.cells id).size ≤ bufferSize
  queue : ts.addQueue.size = maxClients

theorem position_store {table table' : CArray maxClients ℤ} {i new : ℤ}
    (hstore : table.store i new = some table') (hnew : ∃ id : ℕ, id < maxClients ∧ new = id)
    (hold : ∀ k, ∃ id : ℕ, id < maxClients ∧ table.cells k = id) (k : ℕ) :
    ∃ id : ℕ, id < maxClients ∧ table'.cells k = id := by
  unfold CArray.store at hstore
  split_ifs at hstore
  cases hstore
  show ∃ id : ℕ, id < maxClients ∧ Function.update table.cells i.toNat new k = id
  rw [Function.update_apply]
  split_ifs
  · exact hnew
  · exact hold k

theorem size_store {buffers buffers' : CArray maxClients CyclicBuffer} {id : ℤ}
    {buffer : CyclicBuffer} (hstore : buffers.store id buffer = some buffers')
    (hnew : buffer.size ≤ bufferSize) (hold : ∀ j, (buffers.cells j).size ≤ bufferSize) (j : ℕ) :
    (buffers'.cells j).size ≤ bufferSize := by
  unfold CArray.store at hstore
  split_ifs at hstore
  cases hstore
  show (Function.update buffers.cells id.toNat buffer j).size ≤ bufferSize
  rw [Function.update_apply]
  split_ifs
  · exact hnew
  · exact hold j

theorem cbSkip_count {b b' : CyclicBuffer} {n : ℕ} (h : b.cbSkip n = some b') :
    b'.size = b.size ∧ b'.count = b.count - n := by
  have hsize : 0 < b.size := by
    by_contra hzero
    rw [CyclicBuffer.cbSkip, dif_pos (Nat.eq_zero_of_not_pos hzero)] at h
    cases h
  obtain ⟨b₁, hskip, hdrop, hsame⟩ := CyclicBuffer.cbSkip_spec hsize n
  cases h.symm.trans hskip
  have hlength := congrArg List.length hdrop
  rw [List.length_drop, CyclicBuffer.length_contents, CyclicBuffer.length_contents] at hlength
  exact ⟨hsame, hlength⟩

/-! ### The bytes in the client buffers -/

def held (buffers : CArray maxClients CyclicBuffer) : ℕ :=
  ((List.range maxClients).map fun id => (buffers.cells id).count).sum

section Held

variable {buffers buffers' : CArray maxClients CyclicBuffer} {id : ℤ} {old new : CyclicBuffer}

theorem count_store_le (hload : buffers.load id = some old)
    (hstore : buffers.store id new = some buffers') (hle : new.count ≤ old.count) (j : ℕ) :
    (buffers'.cells j).count ≤ (buffers.cells j).count := by
  obtain ⟨k, hk, rfl, rfl⟩ := CArray.exists_of_load hload
  rw [buffers.store_of_lt new hk] at hstore
  cases hstore
  show (Function.update buffers.cells k new j).count ≤ _
  rw [Function.update_apply]
  split_ifs with hj
  · rw [hj]
    exact hle
  · exact le_rfl

theorem held_le_of_store (hload : buffers.load id = some old)
    (hstore : buffers.store id new = some buffers') (hle : new.count ≤ old.count) :
    held buffers' ≤ held buffers :=
  List.sum_le_sum fun j _ => count_store_le hload hstore hle j

theorem held_lt_of_store (hload : buffers.load id = some old)
    (hstore : buffers.store id new = some buffers') (hlt : new.count < old.count) :
    held buffers' < held buffers := by
  refine List.sum_lt_sum _ _ (fun j _ => count_store_le hload hstore hlt.le j) ?_
  obtain ⟨k, hk, rfl, rfl⟩ := CArray.exists_of_load hload
  refine ⟨k, List.mem_range.mpr hk, ?_⟩
  rw [buffers.store_of_lt new hk] at hstore
  cases hstore
  show (Function.update buffers.cells k new k).count < _
  rwa [Function.update_self]

theorem held_le (hsize : ∀ j, (buffers.cells j).size ≤ bufferSize) :
    held buffers ≤ maxClients * bufferSize := by
  have hsum := List.sum_le_card_nsmul
    ((List.range maxClients).map fun id => (buffers.cells id).count) bufferSize (by
      intro n hn
      obtain ⟨id, -, rfl⟩ := List.mem_map.mp hn
      exact (buffers.cells id).count_le.trans (hsize id))
  rwa [List.length_map, List.length_range, smul_eq_mul] at hsum

end Held

/-- What the loop of `fill_message` counts down: the bytes in the buffers, and the chunk that
is under way. -/
def chunksLeft (ts : TunnelServer) : ℕ :=
  held ts.clientBuffers + if ts.sendCount = 0 then 0 else 1

namespace Fits

variable {ts ts' : TunnelServer}

theorem built (listenFd tunnelFd : ℤ) (tpbJunk queueJunk : ℕ → CChar) :
    Fits (builtTserver (builtServer listenFd tunnelFd) tpbJunk queueJunk) :=
  ⟨Nat.zero_le _, fun _ => ⟨0, by decide, rfl⟩, fun _ => Nat.zero_le _, rfl⟩

theorem load (h : Fits ts) {id : ℤ} {buffer : CyclicBuffer}
    (hload : ts.clientBuffers.load id = some buffer) : buffer.size ≤ bufferSize := by
  unfold CArray.load at hload
  split_ifs at hload
  cases hload
  exact h.client _

theorem tsAddClient (h : Fits ts) {fd id : ℤ} {clientJunk tunnelJunk : ℕ → CChar}
    (hadd : Lab34.tsAddClient ts fd clientJunk tunnelJunk = some (id, ts')) : Fits ts' := by
  simp only [Lab34.tsAddClient, Option.bind_eq_bind, Option.bind_eq_some_iff] at hadd
  obtain ⟨⟨new, server⟩, -, hadd⟩ := hadd
  split_ifs at hadd with hnone
  · cases hadd
    exact ⟨h.count, h.position, h.client, h.queue⟩
  · simp only [Option.bind_eq_some_iff] at hadd
    obtain ⟨clientBuffers, hclient, tunnelBuffers, -, idTable, htable, hadd⟩ := hadd
    cases hadd
    refine ⟨?_, ?_, size_store hclient le_rfl h.client,
      (CyclicBuffer.size_cbPutc _ _).trans h.queue⟩
    · -- the table has no place for one more than `maxClients`
      exact_mod_cast (CArray.lt_of_store htable).2
    · obtain ⟨hzero, hlt⟩ := CArray.lt_of_store hclient
      exact position_store htable ⟨id.toNat, by omega, by omega⟩ h.position

theorem tsRemoveClient (h : Fits ts) {i : ℤ} (hremove : Lab34.tsRemoveClient ts i = some ts') :
    Fits ts' := by
  obtain ⟨_, _, _, -, rfl⟩ := tsRemoveClient_cases hremove
  exact ⟨h.count, h.position, h.client, h.queue⟩

theorem performClientIoAt (h : Fits ts) {i processed processed' : ℕ}
    {input : Option (List CChar)} {received : Option (ℤ × List CChar)}
    (hio : Lab34.performClientIoAt ts i processed input = some (received, processed', ts')) :
    Fits ts' := by
  simp only [Lab34.performClientIoAt, Option.bind_eq_bind, Option.bind_eq_some_iff] at hio
  obtain ⟨id, -, ioable, -, failed, -, hio⟩ := hio
  generalize (if ioable = true then processed + 1 else processed) = p at hio
  split_ifs at hio with hfail
  · simp only [Option.bind_eq_some_iff] at hio
    obtain ⟨ts₁, hremove, hio⟩ := hio
    cases hio
    exact h.tsRemoveClient hremove
  · simp only [Option.bind_eq_some_iff] at hio
    obtain ⟨buffer, hbuffer, readable, -, hio⟩ := hio
    cases hread : !buffer.cbFull && readable with
    | false =>
        rw [hread, if_neg Bool.false_ne_true] at hio
        cases hio
        exact h
    | true =>
        rw [hread, if_pos rfl, Option.bind_eq_some_iff] at hio
        obtain ⟨clientBuffers, hstore, hio⟩ := hio
        have hnew : (buffer.cbRecv input).2.size ≤ bufferSize :=
          (buffer.size_cbRecv input).trans_le (h.load hbuffer)
        have hnext : Fits { ts with clientBuffers } :=
          ⟨h.count, h.position, size_store hstore hnew h.client, h.queue⟩
        rcases eq_or_ne (buffer.cbRecv input).1 (-1) with hend | hmore
        · rw [if_pos hend, Option.bind_eq_some_iff] at hio
          obtain ⟨ts₁, hremove, hio⟩ := hio
          cases hio
          exact hnext.tsRemoveClient hremove
        · rw [if_neg hmore] at hio
          cases hio
          exact hnext

theorem tsActualRemove (h : Fits ts) {i : ℤ} (hremove : Lab34.tsActualRemove ts i = some ts') :
    Fits ts' ∧ ts'.clientCount = ts.clientCount - 1 := by
  simp only [Lab34.tsActualRemove, Option.bind_eq_bind, Option.bind_eq_some_iff] at hremove
  obtain ⟨id, -, server, -, clientBuffers, hclient, tunnelBuffers, -, last, hlast, idTable, htable,
    hremove⟩ := hremove
  cases hremove
  obtain ⟨k, -, -, rfl⟩ := CArray.exists_of_load hlast
  exact ⟨⟨(Nat.sub_le _ _).trans h.count, position_store htable (h.position k) h.position,
    size_store hclient (Nat.zero_le _) h.client, h.queue⟩, rfl⟩

/-- The loop of `process_empty_removed` goes on at the next position, or at the same one with
one client less. -/
theorem processEmptyRemovedAt (h : Fits ts) {i : ℕ} {turn : Turn ℕ}
    (honce : Lab34.processEmptyRemovedAt ts i = some (turn, ts')) :
    Fits ts' ∧ ∀ j, turn = .next j → i < ts.clientCount ∧
      (j = i + 1 ∧ ts'.clientCount = ts.clientCount ∨
        j = i ∧ ts'.clientCount = ts.clientCount - 1) := by
  unfold Lab34.processEmptyRemovedAt at honce
  split_ifs at honce with hend
  · cases honce
    exact ⟨h, nofun⟩
  simp only [Option.bind_eq_bind, Option.bind_eq_some_iff] at honce
  obtain ⟨id, -, flag, -, buffer, -, honce⟩ := honce
  have hi : i < ts.clientCount := Nat.lt_of_not_le hend
  split_ifs at honce with hskip hput
  · cases honce
    refine ⟨h, fun j hj => ⟨hi, .inl ⟨?_, rfl⟩⟩⟩
    cases hj
    rfl
  · cases honce
    exact ⟨⟨h.count, h.position, h.client, h.queue⟩, nofun⟩
  · simp only [Option.bind_eq_some_iff] at honce
    obtain ⟨removeFlag, -, ts₁, hremove, honce⟩ := honce
    cases honce
    have hmarked : Fits { ts with
        tunnelTpb := (ts.tunnelTpb.tpbContolMessage clientRemove id).2, removeFlag } :=
      ⟨h.count, h.position, h.client, h.queue⟩
    obtain ⟨hfits, hcount⟩ := hmarked.tsActualRemove hremove
    refine ⟨hfits, fun j hj => ⟨hi, .inr ⟨?_, hcount⟩⟩⟩
    cases hj
    rfl

theorem processAddedOnce (h : Fits ts) {turn : Turn Unit}
    (honce : Lab34.processAddedOnce ts = some (turn, ts')) :
    Fits ts' ∧ (turn = .next () → ts'.addQueue.count < ts.addQueue.count) := by
  unfold Lab34.processAddedOnce at honce
  cases hpeek : ts.addQueue.cbPeek with
  | none =>
      rw [hpeek] at honce
      cases honce
      exact ⟨h, nofun⟩
  | some id =>
      simp only [hpeek] at honce
      split_ifs at honce with hput
      · cases honce
        exact ⟨⟨h.count, h.position, h.client, h.queue⟩, nofun⟩
      · simp only [Option.bind_eq_bind, Option.bind_eq_some_iff] at honce
        obtain ⟨addQueue, hskip, honce⟩ := honce
        cases honce
        obtain ⟨hsize, hcount⟩ := cbSkip_count hskip
        refine ⟨⟨h.count, h.position, h.client, hsize.trans h.queue⟩, fun _ => ?_⟩
        -- `cb_peek` finds nothing in an empty queue
        have hsome : ts.addQueue.count ≠ 0 := by
          intro hzero
          rw [CyclicBuffer.cbPeek, CyclicBuffer.cbEmpty, hzero] at hpeek
          cases hpeek
        show addQueue.count < ts.addQueue.count
        omega

theorem sendChunk (h : Fits ts) {messageLength : ℕ → ℕ} {consumed : Option (ℤ × List CChar)}
    {again : Bool} (honce : Lab34.sendChunk ts messageLength = some (consumed, again, ts')) :
    Fits ts' ∧ (again = true → chunksLeft ts' < chunksLeft ts) := by
  simp only [Lab34.sendChunk, Option.bind_eq_bind, Option.bind_eq_some_iff] at honce
  obtain ⟨id, -, dataBuf, hload, honce⟩ := honce
  obtain ⟨c, hc⟩ : ∃ c, (if ts.sendCount = 0 then dataBuf.count else ts.sendCount) = c := ⟨_, rfl⟩
  rw [hc] at honce
  rcases eq_or_ne c 0 with hzero | hsome
  · rw [if_pos hzero] at honce
    cases honce
    exact ⟨⟨h.count, h.position, h.client, h.queue⟩, Bool.noConfusion⟩
  rw [if_neg hsome] at honce
  simp only [Option.bind_eq_some_iff] at honce
  obtain ⟨data, -, ⟨n, tpb⟩, -, dataBuf', hskip, buffers, hstore, honce⟩ := honce
  cases honce
  obtain ⟨hsize, hcount⟩ := cbSkip_count hskip
  rw [CyclicBuffer.size_cbShift] at hsize
  rw [CyclicBuffer.count_cbShift] at hcount
  refine ⟨⟨h.count, h.position, size_store hstore (hsize.trans_le (h.load hload)) h.client,
    h.queue⟩, fun hagain => ?_⟩
  have hdone : c - n = 0 := of_decide_eq_true hagain
  show held buffers + (if c - n = 0 then 0 else 1) < chunksLeft ts
  rw [if_pos hdone, Nat.add_zero, chunksLeft]
  rcases eq_or_ne ts.sendCount 0 with hnew | hbegun
  · -- a chunk that was begun just now is all that was in the buffer
    rw [if_pos hnew] at hc
    rw [if_pos hnew, Nat.add_zero]
    exact held_lt_of_store hload hstore (by omega)
  · rw [if_neg hbegun]
    exact Nat.lt_succ_of_le (held_le_of_store hload hstore (by omega))

theorem sendOnce (h : Fits ts) {messageLength : ℕ → ℕ} {consumed : Option (ℤ × List CChar)}
    {again : Bool} (honce : Lab34.sendOnce ts messageLength = some (consumed, again, ts')) :
    Fits ts' ∧ (again = true → chunksLeft ts' < chunksLeft ts) := by
  unfold Lab34.sendOnce at honce
  split_ifs at honce with hchoose
  · simp only [Option.bind_eq_bind, Option.bind_eq_some_iff] at honce
    obtain ⟨sendOrder, -, honce⟩ := honce
    have hchosen : Fits { ts with sendOrder } := ⟨h.count, h.position, h.client, h.queue⟩
    split_ifs at honce with hnone
    · cases honce
      exact ⟨hchosen, Bool.noConfusion⟩
    · exact hchosen.sendChunk honce
  · exact h.sendChunk honce

theorem nextMessageClient (h : Fits ts) (previous : ℤ) :
    ∃ order, Lab34.nextMessageClient ts previous = some order := by
  rcases Nat.eq_zero_or_pos ts.clientCount with hnone | hsome
  · exact ⟨noOrder, if_pos hnone⟩
  · have hsearch : Searchable ts := ⟨h.count, fun k _ => h.position k⟩
    obtain ⟨order, hnext, -⟩ := hsearch.nextMessageClient_any hsome previous
    exact ⟨order, hnext⟩

theorem tunnelOnce (h : Fits ts) {written : Option ℕ}
    (honce : Lab34.tunnelOnce ts written = some ts') : Fits ts' := by
  obtain ⟨_, _, _, -, rfl⟩ := tunnelOnce_cases honce
  exact ⟨h.count, h.position, h.client, h.queue⟩

end Fits

theorem Fits.senderStep {s s' : Sender} {answers : Answers} {happening : Option Happening}
    (h : Fits s.ts) (hstep : senderStep s answers = some (happening, s')) : Fits s'.ts := by
  apply senderStep_rel (R := fun ts ts' => Fits ts → Fits ts') hstep
  · exact fun _ => id
  · exact fun ts revents h => ⟨h.count, h.position, h.client, h.queue⟩
  · exact fun ts ts' fd clientJunk tunnelJunk id hadd h => h.tsAddClient hadd
  · exact fun ts ts' i processed input received processed' hio h => h.performClientIoAt hio
  · exact fun ts ts' i turn honce h => (h.processEmptyRemovedAt honce).1
  · exact fun ts ts' turn honce h => (h.processAddedOnce honce).1
  · exact fun ts ts' messageLength consumed again _ honce h => (h.sendOnce honce).1
  · exact fun ts ts' written honce h => h.tunnelOnce honce
  · exact h

/-! ### One step of a round -/

def sendDelay : ℕ := maxClients * bufferSize + 3

def addedDelay : ℕ := maxClients + 1 + sendDelay

def emptyRemovedDelay : ℕ := 2 * maxClients + 1 + addedDelay

def clientIoDelay : ℕ := maxClients + 1 + emptyRemovedDelay

def roundLength : ℕ := clientIoDelay + 2

/-- How many steps are left until `poll` is called again, at the most. -/
def Sender.delay (s : Sender) : ℕ :=
  match s.place with
  | .poll | .stopped => 0
  | .accept _ => clientIoDelay + 1
  | .clientIo _ i _ => s.ts.clientCount - i + 1 + emptyRemovedDelay
  | .emptyRemoved i => s.ts.clientCount - i + s.ts.clientCount + 1 + addedDelay
  | .added => s.ts.addQueue.count + 1 + sendDelay
  | .send => chunksLeft s.ts + 2
  | .tunnel => 1

def Sender.AtPoll (s : Sender) : Prop := s.place = .poll ∨ s.place = .stopped

instance (s : Sender) : Decidable s.AtPoll := inferInstanceAs (Decidable (_ ∨ _))

theorem chunksLeft_le {ts : TunnelServer} (h : Fits ts) :
    chunksLeft ts ≤ maxClients * bufferSize + 1 := by
  have hheld := held_le h.client
  rw [chunksLeft]
  split_ifs <;> omega

section Step

variable {ts : TunnelServer} {place : Place} {answers : Answers} {happening : Option Happening}
  {s' : Sender}

theorem delay_accept {fdCount : ℕ} (h : Fits ts)
    (honce : acceptOnce ts fdCount answers = some (happening, s')) :
    s'.delay < clientIoDelay + 1 := by
  obtain ⟨ioable, -, ⟨-, rfl | rfl⟩ | ⟨-, -, -, id, ts', hadd, rfl, -⟩⟩ := acceptOnce_cases honce
  · exact Nat.succ_pos _
  · have hcount := h.count
    show ts.clientCount - 0 + 1 + emptyRemovedDelay < maxClients + 1 + emptyRemovedDelay + 1
    omega
  · have hcount := (h.tsAddClient hadd).count
    show ts'.clientCount - 0 + 1 + emptyRemovedDelay < maxClients + 1 + emptyRemovedDelay + 1
    omega

/-- Every step of a round leaves fewer steps. -/
theorem Moves.delay_lt (hmove : Moves ts answers place happening s') (h : Fits ts)
    (hround : ¬Sender.AtPoll ⟨ts, place⟩) : s'.delay < Sender.delay ⟨ts, place⟩ := by
  cases hmove with
  | fails | polls => exact absurd (.inl rfl) hround
  | stays => exact absurd (.inr rfl) hround
  | accepts honce => exact delay_accept h honce
  | @visits ioableCount i processed processed' received ts' hmore honce =>
      have hcount := (SameScan.performClientIoAt honce).count
      show ts'.clientCount - (i + 1) + 1 + emptyRemovedDelay <
        ts.clientCount - i + 1 + emptyRemovedDelay
      omega
  | @visited ioableCount i =>
      have hcount := h.count
      show ts.clientCount - 0 + ts.clientCount + 1 + addedDelay <
        ts.clientCount - i + 1 + (2 * maxClients + 1 + addedDelay)
      omega
  | @checks i j id ts' honce =>
      obtain ⟨-, hnext⟩ := h.processEmptyRemovedAt honce
      show ts'.clientCount - j + ts'.clientCount + 1 + addedDelay <
        ts.clientCount - i + ts.clientCount + 1 + addedDelay
      obtain ⟨hi, ⟨rfl, hcount⟩ | ⟨rfl, hcount⟩⟩ := hnext j rfl
      · omega
      · omega
  | @checked i result ts' honce =>
      have hfits := (h.processEmptyRemovedAt honce).1
      have hqueue : ts'.addQueue.count ≤ maxClients := hfits.queue ▸ ts'.addQueue.count_le
      show _ < ts.clientCount - i + ts.clientCount + 1 + (maxClients + 1 + sendDelay)
      cases result with
      | true =>
          show ts'.addQueue.count + 1 + sendDelay < _
          omega
      | false =>
          show 1 < _
          omega
  | @announces ts' honce =>
      have hcount := (h.processAddedOnce honce).2 rfl
      show ts'.addQueue.count + 1 + sendDelay < ts.addQueue.count + 1 + sendDelay
      omega
  | @announced result ts' honce =>
      have hchunks := chunksLeft_le (h.processAddedOnce honce).1
      show _ < ts.addQueue.count + 1 + (maxClients * bufferSize + 3)
      cases result with
      | true =>
          show chunksLeft ts' + 2 < _
          omega
      | false =>
          show 1 < _
          omega
  | @sends consumed again ts' honce =>
      show _ < chunksLeft ts + 2
      cases again with
      | true =>
          have hchunks := (h.sendOnce honce).2 rfl
          show chunksLeft ts' + 2 < _
          omega
      | false =>
          show 1 < _
          omega
  | writes => exact Nat.succ_pos _

theorem Moves.delay_atPoll (hmove : Moves ts answers place happening s')
    (hbetween : Sender.AtPoll ⟨ts, place⟩) : s'.delay < roundLength := by
  obtain rfl | rfl : place = .poll ∨ place = .stopped := hbetween
  · cases hmove with
    | fails => exact Nat.succ_pos _
    | polls => exact Nat.lt_succ_self _
  · cases hmove with
    | stays => exact Nat.succ_pos _

theorem Sender.delay_pos {s : Sender} (hround : ¬s.AtPoll) : 0 < s.delay := by
  obtain ⟨ts, place⟩ := s
  cases place with
  | poll => exact absurd (.inl rfl) hround
  | stopped => exact absurd (.inr rfl) hround
  | _ =>
      simp only [Sender.delay]
      omega

end Step

/-! ### Runs -/

/-- The sender, and how many steps it has taken since `poll` was about to be called. -/
structure RoundWorld where
  sender : Sender
  steps : ℕ

namespace RoundWorld

def start (listenFd tunnelFd : ℤ) (tpbJunk queueJunk : ℕ → CChar) : RoundWorld :=
  ⟨Sender.start listenFd tunnelFd tpbJunk queueJunk, 0⟩

def step (w : RoundWorld) (answers : Answers) : Option RoundWorld :=
  (senderStep w.sender answers).map fun (_, sender) =>
    ⟨sender, if sender.AtPoll then 0 else w.steps + 1⟩

structure InOrder (w : RoundWorld) : Prop where
  fits : Fits w.sender.ts
  between : w.sender.AtPoll → w.steps = 0
  left : w.steps + w.sender.delay ≤ roundLength

theorem InOrder.start (listenFd tunnelFd : ℤ) (tpbJunk queueJunk : ℕ → CChar) :
    (RoundWorld.start listenFd tunnelFd tpbJunk queueJunk).InOrder :=
  ⟨Fits.built listenFd tunnelFd tpbJunk queueJunk, fun _ => rfl, Nat.zero_le _⟩

theorem InOrder.step {w w' : RoundWorld} {answers : Answers} (h : w.InOrder)
    (hstep : w.step answers = some w') : w'.InOrder := by
  obtain ⟨⟨happening, sender⟩, hsender, rfl⟩ := Option.map_eq_some_iff.mp hstep
  refine ⟨h.fits.senderStep hsender, fun hpoll => if_pos hpoll, ?_⟩
  show (if sender.AtPoll then 0 else w.steps + 1) + sender.delay ≤ roundLength
  have hsteps : (if sender.AtPoll then 0 else w.steps + 1) ≤ w.steps + 1 := by
    split_ifs
    · exact Nat.zero_le _
    · exact le_rfl
  rcases Classical.em w.sender.AtPoll with hbetween | hround
  · have hfirst := (moves_of_senderStep hsender).delay_atPoll hbetween
    have hzero := h.between hbetween
    omega
  · have hlater : sender.delay < w.sender.delay :=
      (moves_of_senderStep hsender).delay_lt h.fits hround
    have hleft := h.left
    omega

/-- The round goes on for fewer than `roundLength` steps, and the search of
`next_message_client` ends. -/
def Ends (w : RoundWorld) : Prop :=
  w.steps < roundLength ∧
    ∃ order, nextMessageClient w.sender.ts w.sender.ts.sendOrder = some order

theorem InOrder.ends {w : RoundWorld} (h : w.InOrder) : w.Ends := by
  refine ⟨?_, h.fits.nextMessageClient w.sender.ts.sendOrder⟩
  rcases Classical.em w.sender.AtPoll with hbetween | hround
  · rw [h.between hbetween]
    exact Nat.succ_pos _
  · have hpos := Sender.delay_pos hround
    have hleft := h.left
    omega

/-- In every run of the main loop, whatever the calls answer and whoever is released, `poll`
is called again after at most `roundLength` steps, unless a step before leaves an array or
uses a buffer that was freed. -/
theorem rounds_end (listenFd tunnelFd : ℤ) (tpbJunk queueJunk : ℕ → CChar)
    (answers : List Answers) :
    RunMeets (fun w _ => w.Ends) RoundWorld.step
      (RoundWorld.start listenFd tunnelFd tpbJunk queueJunk) answers :=
  runMeets_of_meets (C := fun _ _ => True) (I := InOrder) (fun _ _ h => h.ends)
    (fun _ _ _ h _ hstep => h.step hstep) (InOrder.start listenFd tunnelFd tpbJunk queueJunk)
    (runMeets_of_forall (C := fun _ => True) fun _ _ => trivial)

end RoundWorld

end UnixLabs.Lab34
