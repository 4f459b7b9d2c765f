import UnixLabs.Lab34.RoundRobin
import UnixLabs.Lab34.SenderLoop
import UnixLabs.Library.Run
import Mathlib.Algebra.Order.BigOperators.Group.List
import Mathlib.Algebra.Order.Group.Nat

/-!
The loop of `fill_message` in `lab34/lab34-sender.c`, whatever `tpb_encapsulate` does.

An iteration that is followed by another one has taken a whole chunk out of a client's
buffer, so the bytes in the buffers count the iterations down. Each call of
`tpb_encapsulate` is put down with what it was given and what it returned; that is a
`size_t`, and no difference is allowed to wrap around.
-/

namespace UnixLabs.Lab34

open Library

/-- What a call of `tpb_encapsulate` does to its buffer, given the data and the id. -/
abbrev Encapsulator := TPBuffer → List CChar → ℤ → Option (ℕ × TPBuffer)

/-- On buffers with `I` the call returns, at most the length it was given, and it
leaves a buffer with `I`. -/
def Encapsulator.ReturnsAtMost (encapsulate : Encapsulator) (I : TPBuffer → Prop) : Prop :=
  ∀ tpb data id, I tpb → ∃ n tpb', encapsulate tpb data id = some (n, tpb') ∧
    n ≤ data.length ∧ I tpb'

/-- A call of `tpb_encapsulate`: what it was given, and what it returned. -/
structure LoggedCall where
  id : ℤ
  data : List CChar
  returned : ℕ

/-- The part of an iteration that follows the choice of `send_order`: the call of
`tpb_encapsulate`, whether there is a next iteration, and the sender. -/
def sendChunkBy (encapsulate : Encapsulator) (ts : TunnelServer) :
    Option (Option LoggedCall × Bool × TunnelServer) := do
  let id ← ts.idTable.load ts.sendOrder
  let dataBuf ← ts.clientBuffers.load id
  let sendCount := if ts.sendCount = 0 then dataBuf.count else ts.sendCount
  if sendCount = 0 then some (none, false, { ts with sendCount })
  else
    let dataBuf := dataBuf.cbShift
    let data ← dataBuf.cbData sendCount
    let (count, tunnelTpb) ← encapsulate ts.tunnelTpb data id
    let sendCount ← checkedSub sendCount count
    let dataBuf ← dataBuf.cbSkip count
    let clientBuffers ← ts.clientBuffers.store id dataBuf
    some (some ⟨id, data, count⟩, sendCount = 0, { ts with tunnelTpb, clientBuffers, sendCount })

def sendOnceBy (encapsulate : Encapsulator) (ts : TunnelServer) :
    Option (Option LoggedCall × Bool × TunnelServer) :=
  if ts.sendOrder = noOrder ∨ ts.sendCount = 0 then do
    let sendOrder ← nextMessageClient ts ts.sendOrder
    let ts := { ts with sendOrder }
    if sendOrder = noOrder then some (none, false, ts) else sendChunkBy encapsulate ts
  else sendChunkBy encapsulate ts

/-- The loop with at most `fuel` iterations, the first of them with the call numbered
`number`: the calls, and the sender. -/
def fillLoop (encapsulate : ℕ → Encapsulator) :
    ℕ → ℕ → TunnelServer → Option (List LoggedCall × TunnelServer)
  | 0, _, _ => none
  | fuel + 1, number, ts => do
      let (call, again, ts) ← sendOnceBy (encapsulate number) ts
      if again then
        let (rest, ts) ← fillLoop encapsulate fuel (number + 1) ts
        some (call.toList ++ rest, ts)
      else some (call.toList, ts)

/-! ### The source's own `tpb_encapsulate` -/

def LoggedCall.consumed (c : LoggedCall) : ℤ × List CChar := (c.id, c.data.take c.returned)

theorem checkedSub_eq_some {a b c : ℕ} (h : checkedSub a b = some c) : b ≤ a ∧ c = a - b := by
  unfold checkedSub at h
  split_ifs at h with hle
  cases h
  exact ⟨hle, rfl⟩

/-- With the source's own `tpb_encapsulate` these are the chunks that are sent. -/
theorem sendChunk_of_sendChunkBy {ts ts' : TunnelServer} {messageLength : ℕ → ℕ}
    {call : Option LoggedCall} {again : Bool}
    (h : sendChunkBy (fun tpb data id => tpb.tpbEncapsulate data id messageLength) ts =
      some (call, again, ts')) :
    sendChunk ts messageLength = some (call.map LoggedCall.consumed, again, ts') := by
  simp only [sendChunkBy, Option.bind_eq_bind, Option.bind_eq_some_iff] at h
  obtain ⟨id, hid, dataBuf, hbuffer, h⟩ := h
  simp only [sendChunk, hid, hbuffer, Option.bind_eq_bind, Option.bind_some]
  obtain ⟨c, hc⟩ : ∃ c, (if ts.sendCount = 0 then dataBuf.count else ts.sendCount) = c := ⟨_, rfl⟩
  rw [hc] at h ⊢
  by_cases hzero : c = 0
  · rw [if_pos hzero] at h ⊢
    cases h
    rfl
  · rw [if_neg hzero] at h ⊢
    simp only [Option.bind_eq_some_iff] at h
    obtain ⟨data, hdata, ⟨n, tpb⟩, hcall, rest, hsub, buffer, hskip, buffers, hstore, h⟩ := h
    obtain ⟨-, rfl⟩ := checkedSub_eq_some hsub
    cases h
    simp only [hdata, hcall, hskip, hstore, Option.bind_some]
    rfl

theorem sendOnce_of_sendOnceBy {ts ts' : TunnelServer} {messageLength : ℕ → ℕ}
    {call : Option LoggedCall} {again : Bool}
    (h : sendOnceBy (fun tpb data id => tpb.tpbEncapsulate data id messageLength) ts =
      some (call, again, ts')) :
    sendOnce ts messageLength = some (call.map LoggedCall.consumed, again, ts') := by
  rw [sendOnceBy] at h
  rw [sendOnce]
  by_cases hchoose : ts.sendOrder = noOrder ∨ ts.sendCount = 0
  · rw [if_pos hchoose] at h ⊢
    obtain ⟨order, hnext, h⟩ := Option.bind_eq_some_iff.mp h
    simp only [hnext, Option.bind_eq_bind, Option.bind_some]
    by_cases hnone : order = noOrder
    · rw [if_pos hnone] at h ⊢
      cases h
      rfl
    · rw [if_neg hnone] at h ⊢
      exact sendChunk_of_sendChunkBy h
  · rw [if_neg hchoose] at h ⊢
    exact sendChunk_of_sendChunkBy h

theorem returnsAtMost_tpbEncapsulate (messageLength : ℕ → ℕ) :
    Encapsulator.ReturnsAtMost (fun tpb data id => tpb.tpbEncapsulate data id messageLength)
      fun tpb => 0 < tpb.buffer.size := by
  intro tpb data id hsize
  obtain ⟨n, tpb', hcall, hn, hsize'⟩ :=
    TPBuffer.tpbEncapsulate_spec hsize data id messageLength
  exact ⟨n, tpb', hcall, hn, hsize.trans_eq hsize'.symm⟩

/-! ### The state between two iterations -/

def unsent (ts : TunnelServer) (id : ℕ) : List CChar := (ts.clientBuffers.cells id).contents

/-- The positions in use name the distinct clients `ids` with allocated buffers, and the
pending chunk, if there is one, is in the buffer of the client at `send_order`. -/
structure Sendable (ts : TunnelServer) (ids : List ℕ) : Prop where
  count : ts.clientCount = ids.length
  position : ∀ k (hk : k < ids.length), ts.idTable.cells k = (ids[k] : ℤ)
  nodup : ids.Nodup
  lt : ∀ id ∈ ids, id < maxClients
  size : ∀ id ∈ ids, 0 < (ts.clientBuffers.cells id).size
  chunk : ts.sendCount = 0 ∨ ∃ k, ∃ hk : k < ids.length, ts.sendOrder = (k : ℕ) ∧
    ts.sendCount ≤ (unsent ts ids[k]).length

def buffered (ts : TunnelServer) (ids : List ℕ) : ℕ :=
  (ids.map fun id => (unsent ts id).length).sum

def returnedFor (id : ℕ) (calls : List LoggedCall) : ℕ :=
  ((calls.filter fun c => c.id = (id : ℤ)).map LoggedCall.returned).sum

theorem returnedFor_cons (id : ℕ) (c : LoggedCall) (calls : List LoggedCall) :
    returnedFor id (c :: calls) =
      (if c.id = (id : ℤ) then c.returned else 0) + returnedFor id calls := by
  rw [returnedFor, List.filter_cons]
  split_ifs with h hid hid
  · rw [List.map_cons, List.sum_cons]
    rfl
  · exact absurd (of_decide_eq_true h) hid
  · exact absurd (decide_eq_true hid) h
  · exact (Nat.zero_add _).symm

/-- What the calls change: the buffer of the tunnel, the rest of a chunk that was not
accepted in full, and the bytes each client has left. -/
structure Outgoing where
  tpb : TPBuffer
  pending : ℕ
  left : ℕ → List CChar

def outgoing (ts : TunnelServer) : Outgoing := ⟨ts.tunnelTpb, ts.sendCount, unsent ts⟩

/-- A call for client `id`: it is given the rest of the chunk, or else all that the client
has left, from the front, and as much as it returns is taken off there. -/
structure PassesOn (encapsulate : Encapsulator) (before : Outgoing) (id : ℕ)
    (c : LoggedCall) (after : Outgoing) : Prop where
  id_eq : c.id = (id : ℤ)
  data : c.data = (before.left id).take
    (if before.pending = 0 then (before.left id).length else before.pending)
  ne_nil : c.data ≠ []
  answer : encapsulate before.tpb c.data c.id = some (c.returned, after.tpb)
  le : c.returned ≤ c.data.length
  pending : after.pending = c.data.length - c.returned
  left : ∀ j, after.left j = (before.left j).drop (if id = j then c.returned else 0)

/-- The calls, numbered from `number` on, one after the other. After each but the last one
nothing of its chunk is pending. -/
def CallsMade (encapsulate : ℕ → Encapsulator) (ids : List ℕ) :
    ℕ → Outgoing → List LoggedCall → Outgoing → Prop
  | _, before, [], after => after = before
  | number, before, c :: calls, after => ∃ id ∈ ids, ∃ middle,
      PassesOn (encapsulate number) before id c middle ∧ (calls ≠ [] → middle.pending = 0) ∧
        CallsMade encapsulate ids (number + 1) middle calls after

namespace PassesOn

variable {encapsulate : Encapsulator} {before after : Outgoing} {id : ℕ} {c : LoggedCall}

theorem data_le (h : PassesOn encapsulate before id c after) :
    c.data.length ≤ (before.left id).length := by
  rw [h.data, List.length_take]
  exact Nat.min_le_right _ _

theorem length_left (h : PassesOn encapsulate before id c after) (j : ℕ) :
    (after.left j).length = (before.left j).length - if id = j then c.returned else 0 := by
  rw [h.left, List.length_drop]

theorem left_lt (h : PassesOn encapsulate before id c after) (hnone : after.pending = 0) :
    (after.left id).length < (before.left id).length := by
  have hpos := List.length_pos_iff.mpr h.ne_nil
  have hle := h.data_le
  have hpending := h.pending
  rw [h.length_left, if_pos rfl]
  omega

end PassesOn

/-- In all, the calls take as much off a client's bytes as they return for it. -/
theorem CallsMade.left {encapsulate : ℕ → Encapsulator} {ids : List ℕ} {number : ℕ}
    {before after : Outgoing} {calls : List LoggedCall}
    (h : CallsMade encapsulate ids number before calls after) (j : ℕ) :
    returnedFor j calls ≤ (before.left j).length ∧
      after.left j = (before.left j).drop (returnedFor j calls) := by
  induction calls generalizing number before with
  | nil =>
      rw [show after = before from h]
      exact ⟨Nat.zero_le _, rfl⟩
  | cons c calls ih =>
      obtain ⟨id, -, middle, hpass, -, hrest⟩ := h
      obtain ⟨hle, hleft⟩ := ih hrest
      rw [hpass.length_left] at hle
      rw [hpass.left, List.drop_drop] at hleft
      simp only [returnedFor_cons, hpass.id_eq, Nat.cast_inj]
      refine ⟨?_, hleft⟩
      have hreturned := hpass.le.trans hpass.data_le
      split_ifs at hle ⊢ with hsame
      · subst hsame
        omega
      · omega

def passedOn (ts : TunnelServer) (k id : ℕ) (tunnelTpb : TPBuffer) (dataBuf : CyclicBuffer)
    (sendCount : ℕ) : TunnelServer :=
  { ts with
    sendOrder := (k : ℕ)
    tunnelTpb
    clientBuffers := ⟨Function.update ts.clientBuffers.cells id dataBuf⟩
    sendCount }

section PassedOn

variable {ts : TunnelServer} {k id n sendCount : ℕ} {tunnelTpb : TPBuffer}
  {dataBuf : CyclicBuffer}

@[simp] theorem cells_passedOn :
    (passedOn ts k id tunnelTpb dataBuf sendCount).clientBuffers.cells id = dataBuf :=
  Function.update_self _ _ _

theorem cells_passedOn_of_ne {j : ℕ} (hj : j ≠ id) :
    (passedOn ts k id tunnelTpb dataBuf sendCount).clientBuffers.cells j =
      ts.clientBuffers.cells j :=
  Function.update_of_ne hj _ _

theorem unsent_passedOn (hdrop : dataBuf.contents = (unsent ts id).drop n) (j : ℕ) :
    unsent (passedOn ts k id tunnelTpb dataBuf sendCount) j =
      (unsent ts j).drop (if id = j then n else 0) := by
  rcases eq_or_ne id j with rfl | hne
  · rw [if_pos rfl, unsent, cells_passedOn, hdrop]
  · rw [if_neg hne, unsent, cells_passedOn_of_ne hne.symm]
    rfl

end PassedOn

namespace Sendable

variable {ts : TunnelServer} {ids : List ℕ}

theorem length_le (h : Sendable ts ids) : ids.length ≤ maxClients := by
  have hsub : ids ⊆ List.range maxClients := fun id hid => List.mem_range.mpr (h.lt id hid)
  exact (h.nodup.subperm hsub).length_le.trans_eq List.length_range

theorem searchable (h : Sendable ts ids) : Searchable ts where
  count_le := h.count ▸ h.length_le
  position := fun k hk => by
    rw [h.count] at hk
    exact ⟨ids[k], h.lt _ (List.getElem_mem hk), h.position k hk⟩

theorem emptyAt_eq_true (h : Sendable ts ids) {k : ℕ} (hk : k < ids.length) :
    emptyAt ts k = true ↔ unsent ts ids[k] = [] := by
  rw [emptyAt, h.position k hk, Int.toNat_natCast, CyclicBuffer.cbEmpty_iff, unsent]

theorem chosen (h : Sendable ts ids) (hzero : ts.sendCount = 0) (sendOrder : ℤ) :
    Sendable { ts with sendOrder } ids :=
  ⟨h.count, h.position, h.nodup, h.lt, h.size, .inl hzero⟩

/-- The chunk is what is left of the last one, or all that the buffer has. -/
theorem chunk_spec {id : ℕ} (hle : ts.sendCount ≤ (unsent ts id).length)
    (hsome : ts.sendCount = 0 → unsent ts id ≠ []) :
    ∃ c, (if ts.sendCount = 0 then (ts.clientBuffers.cells id).count else ts.sendCount) = c ∧
      (if ts.sendCount = 0 then (unsent ts id).length else ts.sendCount) = c ∧
      0 < c ∧ c ≤ (ts.clientBuffers.cells id).count := by
  have hcount : (unsent ts id).length = (ts.clientBuffers.cells id).count :=
    CyclicBuffer.length_contents _
  refine ⟨_, rfl, by rw [hcount], ?_⟩
  split_ifs with hzero
  · have hpos := List.length_pos_iff.mpr (hsome hzero)
    omega
  · omega

theorem passedOn (h : Sendable ts ids) {k : ℕ} (hk : k < ids.length) (tunnelTpb : TPBuffer)
    {dataBuf : CyclicBuffer} (hsize : 0 < dataBuf.size) {sendCount : ℕ}
    (hle : sendCount ≤ dataBuf.contents.length) :
    Sendable (passedOn ts k ids[k] tunnelTpb dataBuf sendCount) ids := by
  refine ⟨h.count, h.position, h.nodup, h.lt, fun j hj => ?_, .inr ⟨k, hk, rfl, ?_⟩⟩
  · by_cases he : j = ids[k]
    · rw [he, cells_passedOn]
      exact hsize
    · rw [cells_passedOn_of_ne he]
      exact h.size j hj
  · rw [unsent, cells_passedOn]
    exact hle

/-- A chunk is passed on, and what was returned leaves the client's buffer. -/
theorem sendChunkBy (h : Sendable ts ids) {encapsulate : Encapsulator} {I : TPBuffer → Prop}
    (hreturns : encapsulate.ReturnsAtMost I) (hI : I ts.tunnelTpb) {k : ℕ} (hk : k < ids.length)
    (horder : ts.sendOrder = (k : ℕ)) (hle : ts.sendCount ≤ (unsent ts ids[k]).length)
    (hsome : ts.sendCount = 0 → unsent ts ids[k] ≠ []) :
    ∃ c again ts', Lab34.sendChunkBy encapsulate ts = some (some c, again, ts') ∧
      PassesOn encapsulate (outgoing ts) ids[k] c (outgoing ts') ∧ Sendable ts' ids ∧
      I ts'.tunnelTpb ∧ (again = true ↔ ts'.sendCount = 0) := by
  have hid := List.getElem_mem hk
  have hlt := h.lt _ hid
  obtain ⟨c, hc, hchunk, hpos, hcle⟩ := chunk_spec hle hsome
  obtain ⟨n, tpb, hcall, hn, hI'⟩ :=
    hreturns ts.tunnelTpb ((unsent ts ids[k]).take c) ids[k] hI
  have hlength : ((unsent ts ids[k]).take c).length = c := by
    rw [List.length_take, unsent, CyclicBuffer.length_contents, Nat.min_eq_left hcle]
  have hsize : 0 < (ts.clientBuffers.cells ids[k]).cbShift.size := by
    rw [CyclicBuffer.size_cbShift]
    exact h.size _ hid
  obtain ⟨dataBuf, hskip, hdrop, hbsize⟩ := CyclicBuffer.cbSkip_spec hsize n
  rw [CyclicBuffer.contents_cbShift] at hdrop
  refine ⟨⟨ids[k], (unsent ts ids[k]).take c, n⟩, decide (c - n = 0),
    Lab34.passedOn ts k ids[k] tpb dataBuf (c - n), ?_, ?_, ?_, hI', decide_eq_true_iff⟩
  · have hdata : (ts.clientBuffers.cells ids[k]).cbShift.cbData c =
        some ((unsent ts ids[k]).take c) := CyclicBuffer.cbData_cbShift _ hcle
    have hsub : checkedSub c n = some (c - n) := checkedSub_of_le (hn.trans_eq hlength)
    simp only [Lab34.sendChunkBy, horder, ts.idTable.load_of_lt (hk.trans_le h.length_le),
      h.position k hk, ts.clientBuffers.load_of_lt hlt, hc, if_neg hpos.ne', hdata, hcall, hsub,
      hskip, CArray.store_of_lt _ _ hlt, Option.bind_eq_bind, Option.bind_some]
    rw [Lab34.passedOn, ← horder]
  · refine ⟨rfl, ?_, ?_, hcall, hn, ?_, unsent_passedOn hdrop⟩
    · rw [outgoing, hchunk]
    · exact List.length_pos_iff.mp (hlength.symm ▸ hpos)
    · rw [hlength]
      rfl
  · apply h.passedOn hk
    · exact hbsize.symm ▸ hsize
    · rw [hdrop, List.length_drop, CyclicBuffer.length_contents]
      exact Nat.sub_le_sub_right hcle n

/-- An iteration finds all the buffers empty or passes a chunk on, and the rest of a chunk
first. -/
theorem sendOnceBy (h : Sendable ts ids) {encapsulate : Encapsulator} {I : TPBuffer → Prop}
    (hreturns : encapsulate.ReturnsAtMost I) (hI : I ts.tunnelTpb) :
    ∃ call again ts', Lab34.sendOnceBy encapsulate ts = some (call, again, ts') ∧
      Sendable ts' ids ∧ I ts'.tunnelTpb ∧
      (call = none ∧ again = false ∧ outgoing ts' = outgoing ts ∧ ts.sendCount = 0 ∧
          (∀ id ∈ ids, unsent ts id = []) ∨
        ∃ id ∈ ids, ∃ c, call = some c ∧ PassesOn encapsulate (outgoing ts) id c (outgoing ts') ∧
          (again = true ↔ ts'.sendCount = 0) ∧
          (ts.sendCount ≠ 0 → ts.idTable.load ts.sendOrder = some c.id)) := by
  rw [Lab34.sendOnceBy]
  by_cases hchoose : ts.sendOrder = noOrder ∨ ts.sendCount = 0
  · have hzero : ts.sendCount = 0 := by
      rcases h.chunk with hzero | ⟨k, -, horder, -⟩
      · exact hzero
      · exact hchoose.resolve_left fun hnone => natCast_ne_noOrder k (horder.symm.trans hnone)
    rw [if_pos hchoose]
    by_cases hcount : ts.clientCount = 0
    · refine ⟨none, false, { ts with sendOrder := noOrder }, ?_, h.chosen hzero noOrder, hI,
        .inl ⟨rfl, rfl, rfl, hzero, fun id hid => ?_⟩⟩
      · simp only [nextMessageClient, hcount, if_true, Option.bind_eq_bind, Option.bind_some]
      · have := List.length_pos_of_mem hid
        have := h.count
        omega
    obtain ⟨order, hnext, hnone, hfirst⟩ := h.searchable.nextMessageClient_any
      (Nat.pos_of_ne_zero hcount) ts.sendOrder
    simp only [hnext, Option.bind_eq_bind, Option.bind_some]
    by_cases hne : order = noOrder
    · rw [if_pos hne]
      refine ⟨none, false, { ts with sendOrder := order }, rfl, h.chosen hzero order, hI,
        .inl ⟨rfl, rfl, rfl, hzero, fun id hid => ?_⟩⟩
      obtain ⟨k, hk, rfl⟩ := List.mem_iff_getElem.mp hid
      exact (h.emptyAt_eq_true hk).mp (hnone.mp hne k (h.count ▸ hk))
    · rw [if_neg hne]
      obtain ⟨k, hk, rfl, hready⟩ := hfirst hne
      rw [h.count] at hk
      obtain ⟨c, again, ts', hsend, hpass, hsendable, hI', hagain⟩ :=
        (h.chosen hzero (k : ℕ)).sendChunkBy hreturns hI hk rfl (hzero ▸ Nat.zero_le _)
          fun _ hnil => by
            rw [(h.emptyAt_eq_true hk).mpr hnil] at hready
            cases hready
      exact ⟨_, again, ts', hsend, hsendable, hI', .inr ⟨ids[k], List.getElem_mem hk, c, rfl,
        hpass, hagain, fun hpending => absurd hzero hpending⟩⟩
  · rw [if_neg hchoose]
    push Not at hchoose
    obtain ⟨k, hk, horder, hle⟩ := h.chunk.resolve_left hchoose.2
    obtain ⟨c, again, ts', hsend, hpass, hsendable, hI', hagain⟩ :=
      h.sendChunkBy hreturns hI hk horder hle fun hzero => absurd hzero hchoose.2
    refine ⟨_, again, ts', hsend, hsendable, hI',
      .inr ⟨ids[k], List.getElem_mem hk, c, rfl, hpass, hagain, fun _ => ?_⟩⟩
    rw [horder, ts.idTable.load_of_lt (hk.trans_le h.length_le), h.position k hk, hpass.id_eq]

end Sendable

/-! ### The loop -/

/-- What the loop leaves: each call was given a chunk of a client, the rest of a chunk that
was pending first, each client's buffer lost as many bytes at its front as were returned
for it, the pending chunk is consistent, and nothing is left to send unless the last call
returned less than it was given. -/
structure Filled (encapsulate : ℕ → Encapsulator) (number : ℕ) (before after : TunnelServer)
    (ids : List ℕ) (calls : List LoggedCall) : Prop where
  sendable : Sendable after ids
  made : CallsMade encapsulate ids number (outgoing before) calls (outgoing after)
  first : before.sendCount ≠ 0 →
    ∃ c, calls.head? = some c ∧ before.idTable.load before.sendOrder = some c.id
  le : ∀ id, returnedFor id calls ≤ (unsent before id).length
  taken : ∀ id, unsent after id = (unsent before id).drop (returnedFor id calls)
  ended : (∀ id ∈ ids, unsent after id = []) ∧ after.sendCount = 0 ∨
    ∃ c, calls.getLast? = some c ∧ c.returned < c.data.length ∧
      after.sendCount = c.data.length - c.returned

namespace Filled

variable {encapsulate : ℕ → Encapsulator} {number : ℕ} {before middle after : TunnelServer}
  {ids : List ℕ} {calls : List LoggedCall}

theorem nil (h : Sendable after ids) (hsame : outgoing after = outgoing before)
    (hzero : before.sendCount = 0) (hempty : ∀ id ∈ ids, unsent before id = []) :
    Filled encapsulate number before after ids [] := by
  have hunsent : unsent after = unsent before := congrArg Outgoing.left hsame
  have hcount : after.sendCount = before.sendCount := congrArg Outgoing.pending hsame
  refine ⟨h, hsame, fun hpending => absurd hzero hpending, fun _ => Nat.zero_le _,
    fun id => congrFun hunsent id, .inl ⟨fun id hid => ?_, hcount.trans hzero⟩⟩
  rw [hunsent, hempty id hid]

theorem single (h : Sendable after ids) {id : ℕ} (hid : id ∈ ids) {c : LoggedCall}
    (hpass : PassesOn (encapsulate number) (outgoing before) id c (outgoing after))
    (hfirst : before.sendCount ≠ 0 → before.idTable.load before.sendOrder = some c.id)
    (hrest : after.sendCount ≠ 0) : Filled encapsulate number before after ids [c] := by
  have hmade : CallsMade encapsulate ids number (outgoing before) [c] (outgoing after) :=
    ⟨id, hid, _, hpass, fun hne => absurd rfl hne, rfl⟩
  have hpending : after.sendCount = c.data.length - c.returned := hpass.pending
  exact ⟨h, hmade, fun hne => ⟨c, rfl, hfirst hne⟩, fun j => (hmade.left j).1,
    fun j => (hmade.left j).2, .inr ⟨c, rfl, by omega, hpending⟩⟩

/-- A call that leaves nothing of its chunk, and the iterations after it. -/
theorem cons {id : ℕ} (hid : id ∈ ids) {c : LoggedCall}
    (hpass : PassesOn (encapsulate number) (outgoing before) id c (outgoing middle))
    (hfirst : before.sendCount ≠ 0 → before.idTable.load before.sendOrder = some c.id)
    (hnone : middle.sendCount = 0)
    (h : Filled encapsulate (number + 1) middle after ids calls) :
    Filled encapsulate number before after ids (c :: calls) := by
  have hmade : CallsMade encapsulate ids number (outgoing before) (c :: calls) (outgoing after) :=
    ⟨id, hid, _, hpass, fun _ => hnone, h.made⟩
  refine ⟨h.sendable, hmade, fun hne => ⟨c, rfl, hfirst hne⟩, fun j => (hmade.left j).1,
    fun j => (hmade.left j).2, h.ended.imp_right ?_⟩
  rintro ⟨last, hlast, hended⟩
  refine ⟨last, ?_, hended⟩
  rw [List.getLast?_cons, hlast, Option.getD_some]

end Filled

/-- A call that leaves nothing of its chunk leaves fewer bytes in the buffers. -/
theorem buffered_lt {encapsulate : Encapsulator} {before after : TunnelServer} {ids : List ℕ}
    {id : ℕ} (hid : id ∈ ids) {c : LoggedCall}
    (hpass : PassesOn encapsulate (outgoing before) id c (outgoing after))
    (hnone : after.sendCount = 0) : buffered after ids < buffered before ids := by
  apply List.sum_lt_sum
  · intro j _
    exact (hpass.length_left j).trans_le (Nat.sub_le _ _)
  · exact ⟨id, hid, hpass.left_lt hnone⟩

theorem Sendable.fillLoop_spec {ts : TunnelServer} {ids : List ℕ} (h : Sendable ts ids)
    {encapsulate : ℕ → Encapsulator} {I : TPBuffer → Prop}
    (hreturns : ∀ number, (encapsulate number).ReturnsAtMost I) (hI : I ts.tunnelTpb)
    (number : ℕ) :
    ∃ calls ts', (∀ fuel, buffered ts ids < fuel →
        fillLoop encapsulate fuel number ts = some (calls, ts')) ∧
      Filled encapsulate number ts ts' ids calls := by
  induction hbytes : buffered ts ids using Nat.strong_induction_on generalizing ts number with
  | _ bytes ih =>
      subst hbytes
      obtain ⟨call, again, ts₁, honce, h₁, hI₁, hcases⟩ := h.sendOnceBy (hreturns number) hI
      rcases hcases with ⟨rfl, rfl, hsame, hzero, hempty⟩ | ⟨id, hid, c, rfl, hpass, hagain, hfirst⟩
      · refine ⟨[], ts₁, fun fuel hfuel => ?_, .nil h₁ hsame hzero hempty⟩
        obtain ⟨fuel, rfl⟩ := Nat.exists_eq_succ_of_ne_zero (Nat.ne_zero_of_lt hfuel)
        simp only [fillLoop, honce, Option.bind_eq_bind, Option.bind_some, Bool.false_eq_true,
          if_false, Option.toList_none]
      cases again with
      | false =>
          have hrest : ts₁.sendCount ≠ 0 := fun hnone => by cases hagain.mpr hnone
          refine ⟨[c], ts₁, fun fuel hfuel => ?_, .single h₁ hid hpass hfirst hrest⟩
          obtain ⟨fuel, rfl⟩ := Nat.exists_eq_succ_of_ne_zero (Nat.ne_zero_of_lt hfuel)
          simp only [fillLoop, honce, Option.bind_eq_bind, Option.bind_some, Bool.false_eq_true,
            if_false, Option.toList_some]
      | true =>
          have hnone := hagain.mp rfl
          have hless := buffered_lt hid hpass hnone
          obtain ⟨calls, ts', hloop, hfilled⟩ := ih _ hless h₁ hI₁ (number + 1) rfl
          refine ⟨c :: calls, ts', fun fuel hfuel => ?_, hfilled.cons hid hpass hfirst hnone⟩
          obtain ⟨fuel, rfl⟩ := Nat.exists_eq_succ_of_ne_zero (Nat.ne_zero_of_lt hfuel)
          simp only [fillLoop, honce, hloop fuel (by omega), Option.bind_eq_bind,
            Option.bind_some, if_true, Option.toList_some, List.singleton_append]

/-- The loop of `fill_message` terminates, whatever `tpb_encapsulate` does within the
length it is given. -/
theorem fillLoop_terminates {encapsulate : ℕ → Encapsulator} {I : TPBuffer → Prop}
    (hreturns : ∀ number, (encapsulate number).ReturnsAtMost I) {ts : TunnelServer} {ids : List ℕ}
    (h : Sendable ts ids) (hI : I ts.tunnelTpb) (number : ℕ) :
    ∃ calls ts', (∀ fuel, buffered ts ids < fuel →
        fillLoop encapsulate fuel number ts = some (calls, ts')) ∧
      Filled encapsulate number ts ts' ids calls :=
  h.fillLoop_spec hreturns hI number

theorem sendable_crowded : Sendable crowded (List.range 7) where
  count := by decide
  position := fun k hk => by
    rw [List.getElem_range]
    rfl
  nodup := List.nodup_range
  lt := by decide
  size := by decide
  chunk := .inl (by decide)

theorem fillLoop_terminates_crowded :
    (∀ _number : ℕ, Encapsulator.ReturnsAtMost (fun tpb data _ => some (data.length, tpb))
        fun _ => True) ∧
      Sendable crowded (List.range 7) ∧
      ∃ calls ts', (∀ fuel, buffered crowded (List.range 7) < fuel →
          fillLoop (fun _ tpb data _ => some (data.length, tpb)) fuel 0 crowded =
            some (calls, ts')) ∧
        Filled (fun _ tpb data _ => some (data.length, tpb)) 0 crowded ts' (List.range 7)
          calls := by
  have hreturns : ∀ _number : ℕ, Encapsulator.ReturnsAtMost
      (fun tpb data _ => some (data.length, tpb)) fun _ => True :=
    fun _ tpb data _ _ => ⟨_, tpb, rfl, le_rfl, trivial⟩
  exact ⟨hreturns, sendable_crowded, fillLoop_terminates hreturns sendable_crowded trivial 0⟩

/-! ### The steps of `main_loop` -/

def tpbEncapsulator (answers : ℕ → Answers) : ℕ → Encapsulator :=
  fun number tpb data id => tpb.tpbEncapsulate data id (answers number).messageLength

/-- The loop is made of the steps of `main_loop` at this place. -/
theorem run_senderStep_fillLoop {answers : ℕ → Answers} {fuel number : ℕ} {ts ts' : TunnelServer}
    {calls : List LoggedCall}
    (h : fillLoop (tpbEncapsulator answers) fuel number ts = some (calls, ts')) :
    ∃ n ≤ fuel, run (fun s answers => (senderStep s answers).map Prod.snd) ⟨ts, .send⟩
      ((List.range' number n).map answers) = some ⟨ts', .tunnel⟩ := by
  induction fuel generalizing number ts calls with
  | zero => cases h
  | succ fuel ih =>
      rw [fillLoop] at h
      obtain ⟨⟨call, again, ts₁⟩, honce, h⟩ := Option.bind_eq_some_iff.mp h
      have hstep : (senderStep ⟨ts, .send⟩ (answers number)).map Prod.snd =
          some ⟨ts₁, if again then .send else .tunnel⟩ := by
        simp only [senderStep, sendOnce_of_sendOnceBy honce, Option.bind_eq_bind,
          Option.bind_some, Option.map_some]
      cases again with
      | false =>
          cases h
          refine ⟨1, Nat.succ_le_succ (Nat.zero_le fuel), ?_⟩
          rw [List.range'_one, List.map_singleton, run_cons, hstep]
          rfl
      | true =>
          obtain ⟨⟨rest, ts₂⟩, hrest, h⟩ := Option.bind_eq_some_iff.mp h
          cases h
          obtain ⟨n, hn, hrun⟩ := ih hrest
          refine ⟨n + 1, Nat.succ_le_succ hn, ?_⟩
          rw [List.range'_succ, List.map_cons, run_cons, hstep]
          exact hrun

/-- With the source's own `tpb_encapsulate`, whatever `message_length` yields: `main_loop`
comes from the loop to the end of `perform_protocol_io`. -/
theorem run_send_reaches_tunnel {ts : TunnelServer} {ids : List ℕ} (h : Sendable ts ids)
    (hsize : 0 < ts.tunnelTpb.buffer.size) (answers : ℕ → Answers) :
    ∃ n ≤ buffered ts ids + 1, ∃ calls ts',
      run (fun s answers => (senderStep s answers).map Prod.snd) ⟨ts, .send⟩
        ((List.range n).map answers) = some ⟨ts', .tunnel⟩ ∧
      Filled (tpbEncapsulator answers) 0 ts ts' ids calls := by
  obtain ⟨calls, ts', hloop, hfilled⟩ :=
    h.fillLoop_spec (fun _ => returnsAtMost_tpbEncapsulate _) hsize 0
  obtain ⟨n, hn, hrun⟩ := run_senderStep_fillLoop (hloop _ (Nat.lt_succ_self _))
  rw [← List.range_eq_range'] at hrun
  exact ⟨n, hn, calls, ts', hrun, hfilled⟩

end UnixLabs.Lab34
