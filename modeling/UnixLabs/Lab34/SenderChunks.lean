import UnixLabs.Lab34.SenderSteps
import UnixLabs.Lab34.SenderFrames

/-!
Whose buffer `fill_message` sends a chunk from.

`send_order` is a position, and it is kept while a chunk is half sent. Removals move
the last entry of `id_table` to another position, and adds fill the freed ones. A
chunk stays with its client as long as clients are released only at their own
positions, and none while a chunk of the client at the last position is half sent.
-/

namespace UnixLabs.Lab34

open Library

/-! ### The call of `tpb_encapsulate` -/

/-- What `fill_message` passes to `tpb_encapsulate`, and the position it took the
buffer from. -/
structure EncapsulateCall where
  order : ℤ
  count : ℕ
  id : ℤ

def chunkCall (ts : TunnelServer) : Option (Option EncapsulateCall) := do
  let id ← ts.idTable.load ts.sendOrder
  let dataBuf ← ts.clientBuffers.load id
  let sendCount := if ts.sendCount = 0 then dataBuf.count else ts.sendCount
  some (if sendCount = 0 then none else some ⟨ts.sendOrder, sendCount, id⟩)

def encapsulateCall (ts : TunnelServer) : Option (Option EncapsulateCall) :=
  if ts.sendOrder = noOrder ∨ ts.sendCount = 0 then do
    let sendOrder ← nextMessageClient ts ts.sendOrder
    if sendOrder = noOrder then some none else chunkCall { ts with sendOrder }
  else chunkCall ts

def passOn (ts : TunnelServer) (call : EncapsulateCall) (messageLength : ℕ → ℕ) :
    Option (Option (ℤ × List CChar) × Bool × TunnelServer) := do
  let dataBuf ← ts.clientBuffers.load call.id
  let dataBuf := dataBuf.cbShift
  let data ← dataBuf.cbData call.count
  let (count, tunnelTpb) ← ts.tunnelTpb.tpbEncapsulate data call.id messageLength
  let dataBuf ← dataBuf.cbSkip count
  let clientBuffers ← ts.clientBuffers.store call.id dataBuf
  some (some (call.id, data.take count), call.count - count = 0,
    { ts with tunnelTpb, clientBuffers, sendCount := call.count - count })

theorem sendChunk_eq (ts : TunnelServer) (messageLength : ℕ → ℕ) :
    sendChunk ts messageLength = (chunkCall ts).bind fun
      | none => some (none, false, { ts with sendCount := 0 })
      | some call => passOn ts call messageLength := by
  simp only [sendChunk, chunkCall, Option.bind_eq_bind]
  cases hid : ts.idTable.load ts.sendOrder with
  | none => rfl
  | some id =>
      simp only [Option.bind_some]
      cases hbuffer : ts.clientBuffers.load id with
      | none => rfl
      | some dataBuf =>
          simp only [Option.bind_some]
          obtain ⟨c, hc⟩ : ∃ c, (if ts.sendCount = 0 then dataBuf.count else ts.sendCount) = c :=
            ⟨_, rfl⟩
          rw [hc]
          by_cases hzero : c = 0
          · subst hzero
            rfl
          · simp only [if_neg hzero, passOn, hbuffer, Option.bind_eq_bind, Option.bind_some]

/-! ### The chunk and its client -/

structure SameChunk (before after : TunnelServer) : Prop where
  order : after.sendOrder = before.sendOrder
  count : after.sendCount = before.sendCount

/-- Only `fill_message` chooses a position and counts down a chunk. -/
theorem senderStep_chunk {s s' : Sender} {answers : Answers} {happening : Option Happening}
    (hplace : s.place ≠ .send) (h : senderStep s answers = some (happening, s')) :
    SameChunk s.ts s'.ts := by
  refine senderStep_rel h (fun _ => ⟨rfl, rfl⟩) (fun _ _ => ⟨rfl, rfl⟩) ?_ ?_ ?_ ?_ ?_ ?_
  · intro ts ts' fd clientJunk tunnelJunk id hadd
    obtain ⟨server, -, ⟨-, rfl⟩ | ⟨-, _, _, _, _, -, rfl⟩⟩ := tsAddClient_cases hadd
    · exact ⟨rfl, rfl⟩
    · exact ⟨rfl, rfl⟩
  · intro ts ts' i processed input received processed' hio
    obtain ⟨id, ioable, -, -, -, ⟨-, -, rfl⟩ | ⟨-, _, rfl | hremove⟩⟩ := performClientIoAt_cases hio
    · exact ⟨rfl, rfl⟩
    · exact ⟨rfl, rfl⟩
    · obtain ⟨_, _, _, -, rfl⟩ := tsRemoveClient_cases hremove
      exact ⟨rfl, rfl⟩
  · intro ts ts' i turn hiter
    obtain ⟨_, rfl | ⟨_, _, hremove⟩⟩ := processEmptyRemovedAt_cases hiter
    · exact ⟨rfl, rfl⟩
    · obtain ⟨_, _, _, _, _, -, rfl⟩ := tsActualRemove_cases hremove
      exact ⟨rfl, rfl⟩
  · intro ts ts' turn honce
    obtain ⟨_, _, rfl⟩ := processAddedOnce_cases honce
    exact ⟨rfl, rfl⟩
  · exact fun _ _ _ _ _ hsend => absurd hsend hplace
  · intro ts ts' written honce
    obtain ⟨_, _, _, -, rfl⟩ := tunnelOnce_cases honce
    exact ⟨rfl, rfl⟩

/-- What a call must be: with the id at a position in use, of an active client whose
buffer is allocated and holds the chunk, and with the client the chunk was begun
for. -/
structure EncapsulateCall.Right (call : EncapsulateCall) (ts : TunnelServer) (owner : Option ℕ)
    (k id : ℕ) : Prop where
  order_eq : call.order = k
  order_lt : k < ts.clientCount
  id_eq : call.id = id
  listed : ts.idTable.cells k = id
  active : Active ts.server id
  size_ne : (ts.clientBuffers.cells id).size ≠ 0
  count_le : call.count ≤ (ts.clientBuffers.cells id).count
  same : ts.sendCount ≠ 0 → owner = some id

/-- The half-sent chunk is at a position in use, of the client it was begun for. -/
def HalfSent (ts : TunnelServer) (ids : List ℕ) (owner : Option ℕ) : Prop :=
  ts.sendCount ≠ 0 → ∃ k, ∃ hk : k < ids.length, ts.sendOrder = (k : ℕ) ∧ owner = some ids[k]

/-- Whose chunk is half sent after a step: that of the client whose bytes the step
consumed first. -/
def chunkOwner (before after : TunnelServer) (owner : Option ℕ) : Option Happening → Option ℕ
  | some (.consumed id _) =>
      if after.sendCount = 0 then none else if before.sendCount = 0 then some id else owner
  | _ => owner

structure ChunkWorld where
  sender : Sender
  owner : Option ℕ

namespace ChunkWorld

def start (listenFd tunnelFd : ℤ) (tpbJunk queueJunk : ℕ → CChar) : ChunkWorld :=
  ⟨Sender.start listenFd tunnelFd tpbJunk queueJunk, none⟩

def step (w : ChunkWorld) (answers : Answers) : Option ChunkWorld :=
  (senderStep w.sender answers).map fun (happening, sender) =>
    ⟨sender, chunkOwner w.sender.ts sender.ts w.owner happening⟩

def Right (w : ChunkWorld) : Prop :=
  w.sender.place = .send → ∃ next, encapsulateCall w.sender.ts = some next ∧
    ∀ call, next = some call → ∃ k id, call.Right w.sender.ts w.owner k id

def InOrder (w : ChunkWorld) : Prop :=
  ∃ ids, Steady w.sender.ts ids ∧ HalfSent w.sender.ts ids w.owner

theorem InOrder.start (listenFd tunnelFd : ℤ) (tpbJunk queueJunk : ℕ → CChar) :
    (ChunkWorld.start listenFd tunnelFd tpbJunk queueJunk).InOrder :=
  ⟨[], Steady.built listenFd tunnelFd tpbJunk queueJunk, fun hne => absurd rfl hne⟩

end ChunkWorld

/-! ### The next call -/

namespace Steady

variable {ts : TunnelServer} {ids : List ℕ} {owner : Option ℕ}

/-- The bytes of the half-sent chunk are in the buffer of its client. -/
theorem halfSent_count (h : Steady ts ids) (hhalf : HalfSent ts ids owner)
    (hne : ts.sendCount ≠ 0) :
    ∃ k, ∃ hk : k < ids.length, ts.sendOrder = (k : ℕ) ∧ owner = some ids[k] ∧
      ts.sendCount ≤ (ts.clientBuffers.cells ids[k]).count := by
  obtain ⟨k, hk, horder, howner⟩ := hhalf hne
  obtain ⟨k', -, id, -, horder', hcell, hle⟩ := h.chunk hne
  obtain rfl : k = k' := by exact_mod_cast horder.symm.trans horder'
  obtain rfl : ids[k] = id := by exact_mod_cast (h.positions.position k hk).symm.trans hcell
  exact ⟨k, hk, horder, howner, hle⟩

theorem chunkCall_spec (h : Steady ts ids) {k : ℕ} (hk : k < ids.length)
    (horder : ts.sendOrder = (k : ℕ))
    (hle : ts.sendCount ≤ (ts.clientBuffers.cells ids[k]).count) :
    ∃ next, chunkCall ts = some next ∧ ∀ call, next = some call →
      call.order = (k : ℕ) ∧ call.id = (ids[k] : ℤ) ∧
        call.count ≤ (ts.clientBuffers.cells ids[k]).count := by
  have hlt := h.positions.id_lt hk
  simp only [chunkCall, horder, h.positions.load_idTable hk, ts.clientBuffers.load_of_lt hlt,
    Option.bind_eq_bind, Option.bind_some]
  refine ⟨_, rfl, fun call hcall => ?_⟩
  split_ifs at hcall with hzero hnone
  all_goals cases hcall
  · exact ⟨rfl, rfl, le_rfl⟩
  · exact ⟨rfl, rfl, hle⟩

theorem right_of_spec (h : Steady ts ids) {k : ℕ} (hk : k < ids.length) {call : EncapsulateCall}
    (hcall : call.order = (k : ℕ) ∧ call.id = (ids[k] : ℤ) ∧
      call.count ≤ (ts.clientBuffers.cells ids[k]).count)
    (hsame : ts.sendCount ≠ 0 → owner = some ids[k]) : call.Right ts owner k ids[k] where
  order_eq := hcall.1
  order_lt := h.positions.count.symm ▸ hk
  id_eq := hcall.2.1
  listed := h.positions.position k hk
  active := h.positions.tables.active_iff.mpr (List.getElem_mem hk)
  size_ne := (h.clientSize _ (List.getElem_mem hk)).ne'
  count_le := hcall.2.2
  same := hsame

theorem encapsulateCall_right (h : Steady ts ids) (hhalf : HalfSent ts ids owner) :
    ∃ next, encapsulateCall ts = some next ∧
      ∀ call, next = some call → ∃ k id, call.Right ts owner k id := by
  unfold encapsulateCall
  by_cases hchoose : ts.sendOrder = noOrder ∨ ts.sendCount = 0
  · rw [if_pos hchoose]
    have hzero := h.sendCount_eq_zero hchoose
    obtain ⟨order, hnext, hcases⟩ := h.nextMessageClient ts.sendOrder
    simp only [hnext, Option.bind_eq_bind, Option.bind_some]
    rcases hcases with rfl | ⟨k, hk, rfl⟩
    · exact ⟨none, if_pos rfl, nofun⟩
    · rw [if_neg (by unfold noOrder; omega)]
      have hle : ts.sendCount ≤ (ts.clientBuffers.cells ids[k]).count := hzero ▸ Nat.zero_le _
      obtain ⟨next, hcall, hspec⟩ := (h.chosen hzero (k : ℕ)).chunkCall_spec hk rfl hle
      exact ⟨next, hcall, fun call hsome =>
        ⟨k, ids[k], h.right_of_spec hk (hspec call hsome) fun hne => absurd hzero hne⟩⟩
  · rw [if_neg hchoose]
    push Not at hchoose
    obtain ⟨k, hk, horder, howner, hle⟩ := h.halfSent_count hhalf hchoose.2
    obtain ⟨next, hcall, hspec⟩ := h.chunkCall_spec hk horder hle
    exact ⟨next, hcall, fun call hsome =>
      ⟨k, ids[k], h.right_of_spec hk (hspec call hsome) fun _ => howner⟩⟩

end Steady

theorem ChunkWorld.InOrder.right {w : ChunkWorld} (h : w.InOrder) : w.Right :=
  have ⟨_, hsteady, hhalf⟩ := h
  fun _ => hsteady.encapsulateCall_right hhalf

/-! ### One step -/

theorem passOn_eq_some {ts ts' : TunnelServer} {call : EncapsulateCall} {messageLength : ℕ → ℕ}
    {consumed : Option (ℤ × List CChar)} {again : Bool}
    (h : passOn ts call messageLength = some (consumed, again, ts')) :
    ts'.sendOrder = ts.sendOrder ∧ ∃ bytes, consumed = some (call.id, bytes) := by
  simp only [passOn, Option.bind_eq_bind, Option.bind_eq_some_iff] at h
  obtain ⟨dataBuf, -, data, -, ⟨count, tunnelTpb⟩, -, dataBuf', -, clientBuffers, -, h⟩ := h
  cases h
  exact ⟨rfl, _, rfl⟩

namespace HalfSent

variable {ts ts' : TunnelServer} {ids : List ℕ} {owner : Option ℕ}

/-- A chunk that is begun, or goes on, is the one of the client it is taken from. -/
theorem sendChunk (h : Steady ts ids) {k : ℕ} (hk : k < ids.length)
    (horder : ts.sendOrder = (k : ℕ))
    (hle : ts.sendCount ≤ (ts.clientBuffers.cells ids[k]).count)
    (hsame : ts.sendCount ≠ 0 → owner = some ids[k]) {messageLength : ℕ → ℕ}
    {consumed : Option (ℤ × List CChar)} {again : Bool}
    (hsend : Lab34.sendChunk ts messageLength = some (consumed, again, ts')) :
    HalfSent ts' ids (chunkOwner ts ts' owner
      (consumed.map fun (id, bytes) => .consumed id.toNat bytes)) := by
  obtain ⟨next, hcall, hspec⟩ := h.chunkCall_spec hk horder hle
  rw [sendChunk_eq, hcall, Option.bind_some] at hsend
  cases next with
  | none =>
      cases hsend
      exact fun hne => absurd rfl hne
  | some call =>
      obtain ⟨-, hid, -⟩ := hspec call rfl
      obtain ⟨hkept, bytes, rfl⟩ := passOn_eq_some hsend
      intro hne
      refine ⟨k, hk, hkept.trans horder, ?_⟩
      simp only [Option.map_some, chunkOwner, if_neg hne, hid, Int.toNat_natCast]
      by_cases hbegun : ts.sendCount = 0
      · rw [if_pos hbegun]
      · rw [if_neg hbegun]
        exact hsame hbegun

theorem sendOnce (h : Steady ts ids) (hhalf : HalfSent ts ids owner) {messageLength : ℕ → ℕ}
    {consumed : Option (ℤ × List CChar)} {again : Bool}
    (hsend : Lab34.sendOnce ts messageLength = some (consumed, again, ts')) :
    HalfSent ts' ids (chunkOwner ts ts' owner
      (consumed.map fun (id, bytes) => .consumed id.toNat bytes)) := by
  unfold Lab34.sendOnce at hsend
  by_cases hchoose : ts.sendOrder = noOrder ∨ ts.sendCount = 0
  · rw [if_pos hchoose] at hsend
    have hzero := h.sendCount_eq_zero hchoose
    obtain ⟨order, hnext, hcases⟩ := h.nextMessageClient ts.sendOrder
    simp only [hnext, Option.bind_eq_bind, Option.bind_some] at hsend
    rcases hcases with rfl | ⟨k, hk, rfl⟩
    · cases hsend
      exact fun hne => absurd hzero hne
    · rw [if_neg (by unfold noOrder; omega)] at hsend
      exact sendChunk (h.chosen hzero (k : ℕ)) hk rfl (hzero ▸ Nat.zero_le _)
        (fun hne => absurd hzero hne) hsend
  · rw [if_neg hchoose] at hsend
    push Not at hchoose
    obtain ⟨k, hk, horder, howner, hle⟩ := h.halfSent_count hhalf hchoose.2
    exact sendChunk h hk horder hle (fun _ => howner) hsend

theorem append (hhalf : HalfSent ts ids owner) (hsame : SameChunk ts ts') (new : List ℕ) :
    HalfSent ts' (ids ++ new) owner := by
  intro hne
  rw [hsame.count] at hne
  obtain ⟨k, hk, horder, howner⟩ := hhalf hne
  refine ⟨k, by rw [List.length_append]; omega, hsame.order.trans horder, ?_⟩
  rw [List.getElem_append_left hk, howner]

theorem congr (hhalf : HalfSent ts ids owner) (hsame : SameChunk ts ts') :
    HalfSent ts' ids owner := by
  simpa only [List.append_nil] using hhalf.append hsame []

/-- The client that is released has no chunk, and the last client, who takes over
the position, has none either. -/
theorem released (h : Steady ts ids) (hhalf : HalfSent ts ids owner) {i : ℕ} (hi : i < ids.length)
    (hempty : (ts.clientBuffers.cells ids[i]).cbEmpty = true)
    (hlast : ¬(ts.sendCount ≠ 0 ∧ ts.sendOrder + 1 = ts.clientCount)) (hsame : SameChunk ts ts') :
    HalfSent ts' (swapRemove ids i) owner := by
  intro hne
  rw [hsame.count] at hne
  obtain ⟨k, hk, horder, howner, hle⟩ := h.halfSent_count hhalf hne
  have hki : k ≠ i := by
    rintro rfl
    have hnil := CyclicBuffer.cbEmpty_iff.mp hempty
    rw [← CyclicBuffer.length_contents, hnil, List.length_nil] at hle
    exact hne (Nat.le_zero.mp hle)
  have hkl : k + 1 ≠ ids.length := fun he =>
    hlast ⟨hne, by rw [horder, h.positions.count, ← he]; push_cast; rfl⟩
  refine ⟨k, by rw [length_swapRemove]; omega, hsame.order.trans horder, ?_⟩
  rw [getElem_swapRemove, if_neg hki, List.get_eq_getElem, howner]

end HalfSent

theorem Positions.unique {ts : TunnelServer} {ids ids' : List ℕ} (h : Positions ts ids)
    (h' : Positions ts ids') : ids = ids' := by
  refine List.ext_getElem (h.count.symm.trans h'.count) fun k hk hk' => ?_
  have hcell := (h.position k hk).symm.trans (h'.position k hk')
  exact_mod_cast hcell

/-- A step that is safe for the chunks: a client is released only at its own
position, and not while a chunk of the client at the last position is half sent. -/
def ChunkSafe (s : Sender) : Prop :=
  match s.place with
  | .emptyRemoved i => ∀ id, Releases s.ts i id →
      OwnPosition s.ts i id ∧ ¬(s.ts.sendCount ≠ 0 ∧ s.ts.sendOrder + 1 = s.ts.clientCount)
  | _ => True

instance : ∀ s : Sender, Decidable (ChunkSafe s)
  | ⟨ts, .emptyRemoved i⟩ =>
      inferInstanceAs (Decidable (∀ id, Releases ts i id →
        OwnPosition ts i id ∧ ¬(ts.sendCount ≠ 0 ∧ ts.sendOrder + 1 = ts.clientCount)))
  | ⟨_, .poll⟩ | ⟨_, .accept _⟩ | ⟨_, .clientIo _ _ _⟩ | ⟨_, .added⟩ | ⟨_, .send⟩ | ⟨_, .tunnel⟩
  | ⟨_, .stopped⟩ => isTrue trivial

namespace ChunkWorld.InOrder

variable {w : ChunkWorld} {ids : List ℕ}

/-- No chunk is remembered for a position that is not in use, so that every such step
is safe for the bytes too. -/
theorem stepSafe (hsteady : Steady w.sender.ts ids) (hhalf : HalfSent w.sender.ts ids w.owner)
    (answers : Answers) (hsafe : ChunkSafe w.sender) : StepSafe w.sender answers := by
  unfold StepSafe
  unfold ChunkSafe at hsafe
  split
  · rename_i i hplace
    simp only [hplace] at hsafe
    exact fun id hrel => (hsafe id hrel).1
  · rintro - - - ⟨hne, horder⟩
    obtain ⟨k, hk, horder', -⟩ := hhalf hne
    rw [horder', hsteady.positions.count] at horder
    omega
  · trivial

/-- A chunk is begun and goes on in an iteration of the loop of `fill_message`. -/
theorem sendStep (hsteady : Steady w.sender.ts ids) (hhalf : HalfSent w.sender.ts ids w.owner)
    (answers : Answers) (hplace : w.sender.place = .send) :
    ∃ w', ChunkWorld.step w answers = some w' ∧ w'.InOrder := by
  obtain ⟨consumed, again, ts', honce, hsteady', -⟩ := hsteady.sendOnce answers.messageLength
  simp only [ChunkWorld.step, senderStep, hplace, honce, Option.bind_eq_bind, Option.bind_some,
    Option.map_some]
  exact ⟨_, rfl, ids, hsteady', hhalf.sendOnce hsteady honce⟩

theorem otherStep (hsteady : Steady w.sender.ts ids) (hhalf : HalfSent w.sender.ts ids w.owner)
    {answers : Answers} (hsafe : ChunkSafe w.sender) (hplace : w.sender.place ≠ .send) :
    ∃ w', ChunkWorld.step w answers = some w' ∧ w'.InOrder := by
  obtain ⟨happening, s', ids', hstep, hsteady', heffect⟩ :=
    hsteady.step (stepSafe hsteady hhalf answers hsafe)
  have hsame := senderStep_chunk hplace hstep
  refine ⟨_, by rw [ChunkWorld.step, hstep]; rfl, ids', hsteady', ?_⟩
  cases heffect with
  | quiet => exact hhalf.congr hsame
  | accepted => exact hhalf.append hsame _
  | received => exact hhalf.congr hsame
  | consumed hold hbacklogs hqueue hsend => exact absurd hsend hplace
  | announced => exact hhalf.congr hsame
  | @released i id _ hemptied hrel =>
      simp only [ChunkSafe, hemptied] at hsafe
      obtain ⟨hown, hlast⟩ := hsafe id hrel
      obtain ⟨hi, rfl, hiter, hpositions⟩ := hsteady.positions.iterate_own hrel hown
      have hts : s'.ts = Positions.released (announced w.sender.ts ids[i])
          (Tables.removed w.sender.ts.server ids i hi) ids[i] ids[i] := by
        simp only [senderStep, hemptied, hiter, hsteady.positions.load_idTable hi,
          Option.bind_eq_bind, Option.bind_some] at hstep
        cases hstep
        rfl
      obtain rfl := hsteady'.positions.unique (hts ▸ hpositions)
      exact hhalf.released hsteady hi hrel.empty hlast hsame

theorem step (h : w.InOrder) {answers : Answers} (hsafe : ChunkSafe w.sender) :
    ∃ w', ChunkWorld.step w answers = some w' ∧ w'.InOrder := by
  obtain ⟨ids, hsteady, hhalf⟩ := h
  by_cases hplace : w.sender.place = .send
  · exact sendStep hsteady hhalf answers hplace
  · exact otherStep hsteady hhalf hsafe hplace

end ChunkWorld.InOrder

/-! ### Runs -/

/-- In every run of the main loop whose releases are safe for the chunks, every call
of `tpb_encapsulate` is right. -/
theorem chunks_run (listenFd tunnelFd : ℤ) (tpbJunk queueJunk : ℕ → CChar)
    (answers : List Answers)
    (hsafe : RunMeets (fun w _ => ChunkSafe w.sender) ChunkWorld.step
      (ChunkWorld.start listenFd tunnelFd tpbJunk queueJunk) answers) :
    RunKeeps ChunkWorld.Right ChunkWorld.step
      (ChunkWorld.start listenFd tunnelFd tpbJunk queueJunk) answers :=
  runKeeps_of_meets (fun _ h => h.right) (fun _ _ h hsafe => h.step hsafe)
    (ChunkWorld.InOrder.start listenFd tunnelFd tpbJunk queueJunk) hsafe

theorem chunks_run_visit :
    RunMeets (fun w _ => ChunkSafe w.sender) ChunkWorld.step
        (ChunkWorld.start 3 4 (fun _ => 0) (fun _ => 0)) Answers.visit ∧
      RunKeeps ChunkWorld.Right ChunkWorld.step
        (ChunkWorld.start 3 4 (fun _ => 0) (fun _ => 0)) Answers.visit := by
  have hsafe : RunMeets (fun w _ => ChunkSafe w.sender) ChunkWorld.step
      (ChunkWorld.start 3 4 (fun _ => 0) (fun _ => 0)) Answers.visit := by
    decide +kernel
  exact ⟨hsafe, chunks_run 3 4 (fun _ => 0) (fun _ => 0) Answers.visit hsafe⟩

/-- Clients 0 and 1 come and client 1 sends two frame ends. One of them is put on the
tunnel, and client 0 leaves while the chunk is half sent. The run ends before the
next call of `tpb_encapsulate`. -/
def Answers.leaving : List Answers :=
  [polls [pollListenerIndex], accepts 10] ++ List.replicate 7 quiet ++
  [polls [pollListenerIndex], accepts 11] ++ List.replicate 8 quiet ++
  [polls [3], quiet, quiet, reads [0x7E, 0x7E]] ++ List.replicate 7 quiet ++
  [polls [2], quiet, reads []] ++ List.replicate 5 quiet

/-- When client 0 leaves, client 1 moves to position 0, and its chunk is still looked
for at position 1. -/
theorem leaving_loses_chunk :
    ¬RunKeeps ChunkWorld.Right ChunkWorld.step (ChunkWorld.start 3 4 (fun _ => 0) (fun _ => 0))
      Answers.leaving := by
  intro h
  obtain ⟨w, hw, hright⟩ := h.last
  have hread : (run ChunkWorld.step (ChunkWorld.start 3 4 (fun _ => 0) (fun _ => 0))
      Answers.leaving).map (fun w => (decide (w.sender.place = .send), w.sender.ts.clientCount,
        (encapsulateCall w.sender.ts).map fun next => next.map EncapsulateCall.order)) =
      some (true, 1, some (some 1)) := by
    decide +kernel
  rw [hw, Option.map_some, Option.some_inj] at hread
  simp only [Prod.mk.injEq, decide_eq_true_eq, Option.map_eq_some_iff] at hread
  obtain ⟨hplace, hcount, next, hnext, call, rfl, horder⟩ := hread
  obtain ⟨next', hnext', hcall⟩ := hright hplace
  rw [hnext] at hnext'
  cases hnext'
  obtain ⟨k, id, hcall⟩ := hcall call rfl
  have hlt := hcall.order_lt
  have heq := hcall.order_eq
  omega

end UnixLabs.Lab34
