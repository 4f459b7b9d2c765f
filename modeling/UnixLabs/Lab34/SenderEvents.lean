import UnixLabs.Lab34.SenderSteps
import UnixLabs.Library.Brackets

/-!
The order of the events that the sender puts on the tunnel.

For one id it should be `CLIENT_ADD`, data, `CLIENT_REMOVE`, again and again. The
tunnel's buffer drops bytes silently when it is full, so an event is on the tunnel
when all of its bytes are. An id is open exactly when its client is listed and no
longer in `add_queue`.
-/

namespace UnixLabs.Lab34

open Library

/-! ### Whole events -/

/-- There is room for an event in an open control frame. Without an open control
frame the source looks for itself. -/
def Room (tpb : TPBuffer) : Prop :=
  tpb.order = controlOrder → eventMessageLength ≤ tpb.buffer.cbFreeSpace

instance (tpb : TPBuffer) : Decidable (Room tpb) := inferInstanceAs (Decidable (_ → _))

def putWhole (before after : TPBuffer) (op : CChar) (order : ℤ) : Bool :=
  after.buffer.count == before.buffer.count + (TPBuffer.eventBytes before.order op order).length

theorem putWhole_of_room {tpb : TPBuffer} {op : CChar} {order : ℤ}
    (hput : (tpb.tpbContolMessage op order).1 = true) (hroom : Room tpb) :
    putWhole tpb (tpb.tpbContolMessage op order).2 op order = true := by
  have hfits : (TPBuffer.eventBytes tpb.order op order).length ≤ tpb.buffer.cbFreeSpace := by
    by_cases hcontrol : tpb.order = controlOrder
    · simpa [TPBuffer.eventBytes, hcontrol, eventMessageLength] using hroom hcontrol
    · have hlength := TPBuffer.length_header tpb controlOrder
      simp only [TPBuffer.tpbContolMessage, ne_eq, hcontrol, not_false_eq_true, true_and] at hput
      split_ifs at hput with hfull
      simp only [TPBuffer.eventBytes, hcontrol, if_false, List.length_append, hlength,
        List.length_cons, List.length_nil]
      unfold eventMessageLength at hfull
      omega
  obtain ⟨-, hcontents, -, -⟩ := TPBuffer.contents_tpbContolMessage op order hfits
  have hcount := congrArg List.length hcontents
  rw [List.length_append, CyclicBuffer.length_contents, CyclicBuffer.length_contents] at hcount
  exact beq_iff_eq.mpr hcount

/-! ### The log of the tunnel -/

def clientByte (id : ℕ) : CChar := BitVec.ofInt 8 id

/-- What a step puts on the tunnel: an event if it is whole, data if there are new
bytes. -/
def tunnelEvents (before after : TPBuffer) : Happening → List (KeyEvent CChar)
  | .announced id => if putWhole before after clientAdd id.toInt then [.opens id] else []
  | .released id => if putWhole before after clientRemove id then [.closes (clientByte id)] else []
  | .consumed id _ =>
      if after.buffer.count ≠ before.buffer.count then [.uses (clientByte id)] else []
  | .accepted _ | .received _ _ => []

structure EventWorld where
  sender : Sender
  log : List (KeyEvent CChar)

namespace EventWorld

def start (listenFd tunnelFd : ℤ) (tpbJunk queueJunk : ℕ → CChar) : EventWorld :=
  ⟨Sender.start listenFd tunnelFd tpbJunk queueJunk, []⟩

def step (w : EventWorld) (answers : Answers) : Option EventWorld :=
  (senderStep w.sender answers).map fun (happening, sender) =>
    ⟨sender, w.log ++ happening.elim [] (tunnelEvents w.sender.ts.tunnelTpb sender.ts.tunnelTpb)⟩

def Right (w : EventWorld) : Prop := Bracketed w.log

end EventWorld

/-! ### Which ids are open -/

theorem clientByte_inj {a b : ℕ} (ha : a < maxClients) (hb : b < maxClients)
    (h : clientByte a = clientByte b) : a = b := by
  have hbytes := congrArg BitVec.toNat h
  simp only [clientByte, BitVec.ofInt_natCast, BitVec.toNat_ofNat] at hbytes
  unfold maxClients at ha hb
  omega

def isOpen (ids : List ℕ) (queue : List CChar) (b : CChar) : Bool :=
  decide (b ∈ ids.map clientByte ∧ b ∉ queue)

theorem isOpen_iff {ids : List ℕ} {queue : List CChar} {b : CChar} :
    isOpen ids queue b = true ↔ b ∈ ids.map clientByte ∧ b ∉ queue := by simp [isOpen]

/-- The queue holds bytes of listed clients, each once, and is empty while chunks
are sent. -/
structure Queued (s : Sender) (ids : List ℕ) : Prop where
  nodup : s.ts.addQueue.contents.Nodup
  listed : ∀ b ∈ s.ts.addQueue.contents, b ∈ ids.map clientByte
  sending : s.place = .send → s.ts.addQueue.contents = []

theorem Steady.clientByte_mem {ts : TunnelServer} {ids : List ℕ} (h : Steady ts ids) {id : ℕ}
    (hid : id < maxClients) : clientByte id ∈ ids.map clientByte ↔ id ∈ ids := by
  constructor
  · intro hmem
    obtain ⟨j, hj, he⟩ := List.mem_map.mp hmem
    exact clientByte_inj (h.positions.tables.indexed.lt j hj) hid he ▸ hj
  · exact List.mem_map_of_mem

namespace Queued

variable {s s' : Sender} {ids : List ℕ}

/-- A new client waits in the queue, for which there is room: it is not open. -/
theorem accepted (h : Queued s ids) (hsteady : Steady s.ts ids) {id : ℕ}
    (hid : id < maxClients) (hfresh : id ∉ ids) (hlength : ids.length < maxClients)
    (hqueue : s'.ts.addQueue = (s.ts.addQueue.cbPutc (BitVec.ofInt 8 id)).2)
    (hsend : s'.place ≠ .send) :
    Queued s' (ids ++ [id]) ∧ isOpen (ids ++ [id]) s'.ts.addQueue.contents =
      isOpen ids s.ts.addQueue.contents := by
  have hroom : s.ts.addQueue.count < s.ts.addQueue.size := by
    have hle := (List.subperm_of_subset h.nodup h.listed).length_le
    rw [List.length_map, CyclicBuffer.length_contents] at hle
    rw [hsteady.queueSize]
    omega
  have hcontents : s'.ts.addQueue.contents = s.ts.addQueue.contents ++ [clientByte id] :=
    hqueue ▸ (CyclicBuffer.cbPutc_of_lt hroom _).2
  have hnew : clientByte id ∉ ids.map clientByte := mt (hsteady.clientByte_mem hid).mp hfresh
  refine ⟨⟨?_, ?_, fun he => absurd he hsend⟩, ?_⟩
  · rw [hcontents, List.nodup_append_comm]
    exact List.nodup_cons.mpr ⟨fun hin => hnew (h.listed _ hin), h.nodup⟩
  · intro b hb
    rw [hcontents, List.mem_append, List.mem_singleton] at hb
    rw [List.map_append, List.mem_append]
    exact hb.imp (h.listed b) (by simp)
  · ext b : 1
    rw [Bool.eq_iff_iff, isOpen_iff, isOpen_iff, hcontents, List.map_append]
    simp only [List.mem_append, List.map_cons, List.map_nil, List.mem_singleton]
    by_cases hb : b = clientByte id
    · simp [hb, hnew]
    · simp [hb]

theorem announced (h : Queued s ids) {b : CChar} {rest : List CChar}
    (hold : s.ts.addQueue.contents = b :: rest) (hrest : s'.ts.addQueue.contents = rest)
    (hsend : s'.place ≠ .send) :
    Queued s' ids ∧ isOpen ids s.ts.addQueue.contents b = false ∧
      isOpen ids s'.ts.addQueue.contents =
        Function.update (isOpen ids s.ts.addQueue.contents) b true := by
  have hnodup := h.nodup
  have hlisted := h.listed
  rw [hold] at hnodup hlisted
  obtain ⟨hb, hnodup⟩ := List.nodup_cons.mp hnodup
  refine ⟨⟨hrest ▸ hnodup, ?_, fun he => absurd he hsend⟩, ?_, ?_⟩
  · rw [hrest]
    exact fun c hc => hlisted c (List.mem_cons_of_mem b hc)
  · simp [isOpen, hold]
  · ext c : 1
    rw [Function.update_apply, Bool.eq_iff_iff, isOpen_iff, hrest]
    split_ifs with hc
    · subst hc
      simpa [hb] using hlisted c List.mem_cons_self
    · simp [isOpen_iff, hold, hc]

theorem released (h : Queued s ids) (hsteady : Steady s.ts ids) {id : ℕ} {ids' : List ℕ}
    (hmem : id ∈ ids) (hids : ∀ j, j ∈ ids' ↔ j ∈ ids ∧ j ≠ id)
    (hannounced : clientByte id ∉ s.ts.addQueue.contents)
    (hqueue : s'.ts.addQueue = s.ts.addQueue) (hsend : s'.place ≠ .send) :
    Queued s' ids' ∧ isOpen ids s.ts.addQueue.contents (clientByte id) = true ∧
      isOpen ids' s'.ts.addQueue.contents =
        Function.update (isOpen ids s.ts.addQueue.contents) (clientByte id) false := by
  have hlt := fun j hj => hsteady.positions.tables.indexed.lt j hj
  have hbytes : ∀ b, b ∈ ids'.map clientByte ↔ b ∈ ids.map clientByte ∧ b ≠ clientByte id := by
    intro b
    simp only [List.mem_map, hids]
    constructor
    · rintro ⟨j, ⟨hj, hne⟩, rfl⟩
      exact ⟨⟨j, hj, rfl⟩, fun he => hne (clientByte_inj (hlt j hj) (hlt id hmem) he)⟩
    · rintro ⟨⟨j, hj, rfl⟩, hne⟩
      exact ⟨j, ⟨hj, fun he => hne (he ▸ rfl)⟩, rfl⟩
  refine ⟨⟨hqueue ▸ h.nodup, ?_, fun he => absurd he hsend⟩, ?_, ?_⟩
  · intro b hb
    rw [hqueue] at hb
    exact (hbytes b).mpr ⟨h.listed b hb, fun he => hannounced (he ▸ hb)⟩
  · exact isOpen_iff.mpr ⟨List.mem_map_of_mem hmem, hannounced⟩
  · ext b : 1
    rw [Function.update_apply, Bool.eq_iff_iff, isOpen_iff, hbytes, hqueue]
    split_ifs with hb
    · simp [hb]
    · simp [isOpen_iff, hb]

theorem congr (h : Queued s ids) (hqueue : s'.ts.addQueue = s.ts.addQueue)
    (hsend : s'.place = .send → s.place = .send ∨ s.ts.addQueue.contents = []) :
    Queued s' ids where
  nodup := hqueue ▸ h.nodup
  listed := hqueue ▸ h.listed
  sending := fun he => by
    rw [hqueue]
    exact (hsend he).elim h.sending fun hempty => hempty

end Queued

/-! ### Runs -/

/-- A step that is safe for the bytes, and for the events: a released client has
been announced, and every event finds room. -/
def EventSafe (s : Sender) (answers : Answers) : Prop :=
  StepSafe s answers ∧
    match s.place with
    | .emptyRemoved i => ∀ id, Releases s.ts i id →
        clientByte id ∉ s.ts.addQueue.contents ∧ Room s.ts.tunnelTpb
    | .added => s.ts.addQueue.contents ≠ [] → Room s.ts.tunnelTpb
    | _ => True

/-- The sender is in order, and the log leaves open who is listed and announced. -/
def EventWorld.InOrder (w : EventWorld) : Prop :=
  ∃ ids, Steady w.sender.ts ids ∧ Queued w.sender ids ∧
    Leaves w.log (isOpen ids w.sender.ts.addQueue.contents)

theorem EventWorld.InOrder.start (listenFd tunnelFd : ℤ) (tpbJunk queueJunk : ℕ → CChar) :
    (EventWorld.start listenFd tunnelFd tpbJunk queueJunk).InOrder := by
  refine ⟨[], Steady.built listenFd tunnelFd tpbJunk queueJunk, ⟨?_, ?_, ?_⟩, Leaves.nil⟩
  · exact List.nodup_nil
  · nofun
  · nofun

theorem Effect.log {s s' : Sender} {ids ids' : List ℕ} {happening : Option Happening}
    (h : Effect s s' ids happening ids') (hsteady : Steady s.ts ids) (hsteady' : Steady s'.ts ids')
    (hqueued : Queued s ids) {answers : Answers} (hsafe : EventSafe s answers)
    {log : List (KeyEvent CChar)} (hlog : Leaves log (isOpen ids s.ts.addQueue.contents)) :
    Queued s' ids' ∧
      Leaves (log ++ happening.elim [] (tunnelEvents s.ts.tunnelTpb s'.ts.tunnelTpb))
        (isOpen ids' s'.ts.addQueue.contents) := by
  cases h with
  | quiet hbacklogs hqueue hsend =>
      refine ⟨hqueued.congr hqueue hsend, ?_⟩
      simpa only [Option.elim_none, List.append_nil, hqueue] using hlog
  | received hold hbacklogs hqueue hsend =>
      refine ⟨hqueued.congr hqueue fun he => absurd he hsend, ?_⟩
      simpa only [Option.elim_some, tunnelEvents, List.append_nil, hqueue] using hlog
  | accepted hid hfresh hbacklogs hqueue hsend =>
      have hlength := hsteady'.positions.length_le
      rw [List.length_append, List.length_singleton] at hlength
      obtain ⟨hqueued', hopen⟩ := hqueued.accepted hsteady hid hfresh (by omega) hqueue hsend
      refine ⟨hqueued', ?_⟩
      simpa only [Option.elim_some, tunnelEvents, List.append_nil, hopen] using hlog
  | @consumed id bytes q hold hbacklogs hqueue hsend =>
      have hmem : id ∈ ids := by
        by_contra hnot
        rw [backlogs_not_mem hnot] at hold
        cases hold
      refine ⟨hqueued.congr hqueue fun _ => .inl hsend, ?_⟩
      rw [hqueue, Option.elim_some, tunnelEvents]
      split_ifs
      · refine hlog.uses (isOpen_iff.mpr ⟨List.mem_map_of_mem hmem, ?_⟩)
        rw [hqueued.sending hsend]
        exact List.not_mem_nil
      · rwa [List.append_nil]
  | announced hplace hbacklogs hold hqueue hput htunnel hsend =>
      obtain ⟨-, hroom⟩ := hsafe
      simp only [hplace, hold] at hroom
      obtain ⟨hqueued', hclosed, hopen⟩ := hqueued.announced hold hqueue hsend
      refine ⟨hqueued', ?_⟩
      rw [hopen, Option.elim_some, tunnelEvents, htunnel,
        putWhole_of_room hput (hroom (List.cons_ne_nil _ _)), if_pos rfl]
      exact hlog.opens hclosed
  | released hplace hrel hmem hids hold hbacklogs hqueue htunnel hsend =>
      obtain ⟨-, hroom⟩ := hsafe
      simp only [hplace] at hroom
      obtain ⟨hannounced, hroom⟩ := hroom _ hrel
      obtain ⟨hqueued', hopened, hopen⟩ :=
        hqueued.released hsteady hmem hids hannounced hqueue hsend
      refine ⟨hqueued', ?_⟩
      rw [hopen, Option.elim_some, tunnelEvents, htunnel, putWhole_of_room hrel.put hroom,
        if_pos rfl]
      exact hlog.closes hopened

theorem EventWorld.InOrder.step {w : EventWorld} (h : w.InOrder) {answers : Answers}
    (hsafe : EventSafe w.sender answers) :
    ∃ w', EventWorld.step w answers = some w' ∧ w'.InOrder := by
  obtain ⟨ids, hsteady, hqueued, hlog⟩ := h
  obtain ⟨happening, s', ids', hstep, hsteady', heffect⟩ := hsteady.step hsafe.1
  obtain ⟨hqueued', hlog'⟩ := heffect.log hsteady hsteady' hqueued hsafe hlog
  exact ⟨_, by rw [EventWorld.step, hstep]; rfl, ids', hsteady', hqueued', hlog'⟩

/-- In every run of the main loop whose steps are safe for the events, the events of
each id are in order in all states. -/
theorem bracketed_run (listenFd tunnelFd : ℤ) (tpbJunk queueJunk : ℕ → CChar)
    (answers : List Answers)
    (hsafe : RunMeets (fun w answers => EventSafe w.sender answers) EventWorld.step
      (EventWorld.start listenFd tunnelFd tpbJunk queueJunk) answers) :
    RunKeeps EventWorld.Right EventWorld.step
      (EventWorld.start listenFd tunnelFd tpbJunk queueJunk) answers :=
  runKeeps_of_meets
    (fun _ h => have ⟨_, _, _, hlog⟩ := h; hlog.bracketed)
    (fun _ _ h hsafe => h.step hsafe)
    (EventWorld.InOrder.start listenFd tunnelFd tpbJunk queueJunk) hsafe

instance : ∀ (s : Sender) (answers : Answers), Decidable (EventSafe s answers)
  | ⟨ts, .emptyRemoved i⟩, answers =>
      inferInstanceAs (Decidable (StepSafe ⟨ts, .emptyRemoved i⟩ answers ∧
        ∀ id, Releases ts i id → clientByte id ∉ ts.addQueue.contents ∧ Room ts.tunnelTpb))
  | ⟨ts, .added⟩, _ =>
      inferInstanceAs (Decidable (True ∧ (ts.addQueue.contents ≠ [] → Room ts.tunnelTpb)))
  | ⟨ts, .accept fdCount⟩, answers =>
      inferInstanceAs (Decidable (StepSafe ⟨ts, .accept fdCount⟩ answers ∧ True))
  | ⟨_, .poll⟩, _ | ⟨_, .clientIo _ _ _⟩, _ | ⟨_, .send⟩, _ | ⟨_, .tunnel⟩, _
  | ⟨_, .stopped⟩, _ => isTrue ⟨trivial, trivial⟩

theorem bracketed_run_visit :
    RunMeets (fun w answers => EventSafe w.sender answers) EventWorld.step
        (EventWorld.start 3 4 (fun _ => 0) (fun _ => 0)) Answers.visit ∧
      RunKeeps EventWorld.Right EventWorld.step
        (EventWorld.start 3 4 (fun _ => 0) (fun _ => 0)) Answers.visit := by
  have hsafe : RunMeets (fun w answers => EventSafe w.sender answers) EventWorld.step
      (EventWorld.start 3 4 (fun _ => 0) (fun _ => 0)) Answers.visit := by
    decide +kernel
  exact ⟨hsafe, bracketed_run 3 4 (fun _ => 0) (fun _ => 0) Answers.visit hsafe⟩

/-- When client 1 leaves, client 0 is released without an event, and the next client
gets its id: the tunnel carries two `CLIENT_ADD 0` in a row. -/
theorem crossing_adds_twice :
    ¬RunKeeps EventWorld.Right EventWorld.step (EventWorld.start 3 4 (fun _ => 0) (fun _ => 0))
      (Answers.crossing ++ List.replicate 5 .quiet ++
        [.polls [pollListenerIndex], .accepts 13] ++ List.replicate 5 .quiet) := by
  intro h
  obtain ⟨w, hw, hright⟩ := h.last
  have hread : (run EventWorld.step (EventWorld.start 3 4 (fun _ => 0) (fun _ => 0))
      (Answers.crossing ++ List.replicate 5 .quiet ++
        [.polls [pollListenerIndex], .accepts 13] ++ List.replicate 5 .quiet)).map
      (fun w => run (keyStep 0) false w.log) = some none := by
    decide +kernel
  rw [hw, Option.map_some, Option.some_inj] at hread
  exact absurd (hread ▸ hright 0) (by decide)

end UnixLabs.Lab34
