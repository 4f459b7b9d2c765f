import UnixLabs.Lab34.SenderSteps

/-!
No byte of a client is lost on the way through the sender.

The sessions of the sender's clients are the sessions of the library: every safe
step is one of their events or none. So what `cb_recv` accepted from a client is
what `tpb_encapsulate` consumed for its id, followed by what is in its buffer.
-/

namespace UnixLabs.Lab34

open Library

def Happening.sessionEvent : Happening → Option (SessionEvent ℕ CChar)
  | .accepted id => some (.opened id)
  | .received id bytes => some (.received id bytes)
  | .consumed id bytes => some (.consumed id bytes)
  | .announced _ => none
  | .released id => some (.closed id)

/-- The ids with a session: from the accept to the event of the removal. -/
def liveAfter (live : ℕ → Bool) : Option (SessionEvent ℕ CChar) → ℕ → Bool
  | some (.opened id) => Function.update live id true
  | some (.closed id) => Function.update live id false
  | _ => live

/-- The sender and all that was received from and consumed for each id. -/
structure SessionWorld where
  sender : Sender
  live : ℕ → Bool
  histories : Histories ℕ CChar

namespace SessionWorld

def start (listenFd tunnelFd : ℤ) (tpbJunk queueJunk : ℕ → CChar) : SessionWorld :=
  ⟨Sender.start listenFd tunnelFd tpbJunk queueJunk, fun _ => false, Histories.empty⟩

def step (w : SessionWorld) (answers : Answers) : Option SessionWorld :=
  (senderStep w.sender answers).map fun (happening, sender) =>
    let event := happening.bind Happening.sessionEvent
    ⟨sender, liveAfter w.live event, w.histories.note event⟩

/-- The bytes received from a client are those consumed for its id and those in its
buffer; after the session they are those consumed. -/
def Right (w : SessionWorld) : Prop :=
  Conserved (fun id =>
    if w.live id then some (w.sender.ts.clientBuffers.cells id).contents else none) w.histories

def InOrder (w : SessionWorld) : Prop :=
  ∃ ids, Steady w.sender.ts ids ∧ (∀ id, w.live id = true ↔ id ∈ ids) ∧
    Conserved (backlogs w.sender.ts ids) w.histories

theorem InOrder.right {w : SessionWorld} (h : w.InOrder) : w.Right := by
  obtain ⟨ids, -, hlive, hconserved⟩ := h
  have hbacklogs : (fun id => if w.live id then
      some (w.sender.ts.clientBuffers.cells id).contents else none) =
      backlogs w.sender.ts ids := by
    ext id : 1
    simp only [backlogs, hlive id]
  rw [Right, hbacklogs]
  exact hconserved

theorem InOrder.start (listenFd tunnelFd : ℤ) (tpbJunk queueJunk : ℕ → CChar) :
    (SessionWorld.start listenFd tunnelFd tpbJunk queueJunk).InOrder :=
  ⟨[], Steady.built listenFd tunnelFd tpbJunk queueJunk, by simp [SessionWorld.start],
    Conserved.empty⟩

end SessionWorld

/-! ### One step -/

namespace Effect

variable {s s' : Sender} {ids ids' : List ℕ} {happening : Option Happening}

theorem move (h : Effect s s' ids happening ids') :
    BacklogMove (backlogs s.ts ids) (happening.bind Happening.sessionEvent)
      (backlogs s'.ts ids') := by
  cases h with
  | quiet hbacklogs => exact hbacklogs
  | accepted hid hfresh hbacklogs =>
      exact hbacklogs ▸ BacklogStep.opened _ (backlogs_not_mem hfresh)
  | received hold hbacklogs => exact hbacklogs ▸ BacklogStep.received _ _ _ hold
  | consumed hold hbacklogs => exact hbacklogs ▸ BacklogStep.consumed _ _ _ hold
  | announced hplace hbacklogs => exact hbacklogs
  | released hplace hrel hmem hids hold hbacklogs => exact hbacklogs ▸ BacklogStep.closed _ hold

theorem live (h : Effect s s' ids happening ids') {live : ℕ → Bool}
    (hlive : ∀ id, live id = true ↔ id ∈ ids) (j : ℕ) :
    liveAfter live (happening.bind Happening.sessionEvent) j = true ↔ j ∈ ids' := by
  cases h with
  | accepted =>
      simp only [Option.bind_some, Happening.sessionEvent, liveAfter, Function.update_apply,
        List.mem_append, List.mem_singleton]
      split_ifs with hj
      · simp [hj]
      · simpa [hj] using hlive j
  | released hplace hrel hmem hids =>
      simp only [Option.bind_some, Happening.sessionEvent, liveAfter, Function.update_apply, hids]
      split_ifs with hj
      · simp [hj]
      · simpa [hj] using hlive j
  | _ => exact hlive j

end Effect

theorem SessionWorld.InOrder.step {w : SessionWorld} (h : w.InOrder) {answers : Answers}
    (hsafe : StepSafe w.sender answers) :
    ∃ w', SessionWorld.step w answers = some w' ∧ w'.InOrder := by
  obtain ⟨ids, hsteady, hlive, hconserved⟩ := h
  obtain ⟨happening, s', ids', hstep, hsteady', heffect⟩ := hsteady.step hsafe
  exact ⟨_, by rw [SessionWorld.step, hstep]; rfl, ids', hsteady', heffect.live hlive,
    hconserved.move heffect.move⟩

/-! ### Runs -/

/-- In every run of the main loop that releases clients only at their own position,
and accepts none at the position of a half-sent chunk, the bytes of all sessions are
conserved in all states. -/
theorem conserved_run (listenFd tunnelFd : ℤ) (tpbJunk queueJunk : ℕ → CChar)
    (answers : List Answers)
    (hsafe : RunMeets (fun w answers => StepSafe w.sender answers) SessionWorld.step
      (SessionWorld.start listenFd tunnelFd tpbJunk queueJunk) answers) :
    RunKeeps SessionWorld.Right SessionWorld.step
      (SessionWorld.start listenFd tunnelFd tpbJunk queueJunk) answers :=
  runKeeps_of_meets (fun _ h => h.right) (fun _ _ h hsafe => h.step hsafe)
    (SessionWorld.InOrder.start listenFd tunnelFd tpbJunk queueJunk) hsafe

theorem conserved_run_visit :
    RunMeets (fun w answers => StepSafe w.sender answers) SessionWorld.step
        (SessionWorld.start 3 4 (fun _ => 0) (fun _ => 0)) Answers.visit ∧
      RunKeeps SessionWorld.Right SessionWorld.step
        (SessionWorld.start 3 4 (fun _ => 0) (fun _ => 0)) Answers.visit := by
  have hsafe : RunMeets (fun w answers => StepSafe w.sender answers) SessionWorld.step
      (SessionWorld.start 3 4 (fun _ => 0) (fun _ => 0)) Answers.visit := by
    decide +kernel
  exact ⟨hsafe, conserved_run 3 4 (fun _ => 0) (fun _ => 0) Answers.visit hsafe⟩

/-- When client 1 leaves, client 0 is released and its byte is gone. -/
theorem crossing_loses_byte :
    ¬RunKeeps SessionWorld.Right SessionWorld.step
      (SessionWorld.start 3 4 (fun _ => 0) (fun _ => 0)) Answers.crossing := by
  intro h
  obtain ⟨w, hw, hright⟩ := h.last
  have hread : (run SessionWorld.step (SessionWorld.start 3 4 (fun _ => 0) (fun _ => 0))
      Answers.crossing).map (fun w => (w.live 0, w.histories.received 0, w.histories.consumed 0,
        (w.sender.ts.clientBuffers.cells 0).contents)) = some (true, [120], [], []) := by
    decide +kernel
  rw [hw, Option.map_some, Option.some_inj] at hread
  simp only [Prod.mk.injEq] at hread
  obtain ⟨hlive, hreceived, hconsumed, hcontents⟩ := hread
  have hzero := hright 0
  simp only [hlive, if_true, hreceived, hconsumed, hcontents] at hzero
  exact absurd hzero (by decide)

end UnixLabs.Lab34
