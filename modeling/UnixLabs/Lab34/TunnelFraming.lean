import UnixLabs.Library.Run
import UnixLabs.Lab34.TransportProtocolBuffer

/-!
What the tunnel's de-framing rule reads from a `TPBuffer`: the orders of frames
and the events of the control frames.

The order of a frame is the byte after the edge, whatever it is. The bytes of an
event are payload, but `tpb_contol_message` puts them unquoted, so an id that is
a reserved byte is taken for framing.
-/

namespace UnixLabs.Lab34

open Library Library.Framing

/-- The frames of the tunnel: an order is never quoted. -/
def tunnelFormat : Format CChar where
  edge := messageEdge
  escape := messageEscape
  edge_ne_escape := messageEdge_ne_messageEscape
  quotesOrder := false

inductive ClientEvent
  | add
  | remove
  deriving DecidableEq

def ClientEvent.op : ClientEvent → CChar
  | .add => clientAdd
  | .remove => clientRemove

def idByte (id : Fin 255) : CChar := BitVec.ofInt 8 (id : ℕ)

/-! ### Runs of the channel -/

structure Channel where
  tpb : TPBuffer
  sent : List CChar

def Channel.start (junk : ℕ → CChar) (size : ℕ) : Channel := ⟨TPBuffer.tpbInit junk size, []⟩

def Channel.produced (w : Channel) : List CChar := w.sent ++ w.tpb.buffer.contents

inductive ChannelOp
  | control (event : ClientEvent) (id : Fin 255)
  | switch (id : Fin 255)
  | send (written : Option ℕ)

def channelStep (w : Channel) : ChannelOp → Option Channel
  | .control event id => some { w with tpb := (w.tpb.tpbContolMessage event.op (id : ℕ)).2 }
  | .switch id => some { w with tpb := w.tpb.tpbPutOrder (id : ℕ) }
  | .send written => (w.tpb.tpbSend written).map fun (ret, tpb) =>
      { tpb, sent := w.sent ++ w.tpb.buffer.contents.take ret.toNat }

def HasRoom (w : Channel) : ChannelOp → Prop
  | .control event id =>
      (TPBuffer.eventBytes w.tpb.order event.op (id : ℕ)).length ≤ w.tpb.buffer.cbFreeSpace
  | .switch _ => w.tpb.controlLength ≤ w.tpb.buffer.cbFreeSpace
  | .send _ => True

instance (w : Channel) : ∀ op, Decidable (HasRoom w op)
  | .control .. => inferInstanceAs (Decidable (_ ≤ _))
  | .switch _ => inferInstanceAs (Decidable (_ ≤ _))
  | .send _ => inferInstanceAs (Decidable True)

/-- The frames and events the operations ask for, from the current order on. -/
def expected : ℤ → List ChannelOp → List (Event CChar)
  | _, [] => []
  | current, .control event id :: ops =>
      (if current = controlOrder then [] else [.frame 255]) ++
        [.byte 255 event.op, .byte 255 (idByte id)] ++ expected controlOrder ops
  | _, .switch id :: ops => .frame (idByte id) :: expected (id : ℕ) ops
  | current, .send _ :: ops => expected current ops

def controlIds (ops : List ChannelOp) : List (Fin 255) :=
  ops.filterMap fun
    | .control _ id => some id
    | .switch _ | .send _ => none

def encoded : ℤ → List ChannelOp → List CChar
  | _, [] => []
  | current, .control event id :: ops =>
      TPBuffer.eventBytes current event.op (id : ℕ) ++ encoded controlOrder ops
  | current, .switch id :: ops => TPBuffer.header current (id : ℕ) ++ encoded (id : ℕ) ops
  | current, .send _ :: ops => encoded current ops

theorem channelStep_spec {w : Channel} (hsize : 0 < w.tpb.buffer.size) {op : ChannelOp}
    (hroom : HasRoom w op) :
    ∃ w', channelStep w op = some w' ∧ w'.tpb.buffer.size = w.tpb.buffer.size ∧
      ∀ ops, w.produced ++ encoded w.tpb.order (op :: ops) =
        w'.produced ++ encoded w'.tpb.order ops := by
  cases op with
  | control event id =>
      obtain ⟨-, hcontents, hsize', horder⟩ :=
        TPBuffer.contents_tpbContolMessage event.op (id : ℕ) hroom
      refine ⟨_, rfl, hsize', fun ops => ?_⟩
      simp only [Channel.produced, hcontents, horder, encoded, List.append_assoc]
  | switch id =>
      obtain ⟨hcontents, hsize'⟩ := TPBuffer.contents_tpbPutOrder (id : ℕ) hroom
      refine ⟨_, rfl, hsize', fun ops => ?_⟩
      simp only [Channel.produced, hcontents, encoded, List.append_assoc]
      rfl
  | send written =>
      obtain ⟨ret, tpb', hsend, hdrop, hsize', horder⟩ := TPBuffer.tpbSend_spec hsize written
      refine ⟨{ tpb := tpb', sent := w.sent ++ w.tpb.buffer.contents.take ret.toNat },
        by rw [channelStep, hsend]; rfl, hsize', fun ops => ?_⟩
      simp only [Channel.produced, hdrop, horder, encoded, List.append_assoc]
      rw [← List.append_assoc (List.take _ _), List.take_append_drop]

theorem run_produced {w : Channel} (hsize : 0 < w.tpb.buffer.size) {ops : List ChannelOp}
    (hroom : RunMeets HasRoom channelStep w ops) :
    ∃ w', run channelStep w ops = some w' ∧
      w'.produced = w.produced ++ encoded w.tpb.order ops := by
  induction ops generalizing w with
  | nil => exact ⟨w, rfl, by rw [encoded, List.append_nil]⟩
  | cons op ops ih =>
      obtain ⟨w₁, hstep, hsize₁, hproduced⟩ := channelStep_spec hsize hroom.1
      obtain ⟨w', hrun, hproduced'⟩ := ih (hsize₁ ▸ hsize) (hroom.2 w₁ hstep)
      refine ⟨w', by rw [run_cons, hstep]; exact hrun, ?_⟩
      rw [hproduced', hproduced ops]

/-! ### What the bytes say -/

def modeAt (current : ℤ) : Mode CChar :=
  if current = tpbNoOrder then .idle else .body (BitVec.ofInt 8 current)

theorem deframe_header (current order : ℤ) :
    tunnelFormat.deframe (modeAt current) (TPBuffer.header current order) =
      some (.body (BitVec.ofInt 8 order), [.frame (BitVec.ofInt 8 order)]) := by
  unfold modeAt TPBuffer.header
  split_ifs
  · rfl
  · rfl

theorem modeAt_natCast (id : Fin 255) : modeAt (id : ℕ) = .body (idByte id) :=
  if_neg (by unfold tpbNoOrder; omega)

theorem modeAt_controlOrder : modeAt controlOrder = .body 255 := rfl

def Reserved (c : CChar) : Prop := c = messageEscape ∨ c = messageEdge

instance (c : CChar) : Decidable (Reserved c) := inferInstanceAs (Decidable (_ ∨ _))

theorem deframe_plain (o : CChar) {c : CChar} (hc : ¬Reserved c) :
    tunnelFormat.deframe (.body o) [c] = some (.body o, [.byte o c]) := by
  have hquote : tunnelFormat.quote c = [c] := if_neg hc
  simpa only [hquote] using tunnelFormat.deframe_quote_body o c

theorem not_reserved_op (event : ClientEvent) : ¬Reserved event.op := by
  cases event <;> decide

theorem deframe_op (current : ℤ) (event : ClientEvent) :
    tunnelFormat.deframe (modeAt current)
        ((if current = controlOrder then [] else TPBuffer.header current controlOrder) ++
          [event.op]) =
      some (.body 255, (if current = controlOrder then [] else [.frame 255]) ++
        [.byte 255 event.op]) := by
  refine Format.deframe_trans ?_ (deframe_plain 255 (not_reserved_op event))
  split_ifs with hcontrol
  · rw [hcontrol]
    rfl
  · exact deframe_header current controlOrder

/-- After a control event comes an operation or an edge, and never an escape. -/
theorem head_encoded (ops : List ChannelOp) :
    (encoded controlOrder ops).head? ≠ some messageEscape := by
  induction ops with
  | nil => simp [encoded]
  | cons op ops ih =>
      cases op with
      | control event id => cases event <;> simp [encoded, TPBuffer.eventBytes, ClientEvent.op,
          clientAdd, clientRemove, messageEscape]
      | switch id => simp [encoded, TPBuffer.header, controlOrder, tpbNoOrder, messageEdge,
          messageEscape]
      | send written => exact ih

/-- An id that is a reserved byte is not read back, whatever follows. -/
theorem deframe_reserved_id {c : CChar} (hc : Reserved c) (ops : List ChannelOp) {m : Mode CChar}
    {es : List (Event CChar)} :
    tunnelFormat.deframe (.body 255) (c :: encoded controlOrder ops) ≠
      some (m, .byte 255 c :: es) := by
  intro h
  obtain ⟨m₁, es₁, es₂, hfeed, hrest, heq⟩ := Format.deframe_split [c] _ h
  rcases hc with rfl | rfl
  · -- the escape quotes the byte after it
    have hread : tunnelFormat.deframe (.body 255) [messageEscape] =
        some (.bodyQuoted 255, []) := rfl
    rw [hread] at hfeed
    cases hfeed
    rw [List.nil_append] at heq
    subst heq
    have hhead := head_encoded ops
    cases hbytes : encoded controlOrder ops with
    | nil =>
        rw [hbytes] at hrest
        cases hrest
    | cons c' rest =>
        rw [hbytes] at hrest hhead
        obtain ⟨m₂, es₃, es₄, hfeed', -, heq'⟩ := Format.deframe_split [c'] _ hrest
        rw [Format.deframe_singleton] at hfeed'
        cases hfeed'
        cases heq'
        exact hhead rfl
  · -- the edge closes the control frame
    have hread : tunnelFormat.deframe (.body 255) [messageEdge] = some (.idle, []) := rfl
    rw [hread] at hfeed
    cases hfeed
    rw [List.nil_append] at heq
    exact Format.deframe_ne_byte (.inl rfl) (heq ▸ hrest)

/-- The bytes say what was asked for exactly when no event has a reserved id. -/
theorem deframe_encoded_iff (current : ℤ) (ops : List ChannelOp) :
    (∃ m, tunnelFormat.deframe (modeAt current) (encoded current ops) =
        some (m, expected current ops)) ↔
      ∀ id ∈ controlIds ops, ¬Reserved (idByte id) := by
  induction ops generalizing current with
  | nil => simp [encoded, expected, controlIds]
  | cons op ops ih =>
      cases op with
      | switch id =>
          have hheader := deframe_header current (id : ℕ)
          have hids : controlIds (.switch id :: ops) = controlIds ops := rfl
          rw [hids, ← ih (id : ℕ), modeAt_natCast]
          exact Format.deframe_append_iff hheader _ _
      | send written => exact ih current
      | control event id =>
          have hids : controlIds (.control event id :: ops) = id :: controlIds ops := rfl
          have hbytes : encoded current (.control event id :: ops) =
              ((if current = controlOrder then [] else TPBuffer.header current controlOrder) ++
                [event.op]) ++ idByte id :: encoded controlOrder ops := by
            simp [encoded, TPBuffer.eventBytes, idByte]
          have hevents : expected current (.control event id :: ops) =
              ((if current = controlOrder then [] else [.frame 255]) ++ [.byte 255 event.op]) ++
                .byte 255 (idByte id) :: expected controlOrder ops := by
            simp [expected]
          rw [hids, hbytes, hevents, Format.deframe_append_iff (deframe_op current event)]
          by_cases hres : Reserved (idByte id)
          · constructor
            · rintro ⟨m, h⟩
              exact absurd h (deframe_reserved_id hres ops)
            · exact fun h => absurd hres (h id List.mem_cons_self)
          · have hid := Format.deframe_append_iff (deframe_plain 255 hres)
              (encoded controlOrder ops) (expected controlOrder ops)
            rw [← modeAt_controlOrder, ih controlOrder] at hid
            rw [List.forall_mem_cons, ← hid]
            exact ⟨fun h => ⟨hres, h⟩, And.right⟩

/-- On a buffer that never runs out of room, what was produced says exactly the
frames and events that were asked for if and only if no event has the id 125 or
126. -/
theorem channel_run_iff (junk : ℕ → CChar) {size : ℕ} (hsize : 0 < size) {ops : List ChannelOp}
    (hroom : RunMeets HasRoom channelStep (Channel.start junk size) ops) :
    ∃ w, run channelStep (Channel.start junk size) ops = some w ∧
      ((∃ m, tunnelFormat.deframe .idle w.produced = some (m, expected tpbNoOrder ops)) ↔
        ∀ id ∈ controlIds ops, (id : ℕ) ≠ 125 ∧ (id : ℕ) ≠ 126) := by
  obtain ⟨w, hrun, hproduced⟩ := run_produced (w := Channel.start junk size) hsize hroom
  refine ⟨w, hrun, ?_⟩
  have hreserved : ∀ id : Fin 255, ¬Reserved (idByte id) ↔ (id : ℕ) ≠ 125 ∧ (id : ℕ) ≠ 126 := by
    decide +kernel
  have hread := deframe_encoded_iff tpbNoOrder ops
  rw [hproduced]
  simp only [hreserved] at hread
  exact hread

theorem channel_run_plain :
    ∃ w, run channelStep (Channel.start (fun _ => 0) 16)
        [.control .add 7, .switch 7, .send (some 3), .control .remove 7] = some w ∧
      ((∃ m, tunnelFormat.deframe .idle w.produced = some (m, expected tpbNoOrder
          [.control .add 7, .switch 7, .send (some 3), .control .remove 7])) ↔
        ∀ id ∈ controlIds [.control .add 7, .switch 7, .send (some 3), .control .remove 7],
          (id : ℕ) ≠ 125 ∧ (id : ℕ) ≠ 126) :=
  channel_run_iff (fun _ => 0) (by decide) (by decide +kernel)

/-- The event that adds client 126 is read as the end of the control frame. -/
theorem channel_misreads_edge :
    RunMeets HasRoom channelStep (Channel.start (fun _ => 0) 16) [.control .add 126] ∧
      ∃ w, run channelStep (Channel.start (fun _ => 0) 16) [.control .add 126] = some w ∧
        ¬∃ m, tunnelFormat.deframe .idle w.produced =
          some (m, expected tpbNoOrder [.control .add 126]) := by
  have hproduced : (run channelStep (Channel.start (fun _ => 0) 16) [.control .add 126]).map
      Channel.produced = some [0x7E, 255, 1, 0x7E] := by
    decide
  obtain ⟨w, hrun, hw⟩ := Option.map_eq_some_iff.mp hproduced
  refine ⟨by decide +kernel, w, hrun, ?_⟩
  rintro ⟨m, hread⟩
  have hread' : tunnelFormat.deframe .idle [0x7E, 255, 1, 0x7E] =
      some (.idle, [.frame 255, .byte 255 1]) := by
    decide
  rw [hw, hread'] at hread
  have hsame : [.frame 255, .byte 255 1] = expected tpbNoOrder [.control .add 126] :=
    congrArg Prod.snd (Option.some.inj hread)
  exact absurd hsame (by decide)

end UnixLabs.Lab34
