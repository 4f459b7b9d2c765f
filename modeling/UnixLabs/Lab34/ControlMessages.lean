import UnixLabs.Lab34.SenderEvents
import UnixLabs.Lab34.SenderFrames
import UnixLabs.Lab34.TunnelPayload

/-!
`tpb_contol_message` and its answer.

The free space is looked at only when a control frame has to be opened. In an open one
the answer is always `true`, whether there was room for the event or not, and the two
callers take it at its word.
-/

namespace UnixLabs.Lab34

open Library

namespace TPBuffer

/-- The answer is `true` exactly when the whole event is appended, and with `false`
nothing has happened. -/
def AllOrNothing (tpb : TPBuffer) (op : CChar) (order : ℤ) : Prop :=
  ((tpbContolMessage tpb op order).1 = true ↔
    (tpbContolMessage tpb op order).2.buffer.contents =
      tpb.buffer.contents ++ eventBytes tpb.order op order) ∧
  ((tpbContolMessage tpb op order).1 = false → (tpbContolMessage tpb op order).2 = tpb)

theorem tpbContolMessage_checked {tpb : TPBuffer} (hcontrol : tpb.order ≠ controlOrder)
    (op : CChar) (order : ℤ) :
    tpbContolMessage tpb op order = (false, tpb) ∧
        tpb.buffer.cbFreeSpace < (eventBytes tpb.order op order).length ∨
      (eventBytes tpb.order op order).length ≤ tpb.buffer.cbFreeSpace := by
  have hlength : (eventBytes tpb.order op order).length =
      eventMessageLength + tpb.controlLength := by
    rw [eventBytes, if_neg hcontrol, List.length_append, length_header, Nat.add_comm]
    rfl
  rw [hlength]
  rcases Nat.lt_or_ge tpb.buffer.cbFreeSpace (eventMessageLength + tpb.controlLength) with
    hfull | hroom
  · exact .inl ⟨if_pos ⟨hcontrol, hfull⟩, hfull⟩
  · exact .inr hroom

/-- In an open control frame the event is counted as put in any case. -/
theorem tpbContolMessage_open {tpb : TPBuffer} (hcontrol : tpb.order = controlOrder)
    (op : CChar) (order : ℤ) : (tpbContolMessage tpb op order).1 = true := by
  simp [tpbContolMessage, hcontrol]

theorem contents_ne_of_full {tpb tpb' : TPBuffer} {bytes : List CChar}
    (hsize : tpb'.buffer.size = tpb.buffer.size)
    (hfull : tpb.buffer.cbFreeSpace < bytes.length) :
    tpb'.buffer.contents ≠ tpb.buffer.contents ++ bytes := by
  intro he
  have hlength := congrArg List.length he
  have hle := tpb'.buffer.count_le
  rw [List.length_append, CyclicBuffer.length_contents, CyclicBuffer.length_contents] at hlength
  rw [CyclicBuffer.cbFreeSpace] at hfull
  omega

/-- The answer can be relied on exactly when an open control frame has room for the
event. -/
theorem allOrNothing_iff_room (tpb : TPBuffer) (op : CChar) (order : ℤ) :
    AllOrNothing tpb op order ↔ Room tpb := by
  have hfits : (eventBytes tpb.order op order).length ≤ tpb.buffer.cbFreeSpace →
      AllOrNothing tpb op order := by
    intro h
    obtain ⟨htrue, hcontents, -, -⟩ := contents_tpbContolMessage op order h
    exact ⟨iff_of_true htrue hcontents, fun hfalse => by rw [htrue] at hfalse; cases hfalse⟩
  by_cases hcontrol : tpb.order = controlOrder
  · have hlength : (eventBytes tpb.order op order).length = eventMessageLength := by
      rw [eventBytes, if_pos hcontrol]
      rfl
    constructor
    · intro h _
      by_contra hfull
      have hsize := size_tpbContolMessage tpb op order
      exact contents_ne_of_full hsize (by omega)
        (h.1.mp (tpbContolMessage_open hcontrol op order))
    · exact fun h => hfits (hlength ▸ h hcontrol)
  · refine iff_of_true ?_ fun h => absurd h hcontrol
    rcases tpbContolMessage_checked hcontrol op order with ⟨hcall, hfull⟩ | hroom
    · rw [AllOrNothing, hcall]
      exact ⟨iff_of_false Bool.false_ne_true (contents_ne_of_full rfl hfull), fun _ => rfl⟩
    · exact hfits hroom

end TPBuffer

/-! ### The callers -/

/-- The events that `process_added` and `process_empty_removed` go on from are in the
tunnel's buffer. -/
def SentKept (ts : TunnelServer) : Prop :=
  (∀ ts', processAddedOnce ts = some (.next (), ts') →
    ∃ id, ts.addQueue.cbPeek = some id ∧
      ts'.tunnelTpb.buffer.contents = ts.tunnelTpb.buffer.contents ++
        TPBuffer.eventBytes ts.tunnelTpb.order clientAdd id.toInt) ∧
  ∀ (i : ℕ) ts', processEmptyRemovedAt ts i = some (.next i, ts') →
    ∃ id, ts.idTable.load i = some id ∧
      ts'.tunnelTpb.buffer.contents = ts.tunnelTpb.buffer.contents ++
        TPBuffer.eventBytes ts.tunnelTpb.order clientRemove id

theorem sentKept_of_room {ts : TunnelServer} (hroom : Room ts.tunnelTpb) : SentKept ts := by
  have hput : ∀ op order, (ts.tunnelTpb.tpbContolMessage op order).1 = true →
      (ts.tunnelTpb.tpbContolMessage op order).2.buffer.contents =
        ts.tunnelTpb.buffer.contents ++ TPBuffer.eventBytes ts.tunnelTpb.order op order :=
    fun op order => ((TPBuffer.allOrNothing_iff_room ts.tunnelTpb op order).mpr hroom).1.mp
  constructor
  · intro ts' h
    unfold processAddedOnce at h
    split at h
    · cases h
    · next id hpeek =>
        dsimp only at h
        split_ifs at h with hfalse
        · cases h
        · simp only [Option.bind_eq_bind, Option.bind_eq_some_iff] at h
          obtain ⟨addQueue, -, h⟩ := h
          cases h
          exact ⟨id, hpeek, hput _ _ (by simpa using hfalse)⟩
  · intro i ts' h
    unfold processEmptyRemovedAt at h
    split_ifs at h with hend
    · cases h
    · simp only [Option.bind_eq_bind, Option.bind_eq_some_iff] at h
      obtain ⟨id, hid, flag, -, buffer, -, h⟩ := h
      split_ifs at h with hskip hfalse
      · simp at h
      · cases h
      · simp only [Option.bind_eq_some_iff] at h
        obtain ⟨removeFlag, -, ts₁, hremove, h⟩ := h
        cases h
        obtain ⟨_, _, _, _, _, -, rfl⟩ := tsActualRemove_cases hremove
        exact ⟨id, hid, hput _ _ (by simpa using hfalse)⟩

/-- `tpb_contol_message` is all or nothing exactly when an open control frame has room
for the event; then its callers lose no event that they go on from. -/
theorem contolMessage_iff (tpb : TPBuffer) (op : CChar) (order : ℤ) :
    (TPBuffer.AllOrNothing tpb op order ↔ Room tpb) ∧
      (Room tpb → ∀ ts : TunnelServer, ts.tunnelTpb = tpb → SentKept ts) := by
  refine ⟨TPBuffer.allOrNothing_iff_room tpb op order, ?_⟩
  rintro hroom ts rfl
  exact sentKept_of_room hroom

/-- After one event has opened a control frame in five bytes, only half of the next one
is put, and the answer is `true`. -/
theorem contolMessage_halves_event :
    ∃ tpb, TPBuffer.Reachable tpb ∧ ¬TPBuffer.AllOrNothing tpb clientAdd 1 := by
  refine ⟨(TPBuffer.tpbContolMessage (TPBuffer.tpbInit (fun _ => 0) 5) clientAdd 0).2,
    ⟨fun _ => 0, 5, [.contolMessage clientAdd 0], rfl⟩, fun h => ?_⟩
  exact absurd (h.1.mp (by decide)) (by decide)

end UnixLabs.Lab34
