import UnixLabs.Lab34.MessageBuffer
import UnixLabs.Lab34.ReceiverChunks
import UnixLabs.Lab34.TransportProtocolBuffer

/-!
The orders of the tunnel's frames, as a `MessageReceiver` reports them.

`tpb_put_order` writes the order as a raw byte. The receiver reads that byte as a
`char`: from 128 on it is negative, 254 and 255 are its own negative results, and
the two reserved bytes are taken for framing.
-/

namespace UnixLabs.Lab34

open Library Library.Framing

structure Frame where
  order : Fin 256
  payload : List CChar

def Frame.body (f : Frame) : List CChar := f.payload.flatMap messageFormat.quote

def orderByte (order : Fin 256) : CChar := BitVec.ofInt 8 (order : ℕ)

def putFrame (tpb : TPBuffer) (f : Frame) : TPBuffer :=
  f.body.foldl TPBuffer.put (tpb.tpbPutOrder (f.order : ℕ))

def putFrames (junk : ℕ → CChar) (size : ℕ) (frames : List Frame) : TPBuffer :=
  frames.foldl putFrame (TPBuffer.tpbInit junk size)

def framesLength (frames : List Frame) : ℕ := (frames.map fun f => 3 + f.body.length).sum

theorem framesLength_append_cons (before : List Frame) (f : Frame) (after : List Frame) :
    framesLength (before ++ f :: after) =
      framesLength before + (3 + f.body.length + framesLength after) := by
  simp [framesLength]

/-- Whenever the order of a frame has been put and any part of its body, and a new
receiver has been given all the bytes so far in any chunks, it reports that
order. -/
def OrdersAgree (frames : List Frame) : Prop :=
  ∀ before f after, frames = before ++ f :: after → ∀ part, part <+: f.body →
    ∀ junk size junk' size' chunks, framesLength frames ≤ size →
      chunks.flatMap MessageReceiver.Chunk.bytes =
        (part.foldl TPBuffer.put
          ((putFrames junk size before).tpbPutOrder (f.order : ℕ))).buffer.contents →
      (∀ c ∈ chunks, c.bytes.length ≤ size') →
      (MessageReceiver.getCurrentOrder
        (MessageReceiver.receive (MessageReceiver.initMr junk' size') chunks).2).1 =
          ((f.order : ℕ) : ℤ)

/-- An order that is a non-negative `char` and no reserved byte. -/
def PlainOrder (order : Fin 256) : Prop :=
  (order : ℕ) < 128 ∧ (order : ℕ) ≠ 125 ∧ (order : ℕ) ≠ 126

/-! ### What the receiver makes of an order -/

namespace MessageReceiver

/-- On an empty buffer the answer is what the receiver knows already. -/
theorem getCurrentOrder_empty {mr : MessageReceiver} (h : mr.message.contents = []) :
    (getCurrentOrder mr).1 = if mr.orderGot then mr.order.toInt else mrNoOrder := by
  obtain ⟨bytes, hparse⟩ := tryParseOrder_spec mr
  have hbytes : bytes = [] := by
    have := hparse.consumes.contents
    rw [h] at this
    exact (List.append_eq_nil_iff.mp this.symm).1
  have hmode := hparse.consumes.feeds
  rw [hbytes, Mode.feeds_nil, Prod.mk.injEq] at hmode
  have horder : mr.order = (tryParseOrder mr).2.order := congrArg Mode.order hmode.1
  have hgot : mr.orderGot = (tryParseOrder mr).2.orderGot := congrArg Mode.orderGot hmode.1
  rw [getCurrentOrder, hparse.answer, horder, hgot]

def Mode.answer (m : Mode) : ℤ := if m.orderGot then m.order.toInt else mrNoOrder

def seenOrder (c : CChar) : ℤ :=
  if c = messageEscape ∨ c = messageEdge ∨ c.toInt = messageBoundary ∨ c.toInt = endOfBuffer then
    mrNoOrder
  else c.toInt

theorem answer_feed_order (o c : CChar) :
    ((Mode.mk o true false false).feed c).1.answer = seenOrder c := by
  unfold Mode.feed seenOrder
  simp only [Bool.not_false, Bool.not_true, Bool.and_false, Bool.false_eq_true, if_false]
  split_ifs with hesc hall hedge hall hall <;> simp_all [Mode.answer, Mode.takeOrder]

def Mode.inFrame (o : CChar) : Mode := ⟨o, true, false, true⟩

theorem feed_order {o c : CChar} (h : 0 ≤ seenOrder c) :
    (Mode.mk o true false false).feed c = (.inFrame c, []) := by
  unfold seenOrder at h
  split_ifs at h with hbad
  · exact absurd h (by decide)
  · simp only [not_or] at hbad
    simp [Mode.feed, Mode.takeOrder, Mode.inFrame, hbad]

end MessageReceiver

theorem seenOrder_eq_iff : ∀ order : Fin 256,
    MessageReceiver.seenOrder (orderByte order) = ((order : ℕ) : ℤ) ↔ PlainOrder order := by
  unfold PlainOrder
  decide +kernel

/-- The receiver reads a plain order back as the number it stands for. -/
theorem PlainOrder.toInt_orderByte {order : Fin 256} (h : PlainOrder order) :
    (orderByte order).toInt = ((order : ℕ) : ℤ) := by
  have hseen := (seenOrder_eq_iff order).mpr h
  unfold MessageReceiver.seenOrder at hseen
  split_ifs at hseen
  · unfold mrNoOrder at hseen
    omega
  · exact hseen

theorem controlLength_le (tpb : TPBuffer) : tpb.controlLength ≤ 3 := by
  unfold TPBuffer.controlLength
  split_ifs <;> omega

/-! ### The receiver next to the sender -/

def modeAfter (tpb : TPBuffer) : MessageReceiver.Mode :=
  (MessageReceiver.Mode.initial.feeds tpb.buffer.contents).1

/-- A sender that opened no frame yet left the receiver as it was; otherwise the
receiver is inside a frame. -/
def Synced (tpb : TPBuffer) : Prop :=
  (tpb.order = tpbNoOrder ∧ modeAfter tpb = .initial) ∨
    tpb.order ≠ tpbNoOrder ∧ ∃ o, modeAfter tpb = .inFrame o

theorem modeAfter_append {tpb tpb' : TPBuffer} {bytes : List CChar}
    (h : tpb'.buffer.contents = tpb.buffer.contents ++ bytes) :
    modeAfter tpb' = ((modeAfter tpb).feeds bytes).1 := by
  rw [modeAfter, h, MessageReceiver.Mode.feeds_append]
  rfl

/-- The receiver takes the order of a new frame where it expects one. -/
theorem Synced.putOrder {tpb : TPBuffer} (h : Synced tpb) (order : Fin 256)
    (hroom : tpb.controlLength ≤ tpb.buffer.cbFreeSpace) :
    ∃ o, modeAfter (tpb.tpbPutOrder (order : ℕ)) =
      ((MessageReceiver.Mode.mk o true false false).feed (orderByte order)).1 := by
  have hmode := modeAfter_append (TPBuffer.contents_tpbPutOrder (order : ℕ) hroom).1
  rcases h with ⟨hno, hinitial⟩ | ⟨hsome, o, hframe⟩
  · refine ⟨0, ?_⟩
    rw [hmode, hinitial, hno]
    rfl
  · refine ⟨o, ?_⟩
    rw [hmode, hframe, TPBuffer.header, if_neg hsome]
    rfl

/-- Any part of a body leaves the receiver in its frame, and all of it leaves no
quoting under way. -/
theorem feeds_body (o : CChar) {payload part : List CChar}
    (h : part <+: payload.flatMap messageFormat.quote) :
    ((MessageReceiver.Mode.inFrame o).feeds part).1.answer = o.toInt ∧
      (part = payload.flatMap messageFormat.quote →
        ((MessageReceiver.Mode.inFrame o).feeds part).1 = .inFrame o) := by
  induction payload generalizing part with
  | nil =>
      rw [List.flatMap_nil, List.prefix_nil] at h
      subst h
      exact ⟨rfl, fun _ => rfl⟩
  | cons c payload ih =>
      rw [List.flatMap_cons] at h ⊢
      by_cases hc : c = messageEscape ∨ c = messageEdge
      · -- the escape, and then the byte it quotes
        have hquote : messageFormat.quote c = [messageEscape, c] := if_pos hc
        have hfeed : ∀ rest, ((MessageReceiver.Mode.inFrame o).feeds
            (messageEscape :: c :: rest)).1 = ((MessageReceiver.Mode.inFrame o).feeds rest).1 :=
          fun _ => rfl
        rw [hquote, List.cons_append, List.cons_append, List.nil_append] at h ⊢
        rcases List.prefix_cons_iff.mp h with rfl | ⟨part₁, rfl, h₁⟩
        · exact ⟨rfl, by simp⟩
        · rcases List.prefix_cons_iff.mp h₁ with rfl | ⟨part₂, rfl, h₂⟩
          · exact ⟨rfl, by simp⟩
          · obtain ⟨hanswer, hall⟩ := ih h₂
            rw [hfeed]
            exact ⟨hanswer, fun heq => hall (List.tail_eq_of_cons_eq (List.tail_eq_of_cons_eq heq))⟩
      · have hquote : messageFormat.quote c = [c] := if_neg hc
        have hfeed : ∀ rest, ((MessageReceiver.Mode.inFrame o).feeds (c :: rest)).1 =
            ((MessageReceiver.Mode.inFrame o).feeds rest).1 := by
          intro rest
          rw [not_or] at hc
          rw [MessageReceiver.Mode.feeds_cons]
          simp [MessageReceiver.Mode.feed, MessageReceiver.Mode.inFrame, hc]
        rw [hquote, List.singleton_append] at h ⊢
        rcases List.prefix_cons_iff.mp h with rfl | ⟨part₁, rfl, h₁⟩
        · exact ⟨rfl, by simp⟩
        · obtain ⟨hanswer, hall⟩ := ih h₁
          rw [hfeed]
          exact ⟨hanswer, fun heq => hall (List.tail_eq_of_cons_eq heq)⟩

/-- After a plain order the receiver answers with it, whatever part of the body
has arrived. -/
theorem Synced.putPart {tpb : TPBuffer} (h : Synced tpb) {f : Frame} (hplain : PlainOrder f.order)
    {part : List CChar} (hpart : part <+: f.body)
    (hroom : tpb.buffer.contents.length + 3 + part.length ≤ tpb.buffer.size) :
    (modeAfter (part.foldl TPBuffer.put (tpb.tpbPutOrder (f.order : ℕ)))).answer =
        ((f.order : ℕ) : ℤ) ∧
      (part = f.body → Synced (putFrame tpb f)) ∧
      (part.foldl TPBuffer.put (tpb.tpbPutOrder (f.order : ℕ))).buffer.contents.length ≤
        tpb.buffer.contents.length + 3 + part.length ∧
      (part.foldl TPBuffer.put (tpb.tpbPutOrder (f.order : ℕ))).buffer.size =
        tpb.buffer.size := by
  have hlength := controlLength_le tpb
  have hfree : tpb.controlLength ≤ tpb.buffer.cbFreeSpace := by
    rw [TPBuffer.cbFreeSpace_eq]
    omega
  have hseen := (seenOrder_eq_iff f.order).mpr hplain
  obtain ⟨o, hmode⟩ := h.putOrder f.order hfree
  obtain ⟨hcontents, hsize⟩ := TPBuffer.contents_tpbPutOrder (f.order : ℕ) hfree
  have hlen : (tpb.tpbPutOrder (f.order : ℕ)).buffer.contents.length =
      tpb.buffer.contents.length + tpb.controlLength := by
    rw [hcontents, List.length_append, TPBuffer.length_header]
  have hroom : part.length ≤ (tpb.tpbPutOrder (f.order : ℕ)).buffer.cbFreeSpace := by
    rw [TPBuffer.cbFreeSpace_eq]
    omega
  obtain ⟨hput, hsize', horder⟩ := TPBuffer.contents_puts hroom
  rw [MessageReceiver.feed_order (by rw [hseen]; omega)] at hmode
  obtain ⟨hanswer, hall⟩ := feeds_body (orderByte f.order) hpart
  have hafter : modeAfter (part.foldl TPBuffer.put (tpb.tpbPutOrder (f.order : ℕ))) =
      ((MessageReceiver.Mode.inFrame (orderByte f.order)).feeds part).1 := by
    rw [modeAfter_append hput, hmode]
  refine ⟨by rw [hafter, hanswer, hplain.toInt_orderByte],
    fun heq => .inr ⟨?_, orderByte f.order, ?_⟩, ?_, ?_⟩
  · have : (putFrame tpb f).order = ((f.order : ℕ) : ℤ) := by
      subst heq
      exact horder
    rw [this]
    unfold tpbNoOrder
    omega
  · subst heq
    exact hafter.trans (hall rfl)
  · rw [hput, List.length_append]
    omega
  · exact hsize'.trans hsize

theorem Synced.putFrames {tpb : TPBuffer} (h : Synced tpb) {frames : List Frame}
    (hplain : ∀ f ∈ frames, PlainOrder f.order)
    (hroom : tpb.buffer.contents.length + framesLength frames ≤ tpb.buffer.size) :
    Synced (frames.foldl putFrame tpb) ∧
      (frames.foldl putFrame tpb).buffer.contents.length ≤
        tpb.buffer.contents.length + framesLength frames ∧
      (frames.foldl putFrame tpb).buffer.size = tpb.buffer.size := by
  induction frames generalizing tpb with
  | nil => exact ⟨h, by simp, rfl⟩
  | cons f frames ih =>
      have hsum : framesLength (f :: frames) = 3 + f.body.length + framesLength frames := by
        simp [framesLength]
      obtain ⟨-, hsynced, hlen, hsize⟩ := h.putPart (hplain f List.mem_cons_self)
        (List.prefix_refl f.body) (by omega)
      have hlen₁ : (putFrame tpb f).buffer.contents.length ≤
          tpb.buffer.contents.length + 3 + f.body.length := hlen
      have hsize₁ : (putFrame tpb f).buffer.size = tpb.buffer.size := hsize
      obtain ⟨hsynced', hlen', hsize'⟩ := ih (hsynced rfl)
        (fun f' hf' => hplain f' (List.mem_cons_of_mem f hf')) (by omega)
      exact ⟨hsynced', by rw [List.foldl_cons]; omega, hsize'.trans hsize₁⟩

theorem synced_putFrames (junk : ℕ → CChar) {size : ℕ} {frames : List Frame}
    (hplain : ∀ f ∈ frames, PlainOrder f.order) (hroom : framesLength frames ≤ size) :
    Synced (putFrames junk size frames) ∧
      (putFrames junk size frames).buffer.contents.length ≤ framesLength frames ∧
      (putFrames junk size frames).buffer.size = size := by
  have h : Synced (TPBuffer.tpbInit junk size) := .inl ⟨rfl, rfl⟩
  have hempty : (TPBuffer.tpbInit junk size).buffer.contents.length = 0 := rfl
  have hsize : (TPBuffer.tpbInit junk size).buffer.size = size := rfl
  have hput := h.putFrames hplain (by rwa [hempty, hsize, Nat.zero_add])
  rw [hempty, hsize, Nat.zero_add] at hput
  exact hput

/-- However the bytes came, the receiver's answer is that of its mode. -/
theorem getCurrentOrder_receive {tpb : TPBuffer} {junk : ℕ → CChar} {size : ℕ}
    {chunks : List MessageReceiver.Chunk}
    (hbytes : chunks.flatMap MessageReceiver.Chunk.bytes = tpb.buffer.contents)
    (hfit : ∀ c ∈ chunks, c.bytes.length ≤ size) :
    (MessageReceiver.getCurrentOrder
      (MessageReceiver.receive (MessageReceiver.initMr junk size) chunks).2).1 =
        (modeAfter tpb).answer := by
  obtain ⟨hfeeds, hnil⟩ := MessageReceiver.receive_spec (MessageReceiver.initMr junk size)
    chunks (fun h => by simp [MessageReceiver.mode, MessageReceiver.initMr] at h) rfl hfit
  rw [MessageReceiver.getCurrentOrder_empty hnil]
  have hmode : modeAfter tpb =
      (MessageReceiver.receive (MessageReceiver.initMr junk size) chunks).2.mode := by
    rw [modeAfter, ← hbytes]
    exact congrArg Prod.fst hfeeds
  rw [hmode]
  rfl

instance (order : Fin 256) : Decidable (PlainOrder order) := inferInstanceAs (Decidable (_ ∧ _))

/-- After plain orders, agreement on one more order makes it a plain one: its bytes
alone, delivered at once, already tell. -/
theorem plain_of_agree {before after : List Frame} {f : Frame}
    (hagree : OrdersAgree (before ++ f :: after)) (hplain : ∀ f' ∈ before, PlainOrder f'.order) :
    PlainOrder f.order := by
  have hroom := framesLength_append_cons before f after
  let size := framesLength (before ++ f :: after)
  let tpb := (putFrames (fun _ => 0) size before).tpbPutOrder (f.order : ℕ)
  let chunks := [MessageReceiver.Chunk.read tpb.buffer.contents 0 false]
  obtain ⟨hsynced, hlen, hsize⟩ := synced_putFrames (fun _ => 0) hplain
    (by omega : framesLength before ≤ size)
  have hlength := controlLength_le (putFrames (fun _ => 0) size before)
  obtain ⟨o, hmode⟩ := hsynced.putOrder f.order (by rw [TPBuffer.cbFreeSpace_eq, hsize]; omega)
  have hbytes : chunks.flatMap MessageReceiver.Chunk.bytes = tpb.buffer.contents :=
    List.append_nil _
  have hfit : ∀ c ∈ chunks, c.bytes.length ≤ tpb.buffer.contents.length := by
    simp [chunks, MessageReceiver.Chunk.read]
  have hanswer := hagree before f after rfl [] List.nil_prefix (fun _ => 0) size (fun _ => 0) _ _
    le_rfl hbytes hfit
  rwa [getCurrentOrder_receive hbytes hfit, hmode, MessageReceiver.answer_feed_order,
    seenOrder_eq_iff] at hanswer

/-- Sender and receiver agree on all orders, wherever the bytes are cut, exactly
when every order is a non-negative `char` and no reserved byte. -/
theorem ordersAgree_iff (frames : List Frame) :
    OrdersAgree frames ↔ ∀ f ∈ frames, PlainOrder f.order := by
  constructor
  · intro hagree
    by_contra hbad
    -- the first order that is not plain is missed as soon as it has been put
    obtain ⟨f, hf⟩ : ∃ f, frames.find? (fun f => ¬PlainOrder f.order) = some f := by
      rw [← Option.isSome_iff_exists, List.find?_isSome]
      push Not at hbad
      simpa using hbad
    obtain ⟨hnot, before, after, rfl, hplain⟩ := List.find?_eq_some_iff_append.mp hf
    have hgood := plain_of_agree hagree (by simpa using hplain)
    simp [hgood] at hnot
  · intro hplain before f after hsplit part hpart junk size junk' size' chunks hsize hbytes hfit
    have hlength := framesLength_append_cons before f after
    rw [← hsplit] at hlength
    obtain ⟨hsynced, hlen, hsize'⟩ := synced_putFrames junk
      (fun f' hf' => hplain f' (hsplit ▸ List.mem_append_left _ hf'))
      (by omega : framesLength before ≤ size)
    have hlen' := hpart.length_le
    rw [getCurrentOrder_receive hbytes hfit]
    exact (hsynced.putPart (hplain f (hsplit ▸ by simp)) hpart (by omega)).1

/-- Order 126 has been received and is taken for the end of its frame. -/
theorem orders_disagree_on_edge : ¬OrdersAgree [⟨126, []⟩] := by
  intro h
  have hanswer := h [] ⟨126, []⟩ [] rfl [] List.nil_prefix (fun _ => 0) 3 (fun _ => 0) 3
    [.read [0x7E, 0x7E] 0 false] le_rfl (by decide) (by simp [MessageReceiver.Chunk.read])
  exact absurd hanswer (by decide)

end UnixLabs.Lab34
