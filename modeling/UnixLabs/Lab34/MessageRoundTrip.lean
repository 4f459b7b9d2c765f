import UnixLabs.Lab34.MessageReceiver

/-!
An encoder and a decoder with a line between them.

The decoder follows the de-framer as long as no payload byte is negative as a
`char` and no payload comes under an order that is one of its own negative
results; such bytes are dropped, such orders are taken for none.
-/

namespace UnixLabs.Lab34

open Library Library.Framing

def reportOf (p : CChar × CChar) : ℤ × CChar := (p.1.toInt, p.2)

/-- A byte and its order that the decoder's `int` results can stand for. -/
def Reportable (p : CChar × CChar) : Prop :=
  p.2.toInt ≥ 0 ∧ p.1.toInt ≠ messageBoundary ∧ p.1.toInt ≠ endOfBuffer

/-! ### The decoder follows the de-framer -/

/-- The decoder is where the de-framer is. It misses an order that it cannot
report. -/
def Follows (m : Mode CChar) (r : MessageReceiver.Mode) : Prop :=
  match m with
  | .idle => r.started = false ∧ r.escape = false ∧ r.orderGot = false
  | .opened => r.started = true ∧ r.escape = false ∧ r.orderGot = false
  | .openedQuoted => r.started = true ∧ r.escape = true ∧ r.orderGot = false
  | .body o => r.started = true ∧ r.escape = false ∧
      (r.orderGot = true ∧ r.order = o ∨
        r.orderGot = false ∧ (o.toInt = messageBoundary ∨ o.toInt = endOfBuffer))
  | .bodyQuoted o => r.started = true ∧ r.escape = true ∧
      (r.orderGot = true ∧ r.order = o ∨
        r.orderGot = false ∧ (o.toInt = messageBoundary ∨ o.toInt = endOfBuffer))

theorem follows_initial : Follows .idle .initial := ⟨rfl, rfl, rfl⟩

theorem follows_takeOrder {r : MessageReceiver.Mode} (hstarted : r.started = true)
    (hescape : r.escape = false) (hgot : r.orderGot = false) (c : CChar) :
    Follows (.body c) (r.takeOrder c) := by
  unfold MessageReceiver.Mode.takeOrder
  split_ifs with hc
  · exact ⟨hstarted, hescape, .inr ⟨hgot, hc⟩⟩
  · exact ⟨hstarted, hescape, .inl ⟨rfl, rfl⟩⟩

theorem follows_deliver {r : MessageReceiver.Mode} {o c : CChar} (hstarted : r.started = true)
    (hescape : r.escape = false)
    (horder : r.orderGot = true ∧ r.order = o ∨
      r.orderGot = false ∧ (o.toInt = messageBoundary ∨ o.toInt = endOfBuffer))
    (hok : Reportable (o, c)) :
    r.orderGot = true ∧ Follows (.body o) r ∧ r.deliver c = [reportOf (o, c)] := by
  obtain ⟨hc, hboundary, hend⟩ := hok
  obtain ⟨hgot, rfl⟩ := horder.resolve_right fun hbad => hbad.2.elim hboundary hend
  exact ⟨hgot, ⟨hstarted, hescape, .inl ⟨hgot, rfl⟩⟩, if_pos hc⟩

theorem Follows.feed {m m' : Mode CChar} {r : MessageReceiver.Mode} {c : CChar}
    {es : List (Event CChar)} (h : Follows m r) (hfeed : messageFormat.feed m c = some (m', es))
    (hes : ∀ p ∈ payload es, Reportable p) :
    Follows m' (r.feed c).1 ∧ (r.feed c).2 = (payload es).map reportOf := by
  obtain ⟨order, started, escape, orderGot⟩ := r
  cases m with
  | idle =>
      obtain ⟨rfl, rfl, rfl⟩ := h
      simp only [Format.feed, Option.ite_none_right_eq_some, Option.some.injEq,
        Prod.mk.injEq] at hfeed
      obtain ⟨-, rfl, rfl⟩ := hfeed
      exact ⟨⟨rfl, rfl, rfl⟩, rfl⟩
  | opened =>
      obtain ⟨rfl, rfl, rfl⟩ := h
      by_cases hesc : c = messageEscape
      · subst hesc
        cases hfeed
        exact ⟨⟨rfl, rfl, rfl⟩, rfl⟩
      · have hedge : c ≠ messageEdge := by
          rintro rfl
          cases hfeed
        have hread : messageFormat.feed .opened c = some (.body c, [.frame c]) := by
          simp [Format.feed, messageFormat, hesc, hedge]
        rw [hread] at hfeed
        cases hfeed
        simp only [MessageReceiver.Mode.feed, Bool.not_true, Bool.and_false, Bool.false_eq_true,
          if_false, if_neg hesc, if_neg hedge]
        exact ⟨follows_takeOrder rfl rfl rfl c, rfl⟩
  | openedQuoted =>
      obtain ⟨rfl, rfl, rfl⟩ := h
      cases hfeed
      exact ⟨follows_takeOrder rfl rfl rfl c, rfl⟩
  | body o =>
      obtain ⟨rfl, rfl, horder⟩ := h
      by_cases hesc : c = messageEscape
      · subst hesc
        cases hfeed
        obtain ⟨rfl, rfl⟩ | ⟨rfl, hbad⟩ := horder
        · exact ⟨⟨rfl, rfl, .inl ⟨rfl, rfl⟩⟩, rfl⟩
        · exact ⟨⟨rfl, rfl, .inr ⟨rfl, hbad⟩⟩, rfl⟩
      · by_cases hedge : c = messageEdge
        · subst hedge
          cases hfeed
          obtain ⟨rfl, rfl⟩ | ⟨rfl, -⟩ := horder <;> exact ⟨⟨rfl, rfl, rfl⟩, rfl⟩
        · have hread : messageFormat.feed (.body o) c = some (.body o, [.byte o c]) := by
            simp [Format.feed, messageFormat, hesc, hedge]
          rw [hread] at hfeed
          cases hfeed
          obtain ⟨rfl, hbody, hdeliver⟩ := follows_deliver rfl rfl horder (hes (o, c) (by simp))
          simp only [MessageReceiver.Mode.feed, Bool.not_true, Bool.and_false, Bool.false_eq_true,
            if_false, if_neg hesc, if_neg hedge, if_true, hdeliver]
          exact ⟨hbody, rfl⟩
  | bodyQuoted o =>
      cases hfeed
      obtain ⟨rfl, rfl, horder⟩ := h
      -- the byte itself, without the mark before it
      obtain ⟨rfl, hbody, hdeliver⟩ := follows_deliver (r := ⟨order, true, false, orderGot⟩) rfl rfl
        horder (hes (o, c) (by simp))
      simp only [MessageReceiver.Mode.feed, Bool.not_true, Bool.and_false, Bool.false_eq_true,
        if_false, if_true, hdeliver]
      exact ⟨hbody, rfl⟩

theorem Follows.feeds {m m' : Mode CChar} {r : MessageReceiver.Mode} {cs : List CChar}
    {es : List (Event CChar)} (h : Follows m r) (hread : messageFormat.deframe m cs = some (m', es))
    (hes : ∀ p ∈ payload es, Reportable p) :
    Follows m' (r.feeds cs).1 ∧ (r.feeds cs).2 = (payload es).map reportOf := by
  induction cs generalizing m r es with
  | nil =>
      cases hread
      exact ⟨h, rfl⟩
  | cons c cs ih =>
      obtain ⟨m₁, es₁, es₂, hfeed, hrest, rfl⟩ :=
        Format.deframe_split [c] cs hread
      rw [Format.deframe_singleton] at hfeed
      rw [payload_append] at hes
      obtain ⟨h₁, hds⟩ := h.feed hfeed fun p hp => hes p (List.mem_append_left _ hp)
      obtain ⟨h₂, hds'⟩ := ih h₁ hrest fun p hp => hes p (List.mem_append_right _ hp)
      refine ⟨h₂, ?_⟩
      rw [MessageReceiver.Mode.feeds_cons, hds, hds', payload_append, List.map_append]

/-! ### Runs of the line -/

/-- Both ends and the bytes between them, what the encoder's callers were told it
accepted, the bytes the decoder has taken out of its buffer and what it has
reported. -/
structure LinkWorld where
  mb : MessageBuffer
  wire : List CChar
  mr : MessageReceiver
  accepted : List (CChar × CChar)
  taken : List CChar
  reported : List (ℤ × CChar)

def LinkWorld.start (junk junk' : ℕ → CChar) (size size' : ℕ) : LinkWorld where
  mb := MessageBuffer.initMb junk size
  wire := []
  mr := MessageReceiver.initMr junk' size'
  accepted := []
  taken := []
  reported := []

inductive LinkOp
  | encapsulate (data : List CChar) (order : CChar)
  | drain (count : ℕ)
  | deliver (count : ℕ)
  | read (p : MessageReceiver.Pass)

def linkStep (w : LinkWorld) : LinkOp → Option LinkWorld
  | .encapsulate data order =>
      let (ret, mb) := w.mb.encapsulate data order
      some { w with
        mb
        accepted := w.accepted ++ (data.take ret.toNat).map fun c => (order, c) }
  | .drain count =>
      let (ret, message) := w.mb.message.iobSend (some count)
      some { w with
        mb := { w.mb with message }
        wire := w.wire ++ w.mb.message.contents.take ret.toNat }
  | .deliver count =>
      let (ret, message) := w.mr.message.iobRecv (some (w.wire.take count))
      some { w with
        mr := { w.mr with message }
        wire := w.wire.drop ret.toNat }
  | .read p =>
      let (ds, mr) := w.mr.pass p
      some { w with
        mr
        taken := w.taken ++
          w.mr.message.contents.take (w.mr.message.count - mr.message.count)
        reported := w.reported ++ ds }

/-- Of what was accepted, the de-framer reads in the bytes the decoder has taken
exactly what was reported. It reads the rest in what is still in the decoder's
buffer, on the wire, in the encoder's buffer and pending. -/
def RoundTrip (w : LinkWorld) : Prop :=
  ∃ m m' es es', messageFormat.deframe .idle w.taken = some (m, es) ∧
    messageFormat.deframe m (w.mr.message.contents ++ w.wire ++ w.mb.produced) = some (m', es') ∧
    w.reported = (payload es).map reportOf ∧ w.accepted = payload es ++ payload es'

def LinkOp.Plain : LinkOp → Prop
  | .encapsulate data order => ∀ c ∈ data, Reportable (order, c)
  | .drain _ | .deliver _ | .read _ => True

/-- Both ends of the line: the bytes on it are an encoding of what was accepted,
and the decoder is in the mode of the bytes it has taken. -/
structure LinkWorld.Linked (w : LinkWorld) : Prop where
  encoding : MessageBuffer.Encoding (w.taken ++ w.mr.message.contents ++ w.wire) w.mb w.accepted
  mode : MessageReceiver.Mode.initial.feeds w.taken = (w.mr.mode, w.reported)
  reportable : ∀ p ∈ w.accepted, Reportable p

theorem LinkWorld.Linked.roundTrip {w : LinkWorld} (h : w.Linked) : RoundTrip w := by
  obtain ⟨events, hread, hpayload⟩ := h.encoding.reads
  rw [List.append_assoc, List.append_assoc] at hread
  obtain ⟨m, es, es', htaken, hrest, rfl⟩ := Format.deframe_split _ _ hread
  rw [payload_append] at hpayload
  obtain ⟨-, hreported⟩ := follows_initial.feeds htaken
    fun p hp => h.reportable p (hpayload ▸ List.mem_append_left _ hp)
  rw [h.mode] at hreported
  exact ⟨m, _, es, es', htaken, by rwa [List.append_assoc], hreported, hpayload.symm⟩

theorem linked_start (junk junk' : ℕ → CChar) (size size' : ℕ) :
    (LinkWorld.start junk junk' size size').Linked where
  encoding := MessageBuffer.encoding_initMb junk size
  mode := rfl
  reportable := by simp [LinkWorld.start]

theorem LinkWorld.Linked.step {w : LinkWorld} (h : w.Linked) {op : LinkOp} (hop : op.Plain) :
    ∃ w', linkStep w op = some w' ∧ w'.Linked := by
  cases op with
  | encapsulate data order =>
      obtain ⟨ret, mb', hret, -, h'⟩ := h.encoding.encapsulate data order
      refine ⟨{ w with
          mb := mb'
          accepted := w.accepted ++ (data.take ret.toNat).map fun c => (order, c) },
        by rw [linkStep, hret], h', h.mode, ?_⟩
      intro p hp
      rcases List.mem_append.mp hp with hp | hp
      · exact h.reportable p hp
      · obtain ⟨c, hc, rfl⟩ := List.mem_map.mp hp
        exact hop c (List.mem_of_mem_take hc)
  | drain count =>
      refine ⟨{ w with
          mb := { w.mb with message := (w.mb.message.iobSend (some count)).2 }
          wire := w.wire ++
            w.mb.message.contents.take (w.mb.message.iobSend (some count)).1.toNat },
        rfl, ?_, h.mode, h.reportable⟩
      simpa only [List.append_assoc] using h.encoding.drain count
  | deliver count =>
      refine ⟨{ w with
          mr := { w.mr with message := (w.mr.message.iobRecv (some (w.wire.take count))).2 }
          wire := w.wire.drop (w.mr.message.iobRecv (some (w.wire.take count))).1.toNat },
        rfl, ?_, h.mode, h.reportable⟩
      obtain ⟨hrecv, hle⟩ := IOBuffer.contents_iobRecv w.mr.message (w.wire.take count)
      have hsame : (w.wire.take count).take
            (w.mr.message.iobRecv (some (w.wire.take count))).1.toNat ++
          w.wire.drop (w.mr.message.iobRecv (some (w.wire.take count))).1.toNat = w.wire := by
        rw [List.length_take] at hle
        rw [List.take_take, min_eq_left (by omega), List.take_append_drop]
      dsimp only
      rw [hrecv]
      simpa only [List.append_assoc, hsame] using h.encoding
  | read p =>
      obtain ⟨bytes, hpass, -⟩ := w.mr.pass_spec p
      have hbytes : w.mr.message.contents.take
          (w.mr.message.count - (w.mr.pass p).2.message.count) = bytes := by
        have hlen := congrArg List.length hpass.contents
        rw [List.length_append, IOBuffer.length_contents, IOBuffer.length_contents] at hlen
        rw [hpass.contents, List.take_left' (by omega)]
      refine ⟨{ w with
          mr := (w.mr.pass p).2
          taken := w.taken ++ bytes
          reported := w.reported ++ (w.mr.pass p).1 }, ?_, ?_, ?_, h.reportable⟩
      · simp only [linkStep, hbytes]
      · have hencoding := h.encoding
        rw [hpass.contents] at hencoding
        simpa only [List.append_assoc] using hencoding
      · rw [MessageReceiver.Mode.feeds_append, h.mode, hpass.feeds]

/-- In every run in which all payload is reportable, the decoder reports what the
encoder accepted, in every state reached. -/
theorem link_run (junk junk' : ℕ → CChar) (size size' : ℕ) {ops : List LinkOp}
    (hops : ∀ op ∈ ops, op.Plain) :
    RunKeeps RoundTrip linkStep (LinkWorld.start junk junk' size size') ops :=
  runKeeps_of_meets (C := fun _ op => LinkOp.Plain op) (fun _ h => h.roundTrip)
    (fun _ _ h hop => h.step hop) (linked_start junk junk' size size') (runMeets_of_forall hops)

theorem link_run_frame :
    RunKeeps RoundTrip linkStep (LinkWorld.start (fun _ => 0) (fun _ => 0) 16 4)
      [.encapsulate [104, 0x7E] 5, .drain 3, .deliver 3, .read ⟨1, false⟩, .encapsulate [] 6,
        .drain 9, .deliver 9, .read ⟨5, false⟩] :=
  link_run _ _ 16 4 (by simp [LinkOp.Plain, Reportable, messageBoundary, endOfBuffer])

/-- The payload byte 200 is accepted, sent and taken, and never reported. -/
theorem link_loses_negative_byte :
    ¬RunKeeps RoundTrip linkStep (LinkWorld.start (fun _ => 0) (fun _ => 0) 16 16)
      [.encapsulate [200] 5, .drain 3, .deliver 3, .read ⟨1, false⟩] := by
  intro h
  obtain ⟨w, hw, hround⟩ := h.last
  have hend : (run linkStep (LinkWorld.start (fun _ => 0) (fun _ => 0) 16 16)
      [.encapsulate [200] 5, .drain 3, .deliver 3, .read ⟨1, false⟩]).map
        (fun w => (w.taken, w.reported)) = some ([0x7E, 5, 200], []) := by
    decide +kernel
  rw [hw, Option.map_some, Option.some_inj, Prod.mk.injEq] at hend
  obtain ⟨htaken, hreported⟩ := hend
  obtain ⟨m, m', es, es', hread, -, hsame, -⟩ := hround
  have hread' : messageFormat.deframe .idle [0x7E, 5, 200] =
      some (.body 5, [.frame 5, .byte 5 200]) := by decide
  rw [htaken, hread'] at hread
  cases hread
  rw [hreported] at hsame
  exact absurd hsame (by decide)

end UnixLabs.Lab34
