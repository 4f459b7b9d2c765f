import UnixLabs.IOBuffer
import UnixLabs.Library.Run
import UnixLabs.Lab34.Protocol

/-!
`lab34/message_buffer.c`: the encoder of multiplexed messages.

`encapsulate` may run out of space at every put and has to resume from its flags
alone. What it has produced is what left the buffer, what is in the buffer and a
quoted byte that is still to follow its escape; the main result reads all of this
with the de-framer.
-/

namespace UnixLabs.Lab34

open Library Library.Framing

def noSpace : ℤ := -1

/-- The frames of `MessageBuffer` and `MessageReceiver`: an order may be quoted. -/
def messageFormat : Format CChar where
  edge := messageEdge
  escape := messageEscape
  edge_ne_escape := messageEdge_ne_messageEscape
  quotesOrder := true

structure MessageBuffer where
  message : IOBuffer
  order : CChar
  escape : Bool
  escapedChar : CChar
  startPut : Bool
  orderPut : Bool

namespace MessageBuffer

def needEscape (c : CChar) : Bool := c == messageEscape || c == messageEdge

def initMb (junk : ℕ → CChar) (size : ℕ) : MessageBuffer where
  message := IOBuffer.initIobuf junk size
  order := 0
  escape := false
  escapedChar := 0
  startPut := false
  orderPut := false

def mbFull (mb : MessageBuffer) : Bool := mb.message.iobFull

def tryPut (mb : MessageBuffer) (c : CChar) : Bool × MessageBuffer :=
  if mbFull mb then (false, mb)
  else (true, { mb with message := (mb.message.iobPutc c).2 })

def putEscapedChar (mb : MessageBuffer) : Bool × MessageBuffer :=
  if mb.escape then
    let (put, mb) := tryPut mb mb.escapedChar
    if !put then (false, mb) else (true, { mb with escape := false })
  else (true, mb)

def putStart (mb : MessageBuffer) : Bool × MessageBuffer :=
  if mb.startPut then (true, mb)
  else
    let (put, mb) := tryPut mb messageEdge
    if !put then (false, mb) else (true, { mb with startPut := true })

def putChar (mb : MessageBuffer) (c : CChar) : Bool × MessageBuffer :=
  let (put, mb) := putEscapedChar mb
  if !put then (false, mb)
  else if needEscape c then
    let (put, mb) := tryPut mb messageEscape
    if !put then (false, mb) else (true, { mb with escape := true, escapedChar := c })
  else tryPut mb c

def putOrder (mb : MessageBuffer) : Bool × MessageBuffer :=
  if mb.orderPut then (true, mb)
  else
    let (put, mb) := putEscapedChar mb
    if !put then (false, mb)
    else if needEscape mb.order then
      let (put, mb) := tryPut mb messageEscape
      if !put then (false, mb)
      else (true, { mb with escape := true, escapedChar := mb.order, orderPut := true })
    else
      let (put, mb) := tryPut mb mb.order
      if !put then (false, mb) else (true, { mb with orderPut := true })

/-- The first block of `encapsulate`: an open frame is completed and closed. -/
def putBoundary (mb : MessageBuffer) : Bool × MessageBuffer :=
  let (put, mb) := putOrder mb
  if !put then (false, mb)
  else
    let (put, mb) := putEscapedChar mb
    if !put then (false, mb)
    else
      let (put, mb) := tryPut mb messageEdge
      if !put then (false, mb) else (true, { mb with startPut := false })

/-- The loop of `encapsulate`: how many bytes were put. -/
def putChars (mb : MessageBuffer) : List CChar → ℕ × MessageBuffer
  | [] => (0, mb)
  | c :: data =>
      let (put, mb) := putChar mb c
      if !put then (0, mb)
      else
        let (i, mb) := putChars mb data
        (i + 1, mb)

/-- The rest of `encapsulate`, with no frame of another order open. -/
def putFrame (mb : MessageBuffer) (data : List CChar) (order : CChar) : ℕ × MessageBuffer :=
  let mb := if mb.order != order then { mb with order, orderPut := false } else mb
  let (started, mb) := putStart mb
  if !started then (0, mb)
  else
    let (ordered, mb) := putOrder mb
    if !ordered then (0, mb) else putChars mb data

def encapsulate (mb : MessageBuffer) (data : List CChar) (order : CChar) : ℤ × MessageBuffer :=
  let (closed, mb) :=
    if mb.startPut && mb.order != order then putBoundary mb else (true, mb)
  if !closed then (noSpace, mb)
  else
    let (count, mb) := putFrame mb data order
    (count, mb)

/-! ### What has been produced -/

/-- The bytes in the buffer and the quoted byte that is to follow them. -/
def produced (mb : MessageBuffer) : List CChar :=
  mb.message.contents ++ if mb.escape then [mb.escapedChar] else []

def mode (mb : MessageBuffer) : Mode CChar :=
  if !mb.startPut then .idle else if !mb.orderPut then .opened else .body mb.order

/-- `sent` has left the buffer. With what is still in it, it is frames that carry
`accepted`, and the flags say where the last frame stands. -/
structure Encoding (sent : List CChar) (mb : MessageBuffer) (accepted : List (CChar × CChar)) :
    Prop where
  reads : ∃ events, messageFormat.deframe .idle (sent ++ produced mb) = some (mode mb, events) ∧
    payload events = accepted
  ordered : mb.escape = true → mb.orderPut = true
  started : mb.orderPut = true → mb.startPut = true

/-- Bytes that are produced next are read from the mode of the flags. -/
theorem Encoding.extend {sent : List CChar} {mb mb' : MessageBuffer}
    {accepted more : List (CChar × CChar)} (h : Encoding sent mb accepted) {bytes : List CChar}
    (events : List (Event CChar)) (hput : produced mb' = produced mb ++ bytes)
    (hread : messageFormat.deframe (mode mb) bytes = some (mode mb', events))
    (hmore : payload events = more) (hordered : mb'.escape = true → mb'.orderPut = true)
    (hstarted : mb'.orderPut = true → mb'.startPut = true) :
    Encoding sent mb' (accepted ++ more) := by
  obtain ⟨before, hbefore, rfl⟩ := h.reads
  refine ⟨⟨before ++ events, ?_, by rw [payload_append, hmore]⟩, hordered, hstarted⟩
  rw [hput, ← List.append_assoc]
  exact Format.deframe_trans hbefore hread

theorem Encoding.extend_nil {sent : List CChar} {mb mb' : MessageBuffer}
    {accepted : List (CChar × CChar)} (h : Encoding sent mb accepted) (bytes : List CChar)
    (events : List (Event CChar)) (hput : produced mb' = produced mb ++ bytes)
    (hread : messageFormat.deframe (mode mb) bytes = some (mode mb', events))
    (hnone : payload events = []) (hordered : mb'.escape = true → mb'.orderPut = true)
    (hstarted : mb'.orderPut = true → mb'.startPut = true) : Encoding sent mb' accepted := by
  simpa using h.extend events hput hread hnone hordered hstarted

theorem encoding_initMb (junk : ℕ → CChar) (size : ℕ) : Encoding [] (initMb junk size) [] where
  reads := ⟨[], rfl, rfl⟩
  ordered := by simp [initMb]
  started := by simp [initMb]

/-! ### Single puts -/

/-- A put without a pending byte either fails and changes nothing or appends. -/
theorem tryPut_spec (mb : MessageBuffer) (c : CChar) :
    (tryPut mb c = (false, mb)) ∨
      ∃ message, tryPut mb c = (true, { mb with message }) ∧
        message.contents = mb.message.contents ++ [c] := by
  unfold tryPut
  cases hfull : mbFull mb with
  | true => exact .inl rfl
  | false => exact .inr ⟨_, rfl, (IOBuffer.contents_iobPutc hfull c).1⟩

/-- The pending byte leaves its field for the buffer: nothing new is produced. -/
theorem putEscapedChar_spec (mb : MessageBuffer) :
    (putEscapedChar mb = (false, mb)) ∨
      ∃ message, putEscapedChar mb = (true, { mb with message, escape := false }) ∧
        message.contents = produced mb := by
  unfold putEscapedChar produced
  cases hescape : mb.escape with
  | false =>
      refine .inr ⟨mb.message, ?_, by simp⟩
      cases mb
      simp_all
  | true =>
      rcases tryPut_spec mb mb.escapedChar with hput | ⟨message, hput, hcontents⟩
      · exact .inl (by simp [hput])
      · exact .inr ⟨message, by simp [hput], by simpa using hcontents⟩

/-- What the two halves of a quoted put leave behind, once nothing is pending. -/
theorem produced_quoted {mb mb' : MessageBuffer} {message : IOBuffer} {c : CChar}
    (hmessage : message.contents = produced mb)
    (hput : mb'.message.contents =
      message.contents ++ [if needEscape c then messageEscape else c])
    (hescape : mb'.escape = needEscape c) (hchar : mb'.escape = true → mb'.escapedChar = c) :
    produced mb' = produced mb ++ messageFormat.quote c := by
  have hquote : messageFormat.quote c = if needEscape c then [messageEscape, c] else [c] := by
    unfold Format.quote
    exact if_congr (by simp [needEscape, messageFormat]) rfl rfl
  rw [produced, hput, hmessage, hescape, hquote]
  rw [hescape] at hchar
  split_ifs with h
  · rw [hchar h, List.append_assoc]
    rfl
  · rw [List.append_nil]

/-- `putChar` changes nothing but the bytes: on success by the quoted byte. -/
theorem putChar_spec (mb : MessageBuffer) (c : CChar) :
    ∃ put message escape escapedChar, putChar mb c =
        (put, { mb with message, escape, escapedChar }) ∧
      produced { mb with message, escape, escapedChar } =
        produced mb ++ if put then messageFormat.quote c else [] := by
  rcases putEscapedChar_spec mb with hesc | ⟨message, hesc, hcontents⟩
  · exact ⟨false, mb.message, mb.escape, mb.escapedChar, by simp [putChar, hesc], by simp⟩
  · have hkept : produced { mb with message, escape := false } = produced mb := by
      simp [produced, hcontents]
    simp only [putChar, hesc, Bool.not_true, Bool.false_eq_true, if_false]
    cases hneed : needEscape c with
    | true =>
        rcases tryPut_spec { mb with message, escape := false } messageEscape with
          hput | ⟨message', hput, hcontents'⟩
        · exact ⟨false, message, false, mb.escapedChar, by simp [hput], by simp [hkept]⟩
        · exact ⟨true, message', true, c, by simp [hput],
            produced_quoted hcontents (by simpa [hneed] using hcontents') hneed.symm fun _ => rfl⟩
    | false =>
        rcases tryPut_spec { mb with message, escape := false } c with
          hput | ⟨message', hput, hcontents'⟩
        · exact ⟨false, message, false, mb.escapedChar, by simp [hput], by simp [hkept]⟩
        · exact ⟨true, message', false, mb.escapedChar, by simp [hput],
            produced_quoted hcontents (by simpa [hneed] using hcontents') hneed.symm nofun⟩

/-- `putOrder` does the same with an order that was not put yet, and notes it. -/
theorem putOrder_spec {mb : MessageBuffer} (h : mb.orderPut = false) :
    ∃ put message escape escapedChar, putOrder mb =
        (put, { mb with message, escape, escapedChar, orderPut := put }) ∧
      produced { mb with message, escape, escapedChar, orderPut := put } =
        produced mb ++ (if put then messageFormat.quote mb.order else []) ∧
      (escape = true → mb.escape = true ∨ put = true) := by
  obtain ⟨message₀, order, escape, escapedChar, startPut, orderPut⟩ := mb
  cases h
  rcases putEscapedChar_spec ⟨message₀, order, escape, escapedChar, startPut, false⟩ with
    hesc | ⟨message, hesc, hcontents⟩
  · exact ⟨false, message₀, escape, escapedChar, by simp [putOrder, hesc], by simp, .inl⟩
  · have hkept : produced ⟨message, order, false, escapedChar, startPut, false⟩ =
        produced ⟨message₀, order, escape, escapedChar, startPut, false⟩ := by
      simpa [produced] using hcontents
    simp only [putOrder, hesc, Bool.not_true, Bool.false_eq_true, if_false]
    cases hneed : needEscape order with
    | true =>
        rcases tryPut_spec ⟨message, order, false, escapedChar, startPut, false⟩ messageEscape with
          hput | ⟨message', hput, hcontents'⟩
        · exact ⟨false, message, false, escapedChar, by simp [hput], by simp [hkept], nofun⟩
        · exact ⟨true, message', true, order, by simp [hput],
            produced_quoted hcontents (by simpa [hneed] using hcontents') hneed.symm fun _ => rfl,
            fun _ => .inr rfl⟩
    | false =>
        rcases tryPut_spec ⟨message, order, false, escapedChar, startPut, false⟩ order with
          hput | ⟨message', hput, hcontents'⟩
        · exact ⟨false, message, false, escapedChar, by simp [hput], by simp [hkept], nofun⟩
        · exact ⟨true, message', false, escapedChar, by simp [hput],
            produced_quoted hcontents (by simpa [hneed] using hcontents') hneed.symm nofun, nofun⟩

/-! ### Frames that are put in pieces -/

variable {sent : List CChar} {mb : MessageBuffer} {accepted : List (CChar × CChar)}

theorem Encoding.putStart (h : Encoding sent mb accepted) :
    ∃ put mb', putStart mb = (put, mb') ∧ Encoding sent mb' accepted ∧
      mb'.order = mb.order ∧ (put = true → mb'.startPut = true) := by
  unfold MessageBuffer.putStart
  cases hstart : mb.startPut with
  | true => exact ⟨true, mb, rfl, h, rfl, fun _ => hstart⟩
  | false =>
      have horder : mb.orderPut = false := by
        simpa [hstart] using mt h.started
      have hescape : mb.escape = false := by
        simpa [horder] using mt h.ordered
      rcases tryPut_spec mb messageEdge with hput | ⟨message, hput, hcontents⟩
      · exact ⟨false, mb, by simp [hput], h, rfl, nofun⟩
      · refine ⟨true, { mb with message, startPut := true }, by simp [hput],
          h.extend_nil [messageEdge] [] ?_ ?_ rfl ?_ ?_, rfl, fun _ => rfl⟩
        · simp [produced, hcontents, hescape]
        · simp only [mode, hstart, horder, Bool.not_false, Bool.not_true, Bool.false_eq_true,
            if_true, if_false]
          exact messageFormat.deframe_edge_idle
        · simp [hescape]
        · simp

theorem Encoding.putOrder (h : Encoding sent mb accepted) (hstart : mb.startPut = true) :
    ∃ put mb', putOrder mb = (put, mb') ∧ Encoding sent mb' accepted ∧
      mb'.order = mb.order ∧ mb'.startPut = true ∧ (put = true → mb'.orderPut = true) := by
  cases horder : mb.orderPut with
  | true =>
      exact ⟨true, mb, by simp [MessageBuffer.putOrder, horder], h, rfl, hstart, fun _ => horder⟩
  | false =>
      have hescape : mb.escape = false := by
        simpa [horder] using mt h.ordered
      obtain ⟨put, message, escape, escapedChar, hput, hproduced, hpending⟩ :=
        putOrder_spec horder
      refine ⟨put, _, hput, ?_, rfl, hstart, id⟩
      cases put with
      | true =>
          refine h.extend_nil _ [.frame mb.order] hproduced ?_ rfl (fun _ => rfl)
            fun _ => hstart
          simpa [mode, hstart, horder] using messageFormat.deframe_quote_opened rfl mb.order
      | false =>
          refine h.extend_nil _ [] hproduced ?_ rfl ?_ nofun
          · simp [mode, hstart, horder]
          · intro hesc
            simpa [hescape] using hpending hesc

/-- The first block of `encapsulate` ends between two frames, or leaves one to go
on with. -/
theorem Encoding.putBoundary (h : Encoding sent mb accepted) (hstart : mb.startPut = true) :
    ∃ put mb', putBoundary mb = (put, mb') ∧ mb'.order = mb.order ∧
      (put = false → Encoding sent mb' accepted) ∧
      (put = true → ∀ order, Encoding sent { mb' with order, orderPut := false } accepted) := by
  obtain ⟨put, mb₁, hput, h₁, horder₁, hstart₁, hdone⟩ := h.putOrder hstart
  cases put with
  | false =>
      exact ⟨false, mb₁, by simp [MessageBuffer.putBoundary, hput], horder₁, fun _ => h₁, nofun⟩
  | true =>
      have hbody : mode mb₁ = .body mb₁.order := by simp [mode, hstart₁, hdone rfl]
      rcases putEscapedChar_spec mb₁ with hesc | ⟨message, hesc, hcontents⟩
      · exact ⟨false, mb₁, by simp [MessageBuffer.putBoundary, hput, hesc], horder₁,
          fun _ => h₁, nofun⟩
      · have hkept : produced { mb₁ with message, escape := false } = produced mb₁ := by
          simp [produced, hcontents]
        rcases tryPut_spec { mb₁ with message, escape := false } messageEdge with
          hedge | ⟨message', hedge, hcontents'⟩
        · refine ⟨false, { mb₁ with message, escape := false },
            by simp [MessageBuffer.putBoundary, hput, hesc, hedge], horder₁, fun _ => ?_, nofun⟩
          exact h₁.extend_nil [] [] (by simpa using hkept) rfl rfl nofun fun _ => hstart₁
        · refine ⟨true, { mb₁ with message := message', escape := false, startPut := false },
            by simp [MessageBuffer.putBoundary, hput, hesc, hedge], horder₁, nofun,
            fun _ order => ?_⟩
          refine h₁.extend_nil [messageEdge] [] ?_ ?_ rfl nofun nofun
          · simpa [produced, hcontents] using hcontents'
          · rw [hbody]
            exact messageFormat.deframe_edge_body _

theorem Encoding.putChars (h : Encoding sent mb accepted) (hput : mb.orderPut = true)
    (data : List CChar) :
    ∃ i mb', putChars mb data = (i, mb') ∧ i ≤ data.length ∧
      Encoding sent mb' (accepted ++ (data.take i).map fun c => (mb.order, c)) := by
  induction data generalizing mb accepted with
  | nil => exact ⟨0, mb, rfl, le_rfl, by simpa using h⟩
  | cons c data ih =>
      have hstart := h.started hput
      obtain ⟨put, message, escape, escapedChar, hchar, hproduced⟩ := putChar_spec mb c
      have hbody : mode mb = .body mb.order := by simp [mode, hstart, hput]
      cases put with
      | false =>
          refine ⟨0, _, by rw [MessageBuffer.putChars, hchar]; rfl, Nat.zero_le _, ?_⟩
          exact h.extend [] hproduced (by simp [mode, hstart, hput]) rfl
            (fun _ => hput) fun _ => hstart
      | true =>
          have h₁ := h.extend [.byte mb.order c] hproduced
            (by
              rw [if_pos rfl, hbody]
              simpa [mode, hstart, hput] using messageFormat.deframe_quote_body mb.order c)
            rfl (fun _ => hput) fun _ => hstart
          obtain ⟨i, mb', hrest, hi, h'⟩ := ih h₁ hput
          refine ⟨i + 1, mb', ?_, by simpa using hi, by simpa using h'⟩
          rw [MessageBuffer.putChars, hchar]
          simp only [Bool.not_true, Bool.false_eq_true, if_false, hrest]

theorem Encoding.putFrame (data : List CChar) (order : CChar)
    (h : Encoding sent (if mb.order != order then { mb with order, orderPut := false } else mb)
      accepted) :
    ∃ i mb', putFrame mb data order = (i, mb') ∧ i ≤ data.length ∧
      Encoding sent mb' (accepted ++ (data.take i).map fun c => (order, c)) := by
  have hnothing : ∀ {mb'}, Encoding sent mb' accepted →
      Encoding sent mb' (accepted ++ (data.take 0).map fun c => (order, c)) := by
    intro mb' h'
    simpa using h'
  have horder : (if mb.order != order then { mb with order, orderPut := false } else mb).order =
      order := by
    split_ifs with hne
    · rfl
    · simpa using hne
  unfold MessageBuffer.putFrame
  obtain ⟨started, mb₂, hstart, h₂, horder₂, hstarted⟩ := h.putStart
  cases started with
  | false => exact ⟨0, mb₂, by simp only [hstart]; rfl, Nat.zero_le _, hnothing h₂⟩
  | true =>
      obtain ⟨ordered, mb₃, hput, h₃, horder₃, -, hordered⟩ := h₂.putOrder (hstarted rfl)
      cases ordered with
      | false => exact ⟨0, mb₃, by simp only [hstart, hput]; rfl, Nat.zero_le _, hnothing h₃⟩
      | true =>
          obtain ⟨i, mb₄, hchars, hi, h₄⟩ := h₃.putChars (hordered rfl) data
          rw [horder₃, horder₂, horder] at h₄
          exact ⟨i, mb₄, by simp only [hstart, hput, hchars]; rfl, hi, h₄⟩

theorem Encoding.escape_eq_false (h : Encoding sent mb accepted) (hstart : mb.startPut = false) :
    mb.escape = false := by
  have hput : ¬mb.orderPut = true := by simpa [hstart] using mt h.started
  simpa using mt h.ordered hput

theorem Encoding.withOrder (h : Encoding sent mb accepted) (hstart : mb.startPut = false)
    (order : CChar) : Encoding sent { mb with order, orderPut := false } accepted :=
  h.extend_nil [] [] (by simp [produced]) (by simp [mode, hstart]) rfl
    (by simp [h.escape_eq_false hstart]) nofun

/-- `encapsulate` accepts the bytes it reports, wherever it runs out of space. -/
theorem Encoding.encapsulate (h : Encoding sent mb accepted) (data : List CChar)
    (order : CChar) :
    ∃ ret mb', encapsulate mb data order = (ret, mb') ∧ ret ≤ data.length ∧
      Encoding sent mb' (accepted ++ (data.take ret.toNat).map fun c => (order, c)) := by
  unfold MessageBuffer.encapsulate
  by_cases hswitch : (mb.startPut && mb.order != order) = true
  · obtain ⟨hstart, hne⟩ := Bool.and_eq_true_iff.mp hswitch
    obtain ⟨closed, mb₁, hput, horder₁, hopen, hclosed⟩ := h.putBoundary hstart
    rw [if_pos hswitch]
    cases closed with
    | false =>
        refine ⟨noSpace, mb₁, by simp only [hput]; rfl, ?_, by simpa [noSpace] using hopen rfl⟩
        unfold noSpace
        omega
    | true =>
        rw [← horder₁] at hne
        obtain ⟨i, mb₂, hframe, hi, h₂⟩ :=
          Encoding.putFrame data order (by rw [if_pos hne]; exact hclosed rfl order)
        exact ⟨i, mb₂, by simp only [hput, hframe]; rfl, by exact_mod_cast hi, h₂⟩
  · -- no frame of another order is open, so another order finds the encoder idle
    have hidle : Encoding sent
        (if mb.order != order then { mb with order, orderPut := false } else mb) accepted := by
      split_ifs with hne
      · exact h.withOrder (by simpa [hne] using hswitch) order
      · exact h
    rw [if_neg hswitch]
    obtain ⟨i, mb₂, hframe, hi, h₂⟩ := Encoding.putFrame data order hidle
    exact ⟨i, mb₂, by simp only [hframe]; rfl, by exact_mod_cast hi, h₂⟩

theorem Encoding.drain (h : Encoding sent mb accepted) (count : ℕ) :
    Encoding (sent ++ mb.message.contents.take (mb.message.iobSend (some count)).1.toNat)
      { mb with message := (mb.message.iobSend (some count)).2 } accepted := by
  refine ⟨?_, h.ordered, h.started⟩
  have hsame : sent ++ mb.message.contents.take (mb.message.iobSend (some count)).1.toNat ++
      produced { mb with message := (mb.message.iobSend (some count)).2 } =
      sent ++ produced mb := by
    simp only [produced, IOBuffer.iobSend, IOBuffer.contents_iobShift, Int.toNat_natCast,
      List.append_assoc]
    rw [← List.append_assoc (List.take _ _), List.take_append_drop]
  rw [hsame]
  exact h.reads

/-! ### Runs of the encoder -/

/-- The encoder, the bytes that left its buffer and what its callers were told it
has accepted. -/
structure EncoderWorld where
  mb : MessageBuffer
  sent : List CChar
  accepted : List (CChar × CChar)

def EncoderWorld.start (junk : ℕ → CChar) (size : ℕ) : EncoderWorld := ⟨initMb junk size, [], []⟩

inductive EncoderOp
  | encapsulate (data : List CChar) (order : CChar)
  | drain (count : ℕ)

def encoderStep (w : EncoderWorld) : EncoderOp → Option EncoderWorld
  | .encapsulate data order =>
      let (ret, mb) := encapsulate w.mb data order
      some { w with
        mb
        accepted := w.accepted ++ (data.take ret.toNat).map fun c => (order, c) }
  | .drain count =>
      let (ret, message) := w.mb.message.iobSend (some count)
      some { w with
        mb := { w.mb with message }
        sent := w.sent ++ w.mb.message.contents.take ret.toNat }

def EncoderWorld.Encodes (w : EncoderWorld) : Prop := Encoding w.sent w.mb w.accepted

theorem encoderStep_encodes (w : EncoderWorld) (op : EncoderOp) (h : w.Encodes) :
    ∃ w', encoderStep w op = some w' ∧ w'.Encodes := by
  cases op with
  | encapsulate data order =>
      obtain ⟨ret, mb', hret, -, h'⟩ := Encoding.encapsulate h data order
      exact ⟨{ w with
        mb := mb'
        accepted := w.accepted ++ (data.take ret.toNat).map fun c => (order, c) },
        by rw [encoderStep, hret], h'⟩
  | drain count => exact ⟨_, rfl, Encoding.drain h count⟩

/-- Whatever calls ran out of space where, and however much was sent in between:
the de-framer reads exactly the accepted bytes under their orders from all that
was produced. -/
theorem encoder_run (junk : ℕ → CChar) (size : ℕ) (ops : List EncoderOp) :
    ∃ w, run encoderStep (EncoderWorld.start junk size) ops = some w ∧
      ∃ mode events, messageFormat.deframe .idle (w.sent ++ w.mb.produced) =
        some (mode, events) ∧ payload events = w.accepted := by
  obtain ⟨w, hw, h⟩ := run_total encoderStep_encodes (s := EncoderWorld.start junk size)
    (encoding_initMb junk size) ops
  obtain ⟨events, hread, hpayload⟩ := h.reads
  exact ⟨w, hw, _, events, hread, hpayload⟩

end MessageBuffer

end UnixLabs.Lab34
