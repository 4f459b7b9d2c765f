import UnixLabs.Lab34.MessageBuffer

/-!
Which bytes `encapsulate` of `lab34/message_buffer.c` keeps back.

A quoted byte is put in two halves, so that the encoder can go on after a full buffer. The
second half waits for the next put, though there be room for it: what was accepted last is
then not in the buffer.
-/

namespace UnixLabs.Lab34

open Library Library.Framing

namespace MessageBuffer

/-! ### Puts that fail -/

structure Keeps (mb : MessageBuffer) (put : Bool) (mb' : MessageBuffer) : Prop where
  size : mb'.message.size = mb.message.size
  full : put = false → mbFull mb' = true

variable {mb mb' mb₁ : MessageBuffer} {put : Bool}

def andThen (r : Bool × MessageBuffer) (next : MessageBuffer → Bool × MessageBuffer) :
    Bool × MessageBuffer :=
  if !r.1 then (false, r.2) else next r.2

theorem Keeps.andThen {r : Bool × MessageBuffer} (h : Keeps mb r.1 r.2)
    {next : MessageBuffer → Bool × MessageBuffer} (hnext : Keeps r.2 (next r.2).1 (next r.2).2) :
    Keeps mb (MessageBuffer.andThen r next).1 (MessageBuffer.andThen r next).2 := by
  obtain ⟨put, mb₁⟩ := r
  cases put with
  | false => exact ⟨h.size, fun _ => h.full rfl⟩
  | true => exact ⟨hnext.size.trans h.size, hnext.full⟩

theorem keeps_flags (h : mb'.message = mb.message) : Keeps mb true mb' :=
  ⟨congrArg IOBuffer.size h, nofun⟩

theorem keeps_tryPut (mb : MessageBuffer) (c : CChar) :
    Keeps mb (tryPut mb c).1 (tryPut mb c).2 := by
  unfold tryPut
  split_ifs with hfull
  · exact ⟨rfl, fun _ => hfull⟩
  · exact ⟨(IOBuffer.contents_iobPutc (Bool.not_eq_true _ ▸ hfull) c).2, nofun⟩

theorem putEscapedChar_eq (mb : MessageBuffer) : putEscapedChar mb =
    if mb.escape then
      andThen (tryPut mb mb.escapedChar) fun mb => (true, { mb with escape := false })
    else (true, mb) := rfl

theorem keeps_putEscapedChar (mb : MessageBuffer) :
    Keeps mb (putEscapedChar mb).1 (putEscapedChar mb).2 := by
  rw [putEscapedChar_eq]
  split_ifs
  · apply (keeps_tryPut mb mb.escapedChar).andThen
    exact keeps_flags rfl
  · exact keeps_flags rfl

theorem putStart_eq (mb : MessageBuffer) : putStart mb =
    if mb.startPut then (true, mb)
    else andThen (tryPut mb messageEdge) fun mb => (true, { mb with startPut := true }) := rfl

theorem keeps_putStart (mb : MessageBuffer) : Keeps mb (putStart mb).1 (putStart mb).2 := by
  rw [putStart_eq]
  split_ifs
  · exact keeps_flags rfl
  · apply (keeps_tryPut mb messageEdge).andThen
    exact keeps_flags rfl

theorem putChar_eq (mb : MessageBuffer) (c : CChar) : putChar mb c =
    andThen (putEscapedChar mb) fun mb =>
      if needEscape c then
        andThen (tryPut mb messageEscape) fun mb =>
          (true, { mb with escape := true, escapedChar := c })
      else tryPut mb c := rfl

theorem keeps_putChar (mb : MessageBuffer) (c : CChar) :
    Keeps mb (putChar mb c).1 (putChar mb c).2 := by
  rw [putChar_eq]
  apply (keeps_putEscapedChar mb).andThen
  split_ifs
  · apply (keeps_tryPut _ messageEscape).andThen
    exact keeps_flags rfl
  · exact keeps_tryPut _ c

theorem putOrder_eq (mb : MessageBuffer) : putOrder mb =
    if mb.orderPut then (true, mb)
    else andThen (putEscapedChar mb) fun mb =>
      if needEscape mb.order then
        andThen (tryPut mb messageEscape) fun mb =>
          (true, { mb with escape := true, escapedChar := mb.order, orderPut := true })
      else andThen (tryPut mb mb.order) fun mb => (true, { mb with orderPut := true }) := rfl

theorem keeps_putOrder (mb : MessageBuffer) : Keeps mb (putOrder mb).1 (putOrder mb).2 := by
  rw [putOrder_eq]
  split_ifs
  · exact keeps_flags rfl
  · apply (keeps_putEscapedChar mb).andThen
    split_ifs
    · apply (keeps_tryPut _ messageEscape).andThen
      exact keeps_flags rfl
    · apply (keeps_tryPut _ _).andThen
      exact keeps_flags rfl

theorem putBoundary_eq (mb : MessageBuffer) : putBoundary mb =
    andThen (putOrder mb) fun mb =>
      andThen (putEscapedChar mb) fun mb =>
        andThen (tryPut mb messageEdge) fun mb => (true, { mb with startPut := false }) := rfl

theorem keeps_putBoundary (mb : MessageBuffer) :
    Keeps mb (putBoundary mb).1 (putBoundary mb).2 := by
  rw [putBoundary_eq]
  apply (keeps_putOrder mb).andThen
  apply (keeps_putEscapedChar _).andThen
  apply (keeps_tryPut _ messageEdge).andThen
  exact keeps_flags rfl

theorem keeps_putChars (mb : MessageBuffer) (data : List CChar) :
    Keeps mb (data.length ≤ (putChars mb data).1) (putChars mb data).2 := by
  induction data generalizing mb with
  | nil => exact ⟨rfl, fun h => absurd h (by simp)⟩
  | cons c data ih =>
      have hchar := keeps_putChar mb c
      have hrest := ih (putChar mb c).2
      simp only [putChars]
      cases hput : (putChar mb c).1 with
      | false => exact ⟨hchar.size, fun _ => hchar.full hput⟩
      | true => exact ⟨hrest.size.trans hchar.size, fun hless => hrest.full (by simpa using hless)⟩

/-! ### What has been produced before the data -/

theorem length_contents_le (mb : MessageBuffer) :
    mb.message.contents.length ≤ (produced mb).length := by
  rw [produced, List.length_append]
  exact Nat.le_add_right _ _

def orderBytes (mb : MessageBuffer) : List CChar :=
  if mb.orderPut then [] else messageFormat.quote mb.order

/-- What is missing of the start of the frame. -/
def opening (mb : MessageBuffer) : List CChar :=
  (if mb.startPut then [] else [messageEdge]) ++ orderBytes mb

/-- What `encapsulate` puts before the data: the end of a frame of another order that is
open, and what is missing of the start of its own. -/
def header (mb : MessageBuffer) (order : CChar) : List CChar :=
  if mb.order = order then opening mb
  else (if mb.startPut then orderBytes mb ++ [messageEdge] else []) ++
    messageEdge :: messageFormat.quote order

def due (mb : MessageBuffer) (data : List CChar) (order : CChar) : List CChar :=
  (if mb.escape then [mb.escapedChar] else []) ++ header mb order ++ messageFormat.encode data

theorem produced_putOrder (mb : MessageBuffer) :
    (produced (putOrder mb).2 = produced mb ++ if (putOrder mb).1 then orderBytes mb else []) ∧
      (putOrder mb).2.order = mb.order ∧ (putOrder mb).2.startPut = mb.startPut ∧
      (putOrder mb).2.orderPut = (putOrder mb).1 := by
  cases hput : mb.orderPut with
  | true => simp [putOrder, orderBytes, hput]
  | false =>
      obtain ⟨put, message, escape, escapedChar, heq, hproduced, -⟩ := putOrder_spec hput
      rw [heq, orderBytes, hput]
      exact ⟨hproduced, rfl, rfl, rfl⟩

/-- A frame is closed, or the buffer does not hold more than belongs to it. -/
theorem produced_putBoundary (mb : MessageBuffer) :
    (∃ mb', putBoundary mb = (true, mb') ∧
      produced mb' = produced mb ++ (orderBytes mb ++ [messageEdge]) ∧ mb'.escape = false ∧
      mb'.startPut = false ∧ mb'.order = mb.order) ∨
    ∃ mb', putBoundary mb = (false, mb') ∧
      mb'.message.contents.length ≤ (produced mb ++ (orderBytes mb ++ [messageEdge])).length := by
  obtain ⟨hproduced, horder, hstart, -⟩ := produced_putOrder mb
  rcases hput : putOrder mb with ⟨put, mb₁⟩
  rw [hput] at hproduced horder hstart
  have hbound :
      (produced mb₁).length ≤ (produced mb ++ (orderBytes mb ++ [messageEdge])).length := by
    rw [hproduced]
    simp only [List.length_append]
    split_ifs <;> simp
  cases put with
  | false =>
      exact .inr ⟨mb₁, by simp [putBoundary, hput], (length_contents_le mb₁).trans hbound⟩
  | true =>
      rcases putEscapedChar_spec mb₁ with hesc | ⟨message, hesc, hcontents⟩
      · exact .inr ⟨mb₁, by simp [putBoundary, hput, hesc], (length_contents_le mb₁).trans hbound⟩
      · rcases tryPut_spec { mb₁ with message, escape := false } messageEdge with
          hedge | ⟨message', hedge, hcontents'⟩
        · exact .inr ⟨{ mb₁ with message, escape := false },
            by simp [putBoundary, hput, hesc, hedge], (congrArg _ hcontents).trans_le hbound⟩
        · refine .inl ⟨{ mb₁ with message := message', escape := false, startPut := false },
            by simp [putBoundary, hput, hesc, hedge], ?_, rfl, rfl, horder⟩
          rw [produced, hcontents']
          simp [hcontents, hproduced]

variable {sent : List CChar} {accepted : List (CChar × CChar)}

theorem produced_putStart (h : Encoding sent mb accepted) :
    (∃ mb₁, putStart mb = (true, mb₁) ∧
      produced mb₁ = produced mb ++ (if mb.startPut then [] else [messageEdge]) ∧
      mb₁.order = mb.order ∧ mb₁.orderPut = mb.orderPut) ∨ putStart mb = (false, mb) := by
  cases hstart : mb.startPut with
  | true => exact .inl ⟨mb, by simp [putStart, hstart], by simp, rfl, rfl⟩
  | false =>
      have hescape := h.escape_eq_false hstart
      rcases tryPut_spec mb messageEdge with hedge | ⟨message, hedge, hcontents⟩
      · exact .inr (by simp [putStart, hstart, hedge])
      · exact .inl ⟨{ mb with message, startPut := true }, by simp [putStart, hstart, hedge],
          by simp [produced, hcontents, hescape], rfl, rfl⟩

theorem produced_opening (h : Encoding sent mb accepted) :
    (∃ mb₁ mb₂, putStart mb = (true, mb₁) ∧ putOrder mb₁ = (true, mb₂) ∧
      produced mb₂ = produced mb ++ opening mb ∧ mb₂.order = mb.order) ∨
    ∃ mb₂, mb₂.message.contents.length ≤ (produced mb ++ opening mb).length ∧
      (putStart mb = (false, mb₂) ∨
        ∃ mb₁, putStart mb = (true, mb₁) ∧ putOrder mb₁ = (false, mb₂)) := by
  rcases produced_putStart h with ⟨mb₁, hstart, hproduced₁, horder₁, hput₁⟩ | hstart
  · obtain ⟨hproduced, horder, -, -⟩ := produced_putOrder mb₁
    have hbytes : orderBytes mb₁ = orderBytes mb := by rw [orderBytes, hput₁, horder₁]; rfl
    rcases hput : putOrder mb₁ with ⟨put, mb₂⟩
    rw [hput, hproduced₁, hbytes] at hproduced
    rw [hput] at horder
    cases put with
    | true =>
        refine .inl ⟨mb₁, mb₂, hstart, hput, ?_, horder.trans horder₁⟩
        rw [opening, ← List.append_assoc]
        exact hproduced
    | false =>
        refine .inr ⟨mb₂, (length_contents_le mb₂).trans ?_, .inr ⟨mb₁, hstart, hput⟩⟩
        simp only [Bool.false_eq_true, if_false, List.append_nil] at hproduced
        rw [hproduced, opening]
        simp only [List.length_append]
        omega
  · refine .inr ⟨mb, (length_contents_le mb).trans ?_, .inl hstart⟩
    rw [List.length_append]
    exact Nat.le_add_right _ _

structure ComesToData (sent : List CChar) (mb : MessageBuffer)
    (accepted : List (CChar × CChar)) (header : List CChar) (order : CChar)
    (mb₁ : MessageBuffer) : Prop where
  encoding : Encoding sent mb₁ accepted
  order : mb₁.order = order
  orderPut : mb₁.orderPut = true
  produced : produced mb₁ = MessageBuffer.produced mb ++ header
  size : mb₁.message.size = mb.message.size

structure StopsBefore (mb : MessageBuffer) (header : List CChar) (mb₁ : MessageBuffer) : Prop where
  full : mbFull mb₁ = true
  size : mb₁.message.size = mb.message.size
  most : mb₁.message.contents.length ≤ (produced mb ++ header).length

theorem putFrame_cases {mb₀ : MessageBuffer} {order : CChar} (h : Encoding sent mb₀ accepted)
    (hmb : (if mb.order != order then { mb with order, orderPut := false } else mb) = mb₀)
    (data : List CChar) :
    (∃ mb₁, putFrame mb data order = putChars mb₁ data ∧
      ComesToData sent mb₀ accepted (opening mb₀) mb₀.order mb₁) ∨
    ∃ mb₁, putFrame mb data order = (0, mb₁) ∧ StopsBefore mb₀ (opening mb₀) mb₁ := by
  rw [putFrame, hmb]
  have hkeepsStart := keeps_putStart mb₀
  obtain ⟨started, mb₁, hstart, h₁, -, hstarted⟩ := h.putStart
  rw [hstart] at hkeepsStart
  rcases produced_opening h with ⟨mb₁', mb₂, hstart', hput, hproduced, horder⟩ | ⟨mb₂, hmost, hstop⟩
  · rw [hstart] at hstart'
    cases hstart'
    have hkeepsOrder := keeps_putOrder mb₁
    obtain ⟨ordered, mb₂', hput', h₂, -, -, hordered⟩ := h₁.putOrder (hstarted rfl)
    rw [hput] at hput' hkeepsOrder
    cases hput'
    refine .inl ⟨mb₂, by simp only [hstart, hput]; rfl, h₂, horder, hordered rfl, hproduced, ?_⟩
    exact hkeepsOrder.size.trans hkeepsStart.size
  · rcases hstop with hstart' | ⟨mb₁', hstart', hput⟩
    · rw [hstart] at hstart'
      cases hstart'
      exact .inr ⟨mb₁, by simp only [hstart]; rfl, hkeepsStart.full rfl, hkeepsStart.size, hmost⟩
    · rw [hstart] at hstart'
      cases hstart'
      have hkeepsOrder := keeps_putOrder mb₁
      rw [hput] at hkeepsOrder
      refine .inr ⟨mb₂, by simp only [hstart, hput]; rfl, hkeepsOrder.full rfl, ?_, hmost⟩
      exact hkeepsOrder.size.trans hkeepsStart.size

theorem opening_idle (hstart : mb.startPut = false) (order : CChar) :
    opening { mb with order, orderPut := false } = messageEdge :: messageFormat.quote order := by
  simp [opening, orderBytes, hstart]

/-- `encapsulate` comes to the data, or the buffer is full before. -/
theorem encapsulate_cases (h : Encoding sent mb accepted) (data : List CChar) (order : CChar) :
    (∃ mb₁, encapsulate mb data order =
        (((putChars mb₁ data).1 : ℤ), (putChars mb₁ data).2) ∧
      ComesToData sent mb accepted (header mb order) order mb₁) ∨
    ∃ ret mb₁, encapsulate mb data order = (ret, mb₁) ∧ ret ≤ 0 ∧
      StopsBefore mb (header mb order) mb₁ := by
  by_cases hne : mb.order = order
  · have hsame : (mb.startPut && mb.order != order) = false := by simp [hne]
    rw [encapsulate, hsame, header, if_pos hne, ← hne]
    rcases putFrame_cases h (if_neg (by simp) : (if mb.order != mb.order then _ else mb) = mb) data
      with ⟨mb₁, hframe, hcomes⟩ | ⟨mb₁, hframe, hstops⟩
    · exact .inl ⟨mb₁, by simp [hframe], hcomes⟩
    · exact .inr ⟨0, mb₁, by simp [hframe], le_rfl, hstops⟩
  have hbne : (mb.order != order) = true := by simpa using hne
  rw [encapsulate, header, if_neg hne, hbne, Bool.and_true]
  cases hstart : mb.startPut with
  | false =>
      rw [← opening_idle hstart]
      rcases putFrame_cases (h.withOrder hstart order) (if_pos hbne) data with
        ⟨mb₁, hframe, hcomes⟩ | ⟨mb₁, hframe, hstops⟩
      · exact .inl ⟨mb₁, by simp [hframe], hcomes.encoding, hcomes.order, hcomes.orderPut,
          hcomes.produced, hcomes.size⟩
      · exact .inr ⟨0, mb₁, by simp [hframe], le_rfl, hstops.full, hstops.size, hstops.most⟩
  | true =>
      have hkeeps := keeps_putBoundary mb
      obtain ⟨closed, mb', hput, -, -, hclosed⟩ := h.putBoundary hstart
      rcases produced_putBoundary mb with ⟨mb₀, hput', hproduced, -, hidle, horder⟩ |
        ⟨mb₁, hput', hmost⟩
      · rw [hput] at hput'
        cases hput'
        rw [hput] at hkeeps
        have hbne' : (mb'.order != order) = true := by rwa [horder]
        rw [if_pos rfl, ← opening_idle hidle]
        rcases putFrame_cases (hclosed rfl order) (if_pos hbne') data with
          ⟨mb₁, hframe, hcomes⟩ | ⟨mb₁, hframe, hstops⟩
        · refine .inl ⟨mb₁, by simp [hput, hframe], hcomes.encoding, hcomes.order, hcomes.orderPut,
            ?_, hcomes.size.trans hkeeps.size⟩
          rw [← List.append_assoc, if_pos rfl, ← hproduced]
          exact hcomes.produced
        · refine .inr ⟨0, mb₁, by simp [hput, hframe], le_rfl, hstops.full,
            hstops.size.trans hkeeps.size, ?_⟩
          rw [← List.append_assoc, if_pos rfl, ← hproduced]
          exact hstops.most
      · rw [hput'] at hkeeps
        refine .inr ⟨noSpace, mb₁, by simp [hput'], by decide, hkeeps.full rfl, hkeeps.size, ?_⟩
        refine hmost.trans ?_
        simp only [if_true, List.length_append]
        omega

/-! ### The data -/

/-- The loop produces the bytes it counts, in the frame that is open. -/
theorem produced_putChars (mb : MessageBuffer) (data : List CChar) :
    produced (putChars mb data).2 =
        produced mb ++ messageFormat.encode (data.take (putChars mb data).1) ∧
      (putChars mb data).2.order = mb.order ∧ (putChars mb data).2.orderPut = mb.orderPut := by
  induction data generalizing mb with
  | nil => exact ⟨(List.append_nil _).symm, rfl, rfl⟩
  | cons c data ih =>
      obtain ⟨put, message, escape, escapedChar, hchar, hproduced⟩ := putChar_spec mb c
      simp only [putChars, hchar]
      cases put with
      | false => exact ⟨hproduced, rfl, rfl⟩
      | true =>
          obtain ⟨hrest, horder, hput⟩ := ih { mb with message, escape, escapedChar }
          refine ⟨hrest.trans ?_, horder, hput⟩
          rw [hproduced, if_pos rfl, List.append_assoc]
          rfl

/-- The second half of a quoted byte is pending, whatever room there is for it. -/
theorem putChar_put {c : CChar} (h : (putChar mb c).1 = true) :
    (putChar mb c).2.message.contents =
        produced mb ++ [if needEscape c then messageEscape else c] ∧
      (putChar mb c).2.escape = needEscape c := by
  rcases putEscapedChar_spec mb with hesc | ⟨message, hesc, hcontents⟩
  · simp [putChar, hesc] at h
  · simp only [putChar, hesc, Bool.not_true, Bool.false_eq_true, if_false] at h ⊢
    rw [← hcontents]
    cases hneed : needEscape c with
    | true =>
        rcases tryPut_spec { mb with message, escape := false } messageEscape with
          hput | ⟨message', hput, hcontents'⟩
        · simp [hneed, hput] at h
        · simp [hput, hcontents']
    | false =>
        rcases tryPut_spec { mb with message, escape := false } c with
          hput | ⟨message', hput, hcontents'⟩
        · simp [hneed, hput] at h
        · simp [hput, hcontents']

theorem putChars_concat (mb : MessageBuffer) (front : List CChar) (c : CChar) :
    putChars mb (front ++ [c]) =
      if front.length ≤ (putChars mb front).1 then
        ((putChars mb front).1 + if (putChar (putChars mb front).2 c).1 then 1 else 0,
          (putChar (putChars mb front).2 c).2)
      else putChars mb front := by
  induction front generalizing mb with
  | nil =>
      simp only [putChars, List.nil_append, List.length_nil, le_refl, if_true]
      split_ifs <;> simp_all
  | cons d front ih =>
      simp only [List.cons_append, putChars, ih]
      cases (putChar mb d).1 with
      | false => simp
      | true =>
          simp only [Bool.not_true, Bool.false_eq_true, if_false, List.length_cons,
            Nat.add_le_add_iff_right]
          split_ifs <;> simp

/-- The last byte of the data is accepted: what was produced before it is in the buffer, and
of a quoted byte the escape. -/
structure PutsLast (sent : List CChar) (mb : MessageBuffer) (accepted : List (CChar × CChar))
    (front : List CChar) (c order : CChar) (mb' : MessageBuffer) : Prop where
  before : ∃ events, messageFormat.deframe .idle
      (sent ++ (produced mb ++ header mb order ++ messageFormat.encode front)) =
        some (.body order, events) ∧
    payload events = accepted ++ front.map fun c => (order, c)
  contents : mb'.message.contents = produced mb ++ header mb order ++ messageFormat.encode front ++
    [if needEscape c then messageEscape else c]
  escape : mb'.escape = needEscape c
  size : mb'.message.size = mb.message.size

/-- In the frame the bytes are all put, or the buffer is full without the last of them. -/
theorem putChars_last {order : CChar} {mb₀ : MessageBuffer}
    (hcomes : ComesToData sent mb accepted (header mb order) order mb₀) (front : List CChar)
    (c : CChar) :
    (∃ mb', putChars mb₀ (front ++ [c]) = (front.length + 1, mb') ∧
      PutsLast sent mb accepted front c order mb') ∨
    ∃ i mb', putChars mb₀ (front ++ [c]) = (i, mb') ∧ i < front.length + 1 ∧
      StopsBefore mb (header mb order ++ messageFormat.encode front) mb' := by
  obtain ⟨hproduced, horder, hput⟩ := produced_putChars mb₀ front
  have hkeeps := keeps_putChars mb₀ front
  obtain ⟨i, mb₁, hloop, hi, hencoding⟩ := hcomes.encoding.putChars hcomes.orderPut front
  rw [putChars_concat]
  rw [hloop] at hproduced horder hput hkeeps ⊢
  rw [hcomes.produced] at hproduced
  have hmost : (produced mb₁).length ≤
      (produced mb ++ (header mb order ++ messageFormat.encode front)).length := by
    have htake := messageFormat.length_encode_take_le front i
    rw [hproduced]
    simp only [List.length_append]
    omega
  have hsize : mb₁.message.size = mb.message.size := hkeeps.size.trans hcomes.size
  by_cases hall : front.length ≤ i
  · obtain rfl : i = front.length := le_antisymm hi hall
    rw [List.take_length] at hproduced hencoding
    have hchar := keeps_putChar mb₁ c
    simp only [le_refl, if_true]
    cases hlast : (putChar mb₁ c).1 with
    | true =>
        obtain ⟨hcontents, hescape⟩ := putChar_put hlast
        refine .inl ⟨(putChar mb₁ c).2, by simp, ⟨?_, ?_, hescape, hchar.size.trans hsize⟩⟩
        · obtain ⟨events, hread, hpayload⟩ := hencoding.reads
          have hput₁ : mb₁.orderPut = true := hput.trans hcomes.orderPut
          have horder₁ : mb₁.order = order := horder.trans hcomes.order
          have hmode : mode mb₁ = .body order := by
            simp [mode, hencoding.started hput₁, hput₁, horder₁]
          rw [hproduced, hmode] at hread
          rw [hcomes.order] at hpayload
          exact ⟨events, hread, hpayload⟩
        · rw [hcontents, hproduced]
    | false =>
        refine .inr ⟨front.length, (putChar mb₁ c).2, by simp, by omega, hchar.full hlast,
          hchar.size.trans hsize, (length_contents_le _).trans ?_⟩
        obtain ⟨put, message, escape, escapedChar, heq', hsame⟩ := putChar_spec mb₁ c
        rw [heq'] at hlast ⊢
        obtain rfl : put = false := hlast
        rw [hsame]
        simpa using hmost
  · rw [if_neg hall]
    exact .inr ⟨i, mb₁, rfl, by omega, hkeeps.full (by simpa using hall), hsize,
      (length_contents_le mb₁).trans hmost⟩

/-- `encapsulate` of one byte and those before it accepts them all, or the buffer is full
without this byte. -/
theorem encapsulate_last (h : Encoding sent mb accepted) (front : List CChar) (c order : CChar) :
    (∃ mb', encapsulate mb (front ++ [c]) order = ((front.length : ℤ) + 1, mb') ∧
      PutsLast sent mb accepted front c order mb') ∨
    ∃ ret mb', encapsulate mb (front ++ [c]) order = (ret, mb') ∧ ret < (front.length : ℤ) + 1 ∧
      StopsBefore mb (header mb order ++ messageFormat.encode front) mb' := by
  rcases encapsulate_cases h (front ++ [c]) order with
    ⟨mb₀, heq, hcomes⟩ | ⟨ret, mb', heq, hret, hstops⟩
  · rw [heq]
    rcases putChars_last hcomes front c with ⟨mb', hloop, hputs⟩ | ⟨i, mb', hloop, hi, hstops⟩
    · exact .inl ⟨mb', by simp [hloop], hputs⟩
    · exact .inr ⟨i, mb', by rw [hloop], by omega, hstops⟩
  · refine .inr ⟨ret, mb', heq, by omega, hstops.full, hstops.size, hstops.most.trans ?_⟩
    simp only [List.length_append]
    omega

/-! ### What is kept back -/

/-- All accepted bytes are in the buffer or have left it, with their whole encoding. -/
def EncoderWorld.Complete (w : EncoderWorld) : Prop :=
  messageFormat.Carries (w.sent ++ w.mb.message.contents) w.accepted

/-- After a call that accepts all its data and leaves room in the buffer nothing is kept
back. -/
def KeepsNothingBack (w : EncoderWorld) : EncoderOp → Prop
  | .encapsulate data order => ∀ w' ∈ encoderStep w (.encapsulate data order),
      (encapsulate w.mb data order).1 = data.length → mbFull w'.mb = false → w'.Complete
  | .drain _ => True

/-- The last byte needs no escape, or the buffer has no room for all that is due; without
data, the order changes or nothing was kept back before, or the buffer is full. -/
def LastByteFits (w : EncoderWorld) : EncoderOp → Prop
  | .encapsulate data order =>
      match data.getLast? with
      | some c => needEscape c → w.mb.message.iobFreeSpace < (due w.mb data order).length
      | none => w.mb.order = order → mbFull w.mb = false → w.Complete
  | .drain _ => True

theorem complete_of_escape {w : EncoderWorld} (h : w.Encodes) (hescape : w.mb.escape = false) :
    w.Complete := by
  obtain ⟨events, hread, hpayload⟩ := h.reads
  rw [produced, hescape, if_neg Bool.false_ne_true, List.append_nil] at hread
  exact ⟨_, events, hread, hpayload⟩

theorem quote_eq (c : CChar) : messageFormat.quote c =
    if needEscape c then [messageEscape, c] else [c] :=
  if_congr (by simp [needEscape, messageFormat]) rfl rfl

theorem mbFull_eq_false_iff (mb : MessageBuffer) :
    mbFull mb = false ↔ mb.message.contents.length < mb.message.size := by
  have hle := mb.message.count_le
  rw [Bool.eq_false_iff, mbFull, ne_eq, IOBuffer.iobFull_iff, IOBuffer.length_contents]
  omega

/-- With what is in the buffer, all that is due is what has been produced and what is new. -/
theorem length_due (mb : MessageBuffer) (front : List CChar) (c order : CChar) :
    mb.message.contents.length + (due mb (front ++ [c]) order).length =
      (produced mb ++ (header mb order ++ messageFormat.encode front)).length +
        (messageFormat.quote c).length := by
  have hencode : messageFormat.encode [c] = messageFormat.quote c := List.flatMap_singleton _ _
  simp only [due, produced, Format.encode_append, hencode, List.length_append]
  omega

theorem PutsLast.not_complete {w : EncoderWorld} {front : List CChar} {c order : CChar}
    (h : PutsLast w.sent w.mb w.accepted front c order mb') (hneed : needEscape c = true) :
    ¬EncoderWorld.Complete ⟨mb', w.sent,
      w.accepted ++ (front ++ [c]).map fun c => (order, c)⟩ := by
  intro hcomplete
  obtain ⟨events, hread, hpayload⟩ := h.before
  have hhalf := Format.carries_escape hread
  rw [EncoderWorld.Complete, h.contents, if_pos hneed, ← List.append_assoc] at hcomplete
  have hlength := congrArg List.length (hhalf.unique hcomplete)
  rw [hpayload] at hlength
  simp at hlength

/-- The escape of the last byte fills the buffer exactly when the byte has no room. -/
theorem PutsLast.full_iff {front : List CChar} {c order : CChar}
    (h : PutsLast sent mb accepted front c order mb') (hneed : needEscape c = true) :
    mbFull mb' = false ↔ ¬mb.message.iobFreeSpace < (due mb (front ++ [c]) order).length := by
  have hdue := length_due mb front c order
  have hcount := mb.message.count_le
  have hquote : (messageFormat.quote c).length = 2 := by rw [quote_eq, if_pos hneed]; rfl
  have hcontents := congrArg List.length h.contents
  rw [List.append_assoc (produced mb), List.length_append, List.length_singleton] at hcontents
  rw [IOBuffer.length_contents] at hdue
  rw [mbFull_eq_false_iff, hcontents, h.size, IOBuffer.iobFreeSpace]
  omega

theorem keepsNothingBack_last {w : EncoderWorld} (h : w.Encodes) (front : List CChar)
    (c order : CChar) : KeepsNothingBack w (.encapsulate (front ++ [c]) order) ↔
      LastByteFits w (.encapsulate (front ++ [c]) order) := by
  have hstep : ∀ w' ∈ encoderStep w (.encapsulate (front ++ [c]) order), w'.Encodes := by
    obtain ⟨w', hstep, hw'⟩ := encoderStep_encodes w (.encapsulate (front ++ [c]) order) h
    simpa [hstep] using hw'
  simp only [LastByteFits, List.getLast?_concat]
  rcases encapsulate_last h front c order with ⟨mb', heq, hputs⟩ | ⟨ret, mb', heq, hret, hstops⟩
  · have hall : (front ++ [c]).take ((front.length : ℤ) + 1).toNat = front ++ [c] :=
      List.take_of_length_le (by simp)
    have hlength : (front.length : ℤ) + 1 = ((front ++ [c]).length : ℤ) := by simp
    simp only [KeepsNothingBack, encoderStep, heq, hall, Option.mem_some, forall_eq'] at hstep ⊢
    simp only [hlength, true_imp_iff]
    cases hneed : needEscape c with
    | false =>
      exact iff_of_true (fun _ => complete_of_escape hstep (hputs.escape.trans hneed))
        fun hno => absurd hno Bool.false_ne_true
    | true =>
        have hnot := hputs.not_complete hneed
        rw [hputs.full_iff hneed]
        exact ⟨fun hall _ => not_not.mp fun hroom => hnot (hall hroom),
          fun hroom hno => absurd (hroom rfl) hno⟩
  · refine iff_of_true (fun w' _ hall => ?_) fun hneed => ?_
    · rw [heq] at hall
      simp only [List.length_append, List.length_singleton, Nat.cast_add, Nat.cast_one] at hall
      omega
    · have hdue := length_due w.mb front c order
      have hquote : (messageFormat.quote c).length = 2 := by rw [quote_eq, if_pos hneed]; rfl
      have hfull := IOBuffer.iobFull_iff.mp hstops.full
      have hmost := hstops.most
      have hsize := hstops.size
      have hcount := w.mb.message.count_le
      rw [IOBuffer.length_contents] at hdue hmost
      rw [IOBuffer.iobFreeSpace]
      omega

/-- Nothing is put without data when the frame is open and has its order. -/
theorem encapsulate_nil {order : CChar} (hheader : header mb order = []) :
    mb.order = order ∧ encapsulate mb [] order = (0, mb) := by
  have hne : mb.order = order := by
    by_contra hne
    rw [header, if_neg hne] at hheader
    exact absurd (List.append_eq_nil_iff.mp hheader).2 (List.cons_ne_nil _ _)
  rw [header, if_pos hne, opening, List.append_eq_nil_iff] at hheader
  have hstart : mb.startPut = true := by
    by_contra hstart
    rw [if_neg hstart] at hheader
    exact absurd hheader.1 (List.cons_ne_nil _ _)
  have hput : mb.orderPut = true := by
    by_contra hput
    rw [orderBytes, if_neg hput, quote_eq] at hheader
    split_ifs at hheader <;> simp at hheader
  refine ⟨hne, ?_⟩
  simp [encapsulate, putFrame, putStart, putOrder, putChars, hne, hstart, hput]

theorem carries_of_comesToData {order : CChar} (h : Encoding sent mb accepted)
    (hcomes : ComesToData sent mb accepted (header mb order) order mb')
    (hheader : header mb order ≠ []) :
    messageFormat.Carries (sent ++ mb'.message.contents) accepted := by
  obtain ⟨events, hread, hpayload⟩ := h.reads
  obtain ⟨events', hread', hpayload'⟩ := hcomes.encoding.reads
  have hpos := List.length_pos_of_ne_nil hheader
  have hproduced := hcomes.produced
  -- at most one byte is pending, and the header has one
  have hprefix : produced mb <+: mb'.message.contents := by
    have hlength := congrArg List.length hproduced
    have hpending : (produced mb').length ≤ mb'.message.contents.length + 1 := by
      rw [produced, List.length_append]
      split_ifs <;> simp
    rw [List.length_append] at hlength
    exact List.prefix_of_prefix_length_le (hproduced ▸ List.prefix_append _ _)
      (List.prefix_append _ _) (by omega)
  obtain ⟨rest, hrest⟩ := hprefix
  have hwhole : messageFormat.Carries
      (sent ++ produced mb ++ rest ++ if mb'.escape then [mb'.escapedChar] else []) accepted := by
    rw [List.append_assoc sent, hrest, List.append_assoc]
    exact ⟨_, events', hread', hpayload'⟩
  rw [← hrest, ← List.append_assoc]
  exact Format.Carries.between ⟨_, events, hread, hpayload⟩ hwhole

theorem keepsNothingBack_nil {w : EncoderWorld} (h : w.Encodes) (order : CChar) :
    KeepsNothingBack w (.encapsulate [] order) ↔ LastByteFits w (.encapsulate [] order) := by
  simp only [KeepsNothingBack, LastByteFits, encoderStep, Option.mem_some, forall_eq',
    List.take_nil, List.map_nil, List.append_nil, List.getLast?_nil, List.length_nil]
  by_cases hheader : header w.mb order = []
  · obtain ⟨horder, heq⟩ := encapsulate_nil hheader
    rw [heq]
    exact ⟨fun hall _ => hall rfl, fun hall _ => hall horder⟩
  refine iff_of_true (fun _ hroom => ?_) fun horder _ => complete_of_escape h ?_
  · rcases encapsulate_cases h [] order with ⟨mb₁, heq, hcomes⟩ | ⟨ret, mb₁, heq, -, hstops⟩
    · rw [heq]
      exact carries_of_comesToData h hcomes hheader
    · rw [heq, hstops.full] at hroom
      cases hroom
  · rw [header, if_pos horder, opening] at hheader
    by_contra hescape
    have hput := h.ordered (Bool.not_eq_false _ ▸ hescape)
    simp [orderBytes, hput, h.started hput] at hheader

theorem keepsNothingBack_iff {w : EncoderWorld} (h : w.Encodes) (op : EncoderOp) :
    KeepsNothingBack w op ↔ LastByteFits w op := by
  cases op with
  | drain count => exact Iff.rfl
  | encapsulate data order =>
      rcases List.eq_nil_or_concat data with rfl | ⟨front, c, rfl⟩
      · exact keepsNothingBack_nil h order
      · rw [List.concat_eq_append]
        exact keepsNothingBack_last h front c order

/-- In every run, accepted bytes are kept back although there is room for them exactly when
the last byte of a call needs an escape and has room, or a call without data finds one. -/
theorem nothing_kept_back_iff (junk : ℕ → CChar) (size : ℕ) (ops : List EncoderOp) :
    RunMeets KeepsNothingBack encoderStep (EncoderWorld.start junk size) ops ↔
      RunMeets LastByteFits encoderStep (EncoderWorld.start junk size) ops := by
  refine runMeets_iff_of_steps (I := EncoderWorld.Encodes)
    (fun w op h => keepsNothingBack_iff h op) (fun w op w' h _ hstep => ?_)
    (show (EncoderWorld.start junk size).Encodes from encoding_initMb junk size) ops
  obtain ⟨w₁, hstep₁, h₁⟩ := encoderStep_encodes w op h
  rw [hstep] at hstep₁
  cases hstep₁
  exact h₁

/-- A reserved byte is accepted. The buffer has room for it, and only its escape. -/
theorem last_byte_kept_back :
    ¬RunMeets KeepsNothingBack encoderStep (EncoderWorld.start (fun _ => 0) 16)
      [.encapsulate [0x7E] 5] := by
  intro h
  have hput : (encoderStep (EncoderWorld.start (fun _ => 0) 16) (.encapsulate [0x7E] 5)).any
      (fun w => w.sent ++ w.mb.message.contents = [0x7E, 5, 0x7D] ∧ w.accepted = [(5, 0x7E)] ∧
        mbFull w.mb = false) = true := by
    decide +kernel
  obtain ⟨w, hstep, hw⟩ := (Option.any_eq_true _ _).mp hput
  obtain ⟨hstream, haccepted, hroom⟩ := of_decide_eq_true hw
  have hread : messageFormat.deframe .idle [0x7E, 5, 0x7D] =
      some (.bodyQuoted 5, [.frame 5]) := by
    decide
  have hkept : w.Complete := h.1 w hstep (by decide) hroom
  rw [EncoderWorld.Complete, hstream, haccepted] at hkept
  exact absurd (hkept.unique ⟨_, _, hread, rfl⟩) (by decide)

end MessageBuffer

end UnixLabs.Lab34
