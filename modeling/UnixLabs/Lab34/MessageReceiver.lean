import UnixLabs.Lab34.MessageBuffer

/-!
`lab34/message_receiver.c`: the decoder of multiplexed messages.

A byte, the end of the buffer and the end of a frame all come out of
`try_read_char` as one `int`. `Mode` is the decoder without its buffer: what one
byte does to the flags and whether it is delivered. Every call consumes a front
of the buffer and does what the mode does on those bytes, so that neither chunks
nor the sizes of the reads matter.
-/

namespace UnixLabs.Lab34

open Library

def mrNoOrder : ℤ := -1

def messageBoundary : ℤ := -2

structure MessageReceiver where
  message : IOBuffer
  order : CChar
  started : Bool
  escape : Bool
  orderGot : Bool

namespace MessageReceiver

def initMr (junk : ℕ → CChar) (size : ℕ) : MessageReceiver where
  message := IOBuffer.initIobuf junk size
  order := 0
  started := false
  escape := false
  orderGot := false

def mrEmpty (mr : MessageReceiver) : Bool := mr.message.iobEmpty

def trySkipStart (mr : MessageReceiver) : Bool × MessageReceiver :=
  if mr.started then (true, mr)
  else if mrEmpty mr then (false, mr)
  else (true, { mr with message := mr.message.iobShift 1, started := true })

def tryReadChar (mr : MessageReceiver) : ℤ × MessageReceiver :=
  if mrEmpty mr then (endOfBuffer, mr)
  else
    let (got, message) := mr.message.iobGetc
    let c : CChar := BitVec.ofInt 8 got
    let mr := { mr with message }
    -- `c` is promoted on its way out, so a byte from 128 on comes out negative
    if mr.escape then (c.toInt, { mr with escape := false })
    else if c = messageEscape then
      let mr := { mr with escape := true }
      if mrEmpty mr then (endOfBuffer, mr)
      else
        let (got, message) := mr.message.iobGetc
        (got, { mr with escape := false, message })
    else if c = messageEdge then
      (messageBoundary, if mr.started then { mr with started := false, orderGot := false } else mr)
    else (c.toInt, mr)

def tryParseOrder (mr : MessageReceiver) : ℤ × MessageReceiver :=
  if mr.orderGot then (mr.order.toInt, mr)
  else
    let (skipped, mr) := trySkipStart mr
    if !skipped then (mrNoOrder, mr)
    else
      let (order, mr) := tryReadChar mr
      if order = messageBoundary ∨ order = endOfBuffer then (mrNoOrder, mr)
      else (order, { mr with order := BitVec.ofInt 8 order, orderGot := true })

def getCurrentOrder (mr : MessageReceiver) : ℤ × MessageReceiver := tryParseOrder mr

def readChars (mr : MessageReceiver) : ℕ → List CChar × MessageReceiver
  | 0 => ([], mr)
  | count + 1 =>
      let (c, mr) := tryReadChar mr
      -- any negative result ends the loop, that of a byte as well
      if c ≥ 0 then
        let (data, mr) := readChars mr count
        (BitVec.ofInt 8 c :: data, mr)
      else ([], mr)

def decapsulate (mr : MessageReceiver) (count : ℕ) : ℤ × List CChar × MessageReceiver :=
  let (order, mr) := tryParseOrder mr
  if order = mrNoOrder then (-1, [], mr)
  else
    let (data, mr) := readChars mr count
    (data.length, data, mr)

/-! ### The decoder without its buffer -/

/-- The fields of a receiver that outlive its buffer. -/
structure Mode where
  order : CChar
  started : Bool
  escape : Bool
  orderGot : Bool
  deriving DecidableEq

def mode (mr : MessageReceiver) : Mode := ⟨mr.order, mr.started, mr.escape, mr.orderGot⟩

namespace Mode

def initial : Mode := ⟨0, false, false, false⟩

/-- A byte where the order is expected: -2 and -1 pass for the end of a frame and
of the buffer. -/
def takeOrder (m : Mode) (c : CChar) : Mode :=
  if c.toInt = messageBoundary ∨ c.toInt = endOfBuffer then m
  else { m with order := c, orderGot := true }

/-- A byte of the payload, delivered unless it passes for one of the negative
results. -/
def deliver (m : Mode) (c : CChar) : List (ℤ × CChar) :=
  if c.toInt ≥ 0 then [(m.order.toInt, c)] else []

def feed (m : Mode) (c : CChar) : Mode × List (ℤ × CChar) :=
  if !m.orderGot && !m.started then ({ m with started := true }, [])
  else if m.escape then
    let m := { m with escape := false }
    if m.orderGot then (m, m.deliver c) else (m.takeOrder c, [])
  else if c = messageEscape then ({ m with escape := true }, [])
  else if c = messageEdge then
    (if m.started then { m with started := false, orderGot := false } else m, [])
  else if m.orderGot then (m, m.deliver c)
  else (m.takeOrder c, [])

def feeds (m : Mode) : List CChar → Mode × List (ℤ × CChar)
  | [] => (m, [])
  | c :: cs =>
      let (m₁, ds) := m.feed c
      let (m₂, ds') := feeds m₁ cs
      (m₂, ds ++ ds')

@[simp] theorem feeds_nil (m : Mode) : m.feeds [] = (m, []) := rfl

theorem feeds_cons (m : Mode) (c : CChar) (cs : List CChar) :
    m.feeds (c :: cs) = (((m.feed c).1.feeds cs).1, (m.feed c).2 ++ ((m.feed c).1.feeds cs).2) :=
  rfl

theorem feeds_singleton (m : Mode) (c : CChar) : m.feeds [c] = m.feed c := by
  rw [feeds_cons, feeds_nil, List.append_nil]

theorem feeds_append (m : Mode) (xs ys : List CChar) :
    m.feeds (xs ++ ys) =
      (((m.feeds xs).1.feeds ys).1, (m.feeds xs).2 ++ ((m.feeds xs).1.feeds ys).2) := by
  induction xs generalizing m with
  | nil => rfl
  | cons c xs ih => rw [List.cons_append, feeds_cons, ih, feeds_cons, List.append_assoc]

end Mode

/-! ### What the calls consume -/

theorem mrEmpty_of_nil {mr : MessageReceiver} (h : mr.message.contents = []) :
    mrEmpty mr = true := IOBuffer.iobEmpty_iff.mpr h

theorem mrEmpty_of_cons {mr : MessageReceiver} {c : CChar} {rest : List CChar}
    (h : mr.message.contents = c :: rest) : mrEmpty mr = false := by
  rw [Bool.eq_false_iff, mrEmpty, ne_eq, IOBuffer.iobEmpty_iff, h]
  exact List.cons_ne_nil c rest

/-- `mr'` is `mr` after the bytes at the front of its buffer have been consumed,
with the deliveries the mode makes of them. -/
structure Consumes (mr : MessageReceiver) (bytes : List CChar) (ds : List (ℤ × CChar))
    (mr' : MessageReceiver) : Prop where
  contents : mr.message.contents = bytes ++ mr'.message.contents
  feeds : mr.mode.feeds bytes = (mr'.mode, ds)
  size : mr'.message.size = mr.message.size

theorem Consumes.refl (mr : MessageReceiver) : Consumes mr [] [] mr := ⟨rfl, rfl, rfl⟩

theorem Consumes.trans {mr₁ mr₂ mr₃ : MessageReceiver} {bs bs' : List CChar}
    {ds ds' : List (ℤ × CChar)} (h : Consumes mr₁ bs ds mr₂) (h' : Consumes mr₂ bs' ds' mr₃) :
    Consumes mr₁ (bs ++ bs') (ds ++ ds') mr₃ where
  contents := by rw [h.contents, h'.contents, List.append_assoc]
  feeds := by rw [Mode.feeds_append, h.feeds, h'.feeds]
  size := h'.size.trans h.size

inductive ReadsChar (mr : MessageReceiver) : ℤ → MessageReceiver → Prop
  | finish : mr.message.contents = [] → ReadsChar mr endOfBuffer mr
  | quoted {c : CChar} {message : IOBuffer} : mr.escape = true →
      mr.message.contents = c :: message.contents → message.size = mr.message.size →
      ReadsChar mr c.toInt { mr with message, escape := false }
  | halfQuote {message : IOBuffer} : mr.escape = false →
      mr.message.contents = messageEscape :: message.contents → message.contents = [] →
      message.size = mr.message.size →
      ReadsChar mr endOfBuffer { mr with message, escape := true }
  | quote {c : CChar} {message : IOBuffer} : mr.escape = false →
      mr.message.contents = messageEscape :: c :: message.contents →
      message.size = mr.message.size →
      ReadsChar mr c.toInt { mr with message, escape := false }
  | edge {message : IOBuffer} : mr.escape = false →
      mr.message.contents = messageEdge :: message.contents →
      message.size = mr.message.size →
      ReadsChar mr messageBoundary
        (if mr.started then { mr with message, started := false, orderGot := false }
        else { mr with message })
  | plain {c : CChar} {message : IOBuffer} : mr.escape = false → c ≠ messageEscape →
      c ≠ messageEdge → mr.message.contents = c :: message.contents →
      message.size = mr.message.size → ReadsChar mr c.toInt { mr with message }

theorem tryReadChar_spec (mr : MessageReceiver) :
    ReadsChar mr (tryReadChar mr).1 (tryReadChar mr).2 := by
  cases hcontents : mr.message.contents with
  | nil =>
      have hempty := mrEmpty_of_nil hcontents
      simp only [tryReadChar, hempty, if_true]
      exact .finish hcontents
  | cons c rest =>
      have hempty := mrEmpty_of_cons hcontents
      obtain ⟨hgot, hrest, hsize⟩ := IOBuffer.iobGetc_cons hcontents
      rw [← hrest] at hcontents
      simp only [tryReadChar, hempty, Bool.false_eq_true, if_false, hgot, BitVec.ofInt_toInt]
      cases hescape : mr.escape with
      | true => exact .quoted hescape hcontents hsize
      | false =>
          simp only [Bool.false_eq_true, if_false]
          by_cases hesc : c = messageEscape
          · subst hesc
            simp only [if_true]
            cases hcontents' : mr.message.iobGetc.2.contents with
            | nil =>
                have hend : mrEmpty { mr with message := mr.message.iobGetc.2, escape := true } =
                    true := mrEmpty_of_nil hcontents'
                rw [if_pos hend]
                exact .halfQuote hescape hcontents hcontents' hsize
            | cons c' rest' =>
                have hmore : mrEmpty { mr with message := mr.message.iobGetc.2, escape := true } =
                    false := mrEmpty_of_cons hcontents'
                obtain ⟨hgot', hrest', hsize'⟩ := IOBuffer.iobGetc_cons hcontents'
                rw [if_neg (by rw [hmore]; decide), hgot']
                refine .quote hescape ?_ (hsize'.trans hsize)
                rw [hcontents, hcontents', hrest']
          · rw [if_neg hesc]
            by_cases hedge : c = messageEdge
            · subst hedge
              rw [if_pos rfl]
              simpa only [hescape] using ReadsChar.edge hescape hcontents hsize
            · rw [if_neg hedge]
              simpa only [hescape] using ReadsChar.plain hescape hesc hedge hcontents hsize

theorem ReadsChar.exists_char {mr mr' : MessageReceiver} {v : ℤ} (h : ReadsChar mr v mr')
    (hv : ¬(v = messageBoundary ∨ v = endOfBuffer)) : ∃ c : CChar, v = c.toInt := by
  rw [not_or] at hv
  cases h with
  | finish | halfQuote => exact absurd rfl hv.2
  | edge => exact absurd rfl hv.1
  | quoted | quote | plain => exact ⟨_, rfl⟩

/-- In the payload every way consumes a front of the buffer; a result that is not
negative is a byte the mode delivers, a negative one stands for none. -/
theorem tryReadChar_payload {mr : MessageReceiver} (hgot : mr.orderGot = true) :
    ∃ bytes, Consumes mr bytes
        (if (tryReadChar mr).1 ≥ 0 then
          [(mr.order.toInt, BitVec.ofInt 8 (tryReadChar mr).1)] else [])
        (tryReadChar mr).2 ∧
      (mr.message.contents ≠ [] → bytes ≠ []) ∧
      ((tryReadChar mr).1 ≥ 0 → (tryReadChar mr).2.orderGot = true) ∧
      (tryReadChar mr).2.order = mr.order := by
  have hspec := tryReadChar_spec mr
  generalize (tryReadChar mr).1 = v at hspec ⊢
  generalize (tryReadChar mr).2 = mr' at hspec ⊢
  cases hspec with
  | finish hnil => exact ⟨[], Consumes.refl mr, by simp [hnil], by simp [hgot], rfl⟩
  | @quoted c message hescape hcontents hsize =>
      refine ⟨[c], ⟨hcontents, ?_, hsize⟩, by simp, by simp [hgot], rfl⟩
      simp [Mode.feeds_singleton, mode, Mode.feed, Mode.deliver, hgot, hescape]
  | @halfQuote message hescape hcontents hnil hsize =>
      refine ⟨[messageEscape], ⟨hcontents, ?_, hsize⟩, by simp, by simp [endOfBuffer], rfl⟩
      simp [Mode.feeds_singleton, mode, Mode.feed, endOfBuffer, hgot, hescape]
  | @quote c message hescape hcontents hsize =>
      refine ⟨[messageEscape, c], ⟨hcontents, ?_, hsize⟩, by simp, by simp [hgot], rfl⟩
      simp [Mode.feeds_cons, mode, Mode.feed, Mode.deliver, hgot, hescape]
  | @edge message hescape hcontents hsize =>
      refine ⟨[messageEdge], ⟨?_, ?_, ?_⟩, by simp, by simp [messageBoundary], ?_⟩
      all_goals cases hstarted : mr.started
      all_goals simp [Mode.feeds_singleton, mode, Mode.feed, messageBoundary, hgot, hescape,
        hcontents, hsize, hstarted, messageEdge, messageEscape]
  | @plain c message hescape hesc hedge hcontents hsize =>
      refine ⟨[c], ⟨hcontents, ?_, hsize⟩, by simp, by simp [hgot], rfl⟩
      simp [Mode.feeds_singleton, mode, Mode.feed, Mode.deliver, hgot, hescape, hesc, hedge]

/-- A byte that ends up where the order is expected is taken as the mode takes it. -/
theorem consumes_taken {mr : MessageReceiver} {c : CChar} {message : IOBuffer}
    {bytes : List CChar} (hcontents : mr.message.contents = bytes ++ message.contents)
    (hsize : message.size = mr.message.size)
    (hfeeds : mr.mode.feeds bytes =
      (Mode.takeOrder ⟨mr.order, mr.started, false, mr.orderGot⟩ c, [])) :
    Consumes mr bytes []
      (if c.toInt = messageBoundary ∨ c.toInt = endOfBuffer then
        { mr with message, escape := false }
      else { mr with
        message
        escape := false
        order := BitVec.ofInt 8 c.toInt
        orderGot := true }) := by
  unfold Mode.takeOrder at hfeeds
  split_ifs at hfeeds ⊢
  · exact ⟨hcontents, hfeeds, hsize⟩
  · exact ⟨hcontents, by simpa [mode] using hfeeds, hsize⟩

/-- Where the order is expected, the way a result is taken is the mode's. -/
theorem tryReadChar_order {mr : MessageReceiver} (hgot : mr.orderGot = false)
    (hstarted : mr.started = true) :
    ∃ bytes, Consumes mr bytes []
        (if (tryReadChar mr).1 = messageBoundary ∨ (tryReadChar mr).1 = endOfBuffer then
          (tryReadChar mr).2
        else { (tryReadChar mr).2 with
          order := BitVec.ofInt 8 (tryReadChar mr).1
          orderGot := true }) ∧
      (mr.message.contents ≠ [] → bytes ≠ []) ∧ (tryReadChar mr).2.orderGot = false := by
  have hspec := tryReadChar_spec mr
  generalize (tryReadChar mr).1 = v at hspec ⊢
  generalize (tryReadChar mr).2 = mr' at hspec ⊢
  cases hspec with
  | finish hnil =>
      exact ⟨[], by simpa [endOfBuffer] using Consumes.refl mr, by simp [hnil], hgot⟩
  | @quoted c message hescape hcontents hsize =>
      refine ⟨[c], consumes_taken hcontents hsize ?_, by simp, hgot⟩
      simp [Mode.feeds_singleton, mode, Mode.feed, hgot, hescape, hstarted]
  | @halfQuote message hescape hcontents hnil hsize =>
      refine ⟨[messageEscape], ⟨by simp [hcontents, endOfBuffer], ?_, by simp [hsize, endOfBuffer]⟩,
        by simp, hgot⟩
      simp [Mode.feeds_singleton, mode, Mode.feed, endOfBuffer, hgot, hescape, hstarted]
  | @quote c message hescape hcontents hsize =>
      refine ⟨[messageEscape, c], consumes_taken hcontents hsize ?_, by simp, hgot⟩
      simp [Mode.feeds_cons, mode, Mode.feed, hgot, hescape, hstarted]
  | @edge message hescape hcontents hsize =>
      refine ⟨[messageEdge], ⟨?_, ?_, ?_⟩, by simp, by simp [hstarted]⟩
      all_goals simp [Mode.feeds_singleton, mode, Mode.feed, messageBoundary, hgot, hescape,
        hcontents, hsize, hstarted, messageEdge, messageEscape]
  | @plain c message hescape hesc hedge hcontents hsize =>
      have hfeeds : mr.mode.feeds [c] =
          (Mode.takeOrder ⟨mr.order, mr.started, false, mr.orderGot⟩ c, []) := by
        simp [Mode.feeds_singleton, mode, Mode.feed, hgot, hescape, hstarted, hesc, hedge]
      have h := consumes_taken hcontents hsize hfeeds
      refine ⟨[c], ?_, by simp, hgot⟩
      simpa only [hescape] using h

structure ParsesOrder (mr : MessageReceiver) (bytes : List CChar) : Prop where
  consumes : Consumes mr bytes [] (tryParseOrder mr).2
  answer : (tryParseOrder mr).1 =
    if (tryParseOrder mr).2.orderGot then (tryParseOrder mr).2.order.toInt else mrNoOrder
  progress : mr.orderGot = false → mr.message.contents ≠ [] → bytes ≠ []

theorem tryParseOrder_started {mr : MessageReceiver} (hgot : mr.orderGot = false)
    (hstarted : mr.started = true) : ∃ bytes, ParsesOrder mr bytes := by
  obtain ⟨bytes, hconsumes, hprogress, hgot'⟩ := tryReadChar_order hgot hstarted
  have hparse : tryParseOrder mr =
      if (tryReadChar mr).1 = messageBoundary ∨ (tryReadChar mr).1 = endOfBuffer then
        (mrNoOrder, (tryReadChar mr).2)
      else ((tryReadChar mr).1, { (tryReadChar mr).2 with
        order := BitVec.ofInt 8 (tryReadChar mr).1
        orderGot := true }) := by
    simp [tryParseOrder, hgot, trySkipStart, hstarted]
  refine ⟨bytes, ⟨?_, ?_, fun _ => hprogress⟩⟩
  · rw [hparse, apply_ite Prod.snd]
    exact hconsumes
  · rw [hparse]
    by_cases hnone : (tryReadChar mr).1 = messageBoundary ∨ (tryReadChar mr).1 = endOfBuffer
    · simp [hnone, hgot']
    · obtain ⟨c, hc⟩ := (tryReadChar_spec mr).exists_char hnone
      simp only [hnone, if_false, if_true]
      rw [hc, BitVec.ofInt_toInt]

theorem tryParseOrder_spec (mr : MessageReceiver) : ∃ bytes, ParsesOrder mr bytes := by
  cases hgot : mr.orderGot with
  | true =>
      have hparse : tryParseOrder mr = (mr.order.toInt, mr) := by simp [tryParseOrder, hgot]
      refine ⟨[], ?_, ?_, by simp [hgot]⟩
      · rw [hparse]
        exact Consumes.refl mr
      · simp [hparse, hgot]
  | false =>
      cases hstarted : mr.started with
      | true => exact tryParseOrder_started hgot hstarted
      | false =>
          cases hcontents : mr.message.contents with
          | nil =>
              have hempty := mrEmpty_of_nil hcontents
              have hparse : tryParseOrder mr = (mrNoOrder, mr) := by
                simp [tryParseOrder, hgot, trySkipStart, hstarted, hempty]
              refine ⟨[], ?_, ?_, by simp [hcontents]⟩
              · rw [hparse]
                exact Consumes.refl mr
              · simp [hparse, hgot]
          | cons c rest =>
              -- the first byte opens the frame, whatever it is
              have hempty := mrEmpty_of_cons hcontents
              have hskip : Consumes mr [c] []
                  { mr with message := mr.message.iobShift 1, started := true } := by
                refine ⟨by simp [hcontents], ?_, by simp⟩
                simp [Mode.feeds_singleton, mode, Mode.feed, hgot, hstarted]
              have hparse : tryParseOrder mr = tryParseOrder
                  { mr with message := mr.message.iobShift 1, started := true } := by
                simp [tryParseOrder, hgot, trySkipStart, hstarted, hempty]
              obtain ⟨bytes, h⟩ : ∃ bytes, ParsesOrder
                  { mr with message := mr.message.iobShift 1, started := true } bytes :=
                tryParseOrder_started hgot rfl
              refine ⟨[c] ++ bytes, ?_, ?_, by simp⟩
              · rw [hparse]
                exact hskip.trans h.consumes
              · rw [hparse]
                exact h.answer

/-- The loop of `decapsulate` delivers, under the order of the frame, what the
mode delivers of the bytes it consumes. -/
theorem readChars_spec {mr : MessageReceiver} (hgot : mr.orderGot = true) (count : ℕ) :
    ∃ bytes, Consumes mr bytes ((readChars mr count).1.map fun c => (mr.order.toInt, c))
        (readChars mr count).2 ∧
      (0 < count → mr.message.contents ≠ [] → bytes ≠ []) ∧
      (readChars mr count).2.order = mr.order := by
  induction count generalizing mr with
  | zero => exact ⟨[], Consumes.refl mr, by simp, rfl⟩
  | succ count ih =>
      obtain ⟨bytes, hconsumes, hprogress, hgot', horder⟩ := tryReadChar_payload hgot
      by_cases hc : (tryReadChar mr).1 ≥ 0
      · obtain ⟨bytes', hrest, -, horder'⟩ := ih (hgot' hc)
        rw [if_pos hc] at hconsumes
        rw [horder] at hrest horder'
        simp only [readChars, hc, if_true]
        exact ⟨bytes ++ bytes', hconsumes.trans hrest,
          fun _ hne => by simp [hprogress hne], horder'⟩
      · rw [if_neg hc] at hconsumes
        simp only [readChars, hc, if_false]
        exact ⟨bytes, hconsumes, fun _ => hprogress, horder⟩

/-- `decapsulate` consumes a front of the buffer; all it stores belongs to the
order the receiver has afterwards. -/
theorem decapsulate_spec (mr : MessageReceiver) (count : ℕ) :
    ∃ bytes, Consumes mr bytes
        ((decapsulate mr count).2.1.map fun c => ((decapsulate mr count).2.2.order.toInt, c))
        (decapsulate mr count).2.2 ∧
      (mr.orderGot = true → mr.order.toInt ≠ mrNoOrder →
        (decapsulate mr count).2.2.order = mr.order) ∧
      (0 < count → (mr.orderGot = true → mr.order.toInt ≠ mrNoOrder) →
        mr.message.contents ≠ [] → bytes ≠ []) := by
  obtain ⟨bytes, hconsumes, hanswer, hprogress⟩ := tryParseOrder_spec mr
  by_cases hnone : (tryParseOrder mr).1 = mrNoOrder
  · have hdec : decapsulate mr count = (-1, [], (tryParseOrder mr).2) := by
      simp [decapsulate, hnone]
    rw [hdec]
    refine ⟨bytes, hconsumes, fun hgot horder => ?_, fun _ hok => ?_⟩
    · simp [tryParseOrder, hgot] at hnone
      exact absurd hnone horder
    · cases hgot : mr.orderGot with
      | false => exact hprogress hgot
      | true =>
          simp [tryParseOrder, hgot] at hnone
          exact absurd hnone (hok hgot)
  · have hgot' : (tryParseOrder mr).2.orderGot = true := by
      by_contra hno
      rw [if_neg hno] at hanswer
      exact hnone hanswer
    obtain ⟨bytes', hread, hprogress', horder'⟩ := readChars_spec hgot' count
    have hdec : decapsulate mr count =
        (((readChars (tryParseOrder mr).2 count).1.length : ℤ),
          readChars (tryParseOrder mr).2 count) := by
      simp [decapsulate, hnone]
    rw [hdec]
    refine ⟨bytes ++ bytes', ?_, fun hgot _ => ?_, fun hcount _ hne => ?_⟩
    · simp only [horder']
      exact hconsumes.trans hread
    · simp only [horder']
      simp [tryParseOrder, hgot]
    · by_cases hrest : (tryParseOrder mr).2.message.contents = []
      · have := hconsumes.contents
        rw [hrest, List.append_nil] at this
        simp [← this, hne]
      · simp [hprogress' hcount hrest]

/-! ### What a caller reads -/

/-- One pass of a caller: it asks for the order and then reads up to `count`
bytes. `always` is a caller that reads even after being told that there is no
order yet. -/
structure Pass where
  count : ℕ
  always : Bool

/-- The bytes a pass reads, each with its order: the one that was reported, or
else the one `decapsulate` came upon itself. -/
def pass (mr : MessageReceiver) (p : Pass) : List (ℤ × CChar) × MessageReceiver :=
  let (order, mr) := getCurrentOrder mr
  if order = mrNoOrder ∧ p.always = false then ([], mr)
  else
    let (_, data, mr) := decapsulate mr p.count
    (data.map fun c => (if order = mrNoOrder then mr.order.toInt else order, c), mr)

theorem pass_spec (mr : MessageReceiver) (p : Pass) :
    ∃ bytes, Consumes mr bytes (pass mr p).1 (pass mr p).2 ∧
      (0 < p.count → (mr.orderGot = true → mr.order.toInt ≠ mrNoOrder) →
        mr.message.contents ≠ [] → bytes ≠ []) := by
  obtain ⟨bytes, hconsumes, hanswer, hprogress⟩ := tryParseOrder_spec mr
  obtain ⟨bytes', hread, horder, hprogress'⟩ := decapsulate_spec (tryParseOrder mr).2 p.count
  by_cases hnone : (tryParseOrder mr).1 = mrNoOrder
  · -- no order yet: something was consumed in looking for it
    have hmoved : (mr.orderGot = true → mr.order.toInt ≠ mrNoOrder) →
        mr.message.contents ≠ [] → bytes ≠ [] := by
      intro hok
      cases hgot : mr.orderGot with
      | false => exact hprogress hgot
      | true =>
          simp [tryParseOrder, hgot] at hnone
          exact absurd hnone (hok hgot)
    by_cases halways : p.always = false
    · have hpass : pass mr p = ([], (tryParseOrder mr).2) := by
        simp [pass, getCurrentOrder, hnone, halways]
      rw [hpass]
      exact ⟨bytes, hconsumes, fun _ => hmoved⟩
    · have hpass : pass mr p = ((decapsulate (tryParseOrder mr).2 p.count).2.1.map
          fun c => ((decapsulate (tryParseOrder mr).2 p.count).2.2.order.toInt, c),
          (decapsulate (tryParseOrder mr).2 p.count).2.2) := by
        simp [pass, getCurrentOrder, hnone, halways]
      rw [hpass]
      exact ⟨bytes ++ bytes', hconsumes.trans hread, fun _ hok hne => by simp [hmoved hok hne]⟩
  · have hgot' : (tryParseOrder mr).2.orderGot = true := by
      by_contra hno
      rw [if_neg hno] at hanswer
      exact hnone hanswer
    rw [if_pos hgot'] at hanswer
    have hok' : (tryParseOrder mr).2.order.toInt ≠ mrNoOrder := hanswer ▸ hnone
    have hpass : pass mr p = ((decapsulate (tryParseOrder mr).2 p.count).2.1.map
        fun c => ((decapsulate (tryParseOrder mr).2 p.count).2.2.order.toInt, c),
        (decapsulate (tryParseOrder mr).2 p.count).2.2) := by
      simp [pass, getCurrentOrder, hanswer, horder hgot' hok', hok']
    rw [hpass]
    refine ⟨bytes ++ bytes', hconsumes.trans hread, fun hcount _ hne => ?_⟩
    by_cases hrest : (tryParseOrder mr).2.message.contents = []
    · have := hconsumes.contents
      rw [hrest, List.append_nil] at this
      simp [← this, hne]
    · simp [hprogress' hcount (fun _ => hok') hrest]

end MessageReceiver

end UnixLabs.Lab34
