import UnixLabs.Lab34.ReceiverCounts
import UnixLabs.Library.Run

/-!
Bytes between frames, and what `lab34/message_receiver.c` makes of them.

`try_skip_start` discards the byte that should open a frame without a look at it. As long
as there are only edges between frames, the receiver reads orders and payload from inside
frames; the first other byte there is taken for an edge.
-/

namespace UnixLabs.Lab34

open Library Library.Framing

namespace MessageReceiver

/-! ### Calls -/

def takenOff (mr mr' : MessageReceiver) : List CChar :=
  mr.message.contents.take (mr.message.contents.length - mr'.message.contents.length)

theorem takenOff_eq {mr mr' : MessageReceiver} {bytes : List CChar}
    (h : mr.message.contents = bytes ++ mr'.message.contents) : takenOff mr mr' = bytes := by
  rw [takenOff, h, List.length_append, Nat.add_sub_cancel, List.take_left]

/-- The byte that `try_skip_start` discards. Every call that reads begins there. -/
def discarded (mr : MessageReceiver) : Option CChar :=
  if mr.orderGot ∨ mr.started then none else mr.message.contents.head?

structure World where
  mr : MessageReceiver
  taken : List CChar

inductive Call
  | recv (input : Option (List CChar))
  | getCurrentOrder
  | getContiguousCount
  | decapsulate (count : ℕ)
  | skip (count : ℕ)

namespace World

def start (junk : ℕ → CChar) (size : ℕ) : World := ⟨initMr junk size, []⟩

def after (w : World) (mr : MessageReceiver) : World := ⟨mr, w.taken ++ takenOff w.mr mr⟩

def step (w : World) : Call → Option World
  | .recv input => some { w with mr := { w.mr with message := (w.mr.message.iobRecv input).2 } }
  | .getCurrentOrder => some (w.after (getCurrentOrder w.mr).2)
  | .getContiguousCount => some (w.after (getContiguousCount w.mr).2)
  | .decapsulate count => some (w.after (decapsulate w.mr count).2.2)
  | .skip count => do
      let (_, mr) ← skip w.mr count
      some (w.after mr)

/-! ### What a call makes of the stream -/

/-- The stream up to the byte that is taken for an order, with this byte. -/
def orderPlace (w : World) : Option (List CChar) :=
  if ¬w.mr.orderGot ∧ (tryParseOrder w.mr).2.orderGot then
    some (w.after (tryParseOrder w.mr).2).taken
  else none

def readPlaces (w : World) : ℕ → List (List CChar)
  | 0 => []
  | count + 1 =>
      let w' := w.after (tryReadChar w.mr).2
      if (tryReadChar w.mr).1 ≥ 0 then w'.taken :: readPlaces w' count else []

def payloadPlaces (w : World) : Call → List (List CChar)
  | .decapsulate count =>
      if (tryParseOrder w.mr).1 = mrNoOrder then []
      else readPlaces (w.after (tryParseOrder w.mr).2) count
  | _ => []

def InFrame (place : List CChar) : Prop :=
  messageFormat.standing .outside place.dropLast ≠ .outside

/-- A call opens frames with edges, and takes orders and payload from inside frames. -/
structure FramedCall (w : World) (call : Call) : Prop where
  opens : ∀ c ∈ w.mr.discarded, c = messageEdge
  order : ∀ place ∈ w.orderPlace, InFrame place
  payload : ∀ place ∈ w.payloadPlaces call, InFrame place

/-- Reception is no reading. -/
def Right (w : World) : Call → Prop
  | .recv _ => True
  | call => w.FramedCall call

end World

/-! ### The receiver in its stream -/

def standing (mr : MessageReceiver) : Standing :=
  if mr.started then if mr.escape then .quoted else .inside else .outside

def Between (mr : MessageReceiver) : Prop :=
  mr.started = false → mr.escape = false ∧ mr.orderGot = false

/-- The bytes are taken off the buffer. There are only edges between their frames, and
behind them the receiver is where it believes to be. -/
structure Takes (mr : MessageReceiver) (bytes : List CChar) (mr' : MessageReceiver) : Prop where
  contents : mr.message.contents = bytes ++ mr'.message.contents
  framed : messageFormat.OnlyFrames mr.standing bytes
  standing : messageFormat.standing mr.standing bytes = mr'.standing
  between : mr'.Between

def LastInside (m : Standing) (bytes : List CChar) : Prop :=
  bytes ≠ [] ∧ messageFormat.standing m bytes.dropLast ≠ .outside

variable {mr mr' mr'' : MessageReceiver}

theorem Takes.refl (h : mr.Between) : Takes mr [] mr := ⟨rfl, trivial, rfl, h⟩

theorem Takes.trans {bytes bytes' : List CChar} (h : Takes mr bytes mr')
    (h' : Takes mr' bytes' mr'') : Takes mr (bytes ++ bytes') mr'' where
  contents := by rw [h.contents, h'.contents, List.append_assoc]
  framed := by
    rw [Format.onlyFrames_append, h.standing]
    exact ⟨h.framed, h'.framed⟩
  standing := by rw [Format.standing_append, h.standing, h'.standing]
  between := h'.between

theorem Takes.lastInside {bytes bytes' : List CChar} (h : Takes mr bytes mr')
    (hlast : LastInside mr'.standing bytes') : LastInside mr.standing (bytes ++ bytes') := by
  refine ⟨List.append_ne_nil_of_right_ne_nil _ hlast.1, ?_⟩
  rw [List.dropLast_append_of_ne_nil hlast.1, Format.standing_append, h.standing]
  exact hlast.2

/-- In a frame `try_read_char` takes bytes of the frame. A result that stands for a byte
is the last of them. -/
theorem takes_tryReadChar (hbetween : mr.Between) (hstarted : mr.started = true) :
    ∃ bytes, Takes mr bytes (tryReadChar mr).2 ∧
      (¬((tryReadChar mr).1 = messageBoundary ∨ (tryReadChar mr).1 = endOfBuffer) →
        LastInside mr.standing bytes ∧ (tryReadChar mr).2.started = true) := by
  have hspec := tryReadChar_spec mr
  have hne := messageEdge_ne_messageEscape
  generalize (tryReadChar mr).1 = v at hspec ⊢
  generalize (tryReadChar mr).2 = mr' at hspec ⊢
  cases hspec with
  | finish hnil => exact ⟨[], Takes.refl hbetween, fun hv => absurd (.inr rfl) hv⟩
  | @quoted c message hescape hcontents hsize =>
      have hfrom : mr.standing = .quoted := by simp [standing, hstarted, hescape]
      refine ⟨[c], ⟨hcontents, ?_, ?_, ?_⟩, fun _ => ⟨⟨by simp, ?_⟩, hstarted⟩⟩
      · simp [hfrom, Format.OnlyFrames]
      · rw [hfrom]
        simp [Format.standing, Format.advance, standing, hstarted]
      · simp [Between, hstarted]
      · simp [hfrom]
  | @halfQuote message hescape hcontents hnil hsize =>
      have hfrom : mr.standing = .inside := by simp [standing, hstarted, hescape]
      refine ⟨[messageEscape], ⟨hcontents, ?_, ?_, ?_⟩, fun hv => absurd (.inr rfl) hv⟩
      · simp [hfrom, Format.OnlyFrames]
      · rw [hfrom]
        simp [Format.standing, Format.advance, standing, hstarted, messageFormat]
      · simp [Between, hstarted]
  | @quote c message hescape hcontents hsize =>
      have hfrom : mr.standing = .inside := by simp [standing, hstarted, hescape]
      refine ⟨[messageEscape, c], ⟨hcontents, ?_, ?_, ?_⟩, fun _ => ⟨⟨by simp, ?_⟩, hstarted⟩⟩
      · simp [hfrom, Format.OnlyFrames, Format.advance, messageFormat]
      · rw [hfrom]
        simp [Format.standing, Format.advance, standing, hstarted, messageFormat]
      · simp [Between, hstarted]
      · simp [hfrom, Format.standing, Format.advance, messageFormat]
  | @edge message hescape hcontents hsize =>
      have hfrom : mr.standing = .inside := by simp [standing, hstarted, hescape]
      rw [if_pos hstarted]
      refine ⟨[messageEdge], ⟨hcontents, ?_, ?_, ?_⟩, fun hv => absurd (.inl rfl) hv⟩
      · simp [hfrom, Format.OnlyFrames]
      · rw [hfrom]
        simp [Format.standing, Format.advance, standing, messageFormat, hne]
      · simp [Between, hescape]
  | @plain c message hescape hesc hedge hcontents hsize =>
      have hfrom : mr.standing = .inside := by simp [standing, hstarted, hescape]
      refine ⟨[c], ⟨hcontents, ?_, ?_, ?_⟩, fun _ => ⟨⟨by simp, ?_⟩, hstarted⟩⟩
      · simp [hfrom, Format.OnlyFrames]
      · rw [hfrom]
        simp [Format.standing, Format.advance, standing, hstarted, hescape, messageFormat, hesc,
          hedge]
      · simp [Between, hstarted]
      · simp [hfrom]

theorem takes_tryParseOrder_started (hbetween : mr.Between) (hgot : mr.orderGot = false)
    (hstarted : mr.started = true) :
    ∃ bytes, Takes mr bytes (tryParseOrder mr).2 ∧
      ((tryParseOrder mr).2.orderGot = true → LastInside mr.standing bytes) := by
  obtain ⟨bytes, htakes, hlast⟩ := takes_tryReadChar hbetween hstarted
  obtain ⟨-, -, -, hgot'⟩ := tryReadChar_order hgot hstarted
  refine ⟨bytes, ?_⟩
  by_cases hnone : (tryReadChar mr).1 = messageBoundary ∨ (tryReadChar mr).1 = endOfBuffer
  · have hparse : tryParseOrder mr = (mrNoOrder, (tryReadChar mr).2) := by
      simp [tryParseOrder, hgot, trySkipStart, hstarted, hnone]
    rw [hparse]
    exact ⟨htakes, fun htrue => absurd htrue (by rw [hgot']; decide)⟩
  · have hparse : tryParseOrder mr = ((tryReadChar mr).1, { (tryReadChar mr).2 with
        order := BitVec.ofInt 8 (tryReadChar mr).1
        orderGot := true }) := by
      simp [tryParseOrder, hgot, trySkipStart, hstarted, hnone]
    rw [hparse]
    obtain ⟨hinside, hstarted'⟩ := hlast hnone
    refine ⟨⟨htakes.contents, htakes.framed, htakes.standing, fun hfalse => ?_⟩, fun _ => hinside⟩
    exact absurd (hstarted'.symm.trans hfalse) (by decide)

/-- Looking for the order, when an edge is discarded for it or nothing. -/
theorem takes_tryParseOrder (hbetween : mr.Between)
    (hopens : ∀ c ∈ mr.discarded, c = messageEdge) :
    ∃ bytes, Takes mr bytes (tryParseOrder mr).2 ∧
      (mr.orderGot = false → (tryParseOrder mr).2.orderGot = true →
        LastInside mr.standing bytes) := by
  by_cases hgot : mr.orderGot = true
  · have hparse : (tryParseOrder mr).2 = mr := by simp [tryParseOrder, hgot]
    rw [hparse]
    exact ⟨[], Takes.refl hbetween, fun hfalse => absurd (hgot.symm.trans hfalse) (by decide)⟩
  rw [Bool.not_eq_true] at hgot
  by_cases hstarted : mr.started = true
  · obtain ⟨bytes, htakes, hlast⟩ := takes_tryParseOrder_started hbetween hgot hstarted
    exact ⟨bytes, htakes, fun _ => hlast⟩
  rw [Bool.not_eq_true] at hstarted
  cases hcontents : mr.message.contents with
  | nil =>
      have hparse : (tryParseOrder mr).2 = mr := by
        simp [tryParseOrder, hgot, trySkipStart, hstarted, mrEmpty_of_nil hcontents]
      rw [hparse]
      exact ⟨[], Takes.refl hbetween, fun _ hgot' => absurd (hgot'.symm.trans hgot) (by decide)⟩
  | cons c rest =>
      obtain rfl : c = messageEdge := hopens c (by simp [discarded, hgot, hstarted, hcontents])
      have hescape := (hbetween hstarted).1
      have hfrom : mr.standing = .outside := by simp [standing, hstarted]
      have hskip : Takes mr [messageEdge]
          { mr with message := mr.message.iobShift 1, started := true } := by
        refine ⟨by simp [hcontents], ⟨fun _ => rfl, trivial⟩, ?_, by simp [Between]⟩
        rw [hfrom]
        simp [Format.standing, Format.advance, standing, hescape, messageFormat]
      have hparse : tryParseOrder mr = tryParseOrder
          { mr with message := mr.message.iobShift 1, started := true } := by
        simp [tryParseOrder, hgot, trySkipStart, hstarted, mrEmpty_of_cons hcontents]
      obtain ⟨bytes, htakes, hlast⟩ : ∃ bytes, Takes { mr with
          message := mr.message.iobShift 1, started := true } bytes (tryParseOrder { mr with
          message := mr.message.iobShift 1, started := true }).2 ∧ _ :=
        takes_tryParseOrder_started hskip.between hgot rfl
      rw [hparse]
      exact ⟨_, hskip.trans htakes, fun _ hgot' => hskip.lastInside (hlast hgot')⟩

theorem not_negative {v : ℤ} (h : v ≥ 0) : ¬(v = messageBoundary ∨ v = endOfBuffer) := by
  unfold messageBoundary endOfBuffer
  omega

theorem Between.started (h : mr.Between) (hgot : mr.orderGot = true) : mr.started = true := by
  by_contra hstarted
  exact absurd (hgot.symm.trans (h (Bool.not_eq_true _ ▸ hstarted)).2) (by decide)

theorem takes_skipFrom (count : ℕ) {fuel skipped n : ℕ} (hbetween : mr.Between)
    (hstarted : mr.started = true) (h : skipFrom count fuel skipped mr = some (n, mr')) :
    ∃ bytes, Takes mr bytes mr' := by
  induction fuel generalizing mr with
  | zero => cases h
  | succ fuel ih =>
      obtain ⟨bytes, htakes, hlast⟩ := takes_tryReadChar hbetween hstarted
      simp only [skipFrom] at h
      by_cases hmore : skipped < count
      · rw [if_pos hmore] at h
        by_cases hpos : (tryReadChar mr).1 ≥ 0
        · rw [if_pos hpos] at h
          obtain ⟨bytes', htakes'⟩ := ih htakes.between (hlast (not_negative hpos)).2 h
          exact ⟨_, htakes.trans htakes'⟩
        · rw [if_neg hpos] at h
          cases h
          exact ⟨bytes, htakes⟩
      · rw [if_neg hmore] at h
        cases h
        exact ⟨[], Takes.refl hbetween⟩

namespace World

structure Aligned (w : World) : Prop where
  between : w.mr.Between
  standing : messageFormat.standing .outside w.taken = w.mr.standing

variable {w w' : World} {call : Call}

theorem taken_after {bytes : List CChar} (h : Takes w.mr bytes mr) :
    (w.after mr).taken = w.taken ++ bytes := by
  rw [after, takenOff_eq h.contents]

theorem Aligned.after {bytes : List CChar} (h : w.Aligned) (htakes : Takes w.mr bytes mr) :
    (w.after mr).Aligned := by
  refine ⟨htakes.between, ?_⟩
  rw [taken_after htakes, Format.standing_append, h.standing, htakes.standing]
  rfl

theorem Aligned.inFrame {bytes : List CChar} (h : w.Aligned) (htakes : Takes w.mr bytes mr)
    (hlast : LastInside w.mr.standing bytes) : InFrame (w.after mr).taken := by
  rw [InFrame, taken_after htakes, List.dropLast_append_of_ne_nil hlast.1, Format.standing_append,
    h.standing]
  exact hlast.2

theorem Aligned.readChars (h : w.Aligned) (hstarted : w.mr.started = true) (count : ℕ) :
    (∃ bytes, Takes w.mr bytes (readChars w.mr count).2) ∧
      ∀ place ∈ w.readPlaces count, InFrame place := by
  induction count generalizing w with
  | zero => exact ⟨⟨[], Takes.refl h.between⟩, List.forall_mem_nil _⟩
  | succ count ih =>
      obtain ⟨bytes, htakes, hlast⟩ := takes_tryReadChar h.between hstarted
      rw [MessageReceiver.readChars, readPlaces]
      by_cases hpos : (tryReadChar w.mr).1 ≥ 0
      · obtain ⟨hinside, hstarted'⟩ := hlast (not_negative hpos)
        obtain ⟨⟨bytes', htakes'⟩, hplaces⟩ := ih (h.after htakes) hstarted'
        simp only [hpos, if_true]
        exact ⟨⟨_, htakes.trans htakes'⟩,
          List.forall_mem_cons.mpr ⟨h.inFrame htakes hinside, hplaces⟩⟩
      · simp only [hpos, if_false]
        exact ⟨⟨bytes, htakes⟩, List.forall_mem_nil _⟩

theorem Aligned.order (h : w.Aligned) (hopens : ∀ c ∈ w.mr.discarded, c = messageEdge) :
    (∃ bytes, Takes w.mr bytes (tryParseOrder w.mr).2) ∧ ∀ place ∈ w.orderPlace, InFrame place := by
  obtain ⟨bytes, htakes, hlast⟩ := takes_tryParseOrder h.between hopens
  refine ⟨⟨bytes, htakes⟩, fun place hplace => ?_⟩
  by_cases hnew : ¬w.mr.orderGot ∧ (tryParseOrder w.mr).2.orderGot
  · rw [orderPlace, if_pos hnew, Option.mem_some] at hplace
    rw [← hplace]
    exact h.inFrame htakes (hlast (Bool.not_eq_true _ ▸ hnew.1) hnew.2)
  · rw [orderPlace, if_neg hnew] at hplace
    cases hplace

theorem Aligned.decapsulate (h : w.Aligned) (hopens : ∀ c ∈ w.mr.discarded, c = messageEdge)
    (count : ℕ) : (∃ bytes, Takes w.mr bytes (decapsulate w.mr count).2.2) ∧
      ∀ place ∈ w.payloadPlaces (.decapsulate count), InFrame place := by
  obtain ⟨⟨bytes, htakes⟩, -⟩ := h.order hopens
  by_cases hnone : (tryParseOrder w.mr).1 = mrNoOrder
  · simp only [MessageReceiver.decapsulate, payloadPlaces, hnone, if_true]
    exact ⟨⟨bytes, htakes⟩, List.forall_mem_nil _⟩
  · have hstarted := htakes.between.started (orderGot_of_answer hnone).1
    obtain ⟨⟨bytes', htakes'⟩, hplaces⟩ := (h.after htakes).readChars hstarted count
    simp only [MessageReceiver.decapsulate, payloadPlaces, hnone, if_false]
    exact ⟨⟨_, htakes.trans htakes'⟩, hplaces⟩

theorem Aligned.skip (h : w.Aligned) (hopens : ∀ c ∈ w.mr.discarded, c = messageEdge)
    {count : ℕ} {v : ℤ} (hskip : skip w.mr count = some (v, mr)) :
    ∃ bytes, Takes w.mr bytes mr := by
  obtain ⟨⟨bytes, htakes⟩, -⟩ := h.order hopens
  simp only [MessageReceiver.skip] at hskip
  by_cases hnone : (tryParseOrder w.mr).1 = mrNoOrder
  · rw [if_pos hnone] at hskip
    cases hskip
    exact ⟨bytes, htakes⟩
  · rw [if_neg hnone] at hskip
    obtain ⟨⟨n, mr'⟩, hloop, heq⟩ := Option.map_eq_some_iff.mp hskip
    cases heq
    obtain ⟨bytes', htakes'⟩ := takes_skipFrom count htakes.between
      (htakes.between.started (orderGot_of_answer hnone).1) hloop
    exact ⟨_, htakes.trans htakes'⟩

theorem getContiguousCount_snd (mr : MessageReceiver) :
    (getContiguousCount mr).2 = (tryParseOrder mr).2 := by
  simp only [getContiguousCount]
  split_ifs <;> rfl

theorem Aligned.goodCall (h : w.Aligned) (hopens : ∀ c ∈ w.mr.discarded, c = messageEdge)
    (hstep : w.step call = some w') : w.Right call ∧ w'.Aligned ∧
      ∃ bytes, messageFormat.OnlyFrames w.mr.standing bytes ∧ w'.taken = w.taken ++ bytes := by
  obtain ⟨horder, hplace⟩ := h.order hopens
  have hafter : ∀ {mr : MessageReceiver}, (∃ bytes, Takes w.mr bytes mr) → w' = w.after mr →
      w'.Aligned ∧
        ∃ bytes, messageFormat.OnlyFrames w.mr.standing bytes ∧ w'.taken = w.taken ++ bytes := by
    rintro mr ⟨bytes, htakes⟩ rfl
    exact ⟨h.after htakes, bytes, htakes.framed, taken_after htakes⟩
  cases call with
  | recv input =>
      cases hstep
      exact ⟨trivial, ⟨h.between, h.standing⟩, [], trivial, (List.append_nil _).symm⟩
  | getCurrentOrder =>
      cases hstep
      exact ⟨⟨hopens, hplace, List.forall_mem_nil _⟩, hafter horder rfl⟩
  | getContiguousCount =>
      cases hstep
      refine ⟨⟨hopens, hplace, List.forall_mem_nil _⟩, hafter ?_ rfl⟩
      rw [getContiguousCount_snd]
      exact horder
  | decapsulate count =>
      cases hstep
      obtain ⟨htakes, hpayload⟩ := h.decapsulate hopens count
      exact ⟨⟨hopens, hplace, hpayload⟩, hafter htakes rfl⟩
  | skip count =>
      obtain ⟨⟨v, mr⟩, hskip, heq⟩ := Option.bind_eq_some_iff.mp hstep
      cases heq
      exact ⟨⟨hopens, hplace, List.forall_mem_nil _⟩, hafter (h.skip hopens hskip) rfl⟩

/-! ### A byte that opens no frame -/

theorem length_tryReadChar_le (mr : MessageReceiver) :
    (tryReadChar mr).2.message.contents.length ≤ mr.message.contents.length := by
  have hspec := tryReadChar_spec mr
  generalize (tryReadChar mr).1 = v at hspec
  generalize (tryReadChar mr).2 = mr' at hspec ⊢
  cases hspec with
  | finish hnil => exact le_rfl
  | quoted _ hcontents _ | halfQuote _ hcontents _ _ | plain _ _ _ hcontents _ =>
      rw [hcontents, List.length_cons]
      exact Nat.le_succ _
  | quote _ hcontents _ =>
      rw [hcontents, List.length_cons, List.length_cons]
      exact Nat.le_add_right _ 2
  | edge _ hcontents _ =>
      rw [hcontents, List.length_cons]
      split_ifs <;> exact Nat.le_succ _

theorem length_readChars_le (mr : MessageReceiver) (count : ℕ) :
    (readChars mr count).2.message.contents.length ≤ mr.message.contents.length := by
  induction count generalizing mr with
  | zero => exact le_rfl
  | succ count ih =>
      simp only [MessageReceiver.readChars]
      split_ifs
      · exact (ih _).trans (length_tryReadChar_le mr)
      · exact length_tryReadChar_le mr

theorem length_skipFrom_le {count fuel skipped n : ℕ} {mr mr' : MessageReceiver}
    (h : skipFrom count fuel skipped mr = some (n, mr')) :
    mr'.message.contents.length ≤ mr.message.contents.length := by
  induction fuel generalizing mr with
  | zero => cases h
  | succ fuel ih =>
      simp only [skipFrom] at h
      split_ifs at h
      · exact (ih h).trans (length_tryReadChar_le mr)
      · cases h
        exact length_tryReadChar_le mr
      · cases h
        exact le_rfl

/-- A call that reads leaves no more than looking for the order does. -/
theorem length_step_le (hread : ∀ input, call ≠ .recv input) (hstep : w.step call = some w') :
    w'.taken = w.taken ++ takenOff w.mr w'.mr ∧ w'.mr.message.contents.length ≤
      (tryParseOrder w.mr).2.message.contents.length := by
  cases call with
  | recv input => exact absurd rfl (hread input)
  | getCurrentOrder =>
      cases hstep
      exact ⟨rfl, le_rfl⟩
  | getContiguousCount =>
      cases hstep
      refine ⟨rfl, ?_⟩
      rw [after, getContiguousCount_snd]
  | decapsulate count =>
      cases hstep
      refine ⟨rfl, ?_⟩
      simp only [after, MessageReceiver.decapsulate]
      split_ifs
      · exact le_rfl
      · exact length_readChars_le _ _
  | skip count =>
      obtain ⟨⟨v, mr⟩, hskip, heq⟩ := Option.bind_eq_some_iff.mp hstep
      cases heq
      refine ⟨rfl, ?_⟩
      simp only [MessageReceiver.skip] at hskip
      split_ifs at hskip
      · cases hskip
        exact le_rfl
      · obtain ⟨⟨n, mr'⟩, hloop, heq⟩ := Option.map_eq_some_iff.mp hskip
        cases heq
        exact length_skipFrom_le hloop

theorem taken_of_discarded {c : CChar} (hc : c ∈ w.mr.discarded)
    (hread : ∀ input, call ≠ .recv input) (hstep : w.step call = some w') :
    w.mr.started = false ∧ ∃ rest, w'.taken = w.taken ++ c :: rest := by
  unfold discarded at hc
  split_ifs at hc with hflags
  · cases hc
  rw [not_or, Bool.not_eq_true, Bool.not_eq_true] at hflags
  obtain ⟨rest, hcontents⟩ := List.head?_eq_some_iff.mp hc
  obtain ⟨bytes, hparse⟩ := tryParseOrder_spec w.mr
  have hmoved := hparse.progress hflags.1 (by rw [hcontents]; exact List.cons_ne_nil _ _)
  have hlength := congrArg List.length hparse.consumes.contents
  have hpos := List.length_pos_of_ne_nil hmoved
  obtain ⟨htaken, hle⟩ := length_step_le hread hstep
  rw [List.length_append] at hlength
  obtain ⟨n, hn⟩ : ∃ n, w.mr.message.contents.length - w'.mr.message.contents.length = n + 1 :=
    Nat.exists_eq_add_one.mpr (by omega)
  refine ⟨hflags.2, rest.take n, ?_⟩
  rw [htaken, takenOff, hn, hcontents, List.take_succ_cons]

/-! ### Runs -/

/-- There are only edges between the frames of the stream, as far as it has been read. -/
def OnlyFramesTaken (w : World) : Prop := messageFormat.OnlyFrames .outside w.taken

theorem Aligned.right_iff (h : w.Aligned) (honly : w.OnlyFramesTaken)
    (hstep : w.step call = some w') : (w.Right call ↔ w'.OnlyFramesTaken) ∧
      (w'.OnlyFramesTaken → w'.Aligned) := by
  by_cases hopens : ∀ c ∈ w.mr.discarded, c = messageEdge
  · obtain ⟨hright, haligned, bytes, hbytes, htaken⟩ := h.goodCall hopens hstep
    refine ⟨iff_of_true hright ?_, fun _ => haligned⟩
    rw [OnlyFramesTaken, htaken, Format.onlyFrames_append, h.standing]
    exact ⟨honly, hbytes⟩
  by_cases hread : ∀ input, call ≠ .recv input
  · have hnot : ¬w'.OnlyFramesTaken := by
      simp only [not_forall] at hopens
      obtain ⟨c, hc, hne⟩ := hopens
      obtain ⟨hstarted, rest, htaken⟩ := taken_of_discarded hc hread hstep
      rw [OnlyFramesTaken, htaken, Format.onlyFrames_append, h.standing]
      rintro ⟨-, hframes⟩
      exact hne (hframes.1 (by simp [MessageReceiver.standing, hstarted]))
    refine ⟨iff_of_false (fun hright => hopens ?_) hnot, fun honly' => absurd honly' hnot⟩
    cases call with
    | recv input => exact absurd rfl (hread input)
    | getCurrentOrder | getContiguousCount | decapsulate count | skip count => exact hright.opens
  · simp only [not_forall, not_not] at hread
    obtain ⟨input, rfl⟩ := hread
    cases hstep
    exact ⟨iff_of_true trivial honly, fun _ => ⟨h.between, h.standing⟩⟩

theorem Aligned.start (junk : ℕ → CChar) (size : ℕ) : (start junk size).Aligned :=
  ⟨fun _ => ⟨rfl, rfl⟩, rfl⟩

theorem step_isSome (w : World) (call : Call) : ∃ w', w.step call = some w' := by
  cases call with
  | recv input | getCurrentOrder | getContiguousCount | decapsulate count => exact ⟨_, rfl⟩
  | skip count =>
      obtain ⟨mr', hloop⟩ := skipFrom_spec count 0
        (show (tryParseOrder w.mr).2.message.contents.length <
          (tryParseOrder w.mr).2.message.count + 1 by simp)
      simp only [step, MessageReceiver.skip, hloop, Option.map_some]
      split_ifs
      · exact ⟨_, rfl⟩
      · exact ⟨_, rfl⟩

theorem onlyFramesTaken_step (w : World) (call : Call) (w' : World)
    (hstep : w.step call = some w') : w'.OnlyFramesTaken ↔
      w.OnlyFramesTaken ∧ ∀ w' ∈ w.step call, w'.OnlyFramesTaken := by
  have hprefix : ∃ bytes, w'.taken = w.taken ++ bytes := by
    cases call with
    | recv input =>
        cases hstep
        exact ⟨[], (List.append_nil _).symm⟩
    | getCurrentOrder | getContiguousCount | decapsulate count =>
        cases hstep
        exact ⟨_, rfl⟩
    | skip count =>
        obtain ⟨_, -, heq⟩ := Option.bind_eq_some_iff.mp hstep
        cases heq
        exact ⟨_, rfl⟩
  obtain ⟨bytes, htaken⟩ := hprefix
  have hfirst : w'.OnlyFramesTaken → w.OnlyFramesTaken := by
    rw [OnlyFramesTaken, htaken, Format.onlyFrames_append]
    exact And.left
  simp only [hstep, Option.mem_some, forall_eq']
  exact ⟨fun h => ⟨hfirst h, h⟩, And.right⟩

/-- In every run the calls open frames with edges and take orders and payload from inside
frames, exactly as long as the stream they read has only edges between its frames. -/
theorem framed_run_iff (junk : ℕ → CChar) (size : ℕ) (calls : List Call) :
    ∃ w, run step (start junk size) calls = some w ∧
      (RunMeets Right step (start junk size) calls ↔ w.OnlyFramesTaken) := by
  obtain ⟨w, hrun, -⟩ := run_total (I := fun _ => True) (fun w call _ =>
    ⟨_, (step_isSome w call).choose_spec, trivial⟩) trivial calls
  refine ⟨w, hrun, ?_⟩
  rw [runMeets_iff_last onlyFramesTaken_step hrun, and_iff_right (show
    (start junk size).OnlyFramesTaken from trivial)]
  refine runMeets_iff_of_steps (I := fun w => w.Aligned ∧ w.OnlyFramesTaken)
    (fun w call h => ?_) (fun w call w' h honly hstep => ?_)
    ⟨Aligned.start junk size, trivial⟩ calls
  · obtain ⟨w', hstep⟩ := step_isSome w call
    simp only [hstep, Option.mem_some, forall_eq']
    exact (h.1.right_iff h.2 hstep).1
  · exact ⟨(h.1.right_iff h.2 hstep).2 (honly w' hstep), honly w' hstep⟩

/-- Two stray bytes: the first is discarded for an edge, the second comes out as an order. -/
theorem frame_opened_by_stray_byte :
    ¬RunMeets Right step (start (fun _ => 0) 8) ([.recv (some [5, 6])] ++ [.getCurrentOrder]) := by
  intro h
  have hany : (run step (start (fun _ => 0) 8) [.recv (some [5, 6])]).any (fun w =>
      w.mr.discarded = some 5 ∧ (getCurrentOrder w.mr).1 = 6) = true := by
    decide +kernel
  obtain ⟨w, hrun, hw⟩ := (Option.any_eq_true _ _).mp hany
  have hright : w.FramedCall .getCurrentOrder := h.after hrun
  exact absurd (hright.opens 5 (of_decide_eq_true hw).1) (by decide)

end World

end MessageReceiver

end UnixLabs.Lab34
