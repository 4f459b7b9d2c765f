import UnixLabs.Lab34.MessageReceiver

/-!
`get_contiguous_count` and `skip` of `lab34/message_receiver.c` next to `decapsulate`.

`decapsulate` ends at an edge, at the end of the buffer and at a byte that comes out
negative. `get_contiguous_count` scans ahead with the escapes in mind and none of the
rest; `skip` reads as `decapsulate` does and never counts.
-/

namespace UnixLabs.Lab34

open Library

namespace MessageReceiver

def contiguousFrom : Bool → List CChar → ℕ
  | _, [] => 0
  | escaped, c :: buffer =>
      if !escaped && c = messageEscape then contiguousFrom true buffer
      else contiguousFrom false buffer + 1

/-- `get_contiguous_count` looks for the order first. -/
def getContiguousCount (mr : MessageReceiver) : ℕ × MessageReceiver :=
  let (order, mr) := tryParseOrder mr
  if order = mrNoOrder then (0, mr) else (contiguousFrom mr.escape mr.message.contents, mr)

def skipFrom (count : ℕ) : ℕ → ℕ → MessageReceiver → Option (ℕ × MessageReceiver)
  | 0, _, _ => none
  | fuel + 1, skipped, mr =>
      if skipped < count then
        let (c, mr) := tryReadChar mr
        -- the body is empty
        if c ≥ 0 then skipFrom count fuel skipped mr else some (skipped, mr)
      else some (skipped, mr)

/-- `skip`. Every turn of its loop but the last takes a byte off the buffer. -/
def skip (mr : MessageReceiver) (count : ℕ) : Option (ℤ × MessageReceiver) :=
  let (order, mr) := tryParseOrder mr
  if order = mrNoOrder then some (-1, mr)
  else (skipFrom count (mr.message.count + 1) 0 mr).map fun (skipped, mr) => (skipped, mr)

/-! ### The bytes ahead -/

/-- The bytes that the reads can deliver before the first one that does not. -/
def payloadAhead : Bool → List CChar → List CChar
  | _, [] => []
  | true, c :: cs => if 0 ≤ c.toInt then c :: payloadAhead false cs else []
  | false, c :: cs =>
      if c = messageEscape then payloadAhead true cs
      else if c = messageEdge then []
      else if 0 ≤ c.toInt then c :: payloadAhead false cs
      else []

def ahead (mr : MessageReceiver) : List CChar := payloadAhead mr.escape mr.message.contents

theorem tryReadChar_ahead (mr : MessageReceiver) :
    ((tryReadChar mr).1 < 0 ∧ mr.ahead = []) ∨
      0 ≤ (tryReadChar mr).1 ∧
        mr.ahead = BitVec.ofInt 8 (tryReadChar mr).1 :: (tryReadChar mr).2.ahead ∧
        (tryReadChar mr).2.message.contents.length < mr.message.contents.length := by
  have hspec := tryReadChar_spec mr
  generalize (tryReadChar mr).1 = v at hspec ⊢
  generalize (tryReadChar mr).2 = mr' at hspec ⊢
  cases hspec with
  | finish hnil => exact .inl ⟨by decide, by rw [ahead, hnil]; cases mr.escape <;> rfl⟩
  | @quoted c message hescaped hcontents hsize =>
      rw [ahead, hescaped, hcontents, payloadAhead]
      rcases lt_or_ge c.toInt 0 with hneg | hpos
      · exact .inl ⟨hneg, if_neg (Int.not_le.mpr hneg)⟩
      · exact .inr ⟨hpos, by rw [if_pos hpos, BitVec.ofInt_toInt]; rfl, by simp⟩
  | @halfQuote message hescaped hcontents hnil hsize =>
      refine .inl ⟨by decide, ?_⟩
      rw [ahead, hescaped, hcontents, hnil]
      rfl
  | @quote c message hescaped hcontents hsize =>
      rw [ahead, hescaped, hcontents, payloadAhead, if_pos rfl, payloadAhead]
      rcases lt_or_ge c.toInt 0 with hneg | hpos
      · exact .inl ⟨hneg, if_neg (Int.not_le.mpr hneg)⟩
      · refine .inr ⟨hpos, by rw [if_pos hpos, BitVec.ofInt_toInt]; rfl, ?_⟩
        simp only [List.length_cons]
        omega
  | @edge message hescaped hcontents hsize =>
      refine .inl ⟨by decide, ?_⟩
      rw [ahead, hescaped, hcontents]
      rfl
  | @plain c message hescaped hesc hedge hcontents hsize =>
      rw [ahead, hescaped, hcontents, payloadAhead, if_neg hesc, if_neg hedge]
      rcases lt_or_ge c.toInt 0 with hneg | hpos
      · exact .inl ⟨hneg, if_neg (Int.not_le.mpr hneg)⟩
      · refine .inr ⟨hpos, ?_, by simp⟩
        rw [if_pos hpos, BitVec.ofInt_toInt]
        rfl

/-- The loop of `decapsulate` takes as many of the bytes ahead as it is asked for. -/
theorem readChars_ahead (mr : MessageReceiver) (count : ℕ) :
    (readChars mr count).1 = mr.ahead.take count ∧
      (count ≤ mr.ahead.length → (readChars mr count).2.ahead = mr.ahead.drop count) := by
  induction count generalizing mr with
  | zero => exact ⟨rfl, fun _ => rfl⟩
  | succ count ih =>
      rcases tryReadChar_ahead mr with ⟨hneg, hnil⟩ | ⟨hpos, hcons, -⟩
      · have hnot : ¬(tryReadChar mr).1 ≥ 0 := Int.not_le.mpr hneg
        simp only [readChars, hnot, if_false, hnil, List.take_nil, List.length_nil]
        exact ⟨trivial, fun h => absurd h (Nat.not_succ_le_zero count)⟩
      · obtain ⟨htake, hdrop⟩ := ih (tryReadChar mr).2
        simp only [readChars, ge_iff_le, hpos, if_true]
        rw [hcons, List.take_succ_cons, List.drop_succ_cons, List.length_cons, htake]
        exact ⟨rfl, fun h => hdrop (Nat.le_of_succ_le_succ h)⟩

/-! ### The count -/

/-- The bytes hold no edge that is not quoted and, apart from escapes, no byte that
comes out negative. -/
def Deliverable : Bool → List CChar → Prop
  | _, [] => True
  | true, c :: cs => 0 ≤ c.toInt ∧ Deliverable false cs
  | false, c :: cs =>
      if c = messageEscape then Deliverable true cs
      else c ≠ messageEdge ∧ 0 ≤ c.toInt ∧ Deliverable false cs

/-- The scan counts too many bytes if there are others, and never too few. -/
theorem contiguousFrom_spec (escaped : Bool) (bytes : List CChar) :
    (payloadAhead escaped bytes).length ≤ contiguousFrom escaped bytes ∧
      (contiguousFrom escaped bytes ≤ (payloadAhead escaped bytes).length ↔
        Deliverable escaped bytes) := by
  induction bytes generalizing escaped with
  | nil => cases escaped <;> simp [payloadAhead, contiguousFrom, Deliverable]
  | cons c bytes ih =>
      cases escaped with
      | true =>
          obtain ⟨hle, hiff⟩ := ih false
          rw [payloadAhead, contiguousFrom, Deliverable]
          by_cases hpos : 0 ≤ c.toInt
          · simp [hpos, hle, hiff]
          · simp [hpos]
      | false =>
          rw [payloadAhead, contiguousFrom, Deliverable]
          by_cases hesc : c = messageEscape
          · simpa [hesc] using ih true
          · obtain ⟨hle, hiff⟩ := ih false
            by_cases hedge : c = messageEdge
            · simp [hedge, messageEdge_ne_messageEscape]
            · by_cases hpos : 0 ≤ c.toInt
              · simp [hesc, hedge, hpos, hle, hiff]
              · simp [hesc, hedge, hpos]

def OrderGot (mr : MessageReceiver) : Prop :=
  mr.orderGot = true ∧ mr.order.toInt ≠ mrNoOrder

theorem orderGot_of_answer {mr : MessageReceiver} (h : (tryParseOrder mr).1 ≠ mrNoOrder) :
    OrderGot (tryParseOrder mr).2 := by
  obtain ⟨bytes, hparse⟩ := tryParseOrder_spec mr
  have hanswer := hparse.answer
  split_ifs at hanswer with hgot
  · exact ⟨hgot, hanswer ▸ h⟩
  · exact absurd hanswer h

theorem OrderGot.tryParseOrder {mr : MessageReceiver} (h : OrderGot mr) :
    tryParseOrder mr = (mr.order.toInt, mr) := by
  rw [MessageReceiver.tryParseOrder, if_pos h.1]

theorem OrderGot.getContiguousCount {mr : MessageReceiver} (h : OrderGot mr) :
    getContiguousCount mr = (contiguousFrom mr.escape mr.message.contents, mr) := by
  simp only [MessageReceiver.getContiguousCount, h.tryParseOrder, h.2, if_false]

theorem OrderGot.decapsulate {mr : MessageReceiver} (h : OrderGot mr) (count : ℕ) :
    decapsulate mr count = (((mr.ahead.take count).length : ℤ), readChars mr count) := by
  simp only [MessageReceiver.decapsulate, h.tryParseOrder, h.2, if_false]
  rw [← (readChars_ahead mr count).1]

/-- When an order is known, `decapsulate` delivers as many bytes as
`get_contiguous_count` has counted, and after them no more of the same frame. -/
def CountRight (mr : MessageReceiver) : Prop :=
  (getCurrentOrder mr).1 ≠ mrNoOrder →
    let counted := getContiguousCount (getCurrentOrder mr).2
    let delivered := MessageReceiver.decapsulate counted.2 counted.1
    delivered.1 = counted.1 ∧ ∀ count, delivered.2.2.orderGot = true →
      (MessageReceiver.decapsulate delivered.2.2 count).2.1 = []

/-- The two agree exactly when the buffer holds no end of a frame and no byte that comes
out negative. -/
theorem countRight_iff (mr : MessageReceiver) :
    CountRight mr ↔ ((getCurrentOrder mr).1 ≠ mrNoOrder →
      Deliverable (getCurrentOrder mr).2.escape (getCurrentOrder mr).2.message.contents) := by
  refine imp_congr_right fun horder => ?_
  have hgot : OrderGot (getCurrentOrder mr).2 := orderGot_of_answer horder
  generalize (getCurrentOrder mr).2 = mr₁ at hgot ⊢
  have hiff : contiguousFrom mr₁.escape mr₁.message.contents ≤ mr₁.ahead.length ↔
    Deliverable mr₁.escape mr₁.message.contents := (contiguousFrom_spec _ _).2
  simp only [hgot.getContiguousCount, hgot.decapsulate]
  rw [← hiff]
  constructor
  · rintro ⟨hall, -⟩
    rw [Nat.cast_inj, List.length_take] at hall
    exact min_eq_left_iff.mp hall
  · intro hall
    obtain ⟨-, hdrop⟩ := readChars_ahead mr₁ (contiguousFrom mr₁.escape mr₁.message.contents)
    have hnil : (readChars mr₁ (contiguousFrom mr₁.escape mr₁.message.contents)).2.ahead = [] :=
      (hdrop hall).trans (List.drop_eq_nil_of_le (contiguousFrom_spec _ _).1)
    refine ⟨by rw [List.length_take, min_eq_left hall], fun count hgot' => ?_⟩
    rw [MessageReceiver.decapsulate, MessageReceiver.tryParseOrder, if_pos hgot']
    dsimp only
    split_ifs
    · rfl
    · rw [(readChars_ahead _ count).1, hnil, List.take_nil]

def received (bytes : List CChar) : MessageReceiver :=
  { initMr (fun _ => 0) 16 with
    message := ((initMr (fun _ => 0) 16).message.iobRecv (some bytes)).2 }

/-- One byte and the edge behind it are counted as two. -/
theorem count_includes_edge : ¬CountRight (received [0x7E, 5, 0x61, 0x7E]) := by
  intro h
  exact absurd (h (by decide)).1 (by decide)

/-! ### Skipping -/

/-- `skip` answers what `decapsulate` does and leaves the receiver as it does. -/
def SkipRight (mr : MessageReceiver) (count : ℕ) : Prop :=
  skip mr count =
    some ((MessageReceiver.decapsulate mr count).1, (MessageReceiver.decapsulate mr count).2.2)

/-- The next read delivers no byte: there is none, or only an escape, or an edge or a
byte that comes out negative is next. -/
def NothingNext : Bool → List CChar → Prop
  | _, [] => True
  | true, c :: _ => c.toInt < 0
  | false, c :: cs =>
      if c = messageEscape then NothingNext true cs else c = messageEdge ∨ c.toInt < 0

theorem payloadAhead_eq_nil_iff (escaped : Bool) (bytes : List CChar) :
    payloadAhead escaped bytes = [] ↔ NothingNext escaped bytes := by
  induction bytes generalizing escaped with
  | nil => cases escaped <;> simp [payloadAhead, NothingNext]
  | cons c bytes ih =>
      cases escaped with
      | true => simp [payloadAhead, NothingNext]
      | false =>
          rw [payloadAhead, NothingNext]
          by_cases hesc : c = messageEscape
          · simpa only [hesc, if_true] using ih true
          · by_cases hedge : c = messageEdge <;>
              simp [hesc, hedge, messageEdge_ne_messageEscape]

theorem skipFrom_spec (count : ℕ) {fuel : ℕ} (skipped : ℕ) {mr : MessageReceiver}
    (hfuel : mr.message.contents.length < fuel) :
    ∃ mr', skipFrom count fuel skipped mr = some (skipped, mr') := by
  induction fuel generalizing mr with
  | zero => omega
  | succ fuel ih =>
      rw [skipFrom]
      by_cases hmore : skipped < count
      · rw [if_pos hmore]
        rcases tryReadChar_ahead mr with ⟨hneg, -⟩ | ⟨hpos, -, hless⟩
        · have hnot : ¬(tryReadChar mr).1 ≥ 0 := Int.not_le.mpr hneg
          simp only [hnot, if_false]
          exact ⟨_, rfl⟩
        · simp only [ge_iff_le, hpos, if_true]
          exact ih (by omega)
      · rw [if_neg hmore]
        exact ⟨mr, rfl⟩

/-- `skip` does as `decapsulate` exactly when neither of them gets to a byte. -/
theorem skipRight_iff (mr : MessageReceiver) (count : ℕ) :
    SkipRight mr count ↔ ((getCurrentOrder mr).1 ≠ mrNoOrder →
      count = 0 ∨
        NothingNext (getCurrentOrder mr).2.escape (getCurrentOrder mr).2.message.contents) := by
  by_cases horder : (getCurrentOrder mr).1 = mrNoOrder
  · refine iff_of_true ?_ fun h => absurd horder h
    have hnone : (tryParseOrder mr).1 = mrNoOrder := horder
    simp [SkipRight, skip, MessageReceiver.decapsulate, hnone]
  · have hgot : OrderGot (tryParseOrder mr).2 := orderGot_of_answer horder
    have hskip : skip mr count = (skipFrom count ((tryParseOrder mr).2.message.count + 1) 0
        (tryParseOrder mr).2).map fun (skipped, mr) => ((skipped : ℤ), mr) := if_neg horder
    have hdecapsulate : MessageReceiver.decapsulate mr count =
        (((readChars (tryParseOrder mr).2 count).1.length : ℤ),
          readChars (tryParseOrder mr).2 count) := if_neg horder
    rw [SkipRight, hskip, hdecapsulate, ← payloadAhead_eq_nil_iff]
    change _ ↔ (_ → count = 0 ∨ (tryParseOrder mr).2.ahead = [])
    simp only [ne_eq, horder, not_false_eq_true, true_imp_iff]
    generalize (tryParseOrder mr).2 = mr₁ at hgot ⊢
    constructor
    · intro h
      obtain ⟨mr', hloop⟩ := skipFrom_spec count 0
        (show mr₁.message.contents.length < mr₁.message.count + 1 by simp)
      rw [hloop, Option.map_some, Option.some.injEq, Prod.mk.injEq] at h
      have hlength := h.1
      rw [(readChars_ahead mr₁ count).1, Nat.cast_inj, eq_comm, List.length_eq_zero_iff,
        List.take_eq_nil_iff] at hlength
      exact hlength
    · rintro (rfl | hnil)
      · rfl
      · rcases tryReadChar_ahead mr₁ with ⟨hneg, -⟩ | ⟨-, hcons, -⟩
        · have hnot : ¬(tryReadChar mr₁).1 ≥ 0 := Int.not_le.mpr hneg
          cases count with
          | zero => rfl
          | succ count =>
              simp only [skipFrom, readChars, hnot, if_false, Nat.succ_pos, if_true,
                Option.map_some]
              rfl
        · rw [hnil] at hcons
          cases hcons

/-- Both bytes go when one is to be skipped, and the answer is that none was. -/
theorem skip_reads_on : ¬SkipRight (received [0x7E, 5, 0x61, 0x62]) 1 := by
  intro h
  have hskipped : (skip (received [0x7E, 5, 0x61, 0x62]) 1).map
      (fun r => (r.1, r.2.message.contents)) = some (0, []) := by
    decide
  rw [h] at hskipped
  exact absurd hskipped (by decide)

end MessageReceiver

end UnixLabs.Lab34
