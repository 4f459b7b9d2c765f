import UnixLabs.Lab34.CyclicBuffer
import UnixLabs.Lab34.Protocol

/-!
`lab34/transport_protocol_buffer.c`: the outgoing side of the tunnel.

Frames of payload carry a client's id as their order, frames of order
`CONTROL_ORDER` carry events of an operation and an id. The results of the single
`cb_putc` calls are ignored by the source, and so they are here. The constants are
those of a build without `DEBUG`, in which `CLIENT_CODE_SHIFT` is zero.
-/

namespace UnixLabs.Lab34

open Library

def tpbNoOrder : ℤ := -1

def tpbMaxOrder : ℤ := 255

def controlOrder : ℤ := 255

def clientAdd : CChar := 1

def clientRemove : CChar := 2

def eventMessageLength : ℕ := 2

structure TPBuffer where
  buffer : CyclicBuffer
  order : ℤ

namespace TPBuffer

def tpbInit (junk : ℕ → CChar) (size : ℕ) : TPBuffer := ⟨CyclicBuffer.cbInit junk size, tpbNoOrder⟩

def tpbEmpty (tpb : TPBuffer) : Bool := tpb.buffer.cbEmpty

/-- `cb_putc` into the buffer, its result ignored. -/
def put (tpb : TPBuffer) (c : CChar) : TPBuffer := { tpb with buffer := (tpb.buffer.cbPutc c).2 }

def controlLength (tpb : TPBuffer) : ℕ := if tpb.order = tpbNoOrder then 2 else 3

def tpbPutOrder (tpb : TPBuffer) (order : ℤ) : TPBuffer :=
  let tpb := if tpb.order ≠ tpbNoOrder then tpb.put messageEdge else tpb
  let tpb := tpb.put messageEdge
  let tpb := tpb.put (BitVec.ofInt 8 order)
  { tpb with order }

def tpbContolMessage (tpb : TPBuffer) (op : CChar) (order : ℤ) : Bool × TPBuffer :=
  if tpb.order ≠ controlOrder ∧
      eventMessageLength + tpb.controlLength > tpb.buffer.cbFreeSpace then (false, tpb)
  else
    -- in an open control frame the event is put without a look at the free space
    let tpb := if tpb.order ≠ controlOrder then tpbPutOrder tpb controlOrder else tpb
    let tpb := tpb.put op
    (true, tpb.put (BitVec.ofInt 8 order))

/-- The loop of `tpb_encapsulate` with `rounds` rounds to go. `messageLength i` is
what the `i`-th call of `message_length` yields. -/
def encapsulateRounds (data : List CChar) (messageLength : ℕ → ℕ) :
    ℕ → ℕ → TPBuffer → Option (ℕ × TPBuffer)
  | 0, encapsed, tpb => some (encapsed, tpb)
  | rounds + 1, encapsed, tpb => do
      let msgLength := messageLength (2 - rounds)
      let contiguousSpace := tpb.buffer.cbFreeContiguousSpace
      let message ← tpb.buffer.cbDataEnd
      -- every round starts from the front of the data
      let (count, buf) :=
        prEncapsulate data tpb.buffer.buf message (min msgLength contiguousSpace)
      let tpb := { tpb with buffer := { tpb.buffer with buf }.cbSkipRight count }
      if count < contiguousSpace then some (encapsed + count, tpb)
      else encapsulateRounds data messageLength rounds (encapsed + count) tpb

/-- `tpb_encapsulate` of the bytes `data[0..data_length)`. The sum of lengths is
one of `size_t`. -/
def tpbEncapsulate (tpb : TPBuffer) (data : List CChar) (order : ℤ) (messageLength : ℕ → ℕ) :
    Option (ℕ × TPBuffer) :=
  if order > tpbMaxOrder ∨ order < 0 then some (0, tpb)
  else if order ≠ tpb.order ∧
      (messageLength 0 + tpb.controlLength) % 2 ^ 64 > tpb.buffer.cbFreeSpace then some (0, tpb)
  else encapsulateRounds data messageLength 2 0
    (if order ≠ tpb.order then tpbPutOrder tpb order else tpb)

def tpbSend (tpb : TPBuffer) (written : Option ℕ) : Option (ℤ × TPBuffer) :=
  (tpb.buffer.cbSend written).map fun (ret, buffer) => (ret, { tpb with buffer })

/-! ### What is put -/

@[simp] theorem order_put (tpb : TPBuffer) (c : CChar) : (tpb.put c).order = tpb.order := rfl

@[simp] theorem size_put (tpb : TPBuffer) (c : CChar) :
    (tpb.put c).buffer.size = tpb.buffer.size := tpb.buffer.size_cbPutc c

@[simp] theorem start_put (tpb : TPBuffer) (c : CChar) :
    (tpb.put c).buffer.start = tpb.buffer.start := by
  unfold put CyclicBuffer.cbPutc
  split_ifs <;> rfl

theorem contents_put {tpb : TPBuffer} (h : 0 < tpb.buffer.cbFreeSpace) (c : CChar) :
    (tpb.put c).buffer.contents = tpb.buffer.contents ++ [c] :=
  (CyclicBuffer.cbPutc_of_lt (by unfold CyclicBuffer.cbFreeSpace at h; omega) c).2

theorem cbFreeSpace_eq (tpb : TPBuffer) :
    tpb.buffer.cbFreeSpace = tpb.buffer.size - tpb.buffer.contents.length := by
  rw [CyclicBuffer.length_contents, CyclicBuffer.cbFreeSpace]

theorem contents_puts {tpb : TPBuffer} {bytes : List CChar}
    (h : bytes.length ≤ tpb.buffer.cbFreeSpace) :
    (bytes.foldl put tpb).buffer.contents = tpb.buffer.contents ++ bytes ∧
      (bytes.foldl put tpb).buffer.size = tpb.buffer.size ∧
      (bytes.foldl put tpb).order = tpb.order := by
  induction bytes generalizing tpb with
  | nil => simp
  | cons c bytes ih =>
      rw [List.length_cons] at h
      have hput := contents_put (Nat.zero_lt_of_lt h) c
      have hroom : bytes.length ≤ (tpb.put c).buffer.cbFreeSpace := by
        rw [cbFreeSpace_eq] at h ⊢
        rw [hput, size_put, List.length_append, List.length_singleton]
        omega
      obtain ⟨hcontents, hsize, horder⟩ := ih hroom
      refine ⟨?_, hsize.trans (size_put tpb c), horder⟩
      rw [List.foldl_cons, hcontents, hput, List.append_assoc]
      rfl

/-- The bytes that close the frame before, if there is one, and open the next. -/
def header (current order : ℤ) : List CChar :=
  (if current = tpbNoOrder then [messageEdge] else [messageEdge, messageEdge]) ++
    [BitVec.ofInt 8 order]

theorem length_header (tpb : TPBuffer) (order : ℤ) :
    (header tpb.order order).length = tpb.controlLength := by
  unfold header controlLength
  split_ifs <;> rfl

theorem tpbPutOrder_eq (tpb : TPBuffer) (order : ℤ) :
    tpbPutOrder tpb order = { (header tpb.order order).foldl put tpb with order } := by
  unfold tpbPutOrder header
  by_cases h : tpb.order = tpbNoOrder <;> simp [h]

theorem contents_tpbPutOrder {tpb : TPBuffer} (order : ℤ)
    (h : tpb.controlLength ≤ tpb.buffer.cbFreeSpace) :
    (tpbPutOrder tpb order).buffer.contents = tpb.buffer.contents ++ header tpb.order order ∧
      (tpbPutOrder tpb order).buffer.size = tpb.buffer.size := by
  obtain ⟨hcontents, hsize, -⟩ := contents_puts ((length_header tpb order).trans_le h)
  rw [tpbPutOrder_eq]
  exact ⟨hcontents, hsize⟩

/-- The bytes of a control event, with the header of a control frame if it has to
be opened. -/
def eventBytes (current : ℤ) (op : CChar) (order : ℤ) : List CChar :=
  (if current = controlOrder then [] else header current controlOrder) ++
    [op, BitVec.ofInt 8 order]

theorem contents_tpbContolMessage {tpb : TPBuffer} (op : CChar) (order : ℤ)
    (h : (eventBytes tpb.order op order).length ≤ tpb.buffer.cbFreeSpace) :
    (tpbContolMessage tpb op order).1 = true ∧
      (tpbContolMessage tpb op order).2.buffer.contents =
        tpb.buffer.contents ++ eventBytes tpb.order op order ∧
      (tpbContolMessage tpb op order).2.buffer.size = tpb.buffer.size ∧
      (tpbContolMessage tpb op order).2.order = controlOrder := by
  by_cases hcontrol : tpb.order = controlOrder
  · have hmessage : tpbContolMessage tpb op order =
        (true, [op, BitVec.ofInt 8 order].foldl put tpb) := by
      simp [tpbContolMessage, hcontrol]
    rw [eventBytes, if_pos hcontrol, List.nil_append] at h ⊢
    obtain ⟨hcontents, hsize, horder⟩ := contents_puts h
    rw [hmessage]
    exact ⟨rfl, hcontents, hsize, horder.trans hcontrol⟩
  · rw [eventBytes, if_neg hcontrol] at h ⊢
    rw [List.length_append, length_header, List.length_cons, List.length_singleton] at h
    have hheader : tpb.controlLength ≤ tpb.buffer.cbFreeSpace := by omega
    obtain ⟨hcontents, hsize⟩ := contents_tpbPutOrder controlOrder hheader
    have hevent : [op, BitVec.ofInt 8 order].length ≤
        (tpbPutOrder tpb controlOrder).buffer.cbFreeSpace := by
      rw [cbFreeSpace_eq] at h ⊢
      rw [hcontents, hsize, List.length_append, length_header]
      simp only [List.length_cons, List.length_nil]
      omega
    obtain ⟨hcontents', hsize', horder'⟩ := contents_puts hevent
    have hmessage : tpbContolMessage tpb op order =
        (true, [op, BitVec.ofInt 8 order].foldl put (tpbPutOrder tpb controlOrder)) := by
      have hroom : ¬(eventMessageLength + tpb.controlLength > tpb.buffer.cbFreeSpace) := by
        unfold eventMessageLength
        omega
      simp [tpbContolMessage, hcontrol, hroom]
    rw [hmessage]
    refine ⟨rfl, ?_, hsize'.trans hsize, horder'⟩
    rw [hcontents', hcontents, List.append_assoc]

/-! ### Payload -/

def afterRound (tpb : TPBuffer) (buf : ℕ → CChar) (count : ℕ) : TPBuffer :=
  { tpb with buffer := { tpb.buffer with buf }.cbSkipRight count }

@[simp] theorem size_afterRound (tpb : TPBuffer) (buf : ℕ → CChar) (count : ℕ) :
    (tpb.afterRound buf count).buffer.size = tpb.buffer.size := rfl

theorem cbFreeContiguousSpace_afterRound (tpb : TPBuffer) (buf : ℕ → CChar) :
    (tpb.afterRound buf tpb.buffer.cbFreeContiguousSpace).buffer.cbFreeContiguousSpace = 0 := by
  have hcount := tpb.buffer.count_le
  have hstart := tpb.buffer.start_lt
  simp only [afterRound, CyclicBuffer.cbSkipRight, CyclicBuffer.cbFreeContiguousSpace,
    CyclicBuffer.cbFreeSpace]
  split_ifs <;> omega

theorem afterRound_zero (tpb : TPBuffer) : tpb.afterRound tpb.buffer.buf 0 = tpb := by
  have hskip : tpb.buffer.cbSkipRight 0 = tpb.buffer := by
    have hle := tpb.buffer.count_le
    simp only [CyclicBuffer.cbSkipRight, Nat.add_zero, Nat.not_lt.mpr hle, if_false]
  exact congrArg (fun buffer => { tpb with buffer }) hskip

theorem encapsulateRounds_full {tpb : TPBuffer} (hsize : 0 < tpb.buffer.size)
    (hfull : tpb.buffer.cbFreeContiguousSpace = 0) (data : List CChar) (messageLength : ℕ → ℕ)
    (rounds encapsed : ℕ) :
    encapsulateRounds data messageLength rounds encapsed tpb = some (encapsed, tpb) := by
  induction rounds with
  | zero => rfl
  | succ rounds ih =>
      simp only [encapsulateRounds, CyclicBuffer.cbDataEnd_of_pos hsize, hfull,
        Option.bind_eq_bind, Option.bind_some, Nat.min_zero, prEncapsulate_no_room, lt_irrefl,
        if_false, Nat.add_zero]
      rw [← ih]
      exact congrArg _ tpb.afterRound_zero

/-- Only the first round can put anything: it ends the loop or fills the
contiguous space. -/
theorem encapsulateRounds_spec {tpb : TPBuffer} (hsize : 0 < tpb.buffer.size)
    (data : List CChar) (messageLength : ℕ → ℕ) (rounds : ℕ) :
    ∃ n tpb', encapsulateRounds data messageLength (rounds + 1) 0 tpb = some (n, tpb') ∧
      n ≤ data.length ∧ tpb'.buffer.size = tpb.buffer.size := by
  obtain ⟨hdata, hspace⟩ := prEncapsulate_le data tpb.buffer.buf
    ((tpb.buffer.start + tpb.buffer.count) % tpb.buffer.size)
    (min (messageLength (2 - rounds)) tpb.buffer.cbFreeContiguousSpace)
  simp only [encapsulateRounds, CyclicBuffer.cbDataEnd_of_pos hsize, Option.bind_eq_bind,
    Option.bind_some, Nat.zero_add]
  split_ifs with hless
  · exact ⟨_, _, rfl, hdata, rfl⟩
  · have hall := Nat.le_antisymm (hspace.trans (min_le_right _ _)) (Nat.le_of_not_lt hless)
    have hfull := cbFreeContiguousSpace_afterRound tpb (prEncapsulate data tpb.buffer.buf
      ((tpb.buffer.start + tpb.buffer.count) % tpb.buffer.size)
      (min (messageLength (2 - rounds)) tpb.buffer.cbFreeContiguousSpace)).2
    rw [hall] at hdata ⊢
    exact ⟨_, _, @encapsulateRounds_full (tpb.afterRound _ _) hsize hfull data messageLength
      rounds tpb.buffer.cbFreeContiguousSpace, hdata, rfl⟩

@[simp] theorem size_tpbPutOrder (tpb : TPBuffer) (order : ℤ) :
    (tpbPutOrder tpb order).buffer.size = tpb.buffer.size := by
  unfold tpbPutOrder
  split_ifs <;> simp

@[simp] theorem start_tpbPutOrder (tpb : TPBuffer) (order : ℤ) :
    (tpbPutOrder tpb order).buffer.start = tpb.buffer.start := by
  unfold tpbPutOrder
  split_ifs <;> simp

@[simp] theorem size_tpbContolMessage (tpb : TPBuffer) (op : CChar) (order : ℤ) :
    (tpbContolMessage tpb op order).2.buffer.size = tpb.buffer.size := by
  unfold tpbContolMessage
  split_ifs <;> simp

theorem tpbEncapsulate_spec {tpb : TPBuffer} (hsize : 0 < tpb.buffer.size) (data : List CChar)
    (order : ℤ) (messageLength : ℕ → ℕ) :
    ∃ n tpb', tpbEncapsulate tpb data order messageLength = some (n, tpb') ∧ n ≤ data.length ∧
      tpb'.buffer.size = tpb.buffer.size := by
  unfold tpbEncapsulate
  split_ifs with hrange hroom
  · exact ⟨0, tpb, rfl, Nat.zero_le _, rfl⟩
  · exact ⟨0, tpb, rfl, Nat.zero_le _, rfl⟩
  · have hsize' : 0 < (tpbPutOrder tpb order).buffer.size := by rwa [size_tpbPutOrder]
    obtain ⟨n, tpb', heq, hn, hsize'⟩ := encapsulateRounds_spec hsize' data messageLength 1
    exact ⟨n, tpb', heq, hn, hsize'.trans (size_tpbPutOrder tpb order)⟩
  · exact encapsulateRounds_spec hsize data messageLength 1

theorem tpbSend_spec {tpb : TPBuffer} (hsize : 0 < tpb.buffer.size) (written : Option ℕ) :
    ∃ ret tpb', tpbSend tpb written = some (ret, tpb') ∧
      tpb'.buffer.contents = tpb.buffer.contents.drop ret.toNat ∧
      tpb'.buffer.size = tpb.buffer.size ∧ tpb'.order = tpb.order := by
  obtain ⟨ret, buffer, hsend, hdrop, hsize'⟩ := CyclicBuffer.cbSend_spec hsize written
  exact ⟨ret, { tpb with buffer }, by rw [tpbSend, hsend]; rfl, hdrop, hsize', rfl⟩

end TPBuffer

end UnixLabs.Lab34
