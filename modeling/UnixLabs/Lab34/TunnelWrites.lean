import UnixLabs.Library.Run
import UnixLabs.Lab34.TransportProtocolBuffer

/-!
Where the tunnel's buffer is written.

The functions of `TPBuffer` write into the memory of a cyclic buffer, some through
`cb_putc` and some through a pointer. Each of them is given the list of its writes,
from which the memory after the call can be computed. Whatever is put is written
next to the queued bytes; only `cb_shift` writes over them.
-/

namespace UnixLabs.Lab34

open Library

/-- A byte that is written into the memory of a buffer, and which bytes of the memory
are queued at that moment. -/
structure ByteWrite where
  size : ℕ
  start : ℕ
  count : ℕ
  index : ℕ
  value : CChar

namespace ByteWrite

def InBounds (w : ByteWrite) : Prop := w.index < w.size

def Free (w : ByteWrite) : Prop :=
  w.index < w.size ∧ ∀ k < w.count, w.index ≠ (w.start + k) % w.size

def apply (m : ℕ → CChar) (ws : List ByteWrite) : ℕ → CChar :=
  ws.foldl (fun m w => Function.update m w.index w.value) m

theorem apply_append (m : ℕ → CChar) (ws ws' : List ByteWrite) :
    apply m (ws ++ ws') = apply (apply m ws) ws' := List.foldl_append

theorem apply_of_ne (m : ℕ → CChar) {ws : List ByteWrite} {i : ℕ} (h : ∀ w ∈ ws, w.index ≠ i) :
    apply m ws i = m i := by
  induction ws generalizing m with
  | nil => rfl
  | cons w ws ih =>
      have hw := h w List.mem_cons_self
      refine (ih (Function.update m w.index w.value)
        fun w' hw' => h w' (List.mem_cons_of_mem w hw')).trans ?_
      rw [Function.update_of_ne hw.symm]

end ByteWrite

/-! ### The writes of a cyclic buffer -/

namespace CyclicBuffer

def writeOf (b : CyclicBuffer) (index : ℕ) (value : CChar) : ByteWrite :=
  ⟨b.size, b.start, b.count, index, value⟩

def putcWrites (b : CyclicBuffer) (c : CChar) : List ByteWrite :=
  if cbFull b then [] else [b.writeOf ((b.start + b.count) % b.size) c]

def shiftWrites (b : CyclicBuffer) : List ByteWrite :=
  if b.start = 0 then []
  else (List.range b.count).map fun i => b.writeOf i (b.buf ((b.start + i) % b.size))

def sendWrites (b : CyclicBuffer) : List ByteWrite :=
  if cbContiguousSpace b ≠ b.count then shiftWrites b else []

theorem buf_cbPutc (b : CyclicBuffer) (c : CChar) :
    (cbPutc b c).2.buf = ByteWrite.apply b.buf (putcWrites b c) := by
  unfold cbPutc putcWrites
  split_ifs <;> rfl

theorem buf_cbShift (b : CyclicBuffer) :
    (cbShift b).buf = ByteWrite.apply b.buf (shiftWrites b) := by
  have hcells : ∀ n, ByteWrite.apply b.buf
      ((List.range n).map fun i => b.writeOf i (b.buf ((b.start + i) % b.size))) =
        fun i => if i < n then b.buf ((b.start + i) % b.size) else b.buf i := by
    intro n
    induction n with
    | zero => rfl
    | succ n ih =>
        rw [List.range_succ, List.map_append, ByteWrite.apply_append, ih]
        ext i : 1
        simp only [ByteWrite.apply, writeOf, List.map_cons, List.map_nil, List.foldl_cons,
          List.foldl_nil, Function.update_apply]
        by_cases hi : i = n
        · rw [hi, if_pos rfl, if_pos (Nat.lt_succ_self n)]
        · rw [if_neg hi]
          split_ifs <;> first | rfl | omega
  unfold cbShift shiftWrites
  split_ifs
  · rfl
  · exact (hcells b.count).symm

/-- The cells from `cb_data_end` on, as many as are free in one piece, hold no queued
bytes. -/
theorem free_dataEnd {b : CyclicBuffer} {j : ℕ} (h : j < cbFreeContiguousSpace b) (c : CChar) :
    (b.writeOf ((b.start + b.count) % b.size + j) c).Free := by
  have hstart := b.start_lt
  have hcount := b.count_le
  have hcell : (b.start + b.count) % b.size + j < b.size ∧ b.count + j < b.size := by
    unfold cbFreeContiguousSpace cbFreeSpace at h
    split_ifs at h with hfront
    · rw [Nat.mod_eq_of_lt (by omega)]
      omega
    · rw [Nat.mod_eq_sub_mod (by omega), Nat.mod_eq_of_lt (by omega)]
      omega
  have hindex : (b.start + b.count) % b.size + j = (b.start + (b.count + j)) % b.size := by
    rw [← Nat.mod_eq_of_lt hcell.1, Nat.mod_add_mod, Nat.add_assoc]
  refine ⟨hcell.1, fun k (hk : k < b.count) he => ?_⟩
  exact add_mod_ne b.start (by omega : k < b.count + j) hcell.2 (he.symm.trans hindex)

theorem free_putcWrites {b : CyclicBuffer} (c : CChar) : ∀ w ∈ putcWrites b c, w.Free := by
  intro w hw
  unfold putcWrites at hw
  split_ifs at hw with hfull
  · simp at hw
  · rw [List.mem_singleton] at hw
    subst hw
    have hcount : b.count < b.size := by
      rw [cbFull_iff] at hfull
      exact lt_of_le_of_ne b.count_le hfull
    exact ⟨Nat.mod_lt _ (Nat.zero_lt_of_lt hcount),
      fun k hk he => add_mod_ne b.start hk hcount he.symm⟩

theorem inBounds_sendWrites (b : CyclicBuffer) : ∀ w ∈ sendWrites b, w.InBounds := by
  intro w hw
  unfold sendWrites shiftWrites at hw
  split_ifs at hw
  · simp at hw
  · obtain ⟨i, hi, rfl⟩ := List.mem_map.mp hw
    exact (List.mem_range.mp hi).trans_le b.count_le
  · simp at hw

/-- `cb_skip` writes nothing, so `cb_send` writes what `cb_shift` does. -/
theorem memory_cbSend {b b' : CyclicBuffer} {written : Option ℕ} {ret : ℤ}
    (h : cbSend b written = some (ret, b')) :
    b'.buf = ByteWrite.apply b.buf (sendWrites b) ∧ ret.toNat ≤ b.count := by
  have hshift : ∃ b₁, (if cbContiguousSpace b ≠ b.count then cbShift b else b) = b₁ ∧
      b₁.buf = ByteWrite.apply b.buf (sendWrites b) ∧ b₁.count = b.count := by
    unfold sendWrites
    split_ifs
    · exact ⟨_, rfl, buf_cbShift b, count_cbShift b⟩
    · exact ⟨_, rfl, rfl, rfl⟩
  obtain ⟨b₁, hb₁, hmemory, hcount⟩ := hshift
  simp only [cbSend, hb₁] at h
  cases written with
  | none =>
      cases h
      exact ⟨hmemory, Nat.zero_le _⟩
  | some count =>
      obtain ⟨b₂, hskip, heq⟩ := Option.map_eq_some_iff.mp h
      cases heq
      refine ⟨?_, by rw [Int.toNat_natCast, hcount]; exact min_le_right _ _⟩
      simp only [cbSkip] at hskip
      split at hskip
      · cases hskip
      · cases hskip
        exact hmemory

end CyclicBuffer

namespace TPBuffer

/-! ### What is put behind the queue -/

/-- `tpb'` comes from `tpb` by the writes `ws`, none of which touches a queued byte,
and has more in its queue. -/
structure Appends (tpb tpb' : TPBuffer) (ws : List ByteWrite) : Prop where
  memory : tpb'.buffer.buf = ByteWrite.apply tpb.buffer.buf ws
  free : ∀ w ∈ ws, w.Free
  queue : tpb.buffer.contents <+: tpb'.buffer.contents
  size : tpb'.buffer.size = tpb.buffer.size

theorem Appends.refl (tpb : TPBuffer) : Appends tpb tpb [] :=
  ⟨rfl, by simp, List.prefix_rfl, rfl⟩

theorem Appends.trans {tpb tpb₁ tpb₂ : TPBuffer} {ws ws' : List ByteWrite}
    (h : Appends tpb tpb₁ ws) (h' : Appends tpb₁ tpb₂ ws') : Appends tpb tpb₂ (ws ++ ws') where
  memory := by rw [h'.memory, h.memory, ByteWrite.apply_append]
  free := List.forall_mem_append.mpr ⟨h.free, h'.free⟩
  queue := h.queue.trans h'.queue
  size := h'.size.trans h.size

theorem Appends.setOrder {tpb tpb' : TPBuffer} {ws : List ByteWrite} (h : Appends tpb tpb' ws)
    (order : ℤ) : Appends tpb { tpb' with order } ws := ⟨h.memory, h.free, h.queue, h.size⟩

theorem appends_put (tpb : TPBuffer) (c : CChar) :
    Appends tpb (tpb.put c) (tpb.buffer.putcWrites c) where
  memory := CyclicBuffer.buf_cbPutc tpb.buffer c
  free := CyclicBuffer.free_putcWrites c
  queue := by
    by_cases h : 0 < tpb.buffer.cbFreeSpace
    · rw [contents_put h]
      exact List.prefix_append _ _
    · have hfull : tpb.buffer.cbFull = true := by
        have := tpb.buffer.count_le
        unfold CyclicBuffer.cbFreeSpace at h
        rw [CyclicBuffer.cbFull_iff]
        omega
      simp only [put, CyclicBuffer.cbPutc, hfull, if_true]
      exact List.prefix_rfl
  size := size_put tpb c

def putsWrites : TPBuffer → List CChar → List ByteWrite
  | _, [] => []
  | tpb, c :: bytes => tpb.buffer.putcWrites c ++ putsWrites (tpb.put c) bytes

theorem appends_puts (tpb : TPBuffer) (bytes : List CChar) :
    Appends tpb (bytes.foldl put tpb) (putsWrites tpb bytes) := by
  induction bytes generalizing tpb with
  | nil => exact Appends.refl tpb
  | cons c bytes ih => exact (appends_put tpb c).trans (ih (tpb.put c))

theorem appends_tpbPutOrder (tpb : TPBuffer) (order : ℤ) :
    Appends tpb (tpbPutOrder tpb order) (putsWrites tpb (header tpb.order order)) := by
  rw [tpbPutOrder_eq]
  exact (appends_puts tpb _).setOrder order

def controlWrites (tpb : TPBuffer) (op : CChar) (order : ℤ) : List ByteWrite :=
  if tpb.order ≠ controlOrder ∧
      eventMessageLength + tpb.controlLength > tpb.buffer.cbFreeSpace then []
  else
    let opened := if tpb.order ≠ controlOrder then tpbPutOrder tpb controlOrder else tpb
    (if tpb.order ≠ controlOrder then putsWrites tpb (header tpb.order controlOrder) else []) ++
      putsWrites opened [op, BitVec.ofInt 8 order]

theorem appends_tpbContolMessage (tpb : TPBuffer) (op : CChar) (order : ℤ) :
    Appends tpb (tpbContolMessage tpb op order).2 (controlWrites tpb op order) := by
  unfold tpbContolMessage controlWrites
  split_ifs
  · exact Appends.refl tpb
  · exact (appends_tpbPutOrder tpb controlOrder).trans (appends_puts _ [op, BitVec.ofInt 8 order])
  · exact (Appends.refl tpb).trans (appends_puts tpb [op, BitVec.ofInt 8 order])

/-! ### Payload -/

def prWrites (b : CyclicBuffer) (message messageLen : ℕ) : List CChar → ℕ → List ByteWrite
  | [], _ => []
  | c :: data, messageIndex =>
      if messageIndex < messageLen then
        if c = messageEdge ∨ c = messageEscape then
          if messageIndex + 1 ≥ messageLen then []
          else
            b.writeOf (message + messageIndex) messageEscape ::
              b.writeOf (message + messageIndex + 1) c ::
              prWrites b message messageLen data (messageIndex + 2)
        else
          b.writeOf (message + messageIndex) c ::
            prWrites b message messageLen data (messageIndex + 1)
      else []

theorem memory_prEncapsulateFrom (b : CyclicBuffer) (message messageLen : ℕ)
    (data : List CChar) (i : ℕ) (m : ℕ → CChar) :
    (prEncapsulateFrom message messageLen data i m).2 =
      ByteWrite.apply m (prWrites b message messageLen data i) := by
  induction data generalizing i m with
  | nil => rfl
  | cons c data ih =>
      rw [prEncapsulateFrom, prWrites]
      split_ifs with hi hquote hfit
      · rfl
      · exact ih (i + 2) _
      · exact ih (i + 1) _
      · rfl

theorem mem_prWrites {b : CyclicBuffer} {message messageLen : ℕ} {data : List CChar} {i : ℕ}
    {w : ByteWrite} (hw : w ∈ prWrites b message messageLen data i) :
    ∃ j < messageLen, ∃ c, w = b.writeOf (message + j) c := by
  induction data generalizing i with
  | nil => simp [prWrites] at hw
  | cons c data ih =>
      rw [prWrites] at hw
      split_ifs at hw with hi hquote hfit
      · simp at hw
      · rcases List.mem_cons.mp hw with rfl | hw
        · exact ⟨i, hi, _, rfl⟩
        · rcases List.mem_cons.mp hw with rfl | hw
          · exact ⟨i + 1, by omega, _, rfl⟩
          · exact ih hw
      · rcases List.mem_cons.mp hw with rfl | hw
        · exact ⟨i, hi, _, rfl⟩
        · exact ih hw
      · simp at hw

/-- A round of `tpb_encapsulate`, whatever it counts in afterwards. -/
theorem appends_afterRound (tpb : TPBuffer) (data : List CChar) {messageLen : ℕ}
    (hlen : messageLen ≤ tpb.buffer.cbFreeContiguousSpace) (count : ℕ) :
    let message := (tpb.buffer.start + tpb.buffer.count) % tpb.buffer.size
    Appends tpb
      (tpb.afterRound (prEncapsulate data tpb.buffer.buf message messageLen).2 count)
      (prWrites tpb.buffer message messageLen data 0) := by
  intro message
  have hmemory := memory_prEncapsulateFrom tpb.buffer message messageLen data 0 tpb.buffer.buf
  have hfree : ∀ w ∈ prWrites tpb.buffer message messageLen data 0, w.Free := by
    intro w hw
    obtain ⟨j, hj, c, rfl⟩ := mem_prWrites hw
    exact CyclicBuffer.free_dataEnd (hj.trans_le hlen) c
  refine ⟨hmemory, hfree, ?_, size_afterRound tpb _ count⟩
  -- the queued cells hold what they held
  have hsame : ring (prEncapsulate data tpb.buffer.buf message messageLen).2 tpb.buffer.size
      tpb.buffer.start tpb.buffer.count = tpb.buffer.contents := by
    refine firstCells_congr fun k hk => ?_
    rw [prEncapsulate, hmemory]
    refine ByteWrite.apply_of_ne _ fun w hw he => ?_
    obtain ⟨j, -, c, rfl⟩ := mem_prWrites hw
    exact (hfree _ hw).2 k hk he
  have hlonger : ∀ n, tpb.buffer.contents <+:
      ring (prEncapsulate data tpb.buffer.buf message messageLen).2 tpb.buffer.size
        tpb.buffer.start (tpb.buffer.count + n) := by
    intro n
    rw [← hsame, ring, ring, firstCells_add]
    exact List.prefix_append _ _
  exact hlonger _

def roundsWrites (data : List CChar) (messageLength : ℕ → ℕ) : ℕ → TPBuffer → List ByteWrite
  | 0, _ => []
  | rounds + 1, tpb =>
      let contiguousSpace := tpb.buffer.cbFreeContiguousSpace
      let message := (tpb.buffer.start + tpb.buffer.count) % tpb.buffer.size
      let messageLen := min (messageLength (2 - rounds)) contiguousSpace
      let (count, buf) := prEncapsulate data tpb.buffer.buf message messageLen
      prWrites tpb.buffer message messageLen data 0 ++
        if count < contiguousSpace then []
        else roundsWrites data messageLength rounds (tpb.afterRound buf count)

theorem appends_encapsulateRounds {tpb tpb' : TPBuffer} {data : List CChar}
    {messageLength : ℕ → ℕ} {rounds encapsed n : ℕ}
    (h : encapsulateRounds data messageLength rounds encapsed tpb = some (n, tpb')) :
    Appends tpb tpb' (roundsWrites data messageLength rounds tpb) := by
  induction rounds generalizing tpb encapsed with
  | zero =>
      cases h
      exact Appends.refl _
  | succ rounds ih =>
      by_cases hsize : tpb.buffer.size = 0
      · have hend : tpb.buffer.cbDataEnd = none := if_pos hsize
        simp [encapsulateRounds, hend] at h
      · have hend := CyclicBuffer.cbDataEnd_of_pos (Nat.pos_of_ne_zero hsize)
        have hround := appends_afterRound tpb data
          (min_le_right (messageLength (2 - rounds)) tpb.buffer.cbFreeContiguousSpace)
          (prEncapsulate data tpb.buffer.buf
            ((tpb.buffer.start + tpb.buffer.count) % tpb.buffer.size)
            (min (messageLength (2 - rounds)) tpb.buffer.cbFreeContiguousSpace)).1
        simp only [encapsulateRounds, hend, Option.bind_eq_bind, Option.bind_some] at h
        simp only [roundsWrites]
        split_ifs at h ⊢ with hless
        · cases h
          exact hround.trans (Appends.refl _)
        · exact hround.trans (ih h)

def encapsulateWrites (tpb : TPBuffer) (data : List CChar) (order : ℤ)
    (messageLength : ℕ → ℕ) : List ByteWrite :=
  if order > tpbMaxOrder ∨ order < 0 then []
  else if order ≠ tpb.order ∧
      (messageLength 0 + tpb.controlLength) % 2 ^ 64 > tpb.buffer.cbFreeSpace then []
  else if order ≠ tpb.order then
    putsWrites tpb (header tpb.order order) ++
      roundsWrites data messageLength 2 (tpbPutOrder tpb order)
  else roundsWrites data messageLength 2 tpb

theorem appends_tpbEncapsulate {tpb tpb' : TPBuffer} {data : List CChar} {order : ℤ}
    {messageLength : ℕ → ℕ} {n : ℕ}
    (h : tpbEncapsulate tpb data order messageLength = some (n, tpb')) :
    Appends tpb tpb' (encapsulateWrites tpb data order messageLength) := by
  unfold tpbEncapsulate at h
  unfold encapsulateWrites
  split_ifs at h ⊢ with hrange hroom horder
  · cases h
    exact Appends.refl tpb
  · cases h
    exact Appends.refl tpb
  · exact (appends_tpbPutOrder tpb order).trans (appends_encapsulateRounds h)
  · exact appends_encapsulateRounds h

/-! ### Runs -/

inductive TunnelOp
  | encapsulate (data : List CChar) (order : ℤ) (messageLength : ℕ → ℕ)
  | contolMessage (op : CChar) (order : ℤ)
  | send (written : Option ℕ)

def tunnelStep (tpb : TPBuffer) : TunnelOp → Option TPBuffer
  | .encapsulate data order messageLength =>
      (tpbEncapsulate tpb data order messageLength).map Prod.snd
  | .contolMessage op order => some (tpbContolMessage tpb op order).2
  | .send written => (tpbSend tpb written).map Prod.snd

def opWrites (tpb : TPBuffer) : TunnelOp → List ByteWrite
  | .encapsulate data order messageLength => encapsulateWrites tpb data order messageLength
  | .contolMessage op order => controlWrites tpb op order
  | .send _ => tpb.buffer.sendWrites

/-- `tpb_send` moves queued bytes inside the memory and takes a prefix off, of the
length that it reports. -/
structure Sends (tpb tpb' : TPBuffer) (ret : ℤ) (ws : List ByteWrite) : Prop where
  memory : tpb'.buffer.buf = ByteWrite.apply tpb.buffer.buf ws
  inBounds : ∀ w ∈ ws, w.InBounds
  length : ret.toNat ≤ tpb.buffer.contents.length
  queue : tpb'.buffer.contents = tpb.buffer.contents.drop ret.toNat
  size : tpb'.buffer.size = tpb.buffer.size

def StepRight (tpb : TPBuffer) : TunnelOp → Prop
  | .encapsulate data order messageLength =>
      ∃ n tpb', tpbEncapsulate tpb data order messageLength = some (n, tpb') ∧
        n ≤ data.length ∧ Appends tpb tpb' (encapsulateWrites tpb data order messageLength)
  | .contolMessage op order =>
      Appends tpb (tpbContolMessage tpb op order).2 (controlWrites tpb op order)
  | .send written =>
      ∃ ret tpb', tpbSend tpb written = some (ret, tpb') ∧
        Sends tpb tpb' ret tpb.buffer.sendWrites

theorem sends_tpbSend {tpb : TPBuffer} (hsize : 0 < tpb.buffer.size) (written : Option ℕ) :
    ∃ ret tpb', tpbSend tpb written = some (ret, tpb') ∧
      Sends tpb tpb' ret tpb.buffer.sendWrites := by
  obtain ⟨ret, tpb', hsend, hdrop, hsize', -⟩ := tpbSend_spec hsize written
  have hsend' := hsend
  rw [tpbSend, Option.map_eq_some_iff] at hsend'
  obtain ⟨⟨ret', buffer⟩, hsend', heq⟩ := hsend'
  cases heq
  obtain ⟨hmemory, hlength⟩ := CyclicBuffer.memory_cbSend hsend'
  exact ⟨ret, _, hsend, hmemory, CyclicBuffer.inBounds_sendWrites tpb.buffer,
    hlength.trans (CyclicBuffer.length_contents _).ge, hdrop, hsize'⟩

theorem stepRight (tpb : TPBuffer) (hsize : 0 < tpb.buffer.size) (op : TunnelOp) :
    StepRight tpb op := by
  cases op with
  | encapsulate data order messageLength =>
      obtain ⟨n, tpb', heq, hn, -⟩ := tpbEncapsulate_spec hsize data order messageLength
      exact ⟨n, tpb', heq, hn, appends_tpbEncapsulate heq⟩
  | contolMessage op order => exact appends_tpbContolMessage tpb op order
  | send written => exact sends_tpbSend hsize written

theorem tunnelStep_defined {tpb : TPBuffer} (hsize : 0 < tpb.buffer.size) (op : TunnelOp) :
    ∃ tpb', tunnelStep tpb op = some tpb' ∧ tpb'.buffer.size = tpb.buffer.size := by
  cases op with
  | encapsulate data order messageLength =>
      obtain ⟨n, tpb', heq, -, hsize'⟩ := tpbEncapsulate_spec hsize data order messageLength
      exact ⟨tpb', by rw [tunnelStep, heq]; rfl, hsize'⟩
  | contolMessage op order => exact ⟨_, rfl, size_tpbContolMessage tpb op order⟩
  | send written =>
      obtain ⟨ret, tpb', heq, hsends⟩ := sends_tpbSend hsize written
      exact ⟨tpb', by rw [tunnelStep, heq]; rfl, hsends.size⟩

/-- After any operations on a new buffer its indices are in range, and the next
operation, whichever it is, writes where it may and does to the queue what it should. -/
theorem tunnel_writes (junk : ℕ → CChar) {size : ℕ} (hsize : 0 < size) (ops : List TunnelOp) :
    ∃ tpb, run tunnelStep (tpbInit junk size) ops = some tpb ∧ tpb.buffer.size = size ∧
      tpb.buffer.start < tpb.buffer.size ∧ tpb.buffer.count ≤ tpb.buffer.size ∧
      ∀ op, StepRight tpb op := by
  have hstep : ∀ tpb op, tpb.buffer.size = size →
      ∃ tpb', tunnelStep tpb op = some tpb' ∧ tpb'.buffer.size = size := by
    intro tpb op h
    obtain ⟨tpb', hstep, hsize'⟩ := tunnelStep_defined (h ▸ hsize) op
    exact ⟨tpb', hstep, hsize'.trans h⟩
  obtain ⟨tpb, hrun, hkept⟩ := run_total hstep (s := tpbInit junk size) rfl ops
  have hpos : 0 < tpb.buffer.size := hkept ▸ hsize
  refine ⟨tpb, hrun, hkept, ?_, tpb.buffer.count_le, stepRight tpb hpos⟩
  have := tpb.buffer.start_lt
  omega

theorem tunnel_writes_wrapped :
    ∃ tpb, run tunnelStep (tpbInit (fun _ => 0) 8)
        [.contolMessage clientAdd 0, .send (some 3), .contolMessage clientAdd 1,
          .contolMessage clientRemove 0, .contolMessage clientAdd 2] = some tpb ∧
      tpb.buffer.size = 8 ∧ tpb.buffer.start < tpb.buffer.size ∧
      tpb.buffer.count ≤ tpb.buffer.size ∧ ∀ op, StepRight tpb op :=
  tunnel_writes (fun _ => 0) (by decide) _

/-- When those contents are sent, `cb_shift` writes over a byte that is queued. -/
theorem tunnelWrites_not_free :
    ¬∀ (junk : ℕ → CChar) (size : ℕ), 0 < size → ∀ (ops : List TunnelOp) (op : TunnelOp)
      (tpb : TPBuffer), run tunnelStep (tpbInit junk size) ops = some tpb →
        ∀ w ∈ opWrites tpb op, w.Free := by
  intro h
  have hshift := h (fun _ => 0) 8 (by decide)
    [.contolMessage clientAdd 0, .send (some 3), .contolMessage clientAdd 1,
      .contolMessage clientRemove 0, .contolMessage clientAdd 2] (.send (some 7)) _ rfl _
    List.mem_cons_self
  exact hshift.2 5 (by decide) rfl

end TPBuffer

end UnixLabs.Lab34
