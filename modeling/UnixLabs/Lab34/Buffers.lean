import UnixLabs.IOBuffer
import UnixLabs.Lab34.CyclicQueue

/-!
The two buffers of lab34 side by side.

`IOBuffer` moves its contents to the front with every byte it gives away, `CyclicBuffer`
goes around the end instead. Whoever uses one could use the other, but for `iob_getc`: it
answers `END_OF_BUFFER` also for a byte that is -1 as an `int`, and drops it.
-/

namespace UnixLabs.Lab34

open Library

inductive BufferOp
  | putc (c : CChar)
  | getc
  | shift (n : ℕ)
  | clear
  | recv (input : Option (List CChar))
  | send (written : Option ℕ)
  | full
  | empty
  | freeSpace

/-- What they answer; for `send` with the bytes that were written. -/
inductive BufferAnswer
  | done
  | flag (yes : Bool)
  | byte (c : Option CChar)
  | count (n : ℤ)
  | sent (n : ℤ) (bytes : List CChar)

/-- A caller of `iob_getc` takes `END_OF_BUFFER` for an empty buffer. -/
def byteOf (c : ℤ) : Option CChar := if c = endOfBuffer then none else some (BitVec.ofInt 8 c)

def iobStep (b : IOBuffer) : BufferOp → Option (BufferAnswer × IOBuffer)
  | .putc c => let (room, b) := b.iobPutc c; some (.flag room, b)
  | .getc => let (c, b) := b.iobGetc; some (.byte (byteOf c), b)
  | .shift n => some (.done, b.iobShift n)
  | .clear => some (.done, b.iobClear)
  | .recv input => let (n, b) := b.iobRecv input; some (.count n, b)
  | .send written =>
      let (n, b') := b.iobSend written
      some (.sent n (b.contents.take n.toNat), b')
  | .full => some (.flag b.iobFull, b)
  | .empty => some (.flag b.iobEmpty, b)
  | .freeSpace => some (.count b.iobFreeSpace, b)

def cbStep (b : CyclicBuffer) : BufferOp → Option (BufferAnswer × CyclicBuffer)
  | .putc c => let (room, b) := b.cbPutc c; some (.flag room, b)
  | .getc => do
      let (c, b) ← b.cbGetc
      some (.byte c, b)
  | .shift n => do
      let b ← b.cbSkip n
      some (.done, b)
  | .clear => some (.done, b.cbClear)
  | .recv input => let (n, b) := b.cbRecv input; some (.count n, b)
  | .send written => do
      let data ← b.cbSendData
      let (n, b) ← b.cbSend written
      some (.sent n (data.take n.toNat), b)
  | .full => some (.flag b.cbFull, b)
  | .empty => some (.flag b.cbEmpty, b)
  | .freeSpace => some (.count b.cbFreeSpace, b)

/-- No byte is taken that `iob_getc` cannot tell from the end of the buffer. -/
def Telling (b : IOBuffer) : BufferOp → Prop
  | .getc => b.contents.head? ≠ some 0xFF
  | _ => True

structure SameQueue (b : IOBuffer) (d : CyclicBuffer) : Prop where
  contents : b.contents = d.contents
  size : b.size = d.size
  pos : 0 < d.size

theorem byteOf_toInt (c : CChar) : byteOf c.toInt = if c = 0xFF then none else some c := by
  have hend : c.toInt = endOfBuffer ↔ c = 0xFF := by
    rw [show endOfBuffer = (0xFF : CChar).toInt from rfl, BitVec.toInt_inj]
  rw [byteOf, if_congr hend rfl rfl, BitVec.ofInt_toInt]

namespace SameQueue

variable {b : IOBuffer} {d : CyclicBuffer} (h : SameQueue b d)

include h

theorem count : b.count = d.count := by
  rw [← IOBuffer.length_contents, ← CyclicBuffer.length_contents, h.contents]

theorem of_contents {b' : IOBuffer} {d' : CyclicBuffer} (hcontents : b'.contents = d'.contents)
    (hb : b'.size = b.size) (hd : d'.size = d.size) : SameQueue b' d' :=
  ⟨hcontents, by rw [hb, hd, h.size], by rw [hd]; exact h.pos⟩

theorem putc (c : CChar) :
    (b.iobPutc c).1 = (d.cbPutc c).1 ∧ SameQueue (b.iobPutc c).2 (d.cbPutc c).2 := by
  by_cases hroom : d.contents.length < d.size
  · obtain ⟨htrue, hcontents⟩ :=
      CyclicBuffer.cbPutc_of_lt (by rwa [← CyclicBuffer.length_contents]) c
    have hfull : b.iobFull = false := by
      rw [← Bool.not_eq_true, IOBuffer.iobFull_iff, ← IOBuffer.length_contents, h.contents, h.size]
      omega
    obtain ⟨hpushed, hsize⟩ := IOBuffer.contents_iobPutc hfull c
    refine ⟨?_, h.of_contents ?_ hsize (CyclicBuffer.size_cbPutc d c)⟩
    · rw [htrue, IOBuffer.iobPutc, dif_neg]
      rw [← IOBuffer.iobFull_iff, hfull]
      exact Bool.false_ne_true
    · rw [hpushed, hcontents, h.contents]
  · have hfull : b.count = b.size := by
      have := d.count_le
      rw [CyclicBuffer.length_contents] at hroom
      rw [h.count, h.size]
      omega
    rw [CyclicBuffer.cbPutc_full hroom, IOBuffer.iobPutc, dif_pos hfull]
    exact ⟨rfl, h⟩

theorem getc :
    ∃ d', d.cbGetc = some (d.contents.head?, d') ∧ SameQueue b.iobGetc.2 d' ∧
      (byteOf b.iobGetc.1 = d.contents.head? ↔ b.contents.head? ≠ some 0xFF) := by
  obtain ⟨d', hget, htail, hsize⟩ := CyclicBuffer.cbGetc_spec h.pos
  refine ⟨d', hget, ?_⟩
  rw [← h.contents] at htail ⊢
  cases hcontents : b.contents with
  | nil =>
      have hempty : b.iobGetc = (endOfBuffer, b) := if_pos (IOBuffer.iobEmpty_iff.mpr hcontents)
      rw [hempty]
      rw [hcontents] at htail
      exact ⟨h.of_contents (hcontents.trans htail.symm) rfl hsize, by simp [byteOf]⟩
  | cons c rest =>
      obtain ⟨hbyte, hrest, hsize'⟩ := IOBuffer.iobGetc_cons hcontents
      rw [hcontents, List.tail_cons] at htail
      refine ⟨h.of_contents (hrest.trans htail.symm) hsize' hsize, ?_⟩
      rw [hbyte, byteOf_toInt, List.head?_cons]
      simp

theorem shift (n : ℕ) : ∃ d', d.cbSkip n = some d' ∧ SameQueue (b.iobShift n) d' := by
  obtain ⟨d', hskip, hdrop, hsize⟩ := CyclicBuffer.cbSkip_spec h.pos n
  refine ⟨d', hskip, h.of_contents ?_ (IOBuffer.size_iobShift b n) hsize⟩
  rw [IOBuffer.contents_iobShift, hdrop, h.contents]

theorem recv (input : Option (List CChar)) :
    (b.iobRecv input).1 = (d.cbRecv input).1 ∧
      SameQueue (b.iobRecv input).2 (d.cbRecv input).2 := by
  cases input with
  | none =>
      exact ⟨rfl, h.of_contents (h.contents.trans (CyclicBuffer.contents_cbShift d).symm) rfl
        (CyclicBuffer.size_cbShift d)⟩
  | some bytes =>
      obtain ⟨hanswer, hcontents⟩ := CyclicBuffer.cbRecv_answer d bytes
      have hspace : d.size - d.contents.length = b.iobFreeSpace := by
        rw [IOBuffer.iobFreeSpace, h.size, h.count, CyclicBuffer.length_contents]
      rw [hspace] at hanswer hcontents
      have hsame : (b.iobRecv (some bytes)).1 = (d.cbRecv (some bytes)).1 := by
        rw [hanswer]
        simp only [IOBuffer.iobRecv]
        split_ifs <;> rfl
      refine ⟨hsame, h.of_contents ?_ (IOBuffer.size_iobRecv b _)
        (CyclicBuffer.size_cbRecv d _)⟩
      rw [(IOBuffer.contents_iobRecv b bytes).1, hcontents, h.contents, hsame, hanswer]
      split_ifs with hnone
      · rw [List.length_eq_zero_iff.mp hnone]
        rfl
      · rw [Int.toNat_natCast, List.length_take, ← List.take_eq_take_min]

theorem send (written : Option ℕ) :
    ∃ d', d.cbSend written = some ((b.iobSend written).1, d') ∧
      SameQueue (b.iobSend written).2 d' := by
  cases written with
  | none =>
      obtain ⟨d', hsend, hcontents, hsize⟩ := CyclicBuffer.cbSend_failed h.pos
      exact ⟨d', hsend, h.of_contents (h.contents.trans hcontents.symm) rfl hsize⟩
  | some n =>
      obtain ⟨d', hsend, hcontents, hsize⟩ := CyclicBuffer.cbSend_answer h.pos n
      rw [CyclicBuffer.length_contents, ← h.count] at hsend
      refine ⟨d', hsend, h.of_contents ?_ (IOBuffer.size_iobShift b _) hsize⟩
      show (b.iobShift (min n b.count)).contents = _
      rw [IOBuffer.contents_iobShift, hcontents, h.contents, h.count,
        ← CyclicBuffer.length_contents]
      rcases Nat.le_total n d.contents.length with hle | hge
      · rw [min_eq_left hle]
      · rw [min_eq_right hge, List.drop_length, List.drop_eq_nil_of_le hge]

end SameQueue

theorem buffers_agreeWhen : AgreesWhen Telling SameQueue iobStep cbStep where
  step_sim := by
    intro b d op h
    have hcount := h.count
    have hsize := h.size
    cases op with
    | putc c =>
        obtain ⟨hroom, hnext⟩ := h.putc c
        exact ⟨.flag (b.iobPutc c).1, .flag (d.cbPutc c).1, _, _, rfl, rfl, hnext,
          iff_of_true (congrArg _ hroom) trivial⟩
    | getc =>
        obtain ⟨d', hget, hnext, hiff⟩ := h.getc
        refine ⟨.byte (byteOf b.iobGetc.1), .byte d.contents.head?, _, d', rfl, ?_, hnext, ?_⟩
        · simp only [cbStep, hget, Option.bind_eq_bind, Option.bind_some]
        · rw [BufferAnswer.byte.injEq, hiff]
          rfl
    | shift n =>
        obtain ⟨d', hskip, hnext⟩ := h.shift n
        refine ⟨.done, .done, _, d', rfl, ?_, hnext, iff_of_true rfl trivial⟩
        simp only [cbStep, hskip, Option.bind_eq_bind, Option.bind_some]
    | clear =>
        exact ⟨_, _, _, _, rfl, rfl, h.of_contents rfl rfl rfl, iff_of_true rfl trivial⟩
    | recv input =>
        obtain ⟨hret, hnext⟩ := h.recv input
        exact ⟨.count (b.iobRecv input).1, .count (d.cbRecv input).1, _, _, rfl, rfl, hnext,
          iff_of_true (congrArg _ hret) trivial⟩
    | send written =>
        obtain ⟨d', hsend, hnext⟩ := h.send written
        obtain ⟨answer, hanswer⟩ : ∃ answer, answer = BufferAnswer.sent (b.iobSend written).1
          (b.contents.take (b.iobSend written).1.toNat) := ⟨_, rfl⟩
        refine ⟨answer, answer, _, d', by rw [hanswer]; rfl, ?_, hnext, iff_of_true rfl trivial⟩
        simp only [cbStep, CyclicBuffer.cbSendData_eq, hsend, ← h.contents, Option.bind_eq_bind,
          Option.bind_some, hanswer]
    | full =>
        refine ⟨_, _, b, d, rfl, rfl, h, iff_of_true ?_ trivial⟩
        rw [IOBuffer.iobFull, CyclicBuffer.cbFull, hcount, hsize]
    | empty =>
        refine ⟨_, _, b, d, rfl, rfl, h, iff_of_true ?_ trivial⟩
        rw [IOBuffer.iobEmpty, CyclicBuffer.cbEmpty, hcount]
    | freeSpace =>
        refine ⟨_, _, b, d, rfl, rfl, h, iff_of_true ?_ trivial⟩
        rw [IOBuffer.iobFreeSpace, CyclicBuffer.cbFreeSpace, hcount, hsize]

/-- In every run of the same calls on two new buffers of one size, both hold the same bytes
all along, and they answer alike exactly when no byte -1 is taken with `iob_getc`. -/
theorem buffers_agree_iff (junk junk' : ℕ → CChar) {size : ℕ} (h : 0 < size)
    (ops : List BufferOp) :
    ∃ os os' b d, answers iobStep (IOBuffer.initIobuf junk size) ops = some (os, b) ∧
      answers cbStep (CyclicBuffer.cbInit junk' size) ops = some (os', d) ∧
      b.contents = d.contents ∧
      (os = os' ↔ RunMeets Telling (silent iobStep) (IOBuffer.initIobuf junk size) ops) := by
  obtain ⟨os, os', b, d, hrun, hrun', hsame, hiff⟩ := buffers_agreeWhen.answers_iff
    (⟨rfl, rfl, h⟩ : SameQueue (IOBuffer.initIobuf junk size) (CyclicBuffer.cbInit junk' size)) ops
  exact ⟨os, os', b, d, hrun, hrun', hsame.contents, hiff⟩

theorem buffers_agree_around :
    ∃ os os' b d, answers iobStep (IOBuffer.initIobuf (fun _ => 0) 2)
        [.putc 1, .recv (some [2, 3]), .getc, .putc 0xFF, .send (some 1), .getc] =
          some (os, b) ∧
      answers cbStep (CyclicBuffer.cbInit (fun _ => 7) 2)
        [.putc 1, .recv (some [2, 3]), .getc, .putc 0xFF, .send (some 1), .getc] =
          some (os', d) ∧
      b.contents = d.contents ∧
      (os = os' ↔ RunMeets Telling (silent iobStep) (IOBuffer.initIobuf (fun _ => 0) 2)
        [.putc 1, .recv (some [2, 3]), .getc, .putc 0xFF, .send (some 1), .getc]) :=
  buffers_agree_iff _ _ (by decide) _

end UnixLabs.Lab34
