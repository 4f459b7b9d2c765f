import UnixLabs.Lab34.CyclicBuffer
import UnixLabs.Library.BoundedQueue
import UnixLabs.Library.Refinement

/-!
`CyclicBuffer` is a bounded queue.

Its contents are the queue, wherever they lie in the storage. Every operation of
the source does to them what the bounded queue of the library does, and answers the
same.
-/

namespace UnixLabs.Lab34

open Library

namespace CyclicBuffer

/-- The operations of the source under the names of the queue's: `cb_putc`, a block
written at `cb_data_end` and `cb_skip_right`, `cb_peek`, `cb_getc`, `cb_gets`,
`cb_clear`, `cb_shift`, `cb_skip`, `cb_recv` and `cb_send`. What is sent is the part of
the bytes passed to `write` that it took. -/
def bufferStep (b : CyclicBuffer) : QueueOp CChar → Option (QueueAnswer CChar × CyclicBuffer)
  | .push c => let (room, b) := cbPutc b c; some (.accepted room, b)
  | .append bytes => do
      let dataEnd ← cbDataEnd b
      some (.done, cbSkipRight { b with buf := writeAt b.buf dataEnd bytes } bytes.length)
  | .peek => some (.head (cbPeek b), b)
  | .pop => do
      let (c, b) ← cbGetc b
      some (.head c, b)
  | .popAll => do
      let (cs, b) ← cbGets b
      some (.all cs, b)
  | .clear => some (.done, cbClear b)
  | .keep => some (.done, cbShift b)
  | .drop n => do
      let b ← cbSkip b n
      some (.done, b)
  | .receive input => let (ret, b) := cbRecv b input; some (.received ret, b)
  | .send written => do
      let data ← cbSendData b
      let (ret, b) ← cbSend b written
      some (.sent ret (data.take ret.toNat), b)

def Fits (b : CyclicBuffer) : QueueOp CChar → Prop
  | .append bytes => bytes.length ≤ cbFreeContiguousSpace b
  | _ => True

def Represents (size : ℕ) (b : CyclicBuffer) (q : List CChar) : Prop :=
  b.contents = q ∧ b.size = size

theorem cbPutc_full {b : CyclicBuffer} (hfull : ¬b.contents.length < b.size) (c : CChar) :
    cbPutc b c = (false, b) := by
  have hcount := b.count_le
  rw [length_contents] at hfull
  rw [cbPutc, if_pos (cbFull_iff.mpr _)]
  omega

theorem cbRecv_answer (b : CyclicBuffer) (bytes : List CChar) :
    (cbRecv b (some bytes)).1 =
        (if (bytes.take (b.size - b.contents.length)).length = 0 then (-1 : ℤ)
        else ((bytes.take (b.size - b.contents.length)).length : ℕ)) ∧
      (cbRecv b (some bytes)).2.contents =
        b.contents ++ bytes.take (b.size - b.contents.length) := by
  have hspace : cbFreeSpace (cbShift b) = b.size - b.contents.length := by
    rw [cbFreeSpace, size_cbShift, count_cbShift, length_contents]
  have hanswer : (cbRecv b (some bytes)).1 =
      (if (bytes.take (b.size - b.contents.length)).length = 0 then (-1 : ℤ)
      else ((bytes.take (b.size - b.contents.length)).length : ℕ)) := by
    simp only [cbRecv, hspace]
    split_ifs <;> rfl
  refine ⟨hanswer, ?_⟩
  rcases cbRecv_spec b (some bytes) with ⟨hret, hcontents⟩ | ⟨bytes', he, hpos, hcontents⟩
  · rw [hanswer] at hret
    split_ifs at hret with hzero
    rw [hcontents, List.length_eq_zero_iff.mp hzero, List.append_nil]
  · cases he
    rw [hcontents, hanswer]
    rw [hanswer] at hpos
    split_ifs at hpos ⊢
    · exact absurd hpos (by decide)
    rw [Int.toNat_natCast, List.length_take, ← List.take_eq_take_min]

theorem cbSend_answer {b : CyclicBuffer} (h : 0 < b.size) (n : ℕ) :
    ∃ b', cbSend b (some n) = some (((min n b.contents.length : ℕ) : ℤ), b') ∧
      b'.contents = b.contents.drop n ∧ b'.size = b.size := by
  obtain ⟨ret, b', hsend, hdrop, hsize⟩ := cbSend_spec h (some n)
  have hret : ret = ((min n b.contents.length : ℕ) : ℤ) := by
    have hcount : (if cbContiguousSpace b ≠ b.count then cbShift b else b).count = b.count := by
      split_ifs <;> simp
    simp only [cbSend, hcount, Option.map_eq_some_iff, Prod.mk.injEq] at hsend
    obtain ⟨-, -, hret, -⟩ := hsend
    rw [length_contents, hret]
  subst hret
  refine ⟨b', hsend, ?_, hsize⟩
  rw [hdrop, Int.toNat_natCast]
  by_cases hle : n ≤ b.contents.length
  · rw [min_eq_left hle]
  · rw [min_eq_right (by omega), List.drop_length, List.drop_eq_nil_of_le (by omega)]

theorem cbSend_failed {b : CyclicBuffer} (h : 0 < b.size) :
    ∃ b', cbSend b none = some (-1, b') ∧ b'.contents = b.contents ∧ b'.size = b.size := by
  obtain ⟨ret, b', hsend, hdrop, hsize⟩ := cbSend_spec h none
  have hret : ret = -1 := by
    simp only [cbSend, Option.some.injEq, Prod.mk.injEq] at hsend
    exact hsend.1.symm
  subst hret
  exact ⟨b', hsend, hdrop, hsize⟩

/-- One operation on a buffer acts as its counterpart on the queue it represents. -/
theorem bufferStep_refines {size : ℕ} (h : 0 < size) :
    Refines Fits (Represents size) bufferStep (queueStep size) where
  step_sim := by
    rintro b q op ⟨rfl, rfl⟩ hfits
    cases op with
    | push c =>
        by_cases hroom : b.contents.length < b.size
        · obtain ⟨htrue, hcontents⟩ := cbPutc_of_lt (by rwa [← length_contents]) c
          refine ⟨.accepted true, (cbPutc b c).2, b.contents ++ [c], ?_, ?_, hcontents, by simp⟩
          · simp only [bufferStep, htrue]
          · simp only [queueStep, if_pos hroom]
        · refine ⟨.accepted false, b, b.contents, ?_, ?_, rfl, rfl⟩
          · simp only [bufferStep, cbPutc_full hroom]
          · simp only [queueStep, if_neg hroom]
    | append bytes =>
        obtain ⟨hroom, hcontents⟩ := contents_writeEnd h hfits
        rw [← length_contents] at hroom
        refine ⟨.done, _, b.contents ++ bytes, ?_, ?_, hcontents, rfl⟩
        · simp only [bufferStep, cbDataEnd, if_neg h.ne', Option.bind_eq_bind, Option.bind_some]
        · simp only [queueStep, if_pos hroom]
    | peek => exact ⟨.head b.contents.head?, b, b.contents, by rw [bufferStep, cbPeek_eq], rfl,
        rfl, rfl⟩
    | pop =>
        obtain ⟨b', hget, htail, hsize⟩ := cbGetc_spec h
        refine ⟨.head b.contents.head?, b', b.contents.tail, ?_, rfl, htail, hsize⟩
        simp only [bufferStep, hget, Option.bind_eq_bind, Option.bind_some]
    | popAll =>
        obtain ⟨b', hget, hnil, hsize⟩ := cbGets_spec h
        refine ⟨.all b.contents, b', [], ?_, rfl, hnil, hsize⟩
        simp only [bufferStep, hget, Option.bind_eq_bind, Option.bind_some]
    | clear => exact ⟨.done, cbClear b, [], rfl, rfl, rfl, rfl⟩
    | keep => exact ⟨.done, cbShift b, b.contents, rfl, rfl, contents_cbShift b, size_cbShift b⟩
    | drop n =>
        obtain ⟨b', hskip, hdrop, hsize⟩ := cbSkip_spec h n
        refine ⟨.done, b', b.contents.drop n, ?_, rfl, hdrop, hsize⟩
        simp only [bufferStep, hskip, Option.bind_eq_bind, Option.bind_some]
    | receive input =>
        cases input with
        | none => exact ⟨.received (-1), cbShift b, b.contents, rfl, rfl, contents_cbShift b,
            size_cbShift b⟩
        | some bytes =>
            obtain ⟨hanswer, hcontents⟩ := cbRecv_answer b bytes
            refine ⟨.received (cbRecv b (some bytes)).1, (cbRecv b (some bytes)).2,
              b.contents ++ bytes.take (b.size - b.contents.length), rfl, ?_, hcontents,
              size_cbRecv b (some bytes)⟩
            simp only [queueStep, hanswer]
    | send written =>
        cases written with
        | none =>
            obtain ⟨b', hsend, hcontents, hsize⟩ := cbSend_failed h
            refine ⟨.sent (-1) [], b', b.contents, ?_, rfl, hcontents, hsize⟩
            simp only [bufferStep, cbSendData_eq, hsend, Option.bind_eq_bind, Option.bind_some]
            rfl
        | some n =>
            obtain ⟨b', hsend, hdrop, hsize⟩ := cbSend_answer h n
            refine ⟨_, b', b.contents.drop n, ?_, rfl, hdrop, hsize⟩
            simp only [bufferStep, cbSendData_eq, hsend, Option.bind_eq_bind, Option.bind_some,
              Int.toNat_natCast, ← List.take_eq_take_min]

/-- Every run of the operations on a new buffer, in which blocks are written into the
contiguous free space, is defined and gives the answers of the bounded queue; what
is in the buffer is the queue, and the counters stay in their bounds. -/
theorem cyclicBuffer_refines (junk : ℕ → CChar) {size : ℕ} (h : 0 < size)
    {ops : List (QueueOp CChar)}
    (hfits : RunMeets Fits (silent bufferStep) (cbInit junk size) ops) :
    ∃ os b q, answers bufferStep (cbInit junk size) ops = some (os, b) ∧
      answers (queueStep size) [] ops = some (os, q) ∧ b.contents = q ∧
      b.start < b.size ∧ b.count ≤ b.size ∧ b.size = size := by
  have hstart : Represents size (cbInit junk size) [] := ⟨contents_cbInit junk size, rfl⟩
  obtain ⟨os, b, q, hrun, hspec, hcontents, hsize⟩ :=
    (bufferStep_refines h).answers_eq hstart hfits
  have hlt := b.start_lt
  exact ⟨os, b, q, hrun, hspec, hcontents, by omega, b.count_le, hsize⟩

theorem cyclicBuffer_refines_wrap :
    RunMeets Fits (silent bufferStep) (cbInit (fun _ => 0) 4)
        [.append [1, 2, 3], .drop 2, .push 4, .push 5, .append [6], .send (some 2), .pop] ∧
      ∃ os b q, answers bufferStep (cbInit (fun _ => 0) 4)
          [.append [1, 2, 3], .drop 2, .push 4, .push 5, .append [6], .send (some 2), .pop] =
            some (os, b) ∧
        answers (queueStep 4) []
          [.append [1, 2, 3], .drop 2, .push 4, .push 5, .append [6], .send (some 2), .pop] =
            some (os, q) ∧
        b.contents = q ∧ b.start < b.size ∧ b.count ≤ b.size ∧ b.size = 4 := by
  have hfits : RunMeets Fits (silent bufferStep) (cbInit (fun _ => 0) 4)
      [.append [1, 2, 3], .drop 2, .push 4, .push 5, .append [6], .send (some 2), .pop] := by
    simp [RunMeets, Fits, silent, bufferStep]
    decide
  exact ⟨hfits, cyclicBuffer_refines _ (by decide) hfits⟩

end CyclicBuffer

end UnixLabs.Lab34
