import UnixLabs.Platform
import UnixLabs.Library.Memory

/-!
`lab34/cyclic_buffer.c`: a byte queue that goes around the end of its storage.

As for `IOBuffer`, `contents` is the queue and every operation is the source's.
A freed buffer has size zero; an operation that would take a remainder by that
size has no result.
-/

namespace UnixLabs.Lab34

open Library

structure CyclicBuffer where
  buf : ℕ → CChar
  size : ℕ
  count : ℕ
  start : ℕ
  count_le : count ≤ size
  start_lt : start < max size 1

namespace CyclicBuffer

def contents (b : CyclicBuffer) : List CChar := ring b.buf b.size b.start b.count

@[simp] theorem length_contents (b : CyclicBuffer) : b.contents.length = b.count :=
  length_ring _ _ _ _

def cbInit (junk : ℕ → CChar) (size : ℕ) : CyclicBuffer where
  buf := junk
  size := size
  count := 0
  start := 0
  count_le := Nat.zero_le _
  start_lt := by omega

/-- `cb_free` clears the whole structure, which leaves a size of zero. -/
def cbFree : CyclicBuffer := cbInit (fun _ => 0) 0

def cbFull (b : CyclicBuffer) : Bool := b.count == b.size

def cbEmpty (b : CyclicBuffer) : Bool := b.count == 0

def cbFreeSpace (b : CyclicBuffer) : ℕ := b.size - b.count

def cbContiguousSpace (b : CyclicBuffer) : ℕ := min (b.size - b.start) b.count

def cbFreeContiguousSpace (b : CyclicBuffer) : ℕ :=
  if b.start + b.count ≤ b.size then b.size - (b.start + b.count) else cbFreeSpace b

@[simp] theorem contents_cbInit (junk : ℕ → CChar) (size : ℕ) :
    (cbInit junk size).contents = [] := rfl

theorem cbFull_iff {b : CyclicBuffer} : cbFull b = true ↔ b.count = b.size := by simp [cbFull]

theorem cbEmpty_iff {b : CyclicBuffer} : cbEmpty b = true ↔ b.contents = [] := by
  rw [contents, ring_eq_nil_iff]
  simp [cbEmpty]

/-! ### Moving the contents to the front -/

/-- `cb_shift`: every byte is copied from where it was before the call. -/
def cbShift (b : CyclicBuffer) : CyclicBuffer :=
  if b.start = 0 then b
  else { b with
    buf := fun i => if i < b.count then b.buf ((b.start + i) % b.size) else b.buf i
    start := 0
    start_lt := by omega }

@[simp] theorem contents_cbShift (b : CyclicBuffer) : (cbShift b).contents = b.contents := by
  unfold cbShift
  split_ifs with h
  · rfl
  · exact (ring_zero _ b.count_le).trans (firstCells_congr fun i hi => if_pos hi)

@[simp] theorem size_cbShift (b : CyclicBuffer) : (cbShift b).size = b.size := by
  unfold cbShift
  split_ifs <;> rfl

@[simp] theorem count_cbShift (b : CyclicBuffer) : (cbShift b).count = b.count := by
  unfold cbShift
  split_ifs <;> rfl

@[simp] theorem start_cbShift (b : CyclicBuffer) : (cbShift b).start = 0 := by
  unfold cbShift
  split_ifs with h
  · exact h
  · rfl

/-! ### Adding at the end -/

def cbSkipRight (b : CyclicBuffer) (count : ℕ) : CyclicBuffer :=
  let count := if b.count + count > b.size then b.size - b.count else count
  { b with
    count := b.count + count
    count_le := by
      have := b.count_le
      unfold count
      split <;> omega }

/-- Bytes that are written behind the contents are theirs after `cbSkipRight`. -/
theorem contents_cbSkipRight {b : CyclicBuffer} {count : ℕ} (h : b.count + count ≤ b.size) :
    (cbSkipRight b count).contents = ring b.buf b.size b.start (b.count + count) := by
  simp only [cbSkipRight, contents]
  rw [if_neg (by omega)]

def cbPutc (b : CyclicBuffer) (c : CChar) : Bool × CyclicBuffer :=
  if cbFull b then (false, b)
  else (true, cbSkipRight
    { b with buf := Function.update b.buf ((b.start + b.count) % b.size) c } 1)

@[simp] theorem size_cbPutc (b : CyclicBuffer) (c : CChar) : (cbPutc b c).2.size = b.size := by
  unfold cbPutc
  split <;> rfl

theorem cbPutc_of_lt {b : CyclicBuffer} (h : b.count < b.size) (c : CChar) :
    (cbPutc b c).1 = true ∧ (cbPutc b c).2.contents = b.contents ++ [c] := by
  have hfull : cbFull b = false := by
    rw [Bool.eq_false_iff, ne_eq, cbFull_iff]
    omega
  rw [cbPutc, hfull]
  refine ⟨rfl, ?_⟩
  rw [if_neg Bool.false_ne_true, contents_cbSkipRight (by exact h)]
  exact ring_update _ h c

/-- `cb_recv`, given what `read` delivers: nothing at all on an error, and never
more than the free space it is asked for. The end of the input is an error too. -/
def cbRecv (b : CyclicBuffer) (input : Option (List CChar)) : ℤ × CyclicBuffer :=
  let b := cbShift b
  match input with
  | none => (-1, b)
  | some bytes =>
      let bytes := bytes.take (cbFreeSpace b)
      if bytes.length = 0 then (-1, b)
      else (bytes.length, cbSkipRight { b with buf := writeAt b.buf b.count bytes } bytes.length)

theorem contents_write {b : CyclicBuffer} (hstart : b.start = 0) {bytes : List CChar}
    (h : b.count + bytes.length ≤ b.size) :
    (cbSkipRight { b with buf := writeAt b.buf b.count bytes } bytes.length).contents =
      b.contents ++ bytes := by
  refine (contents_cbSkipRight (by exact h)).trans ?_
  simp only [contents, hstart]
  rw [ring_zero _ b.count_le, ring_zero _ h, firstCells_writeAt]

/-- What `cb_recv` reports to have received is appended, and nothing else. -/
theorem cbRecv_spec (b : CyclicBuffer) (input : Option (List CChar)) :
    ((cbRecv b input).1 = -1 ∧ (cbRecv b input).2.contents = b.contents) ∨
      ∃ bytes, input = some bytes ∧ 0 < (cbRecv b input).1 ∧
        (cbRecv b input).2.contents = b.contents ++ bytes.take (cbRecv b input).1.toNat := by
  cases input with
  | none => exact .inl ⟨rfl, contents_cbShift b⟩
  | some bytes =>
      have hroom : (cbShift b).count + (bytes.take (cbFreeSpace (cbShift b))).length ≤
          (cbShift b).size := by
        have := (cbShift b).count_le
        have : (bytes.take (cbFreeSpace (cbShift b))).length ≤
          (cbShift b).size - (cbShift b).count := List.length_take_le _ _
        omega
      by_cases h : (bytes.take (cbFreeSpace (cbShift b))).length = 0
      · have hrecv : cbRecv b (some bytes) = (-1, cbShift b) := if_pos h
        rw [hrecv]
        exact .inl ⟨rfl, contents_cbShift b⟩
      · have hrecv : cbRecv b (some bytes) =
            (((bytes.take (cbFreeSpace (cbShift b))).length : ℤ), cbSkipRight
              { cbShift b with
                buf := writeAt (cbShift b).buf (cbShift b).count
                  (bytes.take (cbFreeSpace (cbShift b))) }
              (bytes.take (cbFreeSpace (cbShift b))).length) := if_neg h
        rw [hrecv]
        refine .inr ⟨bytes, rfl, by omega, ?_⟩
        rw [contents_write (start_cbShift b) hroom, contents_cbShift, Int.toNat_natCast,
          List.length_take, ← List.take_eq_take_min]

theorem cbRecv_end (b : CyclicBuffer) {input : Option (List CChar)} (h : input.getD [] = []) :
    (cbRecv b input).1 = -1 ∧ (cbRecv b input).2.contents = b.contents := by
  rcases cbRecv_spec b input with hend | ⟨bytes, rfl, hpos, -⟩
  · exact hend
  · have hrecv : cbRecv b (some bytes) = (-1, cbShift b) := by
      rw [show bytes = [] from h, cbRecv]
      exact if_pos (congrArg List.length List.take_nil)
    rw [hrecv] at hpos
    exact absurd hpos (lt_asymm (by decide : (-1 : ℤ) < 0))

theorem cbRecv_bytes {b : CyclicBuffer} (hroom : b.cbFull = false) {input : Option (List CChar)}
    (h : input.getD [] ≠ []) :
    (cbRecv b input).1 ≠ -1 ∧
      (cbRecv b input).2.contents = b.contents ++ (input.getD []).take b.cbFreeSpace := by
  obtain ⟨bytes, rfl⟩ : ∃ bytes, input = some bytes :=
    Option.ne_none_iff_exists'.mp fun hnone => h (by rw [hnone]; rfl)
  have hfree : (cbShift b).cbFreeSpace = b.cbFreeSpace := by
    rw [cbFreeSpace, cbFreeSpace, size_cbShift, ← length_contents, contents_cbShift,
      length_contents]
  have hpos : 0 < b.cbFreeSpace := by
    rw [← Bool.not_eq_true, cbFull_iff] at hroom
    exact Nat.sub_pos_of_lt (lt_of_le_of_ne b.count_le hroom)
  have hne : (bytes.take (cbShift b).cbFreeSpace).length ≠ 0 := by
    rw [List.length_take, hfree]
    exact (Nat.lt_min.mpr ⟨hpos, List.length_pos_iff.mpr h⟩).ne'
  have hcount : (cbRecv b (some bytes)).1 = ((bytes.take b.cbFreeSpace).length : ℤ) := by
    rw [← hfree]
    exact congrArg Prod.fst (if_neg hne)
  rcases cbRecv_spec b (some bytes) with ⟨hend, -⟩ | ⟨_, hbytes, hsome, hcontents⟩
  · omega
  · cases hbytes
    refine ⟨by omega, ?_⟩
    rw [hcontents, hcount, Int.toNat_natCast, List.length_take, ← List.take_eq_take_min]
    rfl

theorem size_cbRecv (b : CyclicBuffer) (input : Option (List CChar)) :
    (cbRecv b input).2.size = b.size := by
  cases input with
  | none => exact size_cbShift b
  | some bytes =>
      simp only [cbRecv]
      split_ifs <;> simp [cbSkipRight]

/-! ### Removing from the front -/

def cbPeek (b : CyclicBuffer) : Option CChar :=
  if cbEmpty b then none else some (b.buf b.start)

/-- `cb_skip`; the remainder by a size of zero is undefined. -/
def cbSkip (b : CyclicBuffer) (count : ℕ) : Option CyclicBuffer :=
  let count := if count > b.count then b.count else count
  if h : b.size = 0 then none
  else some { b with
    count := b.count - count
    start := (b.start + count) % b.size
    count_le := by have := b.count_le; omega
    start_lt := by have := Nat.mod_lt (b.start + count) (Nat.pos_of_ne_zero h); omega }

def cbGetc (b : CyclicBuffer) : Option (Option CChar × CyclicBuffer) :=
  match cbPeek b with
  | none => some (none, b)
  | some c => (cbSkip b 1).map fun b => (some c, b)

def cbGetsFrom : ℕ → CyclicBuffer → Option (List CChar × CyclicBuffer)
  | 0, _ => none
  | fuel + 1, b => do
      let (c, b) ← cbGetc b
      match c with
      | none => some ([], b)
      | some c => do
          let (cs, b) ← cbGetsFrom fuel b
          some (c :: cs, b)

/-- `cb_gets`: the bytes that are stored at `s`, and the buffer. Every call of
`cb_getc` but the last takes a byte off. -/
def cbGets (b : CyclicBuffer) : Option (List CChar × CyclicBuffer) := cbGetsFrom (b.count + 1) b

def cbClear (b : CyclicBuffer) : CyclicBuffer :=
  { b with start := 0, count := 0, count_le := Nat.zero_le _, start_lt := by omega }

def cbSend (b : CyclicBuffer) (written : Option ℕ) : Option (ℤ × CyclicBuffer) :=
  let b := if cbContiguousSpace b ≠ b.count then cbShift b else b
  match written with
  | none => some (-1, b)
  | some count => (cbSkip b (min count b.count)).map fun b' => ((min count b.count : ℕ), b')

theorem cbPeek_eq (b : CyclicBuffer) : cbPeek b = b.contents.head? := by
  unfold cbPeek
  cases hempty : cbEmpty b with
  | true => rw [cbEmpty_iff.mp hempty]; rfl
  | false =>
      have hcount : 0 < b.count := by
        simp only [cbEmpty, beq_eq_false_iff_ne, ne_eq] at hempty
        omega
      have hstart : b.start < b.size := by
        have := b.start_lt
        have := b.count_le
        omega
      obtain ⟨n, hn⟩ := Nat.exists_eq_succ_of_ne_zero hcount.ne'
      rw [contents, hn, ring, firstCells, List.range_succ_eq_map]
      simp [Nat.mod_eq_of_lt hstart]

theorem cbSkip_spec {b : CyclicBuffer} (h : 0 < b.size) (count : ℕ) :
    ∃ b', cbSkip b count = some b' ∧ b'.contents = b.contents.drop count ∧ b'.size = b.size := by
  refine ⟨_, dif_neg h.ne', ?_, rfl⟩
  simp only [contents]
  split_ifs with hgt
  · rw [List.drop_eq_nil_of_le (by rw [length_ring]; omega)]
    exact ring_eq_nil_iff.mpr (Nat.sub_self _)
  · exact (drop_ring _ _ _ (by omega)).symm

theorem cbGetc_spec {b : CyclicBuffer} (h : 0 < b.size) :
    ∃ b', cbGetc b = some (b.contents.head?, b') ∧ b'.contents = b.contents.tail ∧
      b'.size = b.size := by
  rw [cbGetc, cbPeek_eq]
  cases hcontents : b.contents with
  | nil => exact ⟨b, rfl, hcontents, rfl⟩
  | cons c rest =>
      obtain ⟨b', hskip, hdrop, hsize⟩ := cbSkip_spec h 1
      rw [hcontents, List.drop_one] at hdrop
      exact ⟨b', by simp only [List.head?_cons, hskip, Option.map_some], hdrop, hsize⟩

theorem cbGetsFrom_spec {b : CyclicBuffer} (h : 0 < b.size) {fuel : ℕ}
    (hfuel : b.contents.length < fuel) :
    ∃ b', cbGetsFrom fuel b = some (b.contents, b') ∧ b'.contents = [] ∧ b'.size = b.size := by
  induction fuel generalizing b with
  | zero => omega
  | succ fuel ih =>
      obtain ⟨b₁, hget, htail, hsize⟩ := cbGetc_spec h
      cases hcontents : b.contents with
      | nil =>
          rw [hcontents] at hget htail
          refine ⟨b₁, ?_, htail, hsize⟩
          simp only [cbGetsFrom, hget, Option.bind_eq_bind, Option.bind_some, List.head?_nil]
      | cons c rest =>
          rw [hcontents] at hget htail hfuel
          rw [List.tail_cons] at htail
          rw [List.length_cons] at hfuel
          obtain ⟨b', hrest, hnil, hsize'⟩ :=
            ih (hsize ▸ h : 0 < b₁.size) (by rw [htail]; omega)
          rw [htail] at hrest
          refine ⟨b', ?_, hnil, hsize'.trans hsize⟩
          simp only [cbGetsFrom, hget, hrest, Option.bind_eq_bind, Option.bind_some,
            List.head?_cons]

theorem cbGets_spec {b : CyclicBuffer} (h : 0 < b.size) :
    ∃ b', cbGets b = some (b.contents, b') ∧ b'.contents = [] ∧ b'.size = b.size :=
  cbGetsFrom_spec h (by rw [length_contents]; exact Nat.lt_succ_self _)

@[simp] theorem contents_cbClear (b : CyclicBuffer) : (cbClear b).contents = [] := rfl

@[simp] theorem size_cbClear (b : CyclicBuffer) : (cbClear b).size = b.size := rfl

/-- What `cb_send` reports to have sent has left the buffer, and nothing else. -/
theorem cbSend_spec {b : CyclicBuffer} (h : 0 < b.size) (written : Option ℕ) :
    ∃ ret b', cbSend b written = some (ret, b') ∧ b'.contents = b.contents.drop ret.toNat ∧
      b'.size = b.size := by
  have hshift : ∃ b₁, (if cbContiguousSpace b ≠ b.count then cbShift b else b) = b₁ ∧
      b₁.contents = b.contents ∧ b₁.size = b.size := by
    split_ifs
    · exact ⟨_, rfl, contents_cbShift b, size_cbShift b⟩
    · exact ⟨_, rfl, rfl, rfl⟩
  obtain ⟨b₁, hb₁, hcontents, hsize⟩ := hshift
  cases written with
  | none => exact ⟨-1, b₁, by simp only [cbSend, hb₁], by simp [hcontents], hsize⟩
  | some count =>
      obtain ⟨b', hskip, hdrop, hsize'⟩ := cbSkip_spec (hsize ▸ h : 0 < b₁.size)
        (min count b₁.count)
      refine ⟨(min count b₁.count : ℕ), b', by simp only [cbSend, hb₁, hskip]; rfl, ?_,
        hsize'.trans hsize⟩
      rw [hdrop, hcontents, Int.toNat_natCast]

/-! ### Direct access -/

def cbData (b : CyclicBuffer) (n : ℕ) : Option (List CChar) :=
  if b.start + n ≤ b.size then some (firstCells (fun i => b.buf (b.start + i)) n) else none

def cbDataEnd (b : CyclicBuffer) : Option ℕ :=
  if b.size = 0 then none else some ((b.start + b.count) % b.size)

theorem cbDataEnd_of_pos {b : CyclicBuffer} (hsize : 0 < b.size) :
    b.cbDataEnd = some ((b.start + b.count) % b.size) := if_neg hsize.ne'

theorem cbData_cbShift (b : CyclicBuffer) {n : ℕ} (h : n ≤ b.count) :
    cbData (cbShift b) n = some (b.contents.take n) := by
  have hn : n ≤ (cbShift b).count := by rwa [count_cbShift]
  have hle := (cbShift b).count_le
  rw [cbData, start_cbShift, if_pos (by omega), ← contents_cbShift b, contents, start_cbShift,
    ring_zero _ hle, take_firstCells _ hn]
  refine congrArg some (firstCells_congr fun i _ => ?_)
  rw [Nat.zero_add]

def cbSendData (b : CyclicBuffer) : Option (List CChar) :=
  let b := if cbContiguousSpace b ≠ b.count then cbShift b else b
  cbData b b.count

theorem cbSendData_eq (b : CyclicBuffer) : cbSendData b = some b.contents := by
  unfold cbSendData
  by_cases hwrap : cbContiguousSpace b ≠ b.count
  · rw [if_pos hwrap, cbData_cbShift b (count_cbShift b).le, count_cbShift,
      List.take_of_length_le (length_contents b).le]
  · rw [if_neg hwrap]
    unfold cbContiguousSpace at hwrap
    have hle := b.count_le
    have hstart := b.start_lt
    rw [cbData, if_pos (by omega), contents, ring]
    refine congrArg some (firstCells_congr fun i hi => ?_)
    rw [Nat.mod_eq_of_lt (by omega)]

/-- Bytes written at `cb_data_end`, as many as the contiguous space takes, are
appended. -/
theorem contents_writeEnd {b : CyclicBuffer} (hsize : 0 < b.size) {bytes : List CChar}
    (h : bytes.length ≤ cbFreeContiguousSpace b) :
    b.count + bytes.length ≤ b.size ∧
      (cbSkipRight { b with buf := writeAt b.buf ((b.start + b.count) % b.size) bytes }
        bytes.length).contents = b.contents ++ bytes := by
  have hcount := b.count_le
  have hstart := b.start_lt
  have hroom : b.count + bytes.length ≤ b.size ∧
      (b.start + b.count) % b.size + bytes.length ≤ b.size := by
    unfold cbFreeContiguousSpace cbFreeSpace at h
    split_ifs at h with hfront
    · by_cases hend : b.start + b.count = b.size
      · rw [hend, Nat.mod_self]
        omega
      · rw [Nat.mod_eq_of_lt (by omega)]
        omega
    · rw [Nat.mod_eq_sub_mod (by omega), Nat.mod_eq_of_lt (by omega)]
      omega
  refine ⟨hroom.1, (contents_cbSkipRight (by exact hroom.1)).trans ?_⟩
  exact ring_writeAt _ hroom.1 hroom.2

theorem contents_writeEnd_take {b : CyclicBuffer} (hsize : 0 < b.size) {bytes : List CChar}
    (h : bytes.length ≤ cbFreeContiguousSpace b) {count : ℕ} (hcount : count ≤ bytes.length) :
    (cbSkipRight { b with buf := writeAt b.buf ((b.start + b.count) % b.size) bytes }
      count).contents = b.contents ++ bytes.take count := by
  obtain ⟨hroom, hall⟩ := contents_writeEnd hsize h
  rw [contents_cbSkipRight (by exact hroom)] at hall
  have htake : (b.contents ++ bytes).take (b.count + count) = b.contents ++ bytes.take count := by
    rw [← length_contents b, List.take_length_add_append]
  have hpart : b.count + count ≤ b.size := by omega
  rw [contents_cbSkipRight (by exact hpart), ← htake, ← hall,
    take_ring _ _ _ (by exact Nat.add_le_add_left hcount b.count)]

end CyclicBuffer

end UnixLabs.Lab34
