import UnixLabs.Platform
import UnixLabs.Library.Memory

/-!
`iobuffer.c` of lab33 and lab34: a byte queue that always starts at the front of
its storage.

`contents` is the queue the buffer stands for. Every operation is the source's,
on memory and counters; the theorems next to it say what it does to the queue.
-/

namespace UnixLabs

open Library

def endOfBuffer : ℤ := -1

/-- `IOBuffer`: the memory behind `buf`, of which `alloc` bytes are allocated, the
nominal `size` and the number of bytes in use. -/
structure IOBuffer where
  buf : ℕ → CChar
  alloc : ℕ
  size : ℕ
  count : ℕ
  count_le : count ≤ size

namespace IOBuffer

def contents (b : IOBuffer) : List CChar := firstCells b.buf b.count

@[simp] theorem length_contents (b : IOBuffer) : b.contents.length = b.count :=
  length_firstCells _ _

def initIobuf (junk : ℕ → CChar) (size : ℕ) : IOBuffer where
  buf := junk
  alloc := size
  size := size
  count := 0
  count_le := Nat.zero_le _

def freeIobuf (b : IOBuffer) : IOBuffer where
  buf := b.buf
  alloc := 0
  size := 0
  count := 0
  count_le := le_rfl

def iobFull (b : IOBuffer) : Bool := b.count == b.size

def iobEmpty (b : IOBuffer) : Bool := b.count == 0

def iobFreeSpace (b : IOBuffer) : ℕ := b.size - b.count

theorem iobFull_iff {b : IOBuffer} : iobFull b = true ↔ b.count = b.size := by simp [iobFull]

theorem iobEmpty_iff {b : IOBuffer} : iobEmpty b = true ↔ b.contents = [] := by
  rw [contents, firstCells_eq_nil_iff]
  simp [iobEmpty]

@[simp] theorem contents_initIobuf (junk : ℕ → CChar) (size : ℕ) :
    (initIobuf junk size).contents = [] := rfl

/-! ### Adding at the end -/

def iobPutc (b : IOBuffer) (c : CChar) : Bool × IOBuffer :=
  if h : b.count = b.size then (false, b)
  else (true, { b with
    buf := Function.update b.buf b.count c
    count := b.count + 1
    count_le := by have := b.count_le; omega })

theorem contents_iobPutc {b : IOBuffer} (h : iobFull b = false) (c : CChar) :
    (iobPutc b c).2.contents = b.contents ++ [c] ∧ (iobPutc b c).2.size = b.size := by
  rw [iobPutc, dif_neg (by rw [← iobFull_iff, h]; decide)]
  exact ⟨firstCells_update _ _ _, rfl⟩

def iobPuts (b : IOBuffer) (data : List CChar) : ℕ × IOBuffer :=
  let putCount := if iobFreeSpace b > data.length then data.length else iobFreeSpace b
  (putCount, { b with
    buf := writeAt b.buf b.count (data.take putCount)
    count := b.count + putCount
    count_le := by have := b.count_le; unfold putCount iobFreeSpace; split <;> omega })

theorem contents_iobPuts {b : IOBuffer} {data : List CChar} (h : data.length ≤ iobFreeSpace b) :
    (iobPuts b data).2.contents = b.contents ++ data ∧ (iobPuts b data).2.size = b.size := by
  have hcount : (if iobFreeSpace b > data.length then data.length else iobFreeSpace b) =
      data.length := by split <;> omega
  simp only [iobPuts, contents, hcount, List.take_length]
  exact ⟨firstCells_writeAt _ _ _, trivial⟩

/-- `iob_recv`, given what `read` delivers: nothing at all on an error, and never
more than the free space it is asked for. The end of the input is an error too. -/
def iobRecv (b : IOBuffer) (input : Option (List CChar)) : ℤ × IOBuffer :=
  match input with
  | none => (-1, b)
  | some bytes =>
      let count := (bytes.take (iobFreeSpace b)).length
      if count = 0 then (-1, b)
      else (count, { b with
        buf := writeAt b.buf b.count (bytes.take (iobFreeSpace b))
        count := b.count + count
        count_le := by
          have := b.count_le
          have : count ≤ iobFreeSpace b := List.length_take_le _ _
          unfold iobFreeSpace at this
          omega })

/-- What `iob_recv` reports to have received is appended, and nothing else. -/
theorem contents_iobRecv (b : IOBuffer) (bytes : List CChar) :
    (iobRecv b (some bytes)).2.contents =
        b.contents ++ bytes.take (iobRecv b (some bytes)).1.toNat ∧
      (iobRecv b (some bytes)).1.toNat ≤ bytes.length := by
  simp only [iobRecv]
  split_ifs with h
  · simp
  · refine ⟨(firstCells_writeAt _ _ _).trans ?_, by simp⟩
    simp only [contents, Int.toNat_natCast, List.length_take]
    rw [← List.take_eq_take_min]

@[simp] theorem size_iobRecv (b : IOBuffer) (input : Option (List CChar)) :
    (iobRecv b input).2.size = b.size := by
  unfold iobRecv
  split
  · rfl
  · dsimp only
    split_ifs <;> rfl

/-! ### Removing from the front -/

/-- `iob_shift`: drop up to `offset` bytes, moving the rest down in place. -/
def iobShift (b : IOBuffer) (offset : ℕ) : IOBuffer :=
  if offset = 0 then b
  else
    let offset := if offset > b.count then b.count else offset
    { b with
      buf := moveDown offset (b.count - offset) 0 b.buf
      count := b.count - offset
      count_le := by have := b.count_le; omega }

@[simp] theorem size_iobShift (b : IOBuffer) (offset : ℕ) : (iobShift b offset).size = b.size := by
  unfold iobShift
  split <;> rfl

@[simp] theorem contents_iobShift (b : IOBuffer) (offset : ℕ) :
    (iobShift b offset).contents = b.contents.drop offset := by
  unfold iobShift
  split
  · next h => rw [h, List.drop_zero]
  · next h =>
      by_cases hgt : offset > b.count
      · simp only [contents, if_pos hgt, Nat.sub_self, firstCells_zero]
        rw [List.drop_eq_nil_of_le (by simp; omega)]
      · simp only [contents, if_neg hgt]
        rw [drop_firstCells _ (by omega)]
        refine firstCells_congr fun i hi => ?_
        rw [moveDown_apply (by omega), if_pos (by omega)]

def iobClear (b : IOBuffer) : IOBuffer := { b with count := 0, count_le := Nat.zero_le _ }

@[simp] theorem contents_iobClear (b : IOBuffer) : (iobClear b).contents = [] := rfl

def iobSend (b : IOBuffer) (written : Option ℕ) : ℤ × IOBuffer :=
  match written with
  | none => (-1, b)
  | some count => ((min count b.count : ℕ), iobShift b (min count b.count))

/-- `iob_getc`: the first byte, promoted to `int`, or `END_OF_BUFFER`. -/
def iobGetc (b : IOBuffer) : ℤ × IOBuffer :=
  if iobEmpty b then (endOfBuffer, b) else ((b.buf 0).toInt, iobShift b 1)

theorem iobGetc_cons {b : IOBuffer} {c : CChar} {rest : List CChar}
    (h : b.contents = c :: rest) :
    (iobGetc b).1 = c.toInt ∧ (iobGetc b).2.contents = rest ∧ (iobGetc b).2.size = b.size := by
  have hne : iobEmpty b = false := by
    rw [Bool.eq_false_iff, ne_eq, iobEmpty_iff, h]
    exact List.cons_ne_nil _ _
  have hfirst : b.buf 0 = c := by
    have hget : b.contents[0]? = some c := by rw [h]; rfl
    simp only [contents, firstCells, List.getElem?_map, Option.map_eq_some_iff] at hget
    obtain ⟨i, hi, hc⟩ := hget
    rw [List.getElem?_eq_some_iff] at hi
    obtain ⟨hlt, hi⟩ := hi
    rw [List.getElem_range] at hi
    rwa [hi]
  rw [iobGetc, hne]
  simp [hfirst, h]

end IOBuffer

end UnixLabs
