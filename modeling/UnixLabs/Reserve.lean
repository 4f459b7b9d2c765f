import UnixLabs.IOBuffer
import UnixLabs.Library.Run

/-!
`resize` and `reserve` of `iobuffer.c`, and the writes that rely on them.

`reserve` gives away the space that is missing instead of adding it, and leaves the
field `size` as it was. What follows from that is stated with every write kept to
what is allocated.
-/

namespace UnixLabs

open Library

namespace IOBuffer

/-- `resize`. `realloc` keeps what fits of the old bytes and leaves `junk` behind them,
or answers NULL, with nothing behind it. -/
def resize (b : IOBuffer) (newSize : ℕ) (realloc : Option (ℕ → CChar)) : IOBuffer :=
  match realloc with
  | none => { b with alloc := 0 }
  | some junk =>
      { b with
        buf := fun i => if i < min b.alloc newSize then b.buf i else junk i
        alloc := newSize }

def newSize (b : IOBuffer) (freeSpace : ℕ) : ℕ :=
  sizeT (iobFreeSpace b - freeSpace + b.size)

def reserve (b : IOBuffer) (freeSpace : ℕ) (realloc : Option (ℕ → CChar)) : IOBuffer :=
  if iobFreeSpace b ≥ freeSpace then b else resize b (newSize b freeSpace) realloc

/-! ### Writes behind a pointer -/

inductive Add where
  | puts (data : List CChar)
  | putc (c : CChar)
  | recv (input : Option (List CChar))

def Add.result (b : IOBuffer) : Add → IOBuffer
  | puts data => (iobPuts b data).2
  | putc c => (iobPutc b c).2
  | recv input => (iobRecv b input).2

/-- A call that has written up to the new `count`. Writing past what is allocated
leaves no result. -/
def add (b : IOBuffer) (call : Add) : Option IOBuffer :=
  if (call.result b).count ≤ b.alloc then some (call.result b) else none

structure Reserved (b b' : IOBuffer) (freeSpace : ℕ) : Prop where
  room : b.count + freeSpace ≤ b'.alloc
  free : freeSpace ≤ iobFreeSpace b'
  contents : b'.contents = b.contents
  grows : b.size ≤ b'.alloc
  described : b'.size = b'.alloc
  inside : ∀ calls, (run add b' calls).isSome

/-- No call changes what is allocated or the field that tells how much that is. -/
theorem Add.result_size (b : IOBuffer) (call : Add) :
    (call.result b).alloc = b.alloc ∧ (call.result b).size = b.size := by
  cases call with
  | puts data => exact ⟨rfl, rfl⟩
  | putc c =>
      show (iobPutc b c).2.alloc = _ ∧ (iobPutc b c).2.size = _
      unfold iobPutc
      split
      · exact ⟨rfl, rfl⟩
      · exact ⟨rfl, rfl⟩
  | recv input =>
      refine ⟨?_, size_iobRecv b input⟩
      show (iobRecv b input).2.alloc = _
      unfold iobRecv
      split
      · rfl
      · dsimp only
        split_ifs
        · rfl
        · rfl

/-- While the field tells no more than is allocated, no call writes past it. -/
theorem add_inside {b : IOBuffer} (h : b.size ≤ b.alloc) (call : Add) :
    ∃ b', add b call = some b' ∧ b'.size ≤ b'.alloc := by
  obtain ⟨halloc, hsize⟩ := call.result_size b
  have hcount : (call.result b).count ≤ b.alloc := by
    have hle := (call.result b).count_le
    omega
  refine ⟨call.result b, if_pos hcount, ?_⟩
  rw [halloc, hsize]
  exact h

theorem adds_inside {b : IOBuffer} (h : b.size ≤ b.alloc) (calls : List Add) :
    (run add b calls).isSome := by
  obtain ⟨b', hrun, -⟩ := run_total (I := fun b : IOBuffer => b.size ≤ b.alloc)
    (fun b call hb => add_inside hb call) h calls
  rw [hrun]
  rfl

/-! ### The result of `reserve` -/

/-- Whatever happens to the memory, the counters are those from before. -/
theorem iobFreeSpace_reserve (b : IOBuffer) (freeSpace : ℕ) (realloc : Option (ℕ → CChar)) :
    iobFreeSpace (reserve b freeSpace realloc) = iobFreeSpace b := by
  unfold reserve
  split_ifs
  · rfl
  · cases realloc with
    | none => rfl
    | some junk => rfl

/-- `reserve` does what it is for exactly when there is nothing to do. -/
theorem reserve_right_iff {b : IOBuffer} (halloc : b.size = b.alloc) (freeSpace : ℕ)
    (realloc : Option (ℕ → CChar)) :
    Reserved b (reserve b freeSpace realloc) freeSpace ↔ freeSpace ≤ iobFreeSpace b := by
  constructor
  · intro h
    have hfree := h.free
    rwa [iobFreeSpace_reserve] at hfree
  · intro hfits
    have hcount := b.count_le
    have hkept : reserve b freeSpace realloc = b := if_pos hfits
    rw [hkept]
    refine ⟨?_, hfits, rfl, halloc.le, halloc, adds_inside halloc.le⟩
    show b.count + freeSpace ≤ b.alloc
    unfold iobFreeSpace at hfits
    omega

theorem reserve_right_fits :
    (initIobuf (fun _ => 7) 4).size = (initIobuf (fun _ => 7) 4).alloc ∧
    (Reserved (iobPuts (initIobuf (fun _ => 7) 4) [0x61, 0x62]).2
        (reserve (iobPuts (initIobuf (fun _ => 7) 4) [0x61, 0x62]).2 2 none) 2 ↔
      2 ≤ iobFreeSpace (iobPuts (initIobuf (fun _ => 7) 4) [0x61, 0x62]).2) :=
  ⟨rfl, reserve_right_iff rfl 2 none⟩

/-- Asked for five bytes, an empty buffer of four bytes has three, and four are put
there. -/
theorem reserve_shrinks :
    ¬Reserved (initIobuf (fun _ => 7) 4)
        (reserve (initIobuf (fun _ => 7) 4) 5 (some fun _ => 8)) 5 ∧
      (reserve (initIobuf (fun _ => 7) 4) 5 (some fun _ => 8)).alloc = 3 ∧
      ((add (reserve (initIobuf (fun _ => 7) 4) 5 (some fun _ => 8))
        (.puts [0x61, 0x62, 0x63, 0x64])).isNone = true) :=
  ⟨fun h => absurd h.grows (by decide), by decide, by decide⟩

end IOBuffer

end UnixLabs
