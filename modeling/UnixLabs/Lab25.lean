import UnixLabs.Lab31.Server
import UnixLabs.Library.CopyLoop
import Mathlib.Algebra.Order.BigOperators.Group.List
import Mathlib.Algebra.Order.Ring.Nat
import Mathlib.Algebra.Group.Action.Defs

/-!
`lab25/lab25.c`: one process copies a file into a pipe, another prints what comes out
in upper case.

`print_upper` passes on as many bytes as it read. `write_file` passes on its whole
buffer, with whatever is left there behind a short read.
-/

namespace UnixLabs

open Library

namespace Lab25

open Lab31.Server (isLower toUpper upcaseFrom)

/-- What a failed read leaves in the counter, a `size_t`. -/
def readError : ℕ := sizeT (-1)

def fileLoop (pipeSize : ℕ) : CopyLoop CChar where
  size := pipeSize
  failure := readError
  stops count := count == readError
  edit _ buf := some buf
  passed _ := pipeSize

/-- `write_file`, given whether `open` succeeds and what `read` answers. `malloc` leaves
`junk` in the buffer. -/
def writeFile (pipeSize : ℕ) (opened : Bool) (junk : ℕ → CChar)
    (answers : List (Option (List CChar))) : Option (Copying CChar) :=
  if opened then (fileLoop pipeSize).copy junk answers else some ⟨junk, [], some false⟩

/-- The loop of `print_upper`. The loop over the bytes is that of lab31. -/
def upperLoop (pipeSize : ℕ) : CopyLoop CChar where
  size := pipeSize
  failure := readError
  stops count := count == readError
  edit count buf := upcaseFrom pipeSize count 0 buf
  passed count := count

def printUpper (pipeSize : ℕ) (junk : ℕ → CChar) (answers : List (Option (List CChar))) :
    Option (Copying CChar) :=
  (upperLoop pipeSize).copy junk answers

def upper (c : CChar) : CChar := if isLower c then toUpper c else c

/-! ### Upper case -/

theorem upcaseFrom_spec {size left i : ℕ} (h : i + left ≤ size) (buf : ℕ → CChar) :
    ∃ buf', upcaseFrom size left i buf = some buf' ∧
      ∀ k, buf' k = if i ≤ k ∧ k < i + left then upper (buf k) else buf k := by
  induction left generalizing i buf with
  | zero =>
      refine ⟨buf, rfl, fun k => ?_⟩
      rw [if_neg (by omega)]
  | succ left ih =>
      have hbyte : (if isLower (buf i) then Function.update buf i (toUpper (buf i)) else buf) =
          Function.update buf i (upper (buf i)) := by
        unfold upper
        split_ifs
        · rfl
        · rw [Function.update_eq_self]
      obtain ⟨buf', hrest, hcells⟩ := ih (show i + 1 + left ≤ size by omega)
        (Function.update buf i (upper (buf i)))
      refine ⟨buf', ?_, fun k => ?_⟩
      · rw [upcaseFrom, if_pos (by omega), hbyte, hrest]
      · rw [hcells, Function.update_apply]
        rcases Nat.lt_trichotomy k i with hk | rfl | hk
        · rw [if_neg (by omega), if_neg (by omega), if_neg (by omega)]
        · rw [if_neg (by omega), if_pos rfl, if_pos (by omega)]
        · rw [if_neg (show k ≠ i by omega)]
          apply if_congr _ rfl rfl
          omega

variable {pipeSize : ℕ}

theorem ne_readError (hsize : pipeSize < 2 ^ 63) {n : ℕ} (hn : n ≤ pipeSize) :
    (n == readError) = false := by
  have herror : readError = 2 ^ 64 - 1 := rfl
  rw [beq_eq_false_iff_ne, herror]
  omega

theorem upperLoop_faithful (hsize : pipeSize < 2 ^ 63) :
    (upperLoop pipeSize).Faithful upper (· ≤ pipeSize) where
  fits _ hn := hn
  goes _ hn := ne_readError hsize hn
  passed _ _ := rfl
  edit n hn buf := by
    obtain ⟨buf', hupper, hcells⟩ := upcaseFrom_spec (show 0 + n ≤ pipeSize by omega) buf
    refine ⟨buf', hupper, ?_⟩
    rw [firstCells, firstCells, List.map_map]
    apply List.map_congr_left
    intro k hk
    have hlt := List.mem_range.mp hk
    rw [hcells, if_pos (by omega)]
    rfl

/-! ### The pipe -/

/-- `write_file` passes on what it read when its buffer was filled. -/
theorem fileLoop_faithful (hsize : pipeSize < 2 ^ 63) :
    (fileLoop pipeSize).Faithful id (· = pipeSize) where
  fits _ hn := hn.le
  goes _ hn := ne_readError hsize hn.le
  passed _ hn := hn.symm
  edit _ _ buf := ⟨buf, rfl, (List.map_id _).symm⟩

theorem writeFile_length (hsize : pipeSize < 2 ^ 63) {file : List CChar}
    {chunks : List (List CChar)} (hcut : Cut pipeSize file chunks) (junk : ℕ → CChar) :
    ∃ s piped, writeFile pipeSize true junk (chunks.map some ++ [some []]) = some s ∧
      s.finished = some true ∧ sent s.writes = some piped ∧
      piped.length = chunks.length * pipeSize := by
  obtain ⟨buf, bs, hrun, hlengths⟩ := CopyLoop.run_lengths (l := fileLoop pipeSize)
    (fun n hn => ne_readError hsize hn) (fun _ _ => le_rfl) (fun _ _ _ => rfl) hcut.ne_nil hcut.fits
    (s := CopyLoop.start junk) rfl
  refine ⟨⟨buf, bs.map WriteCall.ofBytes, some true⟩, bs.flatten, ?_, rfl, sent_ofBytes bs, ?_⟩
  · show CopyLoop.copy _ _ _ = _
    rw [CopyLoop.copy, run_append, hrun, Option.bind_some, run_cons, CopyLoop.pass_end rfl,
      Option.bind_some, run_nil]
    rfl
  · rw [List.length_flatten, hlengths]
    show (chunks.map fun _ => pipeSize).sum = _
    rw [List.map_const', List.sum_replicate, smul_eq_mul]

/-- The chunks fill their buffers exactly when together they are as long as that many
buffers. -/
theorem full_of_length {file : List CChar} {chunks : List (List CChar)}
    (hcut : Cut pipeSize file chunks) (hlength : file.length = chunks.length * pipeSize) :
    ∀ c ∈ chunks, c.length = pipeSize := by
  rw [← hcut.flatten, List.length_flatten] at hlength
  have hfits := hcut.fits
  clear hcut
  induction chunks with
  | nil => exact List.forall_mem_nil _
  | cons c chunks ih =>
      rw [List.forall_mem_cons] at hfits
      have hrest : (chunks.map List.length).sum ≤ chunks.length * pipeSize := by
        have hle := List.sum_le_card_nsmul (chunks.map List.length) pipeSize
          (List.forall_mem_map.mpr hfits.2)
        rwa [List.length_map, smul_eq_mul] at hle
      rw [List.map_cons, List.sum_cons, List.length_cons, Nat.succ_mul] at hlength
      rw [List.forall_mem_cons]
      exact ⟨by omega, ih (by omega) hfits.2⟩

/-- The file arrives in upper case, however the pipe is read, exactly when every read
of `write_file` filled its buffer. -/
theorem pipeline_iff (hsize : pipeSize < 2 ^ 63) {file : List CChar}
    {chunks : List (List CChar)} (hcut : Cut pipeSize file chunks) (junk junk' : ℕ → CChar) :
    ∃ s piped, writeFile pipeSize true junk (chunks.map some ++ [some []]) = some s ∧
      s.finished = some true ∧ sent s.writes = some piped ∧
      ∀ pieces, Cut pipeSize piped pieces →
        ∃ s', printUpper pipeSize junk' (pieces.map some ++ [some []]) = some s' ∧
          s'.finished = some true ∧
          (sent s'.writes = some (file.map upper) ↔ ∀ c ∈ chunks, c.length = pipeSize) := by
  obtain ⟨s, piped, hwrite, hfinished, hsent, hlength⟩ := writeFile_length hsize hcut junk
  refine ⟨s, piped, hwrite, hfinished, hsent, fun pieces hpieces => ?_⟩
  obtain ⟨s', hprint, hfinished', hsent'⟩ := (upperLoop_faithful hsize).copy_cut hpieces
    hpieces.fits junk'
  refine ⟨s', hprint, hfinished', ?_⟩
  rw [hsent', Option.some_inj]
  constructor
  · intro hsame
    have hlengths := congrArg List.length hsame
    rw [List.length_map, List.length_map, hlength] at hlengths
    exact full_of_length hcut hlengths.symm
  · intro hfull
    obtain ⟨s'', hcopy, -, hpiped⟩ := (fileLoop_faithful hsize).copy_cut hcut hfull junk
    have hstate : s'' = s := Option.some_inj.mp (hcopy.symm.trans hwrite)
    rw [hstate, hsent, List.map_id, Option.some_inj] at hpiped
    rw [hpiped]

theorem pipeline_iff_two :
    2 < 2 ^ 63 ∧ Cut 2 ([0x61, 0x0A, 0x62, 0x0A] : List CChar) [[0x61, 0x0A], [0x62, 0x0A]] ∧
    ∃ s piped, writeFile 2 true (fun _ => 7) [some [0x61, 0x0A], some [0x62, 0x0A], some []] =
        some s ∧
      s.finished = some true ∧ sent s.writes = some piped ∧
      ∀ pieces, Cut 2 piped pieces →
        ∃ s', printUpper 2 (fun _ => 8) (pieces.map some ++ [some []]) = some s' ∧
          s'.finished = some true ∧
          (sent s'.writes = some (([0x61, 0x0A, 0x62, 0x0A] : List CChar).map upper) ↔
            ∀ c ∈ ([[0x61, 0x0A], [0x62, 0x0A]] : List (List CChar)), c.length = 2) :=
  have hcut : Cut 2 ([0x61, 0x0A, 0x62, 0x0A] : List CChar) [[0x61, 0x0A], [0x62, 0x0A]] :=
    ⟨rfl, by decide, by decide⟩
  ⟨by decide, hcut, pipeline_iff (show 2 < 2 ^ 63 by decide) hcut (fun _ => 7) fun _ => 8⟩

/-- A file of one letter arrives with the second byte of a buffer of two. -/
theorem pipeline_stale :
    ((writeFile 2 true (fun _ => 0x62) [some [0x61], some []]).bind fun s => sent s.writes) =
        some [0x61, 0x62] ∧
      ((printUpper 2 (fun _ => 0) [some [0x61, 0x62], some []]).bind fun s => sent s.writes) =
        some [0x41, 0x42] ∧
      ([0x41, 0x42] : List CChar) ≠ ([0x61] : List CChar).map upper := by
  decide +kernel

end Lab25

end UnixLabs
