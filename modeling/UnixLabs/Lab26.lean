import UnixLabs.Lab25
import UnixLabs.Lab4

/-!
`print_upper` of `lab26/lab26.c`, which reads lines where that of lab25 reads blocks.

A line is a string in the buffer. Both the loop over it and `printf` end at its first
NUL, so that what follows a NUL in a piece of the input is not printed.
-/

namespace UnixLabs.Lab26

open Library
open Lab4 (fgets)
open Lab25 (upper)
open Lab31.Server (isLower toUpper)

def pipeSize : ℕ := 4096

/-- The loop over the string in the buffer, from index `i` on with `left` cells to go. It
has no result when it leaves the buffer. -/
def upcaseString : ℕ → ℕ → (ℕ → CChar) → Option (ℕ → CChar)
  | 0, _, _ => none
  | left + 1, i, buf =>
      if buf i = 0 then some buf
      else upcaseString left (i + 1)
        (if isLower (buf i) then Function.update buf i (toUpper (buf i)) else buf)

def printString : ℕ → ℕ → (ℕ → CChar) → Option (List CChar)
  | 0, _, _ => none
  | left + 1, i, buf =>
      if buf i = 0 then some [] else (printString left (i + 1) buf).map (buf i :: ·)

/-- The loop of `print_upper`. The buffer has a cell more than `fgets` is told. -/
def printUpper : ℕ → (ℕ → CChar) → List CChar → Option (List CChar)
  | 0, _, _ => none
  | fuel + 1, buf, input =>
      match fgets pipeSize input with
      | none => some []
      | some (line, rest) => do
          let buf ← upcaseString (pipeSize + 1) 0 (writeAt buf 0 (line ++ [0]))
          let printed ← printString (pipeSize + 1) 0 buf
          let more ← printUpper fuel buf rest
          some (printed ++ more)

def upperString (piece : List CChar) : List CChar := (piece.takeWhile (· ≠ 0)).map upper

/-- What is printed: the pieces of the lines up to their first NULs. -/
def shown (input : List CChar) : List CChar :=
  (pieces isNewline (pipeSize - 1) input).flatMap upperString

/-! ### A string in the buffer -/

theorem upper_eq_zero_iff {c : CChar} : upper c = 0 ↔ c = 0 := by
  rw [upper]
  split_ifs with hlower
  · -- no letter is the distance between the cases
    rw [isLower, Bool.and_eq_true, decide_eq_true_eq, decide_eq_true_eq] at hlower
    rw [toUpper]
    constructor
    · intro hzero
      have hc : c = 0x20 := by bv_omega
      rw [hc] at hlower
      exact absurd hlower.1 (by decide)
    · rintro rfl
      exact absurd hlower.1 (by decide)
  · exact Iff.rfl

def HoldsString (buf : ℕ → CChar) (i : ℕ) (s : List CChar) : Prop :=
  firstCells (fun k => buf (i + k)) (s.length + 1) = s ++ [0]

theorem holdsString_nil {buf : ℕ → CChar} {i : ℕ} : HoldsString buf i [] ↔ buf i = 0 := by
  simp [HoldsString, firstCells]

theorem holdsString_cons {buf : ℕ → CChar} {i : ℕ} {c : CChar} {s : List CChar} :
    HoldsString buf i (c :: s) ↔ buf i = c ∧ HoldsString buf (i + 1) s := by
  have hshift : (fun k => buf (i + 1 + k)) = fun k => buf (i + (1 + k)) := by
    ext k
    rw [Nat.add_assoc]
  rw [HoldsString, HoldsString, List.length_cons, Nat.add_comm (s.length + 1) 1, firstCells_add,
    hshift]
  simp [firstCells]

theorem holdsString_congr {buf buf' : ℕ → CChar} {i : ℕ} {s : List CChar}
    (h : ∀ k, i ≤ k → buf k = buf' k) : HoldsString buf i s ↔ HoldsString buf' i s := by
  rw [HoldsString, HoldsString, firstCells_congr fun k _ => h (i + k) (Nat.le_add_right i k)]

/-- The loop ends at the NUL, in the buffer, and has changed nothing before `i`. -/
theorem upcaseString_spec {s : List CChar} (hnul : 0 ∉ s) {left i : ℕ} (hleft : s.length < left)
    {buf : ℕ → CChar} (h : HoldsString buf i s) :
    ∃ buf', upcaseString left i buf = some buf' ∧ HoldsString buf' i (s.map upper) ∧
      ∀ k < i, buf' k = buf k := by
  induction s generalizing left i buf with
  | nil =>
      obtain ⟨n, rfl⟩ := Nat.exists_eq_add_of_lt hleft
      have hzero := holdsString_nil.mp h
      exact ⟨buf, if_pos hzero, h, fun _ _ => rfl⟩
  | cons c s ih =>
      obtain ⟨left, rfl⟩ := Nat.exists_eq_succ_of_ne_zero (Nat.ne_of_gt (Nat.zero_lt_of_lt hleft))
      obtain ⟨rfl, hrest⟩ := holdsString_cons.mp h
      obtain ⟨hc, hs⟩ := not_or.mp (mt List.mem_cons.mpr hnul)
      have hbyte : (if isLower (buf i) then Function.update buf i (toUpper (buf i)) else buf) =
          Function.update buf i (upper (buf i)) := by
        rw [upper]
        split_ifs
        · rfl
        · rw [Function.update_eq_self]
      have hlater : HoldsString (Function.update buf i (upper (buf i))) (i + 1) s := by
        rw [holdsString_congr fun k hk => Function.update_of_ne (Nat.ne_of_gt hk) _ _]
        exact hrest
      obtain ⟨buf', hloop, hheld, hbefore⟩ := ih hs (Nat.lt_of_succ_lt_succ hleft) hlater
      refine ⟨buf', ?_, ?_, fun k hk => ?_⟩
      · rw [upcaseString, if_neg (Ne.symm hc), hbyte, hloop]
      · rw [List.map_cons, holdsString_cons]
        refine ⟨?_, hheld⟩
        rw [hbefore i (Nat.lt_succ_self i), Function.update_self]
      · rw [hbefore k (Nat.lt_succ_of_lt hk), Function.update_of_ne (Nat.ne_of_lt hk)]

theorem printString_spec {s : List CChar} (hnul : 0 ∉ s) {left i : ℕ} (hleft : s.length < left)
    {buf : ℕ → CChar} (h : HoldsString buf i s) : printString left i buf = some s := by
  induction s generalizing left i with
  | nil =>
      obtain ⟨n, rfl⟩ := Nat.exists_eq_add_of_lt hleft
      exact if_pos (holdsString_nil.mp h)
  | cons c s ih =>
      obtain ⟨left, rfl⟩ := Nat.exists_eq_succ_of_ne_zero (Nat.ne_of_gt (Nat.zero_lt_of_lt hleft))
      obtain ⟨rfl, hrest⟩ := holdsString_cons.mp h
      obtain ⟨hc, hs⟩ := not_or.mp (mt List.mem_cons.mpr hnul)
      rw [printString, if_neg (Ne.symm hc), ih hs (Nat.lt_of_succ_lt_succ hleft) hrest]
      rfl

/-- `fgets` leaves the string that ends at the first NUL of the piece, or at the NUL it
adds. -/
theorem holdsString_line (buf : ℕ → CChar) (line : List CChar) :
    HoldsString (writeAt buf 0 (line ++ [0])) 0 (line.takeWhile (· ≠ 0)) := by
  obtain ⟨rest, hline⟩ : ∃ rest, line ++ [0] = line.takeWhile (· ≠ 0) ++ [0] ++ rest := by
    induction line with
    | nil => exact ⟨[], rfl⟩
    | cons c line ih =>
        rcases eq_or_ne c 0 with rfl | hc
        · exact ⟨line ++ [0], by simp⟩
        · obtain ⟨rest, hrest⟩ := ih
          refine ⟨rest, ?_⟩
          rw [List.cons_append, hrest, List.takeWhile_cons_of_pos (by simpa using hc)]
          rfl
  have hcells := firstCells_writeAt buf 0 (line ++ [0])
  rw [HoldsString]
  simp only [Nat.zero_add] at hcells ⊢
  rw [hline, firstCells_zero, List.nil_append, List.length_append] at hcells
  rw [hline]
  have htake := congrArg (List.take ((line.takeWhile (· ≠ 0)).length + 1)) hcells
  rw [take_firstCells _ (by simp), List.take_left' (by simp)] at htake
  exact htake

/-! ### What is printed -/

theorem not_mem_takeWhile (line : List CChar) : 0 ∉ line.takeWhile (· ≠ 0) := by
  intro h
  simpa using List.mem_takeWhile_imp h

theorem printUpper_eq {fuel : ℕ} {input : List CChar} (hfuel : input.length < fuel)
    (buf : ℕ → CChar) : printUpper fuel buf input = some (shown input) := by
  induction fuel generalizing input buf with
  | zero => cases hfuel
  | succ fuel ih =>
      rcases eq_or_ne input [] with rfl | hinput
      · rfl
      have hk : 0 < pipeSize - 1 := by decide
      have hpieces : pieces isNewline (pipeSize - 1) input = _ := pieces_of_ne_nil hk hinput
      have happend := readPiece_append isNewline (pipeSize - 1) input
      have hne := readPiece_ne_nil isNewline hk hinput
      have hlength : (readPiece isNewline (pipeSize - 1) input).1.length ≤ pipeSize - 1 := by
        rw [readPiece_eq]
        exact List.length_take_le _ _
      rw [printUpper, fgets, if_neg hinput]
      generalize readPiece isNewline (pipeSize - 1) input = r at hpieces happend hne hlength
      have hrest : r.2.length < fuel := by
        have hpos := List.length_pos_of_ne_nil hne
        have htotal := congrArg List.length happend
        rw [List.length_append] at htotal
        omega
      have hstring : (r.1.takeWhile (· ≠ 0)).length < pipeSize + 1 := by
        have hle := (List.takeWhile_prefix (fun c : CChar => decide (c ≠ 0)) (l := r.1)).length_le
        omega
      have hshown : shown input = upperString r.1 ++ shown r.2 := by
        rw [shown, hpieces, List.flatMap_cons]
        rfl
      have hnul := not_mem_takeWhile r.1
      obtain ⟨buf', hupcase, hheld, -⟩ := upcaseString_spec hnul hstring (holdsString_line buf r.1)
      have hprinted : printString (pipeSize + 1) 0 buf' = some (upperString r.1) :=
        printString_spec (fun hmem => ?_) (by rw [upperString, List.length_map]; exact hstring)
          hheld
      · show (upcaseString (pipeSize + 1) 0 (writeAt buf 0 (r.1 ++ [0]))).bind _ = _
        rw [hupcase, Option.bind_some]
        show (printString (pipeSize + 1) 0 buf').bind _ = _
        rw [hprinted, Option.bind_some]
        show (printUpper fuel buf' r.2).bind _ = _
        rw [ih hrest, Option.bind_some, hshown]
      · obtain ⟨c, hc, hzero⟩ := List.mem_map.mp hmem
        rw [upper_eq_zero_iff.mp hzero] at hc
        exact hnul hc

theorem length_upperString_le (piece : List CChar) :
    (upperString piece).length ≤ piece.length := by
  rw [upperString, List.length_map]
  exact (List.takeWhile_prefix _).length_le

theorem length_upperString_iff {piece : List CChar} :
    (upperString piece).length = piece.length ↔ 0 ∉ piece := by
  rw [upperString, List.length_map]
  constructor
  · intro hlength hmem
    have hall := (List.takeWhile_prefix (fun c : CChar => decide (c ≠ 0))).eq_of_length hlength
    rw [← hall] at hmem
    exact not_mem_takeWhile piece hmem
  · intro hnul
    rw [List.takeWhile_eq_self_iff.mpr]
    intro c hc
    simpa using ne_of_mem_of_not_mem hc hnul

theorem flatMap_upperString_iff {ps : List (List CChar)} :
    ps.flatMap upperString = ps.flatten.map upper ↔ ∀ p ∈ ps, 0 ∉ p := by
  have hwhole : ps.flatten.map upper = ps.flatMap fun p => p.map upper := by
    rw [List.map_flatten, List.flatMap_def]
  rw [hwhole, flatMap_eq_flatMap_iff]
  · refine forall₂_congr fun p _ => ?_
    rw [← length_upperString_iff]
    constructor
    · intro hsame
      rw [hsame, List.length_map]
    · intro hlength
      rw [upperString, List.takeWhile_eq_self_iff.mpr]
      intro c hc
      simpa using ne_of_mem_of_not_mem hc (length_upperString_iff.mp hlength)
  · intro p _
    rw [List.length_map]
    exact length_upperString_le p

theorem shown_iff (input : List CChar) : shown input = input.map upper ↔ 0 ∉ input := by
  have hflatten : (pieces isNewline (pipeSize - 1) input).flatten = input := by
    rw [pieces, flatten_flatMap_chunks (by decide), flatten_splitAfter]
  have hpieces : (pieces isNewline (pipeSize - 1) input).flatMap upperString = _ ↔ _ :=
    flatMap_upperString_iff
  have hmem := List.mem_flatten (L := pieces isNewline (pipeSize - 1) input) (a := (0 : CChar))
  rw [hflatten] at hpieces hmem
  rw [shown, hpieces, hmem]
  simp

/-- Of the same input, in whatever chunks lab25 reads it, both print the same exactly when
there is no NUL in it. -/
theorem printUpper_iff {input : List CChar} {chunks : List (List CChar)}
    (hcut : Cut pipeSize input chunks) (junk junk' : ℕ → CChar) :
    printUpper (input.length + 1) junk input = some (shown input) ∧
    ∃ s, Lab25.printUpper pipeSize junk' (chunks.map some ++ [some []]) = some s ∧
      s.finished = some true ∧
      (sent s.writes = printUpper (input.length + 1) junk input ↔ 0 ∉ input) := by
  have hsize : pipeSize < 2 ^ 63 := by decide
  have hlines := printUpper_eq (Nat.lt_succ_self input.length) junk
  obtain ⟨s, hcopy, hfinished, hsent⟩ := (Lab25.upperLoop_faithful hsize).copy_cut hcut hcut.fits
    junk'
  refine ⟨hlines, s, hcopy, hfinished, ?_⟩
  rw [hsent, hlines, Option.some_inj, eq_comm]
  exact shown_iff input

theorem printUpper_iff_nul :
    Cut pipeSize ([0x61, 0, 0x62, 0x0A, 0x63] : List CChar) [[0x61, 0, 0x62, 0x0A], [0x63]] ∧
    printUpper 6 (fun _ => 7) [0x61, 0, 0x62, 0x0A, 0x63] =
        some (shown [0x61, 0, 0x62, 0x0A, 0x63]) ∧
    ∃ s, Lab25.printUpper pipeSize (fun _ => 8)
        [some [0x61, 0, 0x62, 0x0A], some [0x63], some []] = some s ∧
      s.finished = some true ∧
      (sent s.writes = printUpper 6 (fun _ => 7) [0x61, 0, 0x62, 0x0A, 0x63] ↔
        0 ∉ ([0x61, 0, 0x62, 0x0A, 0x63] : List CChar)) :=
  have hcut : Cut pipeSize ([0x61, 0, 0x62, 0x0A, 0x63] : List CChar)
      [[0x61, 0, 0x62, 0x0A], [0x63]] := ⟨rfl, by decide, by decide⟩
  ⟨hcut, printUpper_iff hcut (fun _ => 7) fun _ => 8⟩

example : shown [0x61, 0, 0x62, 0x0A, 0x63] = [0x41, 0x43] := by
  decide +kernel

end UnixLabs.Lab26
