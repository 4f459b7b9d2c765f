import UnixLabs.Platform
import UnixLabs.Library.Lines
import UnixLabs.Library.Memory

/-!
`line_table` of lab6, lab7 and lab7-1: where the lines of a file start and end.

`lt_add` and `lt_reserve` are the same in the three programs, and so is the loop over
the newlines in a piece of the file. `malloc` and `realloc` are taken to succeed. A
write to an entry that is not allocated leaves no result.
-/

namespace UnixLabs

open Library

/-- `memchr(s, c, n)` for the `n` bytes at `s`, as a distance from `s`. -/
def memchr (bytes : List CChar) (c : CChar) : Option ℕ := bytes.findIdx? (· == c)

structure LineTable where
  count : ℕ
  capacity : ℕ
  offsets : ℕ → ℕ

namespace LineTable

def initTable (junk : ℕ → ℕ) : LineTable := ⟨0, 16, junk⟩

def storeOffset (t : LineTable) (i offset : ℕ) : Option LineTable :=
  if i < t.capacity then some { t with offsets := Function.update t.offsets i offset } else none

/-- The product with 1.5 is truncated. It is exact as a `double` as long as the
capacity is below 2^51, which no allocation comes near. -/
def ltReserve (t : LineTable) : LineTable :=
  if t.count + 2 ≤ t.capacity then t else { t with capacity := t.capacity * 3 / 2 }

def ltAdd (t : LineTable) (length offset : ℕ) : Option LineTable := do
  let t := t.ltReserve
  let t ← t.storeOffset t.count offset
  let t := { t with count := t.count + 1 }
  t.storeOffset t.count (offset + length)

theorem memchr_lt {bytes : List CChar} {c : CChar} {i : ℕ} (h : memchr bytes c = some i) :
    i < bytes.length := (List.findIdx?_eq_some_iff_getElem.mp h).1

/-- The loop over the newlines of a piece of the file, and what follows it: the table,
`line_size` and `offset`. The pointer `old_c` is what is left of the piece. -/
def scanPiece (t : LineTable) (lineSize offset : ℕ) (oldC : List CChar) :
    Option (LineTable × ℕ × ℕ) :=
  match h : memchr oldC newline with
  | none => some (t, lineSize + oldC.length, offset)
  | some i => do
      -- `c` is right behind the newline
      let lineSize := lineSize + (i + 1)
      let t ← t.ltAdd lineSize offset
      t.scanPiece 0 (offset + lineSize) (oldC.drop (i + 1))
  termination_by oldC.length
  decreasing_by
    have := memchr_lt h
    rw [List.length_drop]
    omega

/-- The last line may have no newline. -/
def addRest (t : LineTable) (lineSize offset : ℕ) : Option LineTable :=
  if lineSize ≠ 0 then t.ltAdd lineSize offset else some t

/-! ### What the table lists -/

/-- The lines end at `ends`, and there is room for one more entry. -/
structure Holds (t : LineTable) (ends : List ℕ) : Prop where
  count : t.count = ends.length
  entries : ends ≠ [] → firstCells t.offsets (t.count + 1) = 0 :: ends
  room : t.count + 1 ≤ t.capacity
  capacity : 16 ≤ t.capacity

theorem Holds.initTable (junk : ℕ → ℕ) : (initTable junk).Holds [] :=
  ⟨rfl, fun h => absurd rfl h, by simp [LineTable.initTable], le_rfl⟩

/-- `lt_reserve` makes room for two entries: the line's own and the end of the line. -/
theorem Holds.ltReserve {t : LineTable} {ends : List ℕ} (h : t.Holds ends) :
    t.ltReserve.Holds ends ∧ t.ltReserve.count + 2 ≤ t.ltReserve.capacity := by
  have hroom := h.room
  have hcapacity := h.capacity
  unfold LineTable.ltReserve
  split_ifs with hfits
  · exact ⟨h, hfits⟩
  · have hgrown : t.count + 2 ≤ t.capacity * 3 / 2 := by omega
    exact ⟨⟨h.count, h.entries, by simp only; omega, by simp only; omega⟩, hgrown⟩

theorem ltAdd_eq {t : LineTable} (hroom : t.ltReserve.count + 2 ≤ t.ltReserve.capacity)
    (length offset : ℕ) :
    t.ltAdd length offset = some { t.ltReserve with
      count := t.ltReserve.count + 1
      offsets := Function.update (Function.update t.ltReserve.offsets t.ltReserve.count offset)
        (t.ltReserve.count + 1) (offset + length) } := by
  simp only [ltAdd, storeOffset, Option.bind_eq_bind]
  rw [if_pos (by omega), Option.bind_some, if_pos (by simp only; omega)]

theorem Holds.ltAdd {t : LineTable} {ends : List ℕ} (h : t.Holds ends) (length : ℕ) {offset : ℕ}
    (hoffset : offset = ends.getLastD 0) :
    ∃ t', t.ltAdd length offset = some t' ∧ t'.Holds (ends ++ [offset + length]) := by
  obtain ⟨h, hroom⟩ := h.ltReserve
  refine ⟨_, ltAdd_eq hroom length offset, ?_, fun _ => ?_, by simp only; omega, h.capacity⟩
  · simp [h.count]
  · -- the entry at `count` is written again, with what it was
    rw [firstCells_update, firstCells_update, ← List.cons_append]
    refine congrArg (· ++ [offset + length]) ?_
    cases hends : ends with
    | nil =>
        rw [h.count, hends, hoffset, hends]
        rfl
    | cons e es =>
        have hentries := h.entries (by simp [hends])
        rw [firstCells_succ] at hentries
        rw [← hends, ← hentries]
        refine congrArg (firstCells t.ltReserve.offsets t.ltReserve.count ++ [·]) ?_
        have hlast := congrArg (fun l => l.getLastD 0) hentries
        simp only [List.getLastD_concat] at hlast
        rw [hlast, hoffset, hends]
        rfl

/-! ### The loop over the newlines -/

structure Scanned (t : LineTable) (lineSize offset : ℕ) (seen : List CChar) : Prop where
  holds : t.Holds (cuts isNewline seen)
  offset_eq : offset = lastCut isNewline seen
  length_eq : seen.length = offset + lineSize

theorem Scanned.initTable (junk : ℕ → ℕ) : Scanned (initTable junk) 0 0 [] :=
  ⟨Holds.initTable junk, rfl, rfl⟩

theorem memchr_cases (bytes : List CChar) :
    memchr bytes newline = none ∧ (∀ b ∈ bytes, isNewline b = false) ∨
      ∃ line rest, bytes = line ++ [newline] ++ rest ∧ (∀ b ∈ line, isNewline b = false) ∧
        memchr bytes newline = some line.length := by
  cases h : memchr bytes newline with
  | none =>
      refine .inl ⟨rfl, fun b hb => ?_⟩
      simpa [isNewline] using List.findIdx?_eq_none_iff.mp h b hb
  | some i =>
      obtain ⟨hi, hfound, hbefore⟩ := List.findIdx?_eq_some_iff_getElem.mp h
      have hline : (bytes.take i).length = i := by
        rw [List.length_take]
        omega
      refine .inr ⟨bytes.take i, bytes.drop (i + 1), ?_, ?_, by rw [hline]⟩
      · rw [← eq_of_beq hfound, List.append_assoc, List.singleton_append,
          List.getElem_cons_drop, List.take_append_drop]
      · intro b hb
        obtain ⟨j, hj, rfl⟩ := List.getElem_of_mem hb
        rw [hline] at hj
        rw [List.getElem_take]
        simpa [isNewline] using hbefore j hj

theorem scanPiece_none {t : LineTable} {lineSize offset : ℕ} {oldC : List CChar}
    (h : memchr oldC newline = none) :
    t.scanPiece lineSize offset oldC = some (t, lineSize + oldC.length, offset) := by
  rw [scanPiece]
  split
  · rfl
  · rename_i hsome
    rw [h] at hsome
    cases hsome

theorem scanPiece_some {t : LineTable} {lineSize offset i : ℕ} {oldC : List CChar}
    (h : memchr oldC newline = some i) :
    t.scanPiece lineSize offset oldC = (t.ltAdd (lineSize + (i + 1)) offset).bind fun t =>
      t.scanPiece 0 (offset + (lineSize + (i + 1))) (oldC.drop (i + 1)) := by
  rw [scanPiece]
  split
  · rename_i hnone
    rw [h] at hnone
    cases hnone
  · rename_i j hsome
    rw [h] at hsome
    cases hsome
    rfl

/-- The loop ends, without leaving the entries, with the lines of the piece added. -/
theorem Scanned.scanPiece {t : LineTable} {lineSize offset : ℕ} {seen : List CChar}
    (h : Scanned t lineSize offset seen) (oldC : List CChar) :
    ∃ t' lineSize' offset', t.scanPiece lineSize offset oldC = some (t', lineSize', offset') ∧
      Scanned t' lineSize' offset' (seen ++ oldC) := by
  induction hn : oldC.length using Nat.strong_induction_on
    generalizing t lineSize offset seen oldC with
  | _ n ih =>
      rcases memchr_cases oldC with ⟨hnone, hopen⟩ | ⟨line, rest, rfl, hopen, hsome⟩
      · refine ⟨_, _, _, scanPiece_none hnone, ?_, ?_, ?_⟩
        · rw [cuts_append_open seen hopen]
          exact h.holds
        · rw [lastCut_append_open seen hopen]
          exact h.offset_eq
        · rw [List.length_append, h.length_eq, Nat.add_assoc]
      · obtain ⟨t', hadd, hholds⟩ := h.holds.ltAdd (lineSize + (line.length + 1)) h.offset_eq
        have hend : offset + (lineSize + (line.length + 1)) = seen.length + (line.length + 1) := by
          rw [h.length_eq, Nat.add_assoc]
        have hscanned : Scanned t' 0 (offset + (lineSize + (line.length + 1)))
            (seen ++ (line ++ [newline])) := by
          refine ⟨?_, ?_, ?_⟩
          · rw [cuts_append_line seen hopen rfl, ← hend]
            exact hholds
          · rw [lastCut_append_line seen hopen rfl, hend]
          · simp [hend]
        have hdrop : (line ++ [newline] ++ rest).drop (line.length + 1) = rest :=
          List.drop_left' (by simp)
        obtain ⟨t'', lineSize', offset', hscan, hscanned'⟩ :=
          ih rest.length (by simp at hn; omega) hscanned rest rfl
        refine ⟨t'', lineSize', offset', ?_, ?_⟩
        · rw [scanPiece_some hsome, hadd, Option.bind_some, hdrop, hscan]
        · rwa [List.append_assoc] at hscanned'

theorem Scanned.addRest {t : LineTable} {lineSize offset : ℕ} {file : List CChar}
    (h : Scanned t lineSize offset file) :
    ∃ t', t.addRest lineSize offset = some t' ∧ t'.Holds (lineEnds isNewline file) := by
  have hlength := h.length_eq
  have hoffset := h.offset_eq
  unfold LineTable.addRest
  by_cases hzero : lineSize = 0
  · refine ⟨t, if_neg (by simp [hzero]), ?_⟩
    rw [lineEnds_of_eq (by omega)]
    exact h.holds
  · rw [if_pos hzero, lineEnds_of_lt (by omega), hlength]
    exact h.holds.ltAdd lineSize h.offset_eq

theorem Holds.lines {t : LineTable} {file : List CChar} (h : t.Holds (lineEnds isNewline file)) :
    Lines isNewline file t.count t.offsets := by
  refine lines_of_lineEnds h.count fun hpos i hi => ?_
  have hentries := h.entries (by rintro he; rw [h.count, he] at hpos; exact absurd hpos (by simp))
  simp only [← hentries, getElem_firstCells]

end LineTable

example : ((LineTable.initTable fun _ => 0).scanPiece 0 0 [0x61, 0x0A, 0x0A, 0x62]).map
    (fun (t, lineSize, offset) => (firstCells t.offsets (t.count + 1), lineSize, offset)) =
      some ([0, 2, 3], 1, 3) := by decide +kernel

end UnixLabs
