import UnixLabs.LineTable

/-!
`lab5/lab5.c`: the table with the start and the length of every line.

`get_table` goes through the file byte by byte, and leaves the newlines out of the
lengths.
-/

namespace UnixLabs.Lab5

open Library

/-- The entries behind `lengths` and `offsets`, of which `capacity` are allocated. -/
structure LineTable where
  count : ℕ
  capacity : ℕ
  lengths : ℕ → ℕ
  offsets : ℕ → ℕ

namespace LineTable

def initTable (lengthJunk offsetJunk : ℕ → ℕ) : LineTable := ⟨0, 16, lengthJunk, offsetJunk⟩

def storeLength (t : LineTable) (i length : ℕ) : Option LineTable :=
  if i < t.capacity then some { t with lengths := Function.update t.lengths i length } else none

def storeOffset (t : LineTable) (i offset : ℕ) : Option LineTable :=
  if i < t.capacity then some { t with offsets := Function.update t.offsets i offset } else none

def ltReserve (t : LineTable) : LineTable :=
  if t.count + 1 ≤ t.capacity then t else { t with capacity := t.capacity * 3 / 2 }

def ltAdd (t : LineTable) (length offset : ℕ) : Option LineTable := do
  let t := t.ltReserve
  let t ← t.storeLength t.count length
  let t ← t.storeOffset t.count offset
  some { t with count := t.count + 1 }

def scanBytes (t : LineTable) (lineSize offset : ℕ) :
    List CChar → Option (LineTable × ℕ × ℕ)
  | [] => some (t, lineSize, offset)
  | b :: bytes => do
      let lineSize := lineSize + 1
      if b = newline then
        let t ← t.ltAdd (lineSize - 1) offset
        t.scanBytes 0 (offset + lineSize) bytes
      else t.scanBytes lineSize offset bytes

def readFrom (t : LineTable) (lineSize offset : ℕ) :
    List (Option (List CChar)) → Option (Option LineTable)
  | none :: _ => some none
  | some (b :: buf) :: reads => do
      let (t, lineSize, offset) ← t.scanBytes lineSize offset (b :: buf)
      t.readFrom lineSize offset reads
  | some [] :: _ | [] =>
      if lineSize ≠ 0 then (t.ltAdd lineSize offset).map some else some (some t)

end LineTable

def getTable (lengthJunk offsetJunk : ℕ → ℕ) (reads : List (Option (List CChar))) :
    Option (Option LineTable) :=
  (LineTable.initTable lengthJunk offsetJunk).readFrom 0 0 reads

namespace LineTable

/-- The table has the lines of `file` that end at `ends`, without the newlines. -/
structure Holds (t : LineTable) (file : List CChar) (ends : List ℕ) : Prop where
  count : t.count = ends.length
  offsets : firstCells t.offsets t.count = (0 :: ends).dropLast
  lengths : firstCells t.lengths t.count =
    (spansFrom 0 ends).map fun span => bareLength isNewline file span.1 span.2
  room : t.count ≤ t.capacity
  capacity : 16 ≤ t.capacity

theorem ltAdd_eq {t : LineTable} (hroom : t.count ≤ t.capacity) (hcapacity : 16 ≤ t.capacity)
    (length offset : ℕ) :
    ∃ capacity, t.count + 1 ≤ capacity ∧ 16 ≤ capacity ∧ t.ltAdd length offset = some
      ⟨t.count + 1, capacity, Function.update t.lengths t.count length,
        Function.update t.offsets t.count offset⟩ := by
  unfold ltAdd ltReserve
  by_cases hfits : t.count + 1 ≤ t.capacity
  · refine ⟨t.capacity, hfits, hcapacity, ?_⟩
    simp only [if_pos hfits, storeLength, storeOffset, Option.bind_eq_bind]
    rw [if_pos (by omega), Option.bind_some, if_pos (by simp only; omega), Option.bind_some]
  · refine ⟨t.capacity * 3 / 2, by omega, by omega, ?_⟩
    simp only [if_neg hfits, storeLength, storeOffset, Option.bind_eq_bind]
    rw [if_pos (by omega), Option.bind_some, if_pos (by simp only; omega), Option.bind_some]

theorem Holds.ltAdd {t : LineTable} {file : List CChar} {ends : List ℕ} (h : t.Holds file ends)
    {offset : ℕ} (hoffset : offset = ends.getLastD 0) {length e : ℕ}
    (hlength : length = bareLength isNewline file offset e) :
    ∃ t', t.ltAdd length offset = some t' ∧ t'.Holds file (ends ++ [e]) := by
  obtain ⟨capacity, hroom, hcapacity, hadd⟩ := ltAdd_eq h.room h.capacity length offset
  refine ⟨_, hadd, by simp [h.count], ?_, ?_, hroom, hcapacity⟩
  · rw [firstCells_update, h.offsets, dropLast_concat, hoffset]
  · rw [firstCells_update, h.lengths, spansFrom_concat, List.map_append, hlength, hoffset]
    rfl

structure Scanned (t : LineTable) (file : List CChar) (lineSize offset : ℕ) (seen : List CChar) :
    Prop where
  holds : t.Holds file (cuts isNewline seen)
  offset_eq : offset = lastCut isNewline seen
  length_eq : seen.length = offset + lineSize

theorem Scanned.scanBytes {t : LineTable} {file : List CChar} {lineSize offset : ℕ}
    {seen : List CChar} (h : Scanned t file lineSize offset seen) (bytes : List CChar)
    (hpart : seen ++ bytes <+: file) :
    ∃ t' lineSize' offset', t.scanBytes lineSize offset bytes = some (t', lineSize', offset') ∧
      Scanned t' file lineSize' offset' (seen ++ bytes) := by
  induction bytes generalizing t lineSize offset seen with
  | nil => exact ⟨t, lineSize, offset, rfl, by rwa [List.append_nil]⟩
  | cons b bytes ih =>
      rw [List.append_cons] at hpart ⊢
      have hlength := h.length_eq
      have hoffset := h.offset_eq
      by_cases hb : b = newline
      · subst hb
        have hcuts : cuts isNewline (seen ++ [newline]) =
            cuts isNewline seen ++ [seen.length + 1] :=
          cuts_append_line seen (List.forall_mem_nil _) rfl
        have hat : file[seen.length + 1 - 1]? = some newline := by
          obtain ⟨rest, rfl⟩ := hpart
          simp
        have hbare : lineSize + 1 - 1 =
            bareLength isNewline file offset (seen.length + 1) := by
          rw [bareLength, hat]
          simp only [Option.any_some, isNewline, beq_self_eq_true, if_true]
          omega
        obtain ⟨t', hadd, hholds⟩ := h.holds.ltAdd h.offset_eq hbare
        have hend : offset + (lineSize + 1) = seen.length + 1 := by omega
        have hscanned : Scanned t' file 0 (offset + (lineSize + 1)) (seen ++ [newline]) := by
          refine ⟨hcuts ▸ hholds, ?_, ?_⟩
          · rw [lastCut, hcuts, List.getLastD_concat, hend]
          · rw [List.length_append, List.length_singleton, hend, Nat.add_zero]
        obtain ⟨t'', lineSize', offset', hscan, hscanned'⟩ := ih hscanned hpart
        refine ⟨t'', lineSize', offset', ?_, hscanned'⟩
        simp only [LineTable.scanBytes, if_true, hadd, Option.bind_eq_bind, Option.bind_some, hscan]
      · have hopen : ∀ x ∈ [b], isNewline x = false := by simpa [isNewline] using hb
        have hscanned : Scanned t file (lineSize + 1) offset (seen ++ [b]) := by
          refine ⟨?_, ?_, ?_⟩
          · rw [cuts_append_open seen hopen]
            exact h.holds
          · rw [lastCut_append_open seen hopen]
            exact h.offset_eq
          · rw [List.length_append, List.length_singleton, hlength, Nat.add_assoc]
        obtain ⟨t', lineSize', offset', hscan, hscanned'⟩ := ih hscanned hpart
        refine ⟨t', lineSize', offset', ?_, hscanned'⟩
        simp only [LineTable.scanBytes, if_neg hb, hscan]

theorem Scanned.readFrom {t : LineTable} {file : List CChar} {lineSize offset : ℕ}
    {seen : List CChar} (h : Scanned t file lineSize offset seen) {chunks : List (List CChar)}
    (hchunks : ∀ c ∈ chunks, c ≠ []) (hfile : seen ++ chunks.flatten = file) :
    ∃ t', t.readFrom lineSize offset (chunks.map some) = some (some t') ∧
      t'.Holds file (lineEnds isNewline file) := by
  induction chunks generalizing t lineSize offset seen with
  | nil =>
      obtain rfl : seen = file := by simpa using hfile
      have hlength := h.length_eq
      have hoffset := h.offset_eq
      simp only [List.map_nil, LineTable.readFrom]
      by_cases hzero : lineSize = 0
      · refine ⟨t, if_neg (by simp [hzero]), ?_⟩
        rw [lineEnds_of_eq (by omega)]
        exact h.holds
      · have hlt : lastCut isNewline seen < seen.length := by omega
        have hbare : lineSize = bareLength isNewline seen offset seen.length := by
          rw [bareLength, any_last_of_lt hlt, if_neg Bool.false_ne_true]
          omega
        obtain ⟨t', hadd, hholds⟩ := h.holds.ltAdd h.offset_eq hbare
        rw [if_pos hzero, hadd, lineEnds_of_lt hlt]
        exact ⟨t', rfl, hholds⟩
  | cons c chunks ih =>
      obtain ⟨b, buf, rfl⟩ := List.exists_cons_of_ne_nil (hchunks c List.mem_cons_self)
      rw [List.flatten_cons, ← List.append_assoc] at hfile
      obtain ⟨t', lineSize', offset', hscan, hscanned⟩ := h.scanBytes (b :: buf) ⟨_, hfile⟩
      obtain ⟨t'', hread, hholds⟩ :=
        ih hscanned (fun c hc => hchunks c (List.mem_cons_of_mem _ hc)) hfile
      refine ⟨t'', ?_, hholds⟩
      simp only [List.map_cons, LineTable.readFrom, hscan, Option.bind_eq_bind, Option.bind_some,
        hread]

end LineTable

/-- However the file is cut, `get_table` succeeds with the lines of the file. -/
theorem getTable_spec (lengthJunk offsetJunk : ℕ → ℕ) {file : List CChar}
    {chunks : List (List CChar)} (hchunks : ∀ c ∈ chunks, c ≠ []) (hfile : chunks.flatten = file) :
    ∃ t, getTable lengthJunk offsetJunk (chunks.map some) = some (some t) ∧
      t.Holds file (lineEnds isNewline file) := by
  have hstart : LineTable.Scanned (LineTable.initTable lengthJunk offsetJunk) file 0 0 [] :=
    ⟨⟨rfl, rfl, rfl, Nat.zero_le _, le_rfl⟩, rfl, rfl⟩
  exact hstart.readFrom hchunks hfile

end UnixLabs.Lab5
