import UnixLabs.GetLine

/-!
`print_line` of lab6, and the file printed when no line number is typed in time.

The file is written line by line. Behind a last line without a newline the string
`"\n"` is written with its `sizeof`, which counts the NUL.
-/

namespace UnixLabs

open Library

namespace Lab6

/-- The array `"\n"`. -/
def newlineLiteral : List CChar := [newline, 0]

/-- `print_line`: what it writes. `lseek` goes to the start of the line, and `read` is
taken to fill the buffer. -/
def printLine (file : List CChar) (lt : LineTable) (index : ℕ) : Option (List CChar) := do
  let lineLen ← checkedSub (lt.offsets (index + 1)) (lt.offsets index)
  let text ← readBytes file (lt.offsets index) lineLen
  let last ← checkedSub lineLen 1
  let b ← text[last]?
  some (text ++ if b ≠ newline then newlineLiteral else [])

def timeOutFrom (file : List CChar) (lt : LineTable) (i : ℕ) : Option (List CChar) :=
  if i < lt.count then do
    let line ← printLine file lt i
    let lines ← timeOutFrom file lt (i + 1)
    some (line ++ lines)
  else some []
  termination_by lt.count - i

def timeOut (file : List CChar) (lt : LineTable) : Option (List CChar) := timeOutFrom file lt 0

/-- The NUL behind a line without a newline. -/
def strayNul (file : List CChar) (stop : ℕ) : List CChar :=
  if file[stop - 1]? = some newline then [] else [0]

theorem printLine_spec {file : List CChar} {lt : LineTable}
    (hlines : Lines isNewline file lt.count lt.offsets) {i : ℕ} (hi : i < lt.count) :
    printLine file lt i = some (lineOutput file (lt.offsets i) (lt.offsets (i + 1)) ++
      strayNul file (lt.offsets (i + 1))) := by
  have hlt := hlines.increasing i hi
  have hstop := hlines.le_length hi
  have hbytes : readBytes file (lt.offsets i) (lt.offsets (i + 1) - lt.offsets i) =
      some ((file.drop (lt.offsets i)).take (lt.offsets (i + 1) - lt.offsets i)) := by
    apply if_pos
    omega
  have hlast : ((file.drop (lt.offsets i)).take (lt.offsets (i + 1) - lt.offsets i))[
      lt.offsets (i + 1) - lt.offsets i - 1]? = file[lt.offsets (i + 1) - 1]? := by
    rw [List.getElem?_take_of_lt (by omega), List.getElem?_drop]
    congr 1
    omega
  obtain ⟨b, hb⟩ : ∃ b, file[lt.offsets (i + 1) - 1]? = some b :=
    ⟨_, List.getElem?_eq_getElem (by omega)⟩
  simp only [printLine, checkedSub_of_le hlt.le, hbytes,
    checkedSub_of_le (show 1 ≤ lt.offsets (i + 1) - lt.offsets i by omega), hlast, hb, lineOutput,
    strayNul, Option.bind_eq_bind, Option.bind_some, Option.some_inj, ne_eq, ite_not]
  split_ifs
  · rw [List.append_nil, List.append_nil]
  · rw [List.append_assoc]
    rfl

theorem timeOutFrom_spec {file : List CChar} {lt : LineTable}
    (hlines : Lines isNewline file lt.count lt.offsets) (n : ℕ) {i : ℕ} (hi : i + n = lt.count) :
    timeOutFrom file lt i = some ((List.range' i n).flatMap fun k =>
      lineOutput file (lt.offsets k) (lt.offsets (k + 1)) ++
        strayNul file (lt.offsets (k + 1))) := by
  induction n generalizing i with
  | zero => rw [timeOutFrom, if_neg (by omega)]; rfl
  | succ n ih =>
      rw [timeOutFrom, if_pos (by omega), printLine_spec hlines (by omega)]
      simp only [ih (show i + 1 + n = lt.count by omega), Option.bind_eq_bind, Option.bind_some,
        List.range'_succ, List.flatMap_cons]

/-- What is written after a time-out: the file, a newline if there is none at its end,
and then a NUL. -/
theorem timeOut_spec {file : List CChar} (hfile : file ≠ []) {lt : LineTable}
    (hlines : Lines isNewline file lt.count lt.offsets) :
    timeOut file lt =
      some (file ++ if file.getLast? = some newline then [] else newlineLiteral) := by
  have hpos : 0 < lt.count := Nat.pos_of_ne_zero (mt hlines.count_eq_zero.mp hfile)
  obtain ⟨k, hk⟩ := Nat.exists_eq_succ_of_ne_zero hpos.ne'
  have hlast : lt.offsets (k + 1) = file.length := by
    rw [← hlines.last hpos, hk]
  -- all lines but the last end in a newline
  have hnul : ∀ j ∈ List.range k, strayNul file (lt.offsets (j + 1)) = [] := by
    intro j hj
    have hj := List.mem_range.mp hj
    obtain ⟨b, hb, hnewline⟩ := hlines.ended j (by omega)
    apply if_pos
    rw [hb, eq_of_beq hnewline]
  have hfront : ((List.range k).flatMap fun j =>
      lineOutput file (lt.offsets j) (lt.offsets (j + 1)) ++ strayNul file (lt.offsets (j + 1))) =
      (List.range k).flatMap fun j => lineOutput file (lt.offsets j) (lt.offsets (j + 1)) := by
    apply List.flatMap_congr
    intro j hj
    rw [hnul j hj, List.append_nil]
  have hall := outputs_all hlines hfile
  rw [hk, List.range_succ, List.flatMap_append, List.flatMap_singleton] at hall
  rw [timeOut, timeOutFrom_spec hlines lt.count (Nat.zero_add _), ← List.range_eq_range', hk,
    List.range_succ, List.flatMap_append, hfront, List.flatMap_singleton, ← List.append_assoc, hall,
    strayNul, hlast, ← List.getLast?_eq_getElem?]
  split_ifs
  · rw [List.append_nil]
  · rw [List.append_assoc]
    rfl

/-- However `read` cuts the file while the table is built, the file is printed with
nothing but a missing newline behind it exactly when no newline is missing. -/
theorem timeOut_iff {file : List CChar} (hfile : file ≠ []) {chunks : List (List CChar)}
    (hchunks : ∀ c ∈ chunks, c ≠ []) (hflatten : chunks.flatten = file) (junk : ℕ → ℕ) :
    ∃ lt, getTable junk (chunks.map some) = some (some lt) ∧
      (timeOut file lt = some (file ++ if file.getLast? = some newline then [] else [newline]) ↔
        file.getLast? = some newline) := by
  obtain ⟨lt, hget, hholds⟩ := getTable_spec junk hchunks
  rw [hflatten] at hholds
  refine ⟨lt, hget, ?_⟩
  rw [timeOut_spec hfile hholds.lines]
  split_ifs with hend
  · exact iff_of_true rfl hend
  · apply iff_of_false _ hend
    rw [Option.some_inj, List.append_cancel_left_eq]
    decide

theorem timeOut_iff_two :
    ([0x61, 0x0A, 0x62, 0x0A] : List CChar) ≠ [] ∧
    ∃ lt, getTable (fun _ => 7) [some [0x61], some [0x0A, 0x62, 0x0A]] = some (some lt) ∧
      (timeOut [0x61, 0x0A, 0x62, 0x0A] lt = some ([0x61, 0x0A, 0x62, 0x0A] ++
          if ([0x61, 0x0A, 0x62, 0x0A] : List CChar).getLast? = some newline then []
          else [newline]) ↔
        ([0x61, 0x0A, 0x62, 0x0A] : List CChar).getLast? = some newline) :=
  ⟨by decide, timeOut_iff (by decide)
    (show ∀ c ∈ [[0x61], [0x0A, 0x62, 0x0A]], c ≠ [] by decide) rfl fun _ => 7⟩

/-- A file of one letter is followed by two bytes. -/
theorem timeOut_nul :
    ((getTable (fun _ => 7) [some [0x61]]).bind fun lt => lt.bind (timeOut [0x61])) =
        some [0x61, newline, 0] ∧
      ([0x61, newline, 0] : List CChar) ≠
        [0x61] ++ if ([0x61] : List CChar).getLast? = some newline then [] else [newline] := by
  decide +kernel

end Lab6

end UnixLabs
