import UnixLabs.GetTable
import UnixLabs.Library.Run

/-!
`get_line` and `print_line` of lab7 and lab7-1.

lab7 keeps a window of the file mapped and moves it when a line is not in it. It
prints what lab7-1 prints, which has the whole file mapped. A read outside of what is
mapped leaves no result.
-/

namespace UnixLabs

open Library

def readBytes (mem : List CChar) (start count : ℕ) : Option (List CChar) :=
  if start + count ≤ mem.length then some ((mem.drop start).take count) else none

/-- The end of `print_line`: the line at a position of the memory, and a newline where
it has none. -/
def emitLine (mem : List CChar) (line lineLen : ℕ) : Option (List CChar) := do
  let bytes ← readBytes mem line lineLen
  let last ← checkedSub lineLen 1
  let b ← mem[line + last]?
  some (bytes ++ if b ≠ newline then [newline] else [])

namespace Lab71

def getLine (lt : LineTable) (index : ℕ) : ℕ := lt.offsets index

def printLine (lt : LineTable) (index : ℕ) : Option (List CChar) := do
  let lineLen ← checkedSub (lt.offsets (index + 1)) (lt.offsets index)
  emitLine lt.cache (getLine lt index) lineLen

def printLines (lt : LineTable) : List ℕ → Option (List CChar)
  | [] => some []
  | index :: requests => do
      let line ← printLine lt index
      let lines ← printLines lt requests
      some (line ++ lines)

end Lab71

namespace Lab7

structure Answers where
  unmapped : Bool
  mapped : Bool

/-- `mmap`, which refuses an offset inside a page and a length of 0. -/
def tryMmap (file : List CChar) (pageSize length offset : ℕ) (mapped : Bool) :
    Option (List CChar) :=
  if mapped ∧ offset % pageSize = 0 ∧ 0 < length then some (mmap file length offset) else none

/-- `cache_size` in `get_line`. -/
def windowSize (lt : LineTable) (lineLen : ℕ) : ℕ :=
  if lineLen > cacheSize then lineLen
  else if cacheSize > lt.fileSize then lt.fileSize
  else cacheSize

/-- `offset` in `get_line`: near the end the window ends with the file. -/
def windowOffset (lt : LineTable) (index windowSize : ℕ) : Option ℕ := do
  let rightByteCount ← checkedSub lt.fileSize (lt.offsets index)
  if rightByteCount < windowSize then checkedSub lt.fileSize windowSize
  else some (lt.offsets index)

def getLine (file : List CChar) (pageSize : ℕ) (answers : Answers) (lt : LineTable) (index : ℕ) :
    Option (Option ℕ × LineTable) := do
  let lineLen ← checkedSub (lt.offsets (index + 1)) (lt.offsets index)
  if lt.cache.isSome ∧ lt.cacheIdx ≤ lt.offsets index ∧
      lt.cacheIdx + lt.cacheLen ≥ lt.offsets (index + 1) then
    let line ← checkedSub (lt.offsets index) lt.cacheIdx
    some (some line, lt)
  else
    let hadCache := lt.cache.isSome
    let lt := if hadCache then { lt with cache := none, cacheLen := 0, cacheIdx := 0 } else lt
    if hadCache ∧ ¬answers.unmapped then some (none, lt)
    else
      let size := windowSize lt lineLen
      let offset ← windowOffset lt index size
      let alignedOffset := offset / pageSize * pageSize
      let before ← checkedSub offset alignedOffset
      let alignedSize := size + before
      match tryMmap file pageSize alignedSize alignedOffset answers.mapped with
      -- `MAP_FAILED` is not NULL, and nothing is there
      | none => some (none, { lt with cache := some [] })
      | some cache =>
          let lt := { lt with
            cache := some cache, cacheLen := alignedSize, cacheIdx := alignedOffset }
          let line ← checkedSub (lt.offsets index) lt.cacheIdx
          some (some line, lt)

/-- `print_line`: what is printed, or `none` where it answers `EXIT_FAILURE`. -/
def printLine (file : List CChar) (pageSize : ℕ) (answers : Answers) (lt : LineTable)
    (index : ℕ) : Option (Option (List CChar) × LineTable) := do
  let lineLen ← checkedSub (lt.offsets (index + 1)) (lt.offsets index)
  let (line, lt) ← getLine file pageSize answers lt index
  match line with
  | none => some (none, lt)
  | some line => do
      let cache ← lt.cache
      let bytes ← emitLine cache line lineLen
      some (some bytes, lt)

def printLines (file : List CChar) (pageSize : ℕ) : LineTable → List ℕ → Option (List CChar)
  | _, [] => some []
  | lt, index :: requests => do
      let (line, lt) ← printLine file pageSize ⟨true, true⟩ lt index
      let line ← line
      let lines ← printLines file pageSize lt requests
      some (line ++ lines)

/-! ### The window -/

/-- The table is that of the file, and what is mapped is a part of the file that starts
with a page. -/
structure Windowed (file : List CChar) (pageSize : ℕ) (t : UnixLabs.LineTable) (lt : LineTable) :
    Prop where
  table : lt.toLineTable = t
  size : lt.fileSize = file.length
  window : lt.cache = none ∨ lt.cache = some (mmap file lt.cacheLen lt.cacheIdx) ∧
    pageSize ∣ lt.cacheIdx ∧ lt.cacheIdx + lt.cacheLen ≤ file.length

structure LineAt (file : List CChar) (pageSize : ℕ) (lt : LineTable) (index line : ℕ) : Prop where
  mapped : lt.cache = some (mmap file lt.cacheLen lt.cacheIdx)
  aligned : pageSize ∣ lt.cacheIdx
  inside : lt.cacheIdx + lt.cacheLen ≤ file.length
  position : lt.cacheIdx + line = lt.offsets index
  fits : lt.offsets (index + 1) ≤ lt.cacheIdx + lt.cacheLen

/-- The size and the start of a new window: the line fits in, and the window in the
file. -/
theorem window_bounds {lt : LineTable} {i : ℕ} (hlt : lt.offsets i < lt.offsets (i + 1))
    (hstop : lt.offsets (i + 1) ≤ lt.fileSize) {size : ℕ}
    (hsize : windowSize lt (lt.offsets (i + 1) - lt.offsets i) = size) :
    ∃ offset, windowOffset lt i size = some offset ∧ 0 < size ∧ offset ≤ lt.offsets i ∧
      lt.offsets (i + 1) ≤ offset + size ∧ offset + size ≤ lt.fileSize := by
  have hwindow : lt.offsets (i + 1) - lt.offsets i ≤ size ∧ size ≤ lt.fileSize := by
    rw [← hsize]
    unfold windowSize
    split_ifs
    all_goals omega
  simp only [windowOffset, checkedSub_of_le (hlt.le.trans hstop), Option.bind_eq_bind,
    Option.bind_some]
  by_cases hend : lt.fileSize - lt.offsets i < size
  · refine ⟨lt.fileSize - size, ?_, by omega, by omega, by omega, by omega⟩
    rw [if_pos hend, checkedSub_of_le hwindow.2]
  · exact ⟨lt.offsets i, if_neg hend, by omega, le_rfl, by omega, by omega⟩

/-- A request is answered from the window, or the window is moved to the line. -/
theorem getLine_spec {file : List CChar} {pageSize : ℕ} {t : UnixLabs.LineTable} {lt : LineTable}
    (h : Windowed file pageSize t lt) (hlines : Lines isNewline file t.count t.offsets) {i : ℕ}
    (hi : i < t.count) :
    ∃ line lt', getLine file pageSize ⟨true, true⟩ lt i = some (some line, lt') ∧
      Windowed file pageSize t lt' ∧ LineAt file pageSize lt' i line := by
  obtain ⟨rfl, hsize, hwindow⟩ := h
  have hlt := hlines.increasing i hi
  have hstop := hlines.le_length hi
  unfold getLine
  simp only [checkedSub_of_le hlt.le, Option.bind_eq_bind, Option.bind_some]
  by_cases hhit : lt.cache.isSome = true ∧ lt.cacheIdx ≤ lt.offsets i ∧
      lt.cacheIdx + lt.cacheLen ≥ lt.offsets (i + 1)
  · rw [if_pos hhit, checkedSub_of_le hhit.2.1]
    obtain ⟨hmapped, haligned, hinside⟩ := hwindow.resolve_left fun hnone => by
      simp [hnone] at hhit
    exact ⟨_, lt, rfl, ⟨rfl, hsize, hwindow⟩, hmapped, haligned, hinside,
      Nat.add_sub_cancel' hhit.2.1, hhit.2.2⟩
  · rw [if_neg hhit]
    obtain ⟨lt₀, hlt₀⟩ : ∃ lt₀, (if lt.cache.isSome = true then
      { lt with cache := none, cacheLen := 0, cacheIdx := 0 } else lt) = lt₀ := ⟨_, rfl⟩
    have hsame : lt₀.toLineTable = lt.toLineTable ∧ lt₀.fileSize = file.length := by
      rw [← hlt₀]
      split_ifs
      · exact ⟨rfl, hsize⟩
      · exact ⟨rfl, hsize⟩
    obtain ⟨htable, hsize₀⟩ := hsame
    simp only [hlt₀, not_true_eq_false, and_false, if_false]
    rw [← htable] at hlt hstop ⊢
    obtain ⟨size, hwindowSize⟩ : ∃ size,
      windowSize lt₀ (lt₀.offsets (i + 1) - lt₀.offsets i) = size := ⟨_, rfl⟩
    obtain ⟨offset, hoffset, hpos, hstart, hend, hinside⟩ :=
      window_bounds hlt (hsize₀ ▸ hstop) hwindowSize
    rw [hsize₀] at hinside
    -- the start goes down to a page, and the size up by as much
    have haligned : offset / pageSize * pageSize ≤ offset := Nat.div_mul_le_self offset pageSize
    have hmapped : tryMmap file pageSize (size + (offset - offset / pageSize * pageSize))
        (offset / pageSize * pageSize) true =
        some (mmap file (size + (offset - offset / pageSize * pageSize))
          (offset / pageSize * pageSize)) :=
      if_pos ⟨rfl, Nat.mul_mod_left _ _, by omega⟩
    simp only [hwindowSize, hoffset, hmapped, checkedSub_of_le haligned,
      checkedSub_of_le (haligned.trans hstart), Option.bind_some]
    exact ⟨_, _, rfl, ⟨rfl, hsize₀, .inr ⟨rfl, Nat.dvd_mul_left _ _, by simp only; omega⟩⟩, rfl,
      Nat.dvd_mul_left _ _, by simp only; omega, by simp only; omega, by simp only; omega⟩

end Lab7

/-! ### Printing -/

def lineOutput (file : List CChar) (start stop : ℕ) : List CChar :=
  (file.drop start).take (stop - start) ++ if file[stop - 1]? = some newline then [] else [newline]

theorem emitLine_mmap {file : List CChar} {length offset line start stop : ℕ}
    (hinside : offset + length ≤ file.length) (hposition : offset + line = start)
    (hfits : stop ≤ offset + length) (hlt : start < stop) :
    emitLine (mmap file length offset) line (stop - start) = some (lineOutput file start stop) := by
  have hmem : (mmap file length offset).length = length := by
    rw [mmap, List.length_take, List.length_drop]
    omega
  have hbytes : readBytes (mmap file length offset) line (stop - start) =
      some ((file.drop start).take (stop - start)) := by
    rw [readBytes, if_pos (by omega), mmap, List.drop_take, List.drop_drop, List.take_take,
      hposition, Nat.min_eq_left (by omega)]
  have hlast : (mmap file length offset)[line + (stop - start - 1)]? = file[stop - 1]? := by
    rw [mmap, List.getElem?_take_of_lt (by omega), List.getElem?_drop]
    congr 1
    omega
  have hb : file[stop - 1]? = some (file.get ⟨stop - 1, by omega⟩) := by
    rw [List.get_eq_getElem, List.getElem?_eq_getElem]
  simp only [emitLine, hbytes, checkedSub_of_le (show 1 ≤ stop - start by omega), hlast, hb,
    lineOutput, Option.bind_eq_bind, Option.bind_some, Option.some_inj, ne_eq, ite_not]

theorem Lab71.printLine_spec {file : List CChar} {lt : LineTable} (hcache : lt.cache = file)
    (hlines : Lines isNewline file lt.count lt.offsets) {i : ℕ} (hi : i < lt.count) :
    printLine lt i = some (lineOutput file (lt.offsets i) (lt.offsets (i + 1))) := by
  have hlt := hlines.increasing i hi
  have hwhole : lt.cache = mmap file file.length 0 := by simp [mmap, hcache]
  simp only [printLine, checkedSub_of_le hlt.le, Option.bind_eq_bind, Option.bind_some,
    getLine, hwhole]
  exact emitLine_mmap (by omega) (Nat.zero_add _) (by have := hlines.le_length hi; omega) hlt

theorem Lab71.printLines_spec {file : List CChar} {lt : LineTable} (hcache : lt.cache = file)
    (hlines : Lines isNewline file lt.count lt.offsets) {requests : List ℕ}
    (hvalid : ∀ i ∈ requests, i < lt.count) :
    printLines lt requests = some (requests.flatMap fun i =>
      lineOutput file (lt.offsets i) (lt.offsets (i + 1))) := by
  induction requests with
  | nil => rfl
  | cons i requests ih =>
      rw [List.forall_mem_cons] at hvalid
      simp only [printLines, printLine_spec hcache hlines hvalid.1, ih hvalid.2,
        Option.bind_eq_bind, Option.bind_some, List.flatMap_cons]

namespace Lab7

theorem printLine_spec {file : List CChar} {pageSize : ℕ} {t : UnixLabs.LineTable}
    {lt : LineTable} (h : Windowed file pageSize t lt)
    (hlines : Lines isNewline file t.count t.offsets) {i : ℕ} (hi : i < t.count) :
    ∃ lt', printLine file pageSize ⟨true, true⟩ lt i =
        some (some (lineOutput file (t.offsets i) (t.offsets (i + 1))), lt') ∧
      Windowed file pageSize t lt' := by
  obtain ⟨line, lt', hget, hwindowed, hline⟩ := getLine_spec h hlines hi
  have hlt := hlines.increasing i hi
  have hposition := hline.position
  have hfits := hline.fits
  rw [hwindowed.table] at hposition hfits
  have hemit := emitLine_mmap hline.inside hposition hfits hlt
  refine ⟨lt', ?_, hwindowed⟩
  simp only [printLine, h.table, checkedSub_of_le hlt.le, hget, hline.mapped, hemit,
    Option.bind_eq_bind, Option.bind_some]

theorem printLines_spec {file : List CChar} {pageSize : ℕ} {t : UnixLabs.LineTable}
    {lt : LineTable} (h : Windowed file pageSize t lt)
    (hlines : Lines isNewline file t.count t.offsets) {requests : List ℕ}
    (hvalid : ∀ i ∈ requests, i < t.count) :
    printLines file pageSize lt requests = some (requests.flatMap fun i =>
      lineOutput file (t.offsets i) (t.offsets (i + 1))) := by
  induction requests generalizing lt with
  | nil => rfl
  | cons i requests ih =>
      rw [List.forall_mem_cons] at hvalid
      obtain ⟨lt', hprint, hwindowed⟩ := printLine_spec h hlines hvalid.1
      simp only [printLines, hprint, ih hwindowed hvalid.2, Option.bind_eq_bind, Option.bind_some,
        List.flatMap_cons]

end Lab7

theorem outputs_take {file : List CChar} {n : ℕ} {start : ℕ → ℕ}
    (h : Lines isNewline file n start) {k : ℕ} (hk : k < n) :
    ((List.range k).flatMap fun i => lineOutput file (start i) (start (i + 1))) =
      file.take (start k) := by
  induction k with
  | zero => rw [h.first (by omega)]; rfl
  | succ k ih =>
      obtain ⟨b, hb, hnewline⟩ := h.ended k hk
      have hlast : file[start (k + 1) - 1]? = some newline := by
        rw [hb, eq_of_beq hnewline]
      have hlt := h.increasing k (by omega)
      rw [List.range_succ, List.flatMap_append, ih (by omega), List.flatMap_singleton, lineOutput,
        if_pos hlast, List.append_nil, ← List.take_add, Nat.add_sub_cancel' hlt.le]

/-- Printing all lines prints the file, and a newline if there is none at its end. -/
theorem outputs_all {file : List CChar} {n : ℕ} {start : ℕ → ℕ}
    (h : Lines isNewline file n start) (hfile : file ≠ []) :
    ((List.range n).flatMap fun i => lineOutput file (start i) (start (i + 1))) =
      file ++ if file.getLast? = some newline then [] else [newline] := by
  have hpos : 0 < n := Nat.pos_of_ne_zero (mt h.count_eq_zero.mp hfile)
  obtain ⟨k, rfl⟩ := Nat.exists_eq_succ_of_ne_zero hpos.ne'
  have hlt := h.increasing k k.lt_succ_self
  have hlast := h.last hpos
  rw [List.range_succ, List.flatMap_append, outputs_take h k.lt_succ_self, List.flatMap_singleton,
    lineOutput, ← List.append_assoc, ← List.take_add, Nat.add_sub_cancel' hlt.le, hlast,
    List.take_length, List.getLast?_eq_getElem?]

/-! ### Any requests -/

namespace Lab7

def request (file : List CChar) (pageSize : ℕ) (lt : LineTable) (index : ℕ) : Option LineTable :=
  match getLine file pageSize ⟨true, true⟩ lt index with
  | some (some _, lt) => some lt
  | _ => none

theorem request_spec {file : List CChar} {pageSize : ℕ} {t : UnixLabs.LineTable}
    (hlines : Lines isNewline file t.count t.offsets) {lt : LineTable}
    (h : Windowed file pageSize t lt) {requests : List ℕ} (hvalid : ∀ i ∈ requests, i < t.count) :
    ∃ lt', run (request file pageSize) lt requests = some lt' ∧ Windowed file pageSize t lt' := by
  induction requests generalizing lt with
  | nil => exact ⟨lt, rfl, h⟩
  | cons i requests ih =>
      rw [List.forall_mem_cons] at hvalid
      obtain ⟨line, lt₁, hget, hwindowed, -⟩ := getLine_spec h hlines hvalid.1
      obtain ⟨lt', hrun, hwindowed'⟩ := ih hwindowed hvalid.2
      refine ⟨lt', ?_, hwindowed'⟩
      simp only [run_cons, request, hget, Option.bind_some]
      exact hrun

end Lab7

/-- After any valid requests the next one is answered with a position in a window that
starts with a page and ends inside the file; what is printed is what lab7-1 prints,
and all lines together are the file, and a newline if there is none at its end. -/
theorem window_cache {file : List CChar} (hfile : file ≠ []) {pageSize : ℕ}
    (hpage : pageSize ∣ Lab7.cacheSize) (junk₇ junk₇₁ : ℕ → ℕ) (lenJunk idxJunk : ℕ) :
    ∃ t t₁, Lab7.getTable junk₇ lenJunk idxJunk file (fun glOff => glOff % pageSize = 0) =
        some (some t) ∧
      Lab71.getTable junk₇₁ file true = some (some t₁) ∧
      (∀ requests, (∀ i ∈ requests, i < t.count) →
        (∃ lt, run (Lab7.request file pageSize) t requests = some lt ∧ ∀ i < t.count,
          ∃ line lt', Lab7.getLine file pageSize ⟨true, true⟩ lt i = some (some line, lt') ∧
            lt'.toLineTable = t.toLineTable ∧ Lab7.LineAt file pageSize lt' i line) ∧
        ∃ out, Lab7.printLines file pageSize t requests = some out ∧
          Lab71.printLines t₁ requests = some out) ∧
      Lab7.printLines file pageSize t (List.range t.count) =
        some (file ++ if file.getLast? = some newline then [] else [newline]) := by
  have hmapped : ∀ k, decide (k * Lab7.cacheSize % pageSize = 0) = true := fun k =>
    decide_eq_true (Nat.mod_eq_zero_of_dvd (hpage.mul_left k))
  obtain ⟨t, hget, hholds, hsize, hcache⟩ := Lab7.getTable_spec junk₇ lenJunk idxJunk file
    (fun glOff => glOff % pageSize = 0) hmapped
  obtain ⟨t₁, hget₁, hholds₁, -, hcache₁⟩ := Lab71.getTable_spec junk₇₁ hfile
  have hlines := hholds.lines
  have hsame := hholds.same hholds₁
  have hwindowed : Lab7.Windowed file pageSize t.toLineTable t := ⟨rfl, hsize, .inl hcache⟩
  refine ⟨t, t₁, hget, hget₁, fun requests hvalid => ⟨?_, ?_⟩, ?_⟩
  · obtain ⟨lt, hrun, hlt⟩ := Lab7.request_spec hlines hwindowed hvalid
    refine ⟨lt, hrun, fun i hi => ?_⟩
    obtain ⟨line, lt', hline, hlt', hat⟩ := Lab7.getLine_spec hlt hlines hi
    exact ⟨line, lt', hline, hlt'.table, hat⟩
  · refine ⟨_, Lab7.printLines_spec hwindowed hlines hvalid, ?_⟩
    rw [Lab71.printLines_spec hcache₁ hholds₁.lines (hsame.count ▸ hvalid)]
    refine congrArg some (List.flatMap_congr fun i hi => ?_)
    have hlt := hvalid i hi
    rw [hsame.offsets (by omega) i hlt.le, hsame.offsets (by omega) (i + 1) hlt]
  · rw [Lab7.printLines_spec hwindowed hlines fun i hi => List.mem_range.mp hi]
    exact congrArg some (outputs_all hlines hfile)

theorem window_cache_two :
    ([0x61, 0x0A, 0x62] : List CChar) ≠ [] ∧ 4096 ∣ Lab7.cacheSize ∧
    ∃ t t₁, Lab7.getTable (fun _ => 7) 0 0 [0x61, 0x0A, 0x62] (fun glOff => glOff % 4096 = 0) =
        some (some t) ∧
      Lab71.getTable (fun _ => 7) [0x61, 0x0A, 0x62] true = some (some t₁) ∧
      (∀ requests, (∀ i ∈ requests, i < t.count) →
        (∃ lt, run (Lab7.request [0x61, 0x0A, 0x62] 4096) t requests = some lt ∧ ∀ i < t.count,
          ∃ line lt', Lab7.getLine [0x61, 0x0A, 0x62] 4096 ⟨true, true⟩ lt i =
              some (some line, lt') ∧
            lt'.toLineTable = t.toLineTable ∧
            Lab7.LineAt [0x61, 0x0A, 0x62] 4096 lt' i line) ∧
        ∃ out, Lab7.printLines [0x61, 0x0A, 0x62] 4096 t requests = some out ∧
          Lab71.printLines t₁ requests = some out) ∧
      Lab7.printLines [0x61, 0x0A, 0x62] 4096 t (List.range t.count) =
        some ([0x61, 0x0A, 0x62] ++
          if ([0x61, 0x0A, 0x62] : List CChar).getLast? = some newline then [] else [newline]) :=
  ⟨by decide, by decide,
    window_cache (by decide) (by decide) (fun _ => 7) (fun _ => 7) 0 0⟩

end UnixLabs
