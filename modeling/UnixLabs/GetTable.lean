import UnixLabs.Lab5

/-!
`get_table` of lab6, lab7 and lab7-1, and that all of them build the same table.

The three programs see the file in different pieces: in what `read` delivers, in
windows of 1 MiB, and as a whole. lab5 has a table of its own, with the same starts.
What the system calls answer is an argument.
-/

namespace UnixLabs

open Library

/-! ### lab6 -/

namespace Lab6

/-- The loop over what `read` answers: a failure, or some bytes. When there is nothing
more it answers 0. -/
def readFrom (t : LineTable) (lineSize offset : ℕ) :
    List (Option (List CChar)) → Option (Option LineTable)
  | none :: _ => some none
  | some (b :: buf) :: reads => do
      let (t, lineSize, offset) ← t.scanPiece lineSize offset (b :: buf)
      readFrom t lineSize offset reads
  | some [] :: _ | [] => (t.addRest lineSize offset).map some

def getTable (junk : ℕ → ℕ) (reads : List (Option (List CChar))) : Option (Option LineTable) :=
  readFrom (LineTable.initTable junk) 0 0 reads

end Lab6

/-! ### lab7 -/

/-- What `mmap` puts behind the pointer: `length` bytes of the file from `offset` on,
as far as there are. -/
def mmap (file : List CChar) (length offset : ℕ) : List CChar := (file.drop offset).take length

namespace Lab7

def cacheSize : ℕ := 1024 * 1024

/-- The table with the window of the file that is mapped; NULL is `none`. -/
structure LineTable extends UnixLabs.LineTable where
  fileSize : ℕ
  cache : Option (List CChar)
  cacheLen : ℕ
  cacheIdx : ℕ

/-- The loop over the windows from `gl_off` on. `mapped` tells whether `mmap`
succeeds there. -/
def windowsFrom (file : List CChar) (mapped : ℕ → Bool) (t : UnixLabs.LineTable)
    (lineSize offset glOff : ℕ) : Option (Option UnixLabs.LineTable) :=
  if glOff < file.length then
    let count := if file.length - glOff ≥ cacheSize then cacheSize else file.length - glOff
    if mapped glOff then do
      let (t, lineSize, offset) ← t.scanPiece lineSize offset (mmap file count glOff)
      windowsFrom file mapped t lineSize offset (glOff + count)
    else some none
  else (t.addRest lineSize offset).map some
  termination_by file.length - glOff
  decreasing_by
    unfold cacheSize
    split_ifs
    all_goals omega

/-- `get_table`. `init_table` sets neither `cache_len` nor `cache_idx`. -/
def getTable (junk : ℕ → ℕ) (lenJunk idxJunk : ℕ) (file : List CChar) (mapped : ℕ → Bool) :
    Option (Option LineTable) :=
  (windowsFrom file mapped (UnixLabs.LineTable.initTable junk) 0 0 0).map fun t =>
    t.map fun t => { t with
      fileSize := file.length
      cache := none
      cacheLen := lenJunk
      cacheIdx := idxJunk }

end Lab7

/-! ### lab7-1 -/

namespace Lab71

structure LineTable extends UnixLabs.LineTable where
  fileSize : ℕ
  cache : List CChar

/-- The loop over the newlines, and what follows it: the table, `line_size` and
`offset`. -/
def scanMapping (t : UnixLabs.LineTable) (offset : ℕ) (oldC : List CChar) :
    Option (UnixLabs.LineTable × ℕ × ℕ) :=
  match h : memchr oldC newline with
  | none => some (t, oldC.length, offset)
  | some i => do
      let lineSize := i + 1
      let t ← t.ltAdd lineSize offset
      scanMapping t (offset + lineSize) (oldC.drop (i + 1))
  termination_by oldC.length
  decreasing_by
    have := LineTable.memchr_lt h
    rw [List.length_drop]
    omega

def getTable (junk : ℕ → ℕ) (file : List CChar) (mapped : Bool) : Option (Option LineTable) :=
  if !mapped || file.length = 0 then some none
  else do
    let cache := mmap file file.length 0
    let (t, lineSize, offset) ← scanMapping (UnixLabs.LineTable.initTable junk) 0 cache
    let t ← t.addRest lineSize offset
    some (some { t with fileSize := file.length, cache })

end Lab71

/-! ### What is built -/

open LineTable (Scanned Holds)

theorem Lab6.readFrom_spec {t : LineTable} {lineSize offset : ℕ} {seen : List CChar}
    (h : Scanned t lineSize offset seen) {chunks : List (List CChar)}
    (hchunks : ∀ c ∈ chunks, c ≠ []) :
    ∃ t', readFrom t lineSize offset (chunks.map some) = some (some t') ∧
      t'.Holds (lineEnds isNewline (seen ++ chunks.flatten)) := by
  induction chunks generalizing t lineSize offset seen with
  | nil =>
      obtain ⟨t', hadd, hholds⟩ := h.addRest
      refine ⟨t', ?_, by simpa using hholds⟩
      simp only [List.map_nil, readFrom, hadd, Option.map_some]
  | cons c chunks ih =>
      obtain ⟨b, buf, rfl⟩ := List.exists_cons_of_ne_nil (hchunks c List.mem_cons_self)
      obtain ⟨t', lineSize', offset', hscan, hscanned⟩ := h.scanPiece (b :: buf)
      obtain ⟨t'', hread, hholds⟩ := ih hscanned fun c hc => hchunks c (List.mem_cons_of_mem _ hc)
      refine ⟨t'', ?_, ?_⟩
      · simp only [List.map_cons, readFrom, hscan, Option.bind_eq_bind, Option.bind_some, hread]
      · rwa [List.flatten_cons, ← List.append_assoc]

theorem Lab6.getTable_spec (junk : ℕ → ℕ) {chunks : List (List CChar)}
    (hchunks : ∀ c ∈ chunks, c ≠ []) :
    ∃ t, getTable junk (chunks.map some) = some (some t) ∧
      t.Holds (lineEnds isNewline chunks.flatten) :=
  readFrom_spec (Scanned.initTable junk) hchunks

theorem Lab7.cacheSize_pos : 0 < cacheSize := Nat.succ_pos _

theorem Lab7.window_count {size start length count : ℕ} (hsize : 0 < size) (hmore : start < length)
    (hcount : (if length - start ≥ size then size else length - start) = count) :
    0 < count ∧ start + count ≤ length ∧ (count = size ∨ start + count = length) := by
  rw [← hcount]
  split_ifs
  all_goals omega

/-- The windows are the file, one after the other. All but the first start where the
one before them ends, at a multiple of `CACHE_SIZE`. -/
theorem Lab7.windowsFrom_spec (file : List CChar) {mapped : ℕ → Bool}
    (hmapped : ∀ k, mapped (k * cacheSize) = true) {t : UnixLabs.LineTable}
    {lineSize offset glOff : ℕ} (h : Scanned t lineSize offset (file.take glOff))
    (hle : glOff ≤ file.length) (halign : glOff < file.length → ∃ k, glOff = k * cacheSize) :
    ∃ t', windowsFrom file mapped t lineSize offset glOff = some (some t') ∧
      t'.Holds (lineEnds isNewline file) := by
  induction hn : file.length - glOff using Nat.strong_induction_on
    generalizing t lineSize offset glOff with
  | _ n ih =>
      rw [windowsFrom]
      by_cases hmore : glOff < file.length
      · obtain ⟨k, hk⟩ := halign hmore
        have hmap : mapped glOff = true := hk ▸ hmapped k
        obtain ⟨count, hcount⟩ : ∃ count, (if file.length - glOff ≥ cacheSize then cacheSize
            else file.length - glOff) = count := ⟨_, rfl⟩
        obtain ⟨hpos, hinside, hfull⟩ := window_count cacheSize_pos hmore hcount
        obtain ⟨t', lineSize', offset', hscan, hscanned⟩ := h.scanPiece (mmap file count glOff)
        rw [mmap, ← List.take_add] at hscanned
        have halign' : glOff + count < file.length → ∃ k, glOff + count = k * cacheSize :=
          fun hlt => ⟨k + 1, by rw [Nat.succ_mul, ← hk]; omega⟩
        obtain ⟨t'', hrest, hholds⟩ := ih (file.length - (glOff + count)) (by omega) hscanned
          hinside halign' rfl
        refine ⟨t'', ?_, hholds⟩
        simp only [if_pos hmore, hcount, hmap, if_true, hscan, Option.bind_eq_bind,
          Option.bind_some, hrest]
      · obtain ⟨t', hadd, hholds⟩ := h.addRest
        rw [if_neg hmore, hadd]
        rw [List.take_of_length_le (by omega)] at hholds
        exact ⟨t', rfl, hholds⟩

theorem Lab7.getTable_spec (junk : ℕ → ℕ) (lenJunk idxJunk : ℕ) (file : List CChar)
    (mapped : ℕ → Bool) (hmapped : ∀ k, mapped (k * cacheSize) = true) :
    ∃ t, getTable junk lenJunk idxJunk file mapped = some (some t) ∧
      t.Holds (lineEnds isNewline file) ∧ t.fileSize = file.length ∧ t.cache = none := by
  have hstart : Scanned (UnixLabs.LineTable.initTable junk) 0 0 (file.take 0) :=
    Scanned.initTable junk
  obtain ⟨t, hwindows, hholds⟩ :=
    windowsFrom_spec file hmapped hstart (Nat.zero_le _) fun _ => ⟨0, (Nat.zero_mul _).symm⟩
  rw [getTable, hwindows]
  exact ⟨_, rfl, hholds, rfl, rfl⟩

theorem Lab71.scanMapping_eq (t : UnixLabs.LineTable) (offset : ℕ) (oldC : List CChar) :
    scanMapping t offset oldC = t.scanPiece 0 offset oldC := by
  fun_induction scanMapping t offset oldC with
  | case1 t offset oldC h => rw [LineTable.scanPiece_none h, Nat.zero_add]
  | case2 t offset oldC i h lineSize ih =>
      rw [LineTable.scanPiece_some h, Nat.zero_add]
      exact congrArg (t.ltAdd lineSize offset).bind (funext ih)

theorem Lab71.getTable_spec (junk : ℕ → ℕ) {file : List CChar} (hfile : file ≠ []) :
    ∃ t, getTable junk file true = some (some t) ∧ t.Holds (lineEnds isNewline file) ∧
      t.fileSize = file.length ∧ t.cache = file := by
  have hlength : file.length ≠ 0 := mt List.length_eq_zero_iff.mp hfile
  have hcache : mmap file file.length 0 = file := by simp [mmap]
  obtain ⟨t, lineSize, offset, hscan, hscanned⟩ := (Scanned.initTable junk).scanPiece file
  obtain ⟨t', hadd, hholds⟩ := hscanned.addRest
  refine ⟨{ t' with fileSize := file.length, cache := file }, ?_, hholds, rfl, rfl⟩
  simp only [getTable, hlength, hcache, scanMapping_eq, hscan, hadd, Bool.not_true,
    decide_false, Bool.or_false, Bool.false_eq_true, if_false, Option.bind_eq_bind,
    Option.bind_some]

/-! ### They agree -/

/-- The same count and the same entries. Without lines no entry is written. -/
structure SameLines (t t' : LineTable) : Prop where
  count : t'.count = t.count
  offsets : 0 < t.count → ∀ i ≤ t.count, t'.offsets i = t.offsets i

theorem LineTable.Holds.same {t t' : LineTable} {ends : List ℕ} (h : t.Holds ends)
    (h' : t'.Holds ends) : SameLines t t' := by
  refine ⟨h'.count.trans h.count.symm, fun hpos i hi => ?_⟩
  have hne : ends ≠ [] := by
    rintro rfl
    rw [h.count] at hpos
    exact absurd hpos (by simp)
  have hcells : firstCells t'.offsets (t.count + 1) = firstCells t.offsets (t.count + 1) := by
    rw [h.entries hne, h.count, ← h'.count, h'.entries hne]
  have hcell := congrArg (fun l : List ℕ => l[i]?) hcells
  simpa [firstCells, Nat.lt_succ_of_le hi] using hcell

/-- The starts of lab5 are the same, and its lengths leave the newlines out. -/
theorem Lab5.LineTable.Holds.same {t : UnixLabs.LineTable} {t' : Lab5.LineTable}
    {file : List CChar} {ends : List ℕ} (h : t.Holds ends) (h' : t'.Holds file ends) :
    t'.count = t.count ∧ ∀ i < t.count, t'.offsets i = t.offsets i ∧
      t'.lengths i = bareLength isNewline file (t.offsets i) (t.offsets (i + 1)) := by
  have hcount : t'.count = t.count := h'.count.trans h.count.symm
  refine ⟨hcount, fun i hi => ?_⟩
  have hne : ends ≠ [] := by
    rintro rfl
    rw [h.count] at hi
    exact absurd hi (by simp)
  have hends : i < ends.length := h.count ▸ hi
  have hentry : ∀ j (hj : j < (0 :: ends).length), t.offsets j = (0 :: ends)[j] := by
    intro j hj
    simp only [← h.entries hne, getElem_firstCells]
  have hstart := hentry i (by rw [List.length_cons]; omega)
  have hend := hentry (i + 1) (by rw [List.length_cons]; omega)
  rw [List.getElem_cons_succ] at hend
  have hoffset := congrArg (fun l : List ℕ => l[i]?) h'.offsets
  have hlength := congrArg (fun l : List ℕ => l[i]?) h'.lengths
  simp only [firstCells, hcount, List.getElem?_map, List.getElem?_range hi, Option.map_some]
    at hoffset hlength
  constructor
  · rw [List.getElem?_dropLast, if_pos (by rw [List.length_cons]; omega),
      List.getElem?_eq_getElem (by rw [List.length_cons]; omega), Option.some_inj] at hoffset
    rw [hoffset, hstart]
  · have hspan : (spansFrom 0 ends)[i]? = some (t.offsets i, t.offsets (i + 1)) := by
      rw [hstart, hend]
      exact List.getElem?_zip_eq_some.mpr
        ⟨List.getElem?_eq_getElem (by rw [List.length_cons]; omega),
          List.getElem?_eq_getElem hends⟩
    rwa [hspan, Option.map_some, Option.some_inj] at hlength

/-- However `read` cuts the file, the four programs build their tables without leaving
what is allocated, and the tables have the lines of the file. -/
theorem tables_agree (file : List CChar) {chunks₅ chunks₆ : List (List CChar)}
    (hne₅ : ∀ c ∈ chunks₅, c ≠ []) (hfile₅ : chunks₅.flatten = file)
    (hne₆ : ∀ c ∈ chunks₆, c ≠ []) (hfile₆ : chunks₆.flatten = file)
    (lengthJunk junk₅ junk₆ junk₇ junk₇₁ : ℕ → ℕ) (lenJunk idxJunk : ℕ) :
    ∃ t, Lab6.getTable junk₆ (chunks₆.map some) = some (some t) ∧
      Lines isNewline file t.count t.offsets ∧
      (∃ t₇, Lab7.getTable junk₇ lenJunk idxJunk file (fun _ => true) = some (some t₇) ∧
        SameLines t t₇.toLineTable) ∧
      (file ≠ [] → ∃ t₇₁, Lab71.getTable junk₇₁ file true = some (some t₇₁) ∧
        SameLines t t₇₁.toLineTable) ∧
      ∃ t₅, Lab5.getTable lengthJunk junk₅ (chunks₅.map some) = some (some t₅) ∧
        t₅.count = t.count ∧ ∀ i < t.count, t₅.offsets i = t.offsets i ∧
          t₅.lengths i = bareLength isNewline file (t.offsets i) (t.offsets (i + 1)) := by
  obtain ⟨t, hget, hholds⟩ := Lab6.getTable_spec junk₆ hne₆
  rw [hfile₆] at hholds
  refine ⟨t, hget, hholds.lines, ?_, fun hfile => ?_, ?_⟩
  · obtain ⟨t₇, hget₇, hholds₇, -, -⟩ :=
      Lab7.getTable_spec junk₇ lenJunk idxJunk file (fun _ => true) fun _ => rfl
    exact ⟨t₇, hget₇, hholds.same hholds₇⟩
  · obtain ⟨t₇₁, hget₇₁, hholds₇₁, -, -⟩ := Lab71.getTable_spec junk₇₁ hfile
    exact ⟨t₇₁, hget₇₁, hholds.same hholds₇₁⟩
  · obtain ⟨t₅, hget₅, hholds₅⟩ := Lab5.getTable_spec lengthJunk junk₅ hne₅ hfile₅
    exact ⟨t₅, hget₅, Lab5.LineTable.Holds.same hholds hholds₅⟩

theorem tables_agree_two :
    ∃ t, Lab6.getTable (fun _ => 7) [some [0x61], some [0x0A, 0x62]] = some (some t) ∧
      Lines isNewline [0x61, 0x0A, 0x62] t.count t.offsets ∧
      (∃ t₇, Lab7.getTable (fun _ => 7) 0 0 [0x61, 0x0A, 0x62] (fun _ => true) = some (some t₇) ∧
        SameLines t t₇.toLineTable) ∧
      (([0x61, 0x0A, 0x62] : List CChar) ≠ [] →
        ∃ t₇₁, Lab71.getTable (fun _ => 7) [0x61, 0x0A, 0x62] true = some (some t₇₁) ∧
          SameLines t t₇₁.toLineTable) ∧
      ∃ t₅, Lab5.getTable (fun _ => 7) (fun _ => 7) [some [0x61, 0x0A, 0x62]] = some (some t₅) ∧
        t₅.count = t.count ∧ ∀ i < t.count, t₅.offsets i = t.offsets i ∧
          t₅.lengths i =
            bareLength isNewline [0x61, 0x0A, 0x62] (t.offsets i) (t.offsets (i + 1)) :=
  tables_agree [0x61, 0x0A, 0x62] (show ∀ c ∈ [[0x61, 0x0A, 0x62]], c ≠ [] by decide) rfl
    (show ∀ c ∈ [[0x61], [0x0A, 0x62]], c ≠ [] by decide) rfl (fun _ => 7) (fun _ => 7)
    (fun _ => 7) (fun _ => 7) (fun _ => 7) 0 0

end UnixLabs
