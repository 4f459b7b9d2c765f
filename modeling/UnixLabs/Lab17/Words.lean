import UnixLabs.Platform
import UnixLabs.Library.TextLine

/-!
`words` of lab17: the buffer of the line that is edited.

The line is kept in cells of type `size_t`. A word is taken off the end with a backward
scan, which leaves its cells in place for a forward scan to measure and copy it.
-/

namespace UnixLabs.Lab17

open Library

def maxColumns : ℕ := 40

/-! ### Characters -/

def isspace (c : ℤ) : Bool := c == 0x20 || decide (0x09 ≤ c ∧ c ≤ 0x0D)

/-- `isgraph` in the C locale, which knows no negative character. -/
def isgraph (c : ℤ) : Bool := decide (0x21 ≤ c ∧ c ≤ 0x7E)

def isPrintable (c : CChar) : Bool := isgraph c.toInt || isspace c.toInt

def toSizeT (c : CChar) : BitVec 64 := c.signExtend 64

def toChar (v : BitVec 64) : CChar := v.setWidth 8

def isspaceSizeT (v : BitVec 64) : Bool := isspace (v.setWidth 32).toInt

theorem toChar_toSizeT : ∀ c : CChar, toChar (toSizeT c) = c := by
  decide +kernel

theorem isspaceSizeT_toSizeT : ∀ c : CChar, isspaceSizeT (toSizeT c) = isspace c.toInt := by
  decide +kernel

/-! ### The buffer of the line -/

structure Words where
  line : CArray maxColumns (BitVec 64)
  count : ℕ

namespace Words

def wpEmpty (this : Words) : Bool := this.count == 0

def wpFull (this : Words) : Bool := this.count == maxColumns

def wpClear : Words := ⟨CArray.fill maxColumns 0, 0⟩

def store (this : Words) (c : CChar) : Option Words := do
  let line ← this.line.store this.count (toSizeT c)
  some ⟨line, this.count + 1⟩

def wpAdd (this : Words) (c : CChar) : Option Words :=
  if this.wpFull then some this else this.store c

def wpAddAr (this : Words) (s : List CChar) : Option Words :=
  if s.length + this.count > maxColumns then some this else s.foldlM store this

def wpDel (this : Words) : Words :=
  if this.wpEmpty then this else { this with count := this.count - 1 }

/-- The loop of `wp_pop_word`, which counts down. -/
def popWordLoop (line : CArray maxColumns (BitVec 64)) (foundWord : Bool) : ℕ → Option ℕ
  | 0 => some 0
  | count + 1 => do
      let c ← line.load count
      if isspaceSizeT c then
        if foundWord then some (count + 1) else popWordLoop line foundWord count
      else popWordLoop line true count

def wpPopWord (this : Words) : Option (ℕ × Words) :=
  if this.wpEmpty then some (0, this)
  else do
    let count ← popWordLoop this.line false this.count
    some (count, { this with count })

def wordLen (line : CArray maxColumns (BitVec 64)) : ℕ → ℕ → Option ℕ
  | _, 0 => some 0
  | pos, columns + 1 => do
      let c ← line.load pos
      if isspaceSizeT c then some 0
      else do
        let len ← wordLen line (pos + 1) columns
        some (len + 1)

def copyWord (line : CArray maxColumns (BitVec 64)) : ℕ → ℕ → Option (List CChar)
  | _, 0 => some []
  | pos, len + 1 => do
      let c ← line.load pos
      let word ← copyWord line (pos + 1) len
      some (toChar c :: word)

def wpGetWord (this : Words) : Option (List CChar × Words) := do
  let (wordPos, this) ← this.wpPopWord
  let len ← wordLen this.line wordPos (maxColumns - wordPos)
  let word ← copyWord this.line wordPos len
  some (word, this)

end Words

/-! ### What the buffer holds -/

def isBlank (c : CChar) : Bool := isspace c.toInt

namespace Words

/-- The cells that are counted hold a text. -/
structure Holds (w : Words) (text : List CChar) : Prop where
  count : w.count = text.length
  stored : ∀ i c, text[i]? = some c → w.line.cells i = toSizeT c

def shown (w : Words) : List (BitVec 64) := (List.range w.count).map w.line.cells

variable {w : Words} {text : List CChar}

theorem Holds.shown (h : w.Holds text) : w.shown = text.map toSizeT := by
  apply List.ext_getElem?
  intro i
  rw [Words.shown, List.getElem?_map, List.getElem?_map, h.count]
  by_cases hi : i < text.length
  · rw [List.getElem?_range hi, List.getElem?_eq_getElem hi]
    exact congrArg some (h.stored i _ (List.getElem?_eq_getElem hi))
  · rw [List.getElem?_eq_none (by simpa using hi), List.getElem?_eq_none (by simpa using hi)]
    rfl

theorem holds_wpClear : wpClear.Holds [] := ⟨rfl, fun _ _ h => by simp at h⟩

theorem Holds.shorten (h : w.Holds text) {front : List CChar} (hfront : front <+: text) :
    Holds { w with count := front.length } front := by
  refine ⟨rfl, fun i c hc => h.stored i c ?_⟩
  obtain ⟨rest, rfl⟩ := hfront
  rw [List.getElem?_append_left (List.getElem?_eq_some_iff.mp hc).1, hc]

theorem Holds.wpDel (h : w.Holds text) : w.wpDel.Holds text.dropLast := by
  have hcount := h.count
  unfold Words.wpDel
  split_ifs with hempty
  · obtain rfl : text = [] := by
      rw [Words.wpEmpty, beq_iff_eq, hcount] at hempty
      exact List.length_eq_zero_iff.mp hempty
    exact h
  · rw [hcount, ← List.length_dropLast]
    exact h.shorten text.dropLast_prefix

theorem Holds.store (h : w.Holds text) (hroom : text.length < maxColumns) (c : CChar) :
    ∃ w', w.store c = some w' ∧ w'.Holds (text ++ [c]) := by
  have hcount := h.count
  refine ⟨⟨⟨Function.update w.line.cells text.length (toSizeT c)⟩, text.length + 1⟩, ?_, ?_⟩
  · rw [Words.store, hcount, CArray.store_of_lt _ _ hroom]
    rfl
  · refine ⟨by simp, fun i c' hc' => ?_⟩
    by_cases hi : i = text.length
    · subst hi
      obtain rfl : c = c' := by simpa using hc'
      exact Function.update_self _ _ _
    · have hlt : i < text.length := by
        have := (List.getElem?_eq_some_iff.mp hc').1
        rw [List.length_append, List.length_singleton] at this
        omega
      rw [List.getElem?_append_left hlt] at hc'
      exact (Function.update_of_ne hi _ _).trans (h.stored i c' hc')

theorem Holds.wpAdd (h : w.Holds text) (hroom : text.length < maxColumns) (c : CChar) :
    ∃ w', w.wpAdd c = some w' ∧ w'.Holds (text ++ [c]) := by
  have hfull : ¬w.wpFull = true := by
    rw [Words.wpFull, beq_iff_eq, h.count]
    exact hroom.ne
  rw [Words.wpAdd, if_neg hfull]
  exact h.store hroom c

theorem Holds.storeAll (h : w.Holds text) {s : List CChar}
    (hroom : text.length + s.length ≤ maxColumns) :
    ∃ w', s.foldlM Words.store w = some w' ∧ w'.Holds (text ++ s) := by
  induction s generalizing w text with
  | nil => exact ⟨w, rfl, by rwa [List.append_nil]⟩
  | cons c s ih =>
      rw [List.length_cons] at hroom
      obtain ⟨w₁, hw₁, h₁⟩ := h.store (by omega) c
      obtain ⟨w', hw', h'⟩ := ih h₁ (by simp; omega)
      refine ⟨w', ?_, by rwa [List.append_assoc] at h'⟩
      rw [List.foldlM_cons, hw₁]
      exact hw'

theorem Holds.wpAddAr (h : w.Holds text) {s : List CChar}
    (hroom : text.length + s.length ≤ maxColumns) :
    ∃ w', w.wpAddAr s = some w' ∧ w'.Holds (text ++ s) := by
  rw [Words.wpAddAr, if_neg (by rw [h.count]; omega)]
  exact h.storeAll hroom

/-! ### The scans -/

theorem Holds.load (h : w.Holds text) (hroom : text.length ≤ maxColumns) {i : ℕ} {c : CChar}
    (hc : text[i]? = some c) : w.line.load i = some (toSizeT c) := by
  have hi := (List.getElem?_eq_some_iff.mp hc).1
  rw [CArray.load_of_lt _ (by omega), h.stored i c hc]

theorem exists_drop_eq_cons {pos : ℕ} (hpos : pos < text.length) :
    ∃ c, text[pos]? = some c ∧ text.drop pos = c :: text.drop (pos + 1) :=
  ⟨_, List.getElem?_eq_getElem hpos, List.drop_eq_getElem_cons hpos⟩

/-- The backward scan deletes the blanks at the end, if it has found no word yet, and
the word before them. -/
theorem popWordLoop_spec (h : w.Holds text) (hroom : text.length ≤ maxColumns) {n : ℕ}
    (hn : n ≤ text.length) :
    popWordLoop w.line true n = some ((text.take n).rdropWhile fun c => !isBlank c).length ∧
      popWordLoop w.line false n = some (beforeLastWord isBlank (text.take n)).length := by
  induction n with
  | zero => exact ⟨rfl, rfl⟩
  | succ n ih =>
      obtain ⟨htrue, hfalse⟩ := ih (by omega)
      obtain ⟨c, hc, -⟩ := exists_drop_eq_cons (Nat.lt_of_succ_le hn)
      have htake : text.take (n + 1) = text.take n ++ [c] := by
        rw [List.take_add_one, hc]
        rfl
      have hlen : (text.take n ++ [c]).length = n + 1 := by
        rw [← htake, List.length_take, Nat.min_eq_left hn]
      simp only [popWordLoop, h.load hroom hc, Option.bind_eq_bind, Option.bind_some,
        isspaceSizeT_toSizeT, htake, beforeLastWord]
      by_cases hblank : isspace c.toInt = true
      · have hisBlank : isBlank c = true := hblank
        rw [if_pos hblank, if_pos hblank, if_pos trivial, if_neg Bool.false_ne_true,
          List.rdropWhile_concat_neg _ _ _ (by simp [hisBlank]),
          List.rdropWhile_concat_pos _ _ _ hisBlank, hlen]
        exact ⟨rfl, hfalse⟩
      · have hisBlank : ¬isBlank c = true := hblank
        rw [if_neg hblank, if_neg hblank, List.rdropWhile_concat_neg isBlank _ _ hisBlank,
          List.rdropWhile_concat_pos _ _ _ (by simpa using hisBlank)]
        exact ⟨htrue, htrue⟩

/-- The blank behind a word goes with it, and the one before it stays. -/
example : beforeLastWord isBlank [0x61, 0x20, 0x62, 0x20] = [0x61, 0x20] := by decide

theorem Holds.wpPopWord (h : w.Holds text) (hroom : text.length ≤ maxColumns) :
    w.wpPopWord = some ((beforeLastWord isBlank text).length,
      { w with count := (beforeLastWord isBlank text).length }) := by
  have hcount := h.count
  unfold Words.wpPopWord
  split_ifs with hempty
  · rw [Words.wpEmpty, beq_iff_eq] at hempty
    obtain rfl : text = [] := List.length_eq_zero_iff.mp (hcount ▸ hempty)
    obtain ⟨line, count⟩ := w
    obtain rfl : count = 0 := hempty
    rfl
  · have hloop := (popWordLoop_spec h hroom le_rfl).2
    rw [List.take_length] at hloop
    rw [hcount, hloop]
    rfl

theorem wordLen_spec (h : w.Holds text) (hroom : text.length ≤ maxColumns) (pos columns : ℕ)
    (hpos : pos + columns = text.length) :
    wordLen w.line pos columns =
      some ((text.drop pos).takeWhile fun c => !isBlank c).length := by
  induction columns generalizing pos with
  | zero => rw [List.drop_of_length_le (show text.length ≤ pos from hpos.ge)]; rfl
  | succ columns ih =>
      obtain ⟨c, hc, hdrop⟩ := exists_drop_eq_cons (show pos < text.length by omega)
      simp only [wordLen, h.load hroom hc, ih (pos + 1) (by omega),
        Option.bind_eq_bind, Option.bind_some, isspaceSizeT_toSizeT, hdrop]
      by_cases hblank : isspace c.toInt = true
      · have hisBlank : isBlank c = true := hblank
        simp [hblank, hisBlank]
      · have hisBlank : ¬isBlank c = true := hblank
        simp [hblank, hisBlank]

theorem copyWord_spec (h : w.Holds text) (hroom : text.length ≤ maxColumns) {pos len : ℕ}
    (hlen : pos + len ≤ text.length) :
    copyWord w.line pos len = some ((text.drop pos).take len) := by
  induction len generalizing pos with
  | zero => rfl
  | succ len ih =>
      obtain ⟨c, hc, hdrop⟩ := exists_drop_eq_cons (show pos < text.length by omega)
      simp only [copyWord, h.load hroom hc, ih (show pos + 1 + len ≤ text.length by omega),
        Option.bind_eq_bind, Option.bind_some, toChar_toSizeT, hdrop, List.take_succ_cons]

/-- On a full line `wp_get_word` finds the last word. -/
theorem Holds.wpGetWord (h : w.Holds text) (hfull : text.length = maxColumns) :
    ∃ w', w.wpGetWord = some (lastWord isBlank text, w') := by
  have hle := length_lastWord_le isBlank text
  have hcopy := copyWord_spec h hfull.le hle
  have htake : (text.drop (beforeLastWord isBlank text).length).take
      (lastWord isBlank text).length = lastWord isBlank text :=
    (List.prefix_iff_eq_take.mp (List.takeWhile_prefix _)).symm
  have hlen := wordLen_spec h hfull.le (beforeLastWord isBlank text).length
    (maxColumns - (beforeLastWord isBlank text).length) (by omega)
  refine ⟨{ w with count := (beforeLastWord isBlank text).length }, ?_⟩
  rw [htake] at hcopy
  simp only [Words.wpGetWord, h.wpPopWord hfull.le, hlen, Option.bind_eq_bind, Option.bind_some]
  exact congrArg (Option.bind · fun word => some (word, _)) hcopy

end Words

end UnixLabs.Lab17
