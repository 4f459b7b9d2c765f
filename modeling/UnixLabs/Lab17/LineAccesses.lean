import UnixLabs.Lab17.Editor

/-!
The indices at which lab17 accesses the buffer of the line and the word that is carried.

Every function has its accesses beside it, in order. Where a scan or a loop accesses a
cell that does not exist it has no result; one read of `tc_print` has one all the same.
-/

namespace UnixLabs.Lab17

open Library

/-- An access to `wp.line`, or to `word` of `tc_carry`. -/
inductive Access
  | line (index : ℕ)
  | word (index : ℕ)
  deriving DecidableEq

def Access.index : Access → ℕ
  | line index => index
  | word index => index

def Inside (accesses : List Access) : Prop := ∀ a ∈ accesses, a.index < maxColumns

theorem inside_cons {a : Access} {accesses : List Access} :
    Inside (a :: accesses) ↔ a.index < maxColumns ∧ Inside accesses :=
  List.forall_mem_cons

theorem inside_append {front back : List Access} :
    Inside (front ++ back) ↔ Inside front ∧ Inside back :=
  List.forall_mem_append

/-! ### The buffer -/

namespace Words

def wpClearAccesses : List Access := (List.range maxColumns).map .line

def wpAddAccesses (this : Words) : List Access :=
  if this.wpFull then [] else [.line this.count]

def wpAddArAccesses (this : Words) (n : ℕ) : List Access :=
  if n + this.count > maxColumns then []
  else (List.range n).flatMap fun i => [.word i, .line (this.count + i)]

def popWordAccesses (line : CArray maxColumns (BitVec 64)) (foundWord : Bool) : ℕ → List Access
  | 0 => []
  | count + 1 => .line count ::
      if isspaceSizeT (line.cells count) then
        if foundWord then [] else popWordAccesses line foundWord count
      else popWordAccesses line true count

def wpPopWordAccesses (this : Words) : List Access :=
  if this.wpEmpty then [] else popWordAccesses this.line false this.count

def wordLenAccesses (line : CArray maxColumns (BitVec 64)) : ℕ → ℕ → List Access
  | _, 0 => []
  | pos, columns + 1 => .line pos ::
      if isspaceSizeT (line.cells pos) then [] else wordLenAccesses line (pos + 1) columns

def copyWordAccesses (wordPos len : ℕ) : List Access :=
  (List.range len).flatMap fun i => [.line (wordPos + i), .word i]

/-- `wp_get_word`. What follows a scan without a result is not known. -/
def wpGetWordAccesses (this : Words) : List Access :=
  this.wpPopWordAccesses ++ this.wpPopWord.toList.flatMap fun (wordPos, this) =>
    wordLenAccesses this.line wordPos (maxColumns - wordPos) ++
      (wordLen this.line wordPos (maxColumns - wordPos)).toList.flatMap (copyWordAccesses wordPos)

variable {w : Words} {text : List CChar}

theorem inside_wpClearAccesses : Inside wpClearAccesses := by
  intro a ha
  obtain ⟨i, hi, rfl⟩ := List.mem_map.mp ha
  exact List.mem_range.mp hi

theorem popWordLoop_isSome_iff (line : CArray maxColumns (BitVec 64)) (foundWord : Bool) (n : ℕ) :
    (popWordLoop line foundWord n).isSome ↔ Inside (popWordAccesses line foundWord n) := by
  induction n generalizing foundWord with
  | zero => simp [popWordLoop, popWordAccesses, Inside]
  | succ n ih =>
      rw [popWordLoop, popWordAccesses, inside_cons]
      by_cases hn : n < maxColumns
      · rw [CArray.load_of_lt _ hn, Option.bind_eq_bind, Option.bind_some, Access.index,
          and_iff_right hn]
        by_cases hspace : isspaceSizeT (line.cells n) = true
        · rw [if_pos hspace, if_pos hspace]
          by_cases hfound : foundWord = true
          · rw [if_pos hfound, if_pos hfound]
            simp [Inside]
          · rw [if_neg hfound, if_neg hfound, ih]
        · rw [if_neg hspace, if_neg hspace, ih]
      · rw [CArray.load, if_neg (by omega)]
        exact iff_of_false Bool.false_ne_true fun hinside => hn hinside.1

theorem wordLen_isSome_iff (line : CArray maxColumns (BitVec 64)) (pos columns : ℕ) :
    (wordLen line pos columns).isSome ↔ Inside (wordLenAccesses line pos columns) := by
  induction columns generalizing pos with
  | zero => simp [wordLen, wordLenAccesses, Inside]
  | succ columns ih =>
      rw [wordLen, wordLenAccesses, inside_cons]
      by_cases hpos : pos < maxColumns
      · rw [CArray.load_of_lt _ hpos, Option.bind_eq_bind, Option.bind_some, Access.index,
          and_iff_right hpos]
        by_cases hspace : isspaceSizeT (line.cells pos) = true
        · rw [if_pos hspace, if_pos hspace]
          simp [Inside]
        · rw [if_neg hspace, if_neg hspace, ← ih (pos + 1)]
          cases wordLen line (pos + 1) columns <;> simp
      · rw [CArray.load, if_neg (by omega)]
        exact iff_of_false Bool.false_ne_true fun hinside => hpos hinside.1

theorem wordLen_le {line : CArray maxColumns (BitVec 64)} {pos columns len : ℕ}
    (h : wordLen line pos columns = some len) : len ≤ columns := by
  induction columns generalizing pos len with
  | zero =>
      cases h
      exact le_rfl
  | succ columns ih =>
      simp only [wordLen, Option.bind_eq_bind, Option.bind_eq_some_iff] at h
      obtain ⟨c, -, h⟩ := h
      split_ifs at h
      · cases h
        exact Nat.zero_le _
      · obtain ⟨n, hn, heq⟩ := Option.bind_eq_some_iff.mp h
        cases heq
        exact Nat.succ_le_succ (ih hn)

theorem inside_copyWordAccesses {wordPos len : ℕ} (h : wordPos + len ≤ maxColumns) :
    Inside (copyWordAccesses wordPos len) := by
  intro a ha
  simp only [copyWordAccesses, List.mem_flatMap, List.mem_range, List.mem_cons, List.not_mem_nil,
    or_false] at ha
  obtain ⟨i, hi, rfl | rfl⟩ := ha <;> simp only [Access.index] <;> omega

theorem inside_wpAddAccesses (h : w.count ≤ maxColumns) : Inside w.wpAddAccesses := by
  unfold wpAddAccesses
  split_ifs with hfull
  · exact List.forall_mem_nil _
  · rw [Words.wpFull, beq_iff_eq] at hfull
    exact inside_cons.mpr ⟨lt_of_le_of_ne h hfull, List.forall_mem_nil _⟩

theorem inside_wpAddArAccesses (w : Words) (n : ℕ) : Inside (w.wpAddArAccesses n) := by
  unfold wpAddArAccesses
  split_ifs with hfull
  · exact List.forall_mem_nil _
  · intro a ha
    simp only [List.mem_flatMap, List.mem_range, List.mem_cons, List.not_mem_nil, or_false] at ha
    obtain ⟨i, hi, rfl | rfl⟩ := ha <;> simp only [Access.index] <;> omega

theorem Holds.inside_wpPopWord (h : w.Holds text) (hroom : text.length ≤ maxColumns) :
    Inside w.wpPopWordAccesses := by
  unfold wpPopWordAccesses
  split_ifs
  · exact List.forall_mem_nil _
  · have hpop := (popWordLoop_spec h hroom le_rfl).2
    rw [List.take_length, ← h.count] at hpop
    rw [← popWordLoop_isSome_iff, hpop]
    rfl

theorem Holds.inside_wpGetWord (h : w.Holds text) (hfull : text.length = maxColumns) :
    Inside w.wpGetWordAccesses := by
  have hle := length_lastWord_le isBlank text
  have hlen := wordLen_spec h hfull.le (beforeLastWord isBlank text).length
    (maxColumns - (beforeLastWord isBlank text).length) (by omega)
  refine inside_append.mpr ⟨h.inside_wpPopWord hfull.le, ?_⟩
  simp only [h.wpPopWord hfull.le, hlen, Option.toList_some, List.flatMap_singleton]
  refine inside_append.mpr ⟨?_, inside_copyWordAccesses ?_⟩
  · rw [← wordLen_isSome_iff, hlen]
    rfl
  · have hcolumns := wordLen_le hlen
    omega

end Words

/-! ### The cursor -/

namespace TtyCursor

def tcWeraseAccesses (this : TtyCursor) : List Access :=
  if this.wp.wpEmpty then [] else this.wp.wpPopWordAccesses

def tcCarryAccesses (this : TtyCursor) : List Access :=
  this.wp.wpGetWordAccesses ++ this.wp.wpGetWord.toList.flatMap fun (word, _) =>
    if word.length ≠ maxColumns then
      (List.range word.length).map .word ++ Words.wpClearAccesses ++
        Words.wpClear.wpAddArAccesses word.length
    else Words.wpClearAccesses

/-- `tc_print`. The buffer is looked at only for a character that is not white space. -/
def tcPrintAccesses (this : TtyCursor) (screen : Screen CChar) (c : CChar) (beyond : BitVec 64) :
    List Access :=
  if ¬isPrintable c then []
  else if c = newline then Words.wpClearAccesses
  else if this.tcEol then
    if isspace c.toInt then Words.wpClearAccesses
    else .line this.linePos ::
      if isspaceSizeT (this.charAtPos beyond) then Words.wpClearAccesses
      else this.tcCarryAccesses ++
        (this.tcCarry screen).toList.flatMap fun (this, _) => this.wp.wpAddAccesses
  else this.wp.wpAddAccesses

end TtyCursor

variable {cursor : TtyCursor} {screen : Screen CChar} {text : List CChar}

theorem Shows.inside_tcCarry (h : Shows cursor screen text) (hfull : text.length = maxColumns) :
    Inside cursor.tcCarryAccesses := by
  obtain ⟨wp, hword⟩ := h.words.wpGetWord hfull
  have hlen := length_lastWord_le isBlank text
  refine inside_append.mpr ⟨h.words.inside_wpGetWord hfull, ?_⟩
  simp only [hword, Option.toList_some, List.flatMap_singleton]
  split_ifs
  · refine inside_append.mpr ⟨inside_append.mpr ⟨?_, Words.inside_wpClearAccesses⟩,
      Words.inside_wpAddArAccesses _ _⟩
    intro a ha
    obtain ⟨i, hi, rfl⟩ := List.mem_map.mp ha
    rw [List.mem_range] at hi
    simp only [Access.index]
    omega
  · exact Words.inside_wpClearAccesses

theorem Shows.inside_carried (h : Shows cursor screen text) (hfull : text.length = maxColumns) :
    Inside (cursor.tcCarryAccesses ++
      (cursor.tcCarry screen).toList.flatMap fun (cursor, _) => cursor.wp.wpAddAccesses) := by
  obtain ⟨cursor', hcarry, h', -⟩ := h.carry hfull
  refine inside_append.mpr ⟨h.inside_tcCarry hfull, ?_⟩
  simp only [hcarry, Option.toList_some, List.flatMap_singleton]
  exact Words.inside_wpAddAccesses (h'.words.count ▸ h'.bounded)

/-- Whatever is accessed outside, it is the cell behind the line. -/
def OnlyBehindLine (accesses : List Access) : Prop :=
  ∀ a ∈ accesses, a.index < maxColumns ∨ a = .line maxColumns

theorem onlyBehindLine_of_inside {accesses : List Access} (h : Inside accesses) :
    OnlyBehindLine accesses := fun a ha => .inl (h a ha)

theorem only_and_inside_iff {accesses : List Access} {P : Prop} (h : Inside accesses) (hP : P) :
    OnlyBehindLine accesses ∧ (Inside accesses ↔ P) :=
  ⟨onlyBehindLine_of_inside h, iff_of_true h hP⟩

/-- The buffer is read behind its end when the line is full and the character is not
white space. -/
theorem Shows.tcPrintAccesses (h : Shows cursor screen text) (c : CChar) (beyond : BitVec 64) :
    OnlyBehindLine (cursor.tcPrintAccesses screen c beyond) ∧
      (Inside (cursor.tcPrintAccesses screen c beyond) ↔
        (cursor.tcEol → ¬isPrintable c ∨ isspace c.toInt)) := by
  unfold TtyCursor.tcPrintAccesses
  by_cases hprintable : ¬isPrintable c = true
  · rw [if_pos hprintable]
    exact only_and_inside_iff (List.forall_mem_nil _) fun _ => .inl hprintable
  by_cases hnl : c = newline
  · rw [if_neg hprintable, if_pos hnl]
    exact only_and_inside_iff Words.inside_wpClearAccesses fun _ => .inr (hnl ▸ by decide)
  by_cases heol : cursor.tcEol = true
  · rw [if_neg hprintable, if_neg hnl, if_pos heol]
    by_cases hspace : isspace c.toInt = true
    · rw [if_pos hspace]
      exact only_and_inside_iff Words.inside_wpClearAccesses fun _ => .inr hspace
    · have hfull := h.eol_iff.mp heol
      have hpos : cursor.linePos = maxColumns := h.position.trans hfull
      have hrest : Inside (if isspaceSizeT (cursor.charAtPos beyond) then Words.wpClearAccesses
          else cursor.tcCarryAccesses ++
            (cursor.tcCarry screen).toList.flatMap fun (cursor, _) => cursor.wp.wpAddAccesses) := by
        split_ifs
        · exact Words.inside_wpClearAccesses
        · exact h.inside_carried hfull
      rw [if_neg hspace]
      refine ⟨List.forall_mem_cons.mpr ⟨.inr (hpos ▸ rfl), onlyBehindLine_of_inside hrest⟩, ?_⟩
      refine iff_of_false (fun hinside => ?_) fun hroom => (hroom heol).elim hprintable hspace
      exact (inside_cons.mp hinside).1.ne hpos
  · rw [if_neg hprintable, if_neg hnl, if_neg heol]
    exact only_and_inside_iff (Words.inside_wpAddAccesses (h.words.count ▸ h.bounded))
      fun htrue => absurd htrue heol

/-! ### Keys -/

namespace Editor

def accesses (cc : ControlChars) (e : Editor) (key : Key) : List Access :=
  if ¬e.running then []
  else if e.cursor.linePos = 0 ∧ isControl key.c cc.eof then []
  else if isControl key.c cc.erase then []
  else if isControl key.c cc.werase then e.cursor.tcWeraseAccesses
  else if isControl key.c cc.kill then Words.wpClearAccesses
  else e.cursor.tcPrintAccesses e.screen key.c key.beyond

/-- No character is typed on a full line, white space apart. -/
def RoomForKey (cc : ControlChars) (e : Editor) (key : Key) : Prop :=
  e.running → ¬isControl key.c cc.erase → ¬isControl key.c cc.werase → ¬isControl key.c cc.kill →
    e.cursor.tcEol → ¬isPrintable key.c ∨ isspace key.c.toInt

theorem accesses_of_shows {e : Editor} {text : List CChar} (h : Shows e.cursor e.screen text)
    (cc : ControlChars) (key : Key) :
    OnlyBehindLine (accesses cc e key) ∧ (Inside (accesses cc e key) ↔ RoomForKey cc e key) := by
  unfold accesses
  split_ifs with hrunning heof herase hwerase hkill
  · refine only_and_inside_iff (List.forall_mem_nil _) fun _ _ _ _ heol => ?_
    rw [TtyCursor.tcEol, heof.1] at heol
    cases heol
  · exact only_and_inside_iff (List.forall_mem_nil _) fun _ hnot => absurd herase hnot
  · refine only_and_inside_iff ?_ fun _ _ hnot => absurd hwerase hnot
    unfold TtyCursor.tcWeraseAccesses
    split_ifs
    · exact List.forall_mem_nil _
    · exact h.words.inside_wpPopWord h.bounded
  · exact only_and_inside_iff Words.inside_wpClearAccesses fun _ _ _ hnot => absurd hkill hnot
  · obtain ⟨honly, hiff⟩ := h.tcPrintAccesses key.c key.beyond
    refine ⟨honly, hiff.trans ⟨fun hroom _ _ _ _ => hroom, fun hroom => ?_⟩⟩
    exact hroom hrunning herase hwerase hkill
  · exact only_and_inside_iff (List.forall_mem_nil _) fun htrue => absurd htrue hrunning

/-- All accesses are inside exactly as long as no character is typed on a full line,
white space apart; and one that is not is the read behind the end of the line. -/
theorem accesses_inside_iff (cc : ControlChars) (above : List (List CChar)) (keys : List Key) :
    (RunMeets (fun e key => Inside (accesses cc e key)) (step cc) (start above) keys ↔
      RunMeets (RoomForKey cc) (step cc) (start above) keys) ∧
    RunMeets (fun e key => OnlyBehindLine (accesses cc e key)) (step cc) (start above) keys := by
  refine ⟨runMeets_iff_of_steps (fun _ key ⟨_, h⟩ => (accesses_of_shows h cc key).2)
    (fun _ _ _ h _ hstep => shows_of_step h hstep) (shows_start above) keys, ?_⟩
  exact runMeets_of_meets (C := fun _ _ => True)
    (fun _ key ⟨_, h⟩ => (accesses_of_shows h cc key).1)
    (fun _ _ _ h _ hstep => shows_of_step h hstep) (shows_start above)
    (runMeets_of_forall fun _ _ => trivial)

/-- The letter behind a full line of letters. -/
theorem accesses_behind_line :
    ¬RunMeets (fun e key => Inside (accesses .usual e key)) (step .usual) (start [])
      (List.replicate 40 ⟨0x61, 0⟩ ++ [⟨0x61, 0⟩]) := by
  have hany : (run (step .usual) (start []) (List.replicate 40 ⟨0x61, 0⟩)).any (fun e =>
      .line maxColumns ∈ accesses .usual e ⟨0x61, 0⟩) = true := by
    decide +kernel
  obtain ⟨e, hrun, hmem⟩ := (Option.any_eq_true _ _).mp hany
  intro h
  exact lt_irrefl maxColumns (h.after hrun _ (of_decide_eq_true hmem))

end Editor

end UnixLabs.Lab17
