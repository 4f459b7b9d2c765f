import UnixLabs.Lab17.Words
import UnixLabs.Library.Run

/-!
The line editor of lab17.

The terminal echoes nothing, so the program prints what is typed, erases characters and
words, and carries the last word over when a line is full. For that it keeps a cursor
position and a buffer of the line.
-/

namespace UnixLabs.Lab17

open Library

/-! ### The cursor -/

structure TtyCursor where
  linePos : ℕ
  wp : Words

def write (text : List CChar) (screen : Screen CChar) : Screen CChar :=
  screen.print isNewline text

/-- `backspace`. Each round erases one cell. -/
def backspace (charNum : ℕ) (screen : Screen CChar) : Screen CChar := Screen.erase^[charNum] screen

namespace TtyCursor

def tcClear : TtyCursor := ⟨0, Words.wpClear⟩

def tcErase (this : TtyCursor) (screen : Screen CChar) : TtyCursor × Screen CChar :=
  if this.linePos ≠ 0 then (⟨this.linePos - 1, this.wp.wpDel⟩, backspace 1 screen)
  else (this, screen)

def tcWerase (this : TtyCursor) (screen : Screen CChar) : Option (TtyCursor × Screen CChar) :=
  if this.wp.wpEmpty then some (this, screen)
  else do
    let (wordPos, wp) ← this.wp.wpPopWord
    let charNum ← checkedSub this.linePos wordPos
    some (⟨wordPos, wp⟩, backspace charNum screen)

def tcKill (this : TtyCursor) (screen : Screen CChar) : TtyCursor × Screen CChar :=
  (tcClear, backspace this.linePos screen)

def tcEol (this : TtyCursor) : Bool := this.linePos != 0 && this.linePos % maxColumns == 0

def tcCarry (this : TtyCursor) (screen : Screen CChar) : Option (TtyCursor × Screen CChar) := do
  let (word, _) ← this.wp.wpGetWord
  if word.length ≠ maxColumns then
    let screen := write word (write [newline] (backspace word.length screen))
    let wp ← Words.wpClear.wpAddAr word
    some (⟨word.length, wp⟩, screen)
  else some (tcClear, write [newline] screen)

def tcNl (screen : Screen CChar) : TtyCursor × Screen CChar := (tcClear, write [newline] screen)

/-- `this->wp.line[this->line_pos]`, which is `beyond` where the line has no such cell. -/
def charAtPos (this : TtyCursor) (beyond : BitVec 64) : BitVec 64 :=
  (this.wp.line.load this.linePos).getD beyond

/-- The end of `tc_print`. -/
def put (this : TtyCursor) (screen : Screen CChar) (c : CChar) :
    Option (TtyCursor × Screen CChar) := do
  let wp ← this.wp.wpAdd c
  some (⟨this.linePos + 1, wp⟩, write [c] screen)

def tcPrint (this : TtyCursor) (screen : Screen CChar) (c : CChar) (beyond : BitVec 64) :
    Option (TtyCursor × Screen CChar) :=
  if ¬isPrintable c then some (this, screen)
  else if c = newline then some (tcNl screen)
  else if this.tcEol then
    if ¬isspace c.toInt ∧ ¬isspaceSizeT (this.charAtPos beyond) then do
      let (this, screen) ← this.tcCarry screen
      this.put screen c
    else some (tcNl screen)
  else this.put screen c

/-- `tc_bel`. A bell takes no cell. -/
def tcBel (this : TtyCursor) (screen : Screen CChar) : TtyCursor × Screen CChar := (this, screen)

end TtyCursor

/-! ### The main loop -/

/-- `c_cc` of the terminal, whose characters are unsigned. -/
structure ControlChars where
  eof : BitVec 8
  erase : BitVec 8
  werase : BitVec 8
  kill : BitVec 8

/-- `^D`, `DEL`, `^W` and `^U`, which terminals start with. -/
def ControlChars.usual : ControlChars := ⟨0x04, 0x7F, 0x17, 0x15⟩

def isControl (c : CChar) (cc : BitVec 8) : Bool := c.toInt == cc.toNat

/-- A key, and what is read beyond the line if it comes to that. -/
structure Key where
  c : CChar
  beyond : BitVec 64

/-- The body of the loop after the test for the end. -/
def handleKey (cc : ControlChars) (key : Key) (cursor : TtyCursor) (screen : Screen CChar) :
    Option (TtyCursor × Screen CChar) :=
  if isControl key.c cc.erase then some (cursor.tcErase screen)
  else if isControl key.c cc.werase then cursor.tcWerase screen
  else if isControl key.c cc.kill then some (cursor.tcKill screen)
  else if ¬isPrintable key.c then some (cursor.tcBel screen)
  else cursor.tcPrint screen key.c key.beyond

/-- `main` with its terminal. Once it is not running it reads no more keys. -/
structure Editor where
  cursor : TtyCursor
  screen : Screen CChar
  running : Bool

namespace Editor

def start (above : List (List CChar)) : Editor := ⟨TtyCursor.tcClear, ⟨above, []⟩, true⟩

def step (cc : ControlChars) (e : Editor) (key : Key) : Option Editor :=
  if ¬e.running then some e
  else if e.cursor.linePos = 0 ∧ isControl key.c cc.eof then some { e with running := false }
  else do
    let (cursor, screen) ← handleKey cc key e.cursor e.screen
    some ⟨cursor, screen, true⟩

end Editor

/-! ### The text of the line -/

/-- The word that is carried over from a full line, unless it is the whole line. -/
def carried (text : List CChar) : List CChar :=
  if (lastWord isBlank text).length = maxColumns then [] else lastWord isBlank text

/-- A character is added to the line. On a full line a blank starts a new line and is
not shown. -/
def typed (text : List CChar) (key : Key) : List CChar :=
  if text.length = maxColumns then
    if isBlank key.c ∨ isspaceSizeT key.beyond then [] else carried text ++ [key.c]
  else text ++ [key.c]

def carriedScreen (screen : Screen CChar) (word : List CChar) : Screen CChar :=
  write word (write [newline] (backspace word.length screen))

def typedScreen (screen : Screen CChar) (text : List CChar) (key : Key) : Screen CChar :=
  if text.length = maxColumns then
    if isBlank key.c ∨ isspaceSizeT key.beyond then write [newline] screen
    else write [key.c] (carriedScreen screen (carried text))
  else write [key.c] screen

def edited (cc : ControlChars) (text : List CChar) (key : Key) : List CChar :=
  if isControl key.c cc.erase then text.dropLast
  else if isControl key.c cc.werase then beforeLastWord isBlank text
  else if isControl key.c cc.kill then []
  else if ¬isPrintable key.c then text
  else if key.c = newline then []
  else typed text key

/-- The cursor, the buffer and the terminal have the same text, which is a line. -/
structure Shows (cursor : TtyCursor) (screen : Screen CChar) (text : List CChar) : Prop where
  position : cursor.linePos = text.length
  words : cursor.wp.Holds text
  line : screen.line = text
  bounded : text.length ≤ maxColumns
  single : ∀ c ∈ text, isNewline c = false

variable {cursor : TtyCursor} {screen : Screen CChar} {text : List CChar}

theorem write_newline (screen : Screen CChar) :
    write [newline] screen = ⟨screen.above ++ [screen.line], []⟩ :=
  Screen.put_newline (beq_self_eq_true newline) screen

theorem write_text {s : List CChar} (h : ∀ c ∈ s, isNewline c = false) (screen : Screen CChar) :
    write s screen = { screen with line := screen.line ++ s } := Screen.print_eq h screen

theorem backspace_eq (n : ℕ) (screen : Screen CChar) : backspace n screen =
    { screen with line := screen.line.take (screen.line.length - n) } :=
  Screen.iterate_erase_eq n screen

theorem shows_clear {screen : Screen CChar} (h : screen.line = []) :
    Shows TtyCursor.tcClear screen [] :=
  ⟨rfl, Words.holds_wpClear, h, Nat.zero_le _, by simp⟩

/-- A part of the text that starts with the line is shown when the rest is erased. -/
theorem Shows.shorten (h : Shows cursor screen text) {front : List CChar}
    (hfront : front <+: text) {wp : Words} (hwp : wp.Holds front) :
    Shows ⟨front.length, wp⟩ (backspace (text.length - front.length) screen) front := by
  have hle := hfront.length_le
  refine ⟨rfl, hwp, ?_, hle.trans h.bounded, fun c hc => h.single c (hfront.subset hc)⟩
  rw [backspace_eq, h.line, Nat.sub_sub_self hle]
  exact (List.prefix_iff_eq_take.mp hfront).symm

theorem Shows.erase (h : Shows cursor screen text) :
    Shows (cursor.tcErase screen).1 (cursor.tcErase screen).2 text.dropLast := by
  unfold TtyCursor.tcErase
  split_ifs with hpos
  · rw [h.position] at hpos ⊢
    have hlast : text.length - text.dropLast.length = 1 := by
      rw [List.length_dropLast]
      omega
    have hshort := h.shorten text.dropLast_prefix h.words.wpDel
    rwa [hlast, List.length_dropLast] at hshort
  · obtain rfl : text = [] := List.length_eq_zero_iff.mp (by rw [← h.position]; omega)
    exact h

theorem Shows.werase (h : Shows cursor screen text) :
    ∃ cursor' screen', cursor.tcWerase screen = some (cursor', screen') ∧
      Shows cursor' screen' (beforeLastWord isBlank text) := by
  unfold TtyCursor.tcWerase
  split_ifs with hempty
  · rw [Words.wpEmpty, beq_iff_eq, h.words.count] at hempty
    obtain rfl : text = [] := List.length_eq_zero_iff.mp hempty
    exact ⟨cursor, screen, rfl, h⟩
  · have hbefore := beforeLastWord_prefix isBlank text
    simp only [h.words.wpPopWord h.bounded, h.position, checkedSub_of_le hbefore.length_le,
      Option.bind_eq_bind, Option.bind_some]
    exact ⟨_, _, rfl, h.shorten hbefore (h.words.shorten hbefore)⟩

theorem Shows.kill (h : Shows cursor screen text) :
    Shows (cursor.tcKill screen).1 (cursor.tcKill screen).2 [] := by
  apply shows_clear
  rw [TtyCursor.tcKill, backspace_eq, h.line, h.position, Nat.sub_self, List.take_zero]

theorem shows_nl (screen : Screen CChar) :
    Shows (TtyCursor.tcNl screen).1 (TtyCursor.tcNl screen).2 [] :=
  shows_clear (congrArg Screen.line (write_newline screen))

/-- The carried word is on a line of its own, and leaves room behind it. -/
theorem Shows.carry (h : Shows cursor screen text) (hfull : text.length = maxColumns) :
    ∃ cursor', cursor.tcCarry screen = some (cursor', carriedScreen screen (carried text)) ∧
      Shows cursor' (carriedScreen screen (carried text)) (carried text) ∧
      (carried text).length < maxColumns := by
  obtain ⟨wp, hword⟩ := h.words.wpGetWord hfull
  have hle : (lastWord isBlank text).length ≤ maxColumns := by
    have := length_lastWord_le isBlank text
    omega
  simp only [TtyCursor.tcCarry, hword, Option.bind_eq_bind, Option.bind_some, carried]
  by_cases hwhole : (lastWord isBlank text).length = maxColumns
  · rw [if_neg (not_not.mpr hwhole), if_pos hwhole]
    exact ⟨_, rfl, shows_nl screen, Nat.succ_pos _⟩
  · obtain ⟨wp', hadd, hwp'⟩ := Words.holds_wpClear.wpAddAr (s := lastWord isBlank text) (by simpa)
    have hsingle : ∀ c ∈ lastWord isBlank text, isNewline c = false := fun c hc =>
      h.single c (mem_of_mem_lastWord hc)
    rw [if_pos hwhole, if_neg hwhole, hadd]
    refine ⟨_, rfl, ⟨rfl, hwp', ?_, hle, hsingle⟩, lt_of_le_of_ne hle hwhole⟩
    rw [carriedScreen, write_text hsingle, write_newline, List.nil_append]

theorem Shows.put (h : Shows cursor screen text) (hroom : text.length < maxColumns) {c : CChar}
    (hc : isNewline c = false) :
    ∃ cursor', cursor.put screen c = some (cursor', write [c] screen) ∧
      Shows cursor' (write [c] screen) (text ++ [c]) := by
  obtain ⟨wp, hadd, hwp⟩ := h.words.wpAdd hroom c
  refine ⟨⟨cursor.linePos + 1, wp⟩, ?_, ?_, hwp, ?_, ?_, ?_⟩
  · rw [TtyCursor.put, hadd]
    rfl
  · rw [h.position, List.length_append, List.length_singleton]
  · rw [write_text (by simpa using hc), h.line]
  · rw [List.length_append, List.length_singleton]
    exact hroom
  · simp only [List.mem_append, List.mem_singleton]
    rintro c' (hc' | rfl)
    · exact h.single c' hc'
    · exact hc

/-- On a line that fits, the position is a full line only at its end. -/
theorem Shows.eol_iff (h : Shows cursor screen text) :
    cursor.tcEol = true ↔ text.length = maxColumns := by
  have hbounded := h.bounded
  simp only [TtyCursor.tcEol, h.position, maxColumns, Bool.and_eq_true, bne_iff_ne, beq_iff_eq,
    ne_eq] at hbounded ⊢
  omega

theorem Shows.charAtPos (h : Shows cursor screen text) (hfull : text.length = maxColumns)
    (beyond : BitVec 64) : cursor.charAtPos beyond = beyond := by
  rw [TtyCursor.charAtPos, h.position, hfull, CArray.load, if_neg (by omega)]
  rfl

theorem Shows.print (h : Shows cursor screen text) (key : Key) (hprintable : isPrintable key.c)
    (hnl : ¬key.c = newline) :
    ∃ cursor', cursor.tcPrint screen key.c key.beyond =
        some (cursor', typedScreen screen text key) ∧
      Shows cursor' (typedScreen screen text key) (typed text key) := by
  have hc : isNewline key.c = false := by simpa [isNewline] using hnl
  rw [TtyCursor.tcPrint, if_neg (not_not.mpr hprintable), if_neg hnl, typed, typedScreen]
  by_cases hfull : text.length = maxColumns
  · rw [if_pos (h.eol_iff.mpr hfull), if_pos hfull, if_pos hfull, h.charAtPos hfull]
    by_cases hblank : isBlank key.c = true ∨ isspaceSizeT key.beyond = true
    · rw [if_neg (by rw [← not_or, not_not]; exact hblank), if_pos hblank, if_pos hblank]
      exact ⟨_, rfl, shows_nl screen⟩
    · rw [if_pos (by exact not_or.mp hblank), if_neg hblank, if_neg hblank]
      obtain ⟨cursor₁, hcarry, h₁, hroom⟩ := h.carry hfull
      simp only [hcarry, Option.bind_eq_bind, Option.bind_some]
      exact h₁.put hroom hc
  · rw [if_neg (mt h.eol_iff.mp hfull), if_neg hfull, if_neg hfull]
    exact h.put (lt_of_le_of_ne h.bounded hfull) hc

/-- Every key edits the text of the line, and nothing else. -/
theorem Shows.handleKey (h : Shows cursor screen text) (cc : ControlChars) (key : Key) :
    ∃ cursor' screen', handleKey cc key cursor screen = some (cursor', screen') ∧
      Shows cursor' screen' (edited cc text key) := by
  unfold Lab17.handleKey edited
  by_cases herase : isControl key.c cc.erase = true
  · simp only [if_pos herase]
    exact ⟨_, _, rfl, h.erase⟩
  by_cases hwerase : isControl key.c cc.werase = true
  · simp only [if_neg herase, if_pos hwerase]
    exact h.werase
  by_cases hkill : isControl key.c cc.kill = true
  · simp only [if_neg herase, if_neg hwerase, if_pos hkill]
    exact ⟨_, _, rfl, h.kill⟩
  simp only [if_neg herase, if_neg hwerase, if_neg hkill]
  by_cases hprintable : isPrintable key.c = true
  · rw [if_neg (not_not.mpr hprintable), if_neg (not_not.mpr hprintable)]
    by_cases hnl : key.c = newline
    · rw [if_pos hnl, TtyCursor.tcPrint, if_neg (not_not.mpr hprintable), if_pos hnl]
      exact ⟨_, _, rfl, shows_nl screen⟩
    · rw [if_neg hnl]
      obtain ⟨cursor', hprint, h'⟩ := h.print key hprintable hnl
      exact ⟨cursor', _, hprint, h'⟩
  · rw [if_pos hprintable, if_pos hprintable]
    exact ⟨_, _, rfl, h⟩

/-! ### Runs -/

namespace Editor

/-- The cursor position is the number of characters in the buffer, which are those on
the line of the terminal and no more than a line has. -/
structure InStep (e : Editor) : Prop where
  position : e.cursor.linePos = e.cursor.wp.count
  bounded : e.cursor.wp.count ≤ maxColumns
  shown : e.screen.line.map toSizeT = e.cursor.wp.shown

theorem inStep_of_shows {e : Editor} {text : List CChar} (h : Shows e.cursor e.screen text) :
    e.InStep where
  position := h.position.trans h.words.count.symm
  bounded := h.words.count ▸ h.bounded
  shown := by rw [h.line, h.words.shown]

theorem step_shows (cc : ControlChars) (e : Editor) (key : Key)
    (h : ∃ text, Shows e.cursor e.screen text) :
    ∃ e', e.step cc key = some e' ∧ ∃ text, Shows e'.cursor e'.screen text := by
  obtain ⟨text, h⟩ := h
  unfold step
  split_ifs with hrunning heof
  · exact ⟨_, rfl, text, h⟩
  · obtain ⟨cursor', screen', hkey, h'⟩ := h.handleKey cc key
    exact ⟨⟨cursor', screen', true⟩, by rw [hkey]; rfl, _, h'⟩
  · exact ⟨e, rfl, text, h⟩

theorem shows_of_step {cc : ControlChars} {e e' : Editor} {key : Key}
    (h : ∃ text, Shows e.cursor e.screen text) (hstep : e.step cc key = some e') :
    ∃ text, Shows e'.cursor e'.screen text := by
  obtain ⟨e₁, h₁, hshows⟩ := step_shows cc e key h
  rw [hstep] at h₁
  cases h₁
  exact hshows

theorem shows_start (above : List (List CChar)) :
    ∃ text, Shows (start above).cursor (start above).screen text := ⟨[], shows_clear rfl⟩

/-- Whatever keys are typed, and whatever is read beyond the line, the cursor, the
buffer and the terminal stay in step. -/
theorem inStep_run (cc : ControlChars) (above : List (List CChar)) (keys : List Key) :
    RunKeeps InStep (step cc) (start above) keys :=
  runKeeps_of_meets (C := fun _ _ => True) (I := fun e => ∃ text, Shows e.cursor e.screen text)
    (fun _ ⟨_, h⟩ => inStep_of_shows h) (fun e key h _ => step_shows cc e key h)
    (shows_start above) (runMeets_of_forall fun _ _ => trivial)

end Editor

end UnixLabs.Lab17
