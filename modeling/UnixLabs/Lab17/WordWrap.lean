import UnixLabs.Lab17.Editor
import UnixLabs.Library.TextWords

/-!
The word wrap of lab17, for text that is typed without erasing any of it.

Whether a word is carried over depends on the character behind the line, not on the last
one of the line. A line that ends with blanks then loses others than it should.
-/

namespace UnixLabs.Lab17

open Library

structure PrintKey (cc : ControlChars) extends Key where
  printable : isPrintable c = true
  notErase : isControl c cc.erase = false
  notWerase : isControl c cc.werase = false
  notKill : isControl c cc.kill = false

variable {cc : ControlChars} {cursor : TtyCursor} {screen : Screen CChar} {text : List CChar}

/-! ### The screen -/

def printedScreen (screen : Screen CChar) (text : List CChar) (key : Key) : Screen CChar :=
  if key.c = newline then write [newline] screen else typedScreen screen text key

theorem Shows.handlePrintKey (h : Shows cursor screen text) (key : PrintKey cc) :
    ∃ cursor', Lab17.handleKey cc key.toKey cursor screen =
        some (cursor', printedScreen screen text key.toKey) ∧
      ∃ text', Shows cursor' (printedScreen screen text key.toKey) text' := by
  rw [Lab17.handleKey, key.notErase, key.notWerase, key.notKill, printedScreen]
  simp only [Bool.false_eq_true, if_false, key.printable, not_true_eq_false]
  by_cases hnl : key.c = newline
  · rw [if_pos hnl, TtyCursor.tcPrint, if_neg (not_not.mpr key.printable), if_pos hnl]
    exact ⟨_, rfl, _, shows_nl screen⟩
  · rw [if_neg hnl]
    obtain ⟨cursor', hprint, h'⟩ := h.print key.toKey key.printable hnl
    exact ⟨cursor', hprint, _, h'⟩

theorem Shows.line_self (h : Shows cursor screen text) : Shows cursor screen screen.line :=
  h.line.symm ▸ h

theorem carriedWord_eq (text : List CChar) :
    carriedWord isBlank maxColumns text = carried text := rfl

/-- The last word of a full line goes to a new line, the character behind it. -/
theorem write_carriedScreen {c : CChar} (hc : isNewline c = false)
    (hsingle : ∀ c ∈ screen.line, isNewline c = false) :
    write [c] (carriedScreen screen (carried screen.line)) =
      ⟨screen.above ++ [screen.line.take (screen.line.length - (carried screen.line).length)],
        carried screen.line ++ [c]⟩ := by
  have hword : ∀ c ∈ carried screen.line, isNewline c = false := by
    unfold carried
    split_ifs
    · exact List.forall_mem_nil _
    · exact fun c hc => hsingle c (mem_of_mem_lastWord hc)
  rw [write_text (by simpa using hc), carriedScreen, write_text hword, write_newline,
    backspace_eq]
  rfl

/-! ### The text -/

/-- The editor, and what has been typed. -/
structure Typing where
  editor : Editor
  typed : List CChar

namespace Typing

def start : Typing := ⟨Editor.start [], []⟩

/-- The key that ends the input is no text. -/
def step (cc : ControlChars) (w : Typing) (key : PrintKey cc) : Option Typing := do
  let editor ← w.editor.step cc key.toKey
  some ⟨editor, if editor.running then w.typed ++ [key.c] else w.typed⟩

def lines (w : Typing) : List (List CChar) := w.editor.screen.above ++ [w.editor.screen.line]

def letters (text : List CChar) : List CChar := text.filter fun c => !isBlank c

/-- The lines show all characters that were typed, blanks apart. They join no words, and
break no word that has fewer characters than a line. -/
structure TextKept (w : Typing) : Prop where
  characters : letters w.lines.flatten = letters w.typed
  words : Broken maxColumns (words isBlank w.typed) (lineWords isBlank w.lines)

/-- What is read behind a full line is no white space, and the line has no blank at its
end, or nothing else. -/
def CarrySound (w : Typing) (key : PrintKey cc) : Prop :=
  w.editor.running → w.editor.screen.line.length = maxColumns → isBlank key.c = false →
    isspaceSizeT key.beyond = false ∧
      (EndsBlank isBlank w.editor.screen.line → ∀ c ∈ w.editor.screen.line, isBlank c = true)

structure Sound (w : Typing) : Prop where
  shows : Shows w.editor.cursor w.editor.screen w.editor.screen.line
  wrapped : Wrapped isBlank maxColumns w.typed w.editor.screen.above w.editor.screen.line

theorem Sound.start : start.Sound := ⟨shows_clear rfl, Wrapped.nil⟩

theorem Sound.textKept {w : Typing} (h : w.Sound) : w.TextKept := by
  have hbroken := h.wrapped.broken (Nat.succ_pos _)
  refine ⟨?_, hbroken⟩
  have hflatten := hbroken.flatten_eq
  rw [flatten_words, lineWords, List.flatMap_def, List.flatten_flatten, List.map_map] at hflatten
  rw [letters, letters, ← hflatten, List.filter_flatten]
  exact congrArg List.flatten (List.map_congr_left fun line _ => (flatten_words isBlank line).symm)

/-! ### One step -/

variable {w w' : Typing} {key : PrintKey cc}

theorem Sound.step_cases (h : w.Sound) (hstep : w.step cc key = some w') :
    (w'.typed = w.typed ∧ w'.editor.cursor = w.editor.cursor ∧
      w'.editor.screen = w.editor.screen ∧
      (w.editor.running → w.editor.screen.line.length ≠ maxColumns)) ∨
    (w.editor.running ∧ w'.typed = w.typed ++ [key.c] ∧
      w'.editor.screen = printedScreen w.editor.screen w.editor.screen.line key.toKey ∧
      Shows w'.editor.cursor w'.editor.screen w'.editor.screen.line) := by
  obtain ⟨editor, heditor, heq⟩ := Option.bind_eq_some_iff.mp hstep
  cases heq
  unfold Editor.step at heditor
  split_ifs at heditor with hrunning heof
  · cases heditor
    refine .inl ⟨rfl, rfl, rfl, fun _ => ?_⟩
    rw [← h.shows.position, heof.1]
    decide
  · obtain ⟨cursor', hkey, text', hshows⟩ := h.shows.handlePrintKey key
    rw [hkey] at heditor
    cases heditor
    exact .inr ⟨hrunning, rfl, rfl, hshows.line_self⟩
  · cases heditor
    refine .inl ⟨?_, rfl, rfl, fun htrue => absurd htrue hrunning⟩
    exact if_neg hrunning

theorem isBlank_newline : isBlank newline = true := by decide

theorem isNewline_eq_false {c : CChar} (hc : isBlank c = false) : isNewline c = false := by
  by_contra hnl
  rw [Bool.not_eq_false, isNewline, beq_iff_eq] at hnl
  rw [hnl, isBlank_newline] at hc
  cases hc

theorem printedScreen_full {key : Key} (h : Shows cursor screen screen.line)
    (hfull : screen.line.length = maxColumns) (hc : isBlank key.c = false) :
    printedScreen screen screen.line key =
      if isspaceSizeT key.beyond then ⟨screen.above ++ [screen.line], []⟩
      else ⟨screen.above ++
        [screen.line.take (screen.line.length - (carried screen.line).length)],
        carried screen.line ++ [key.c]⟩ := by
  have hnl : ¬key.c = newline := fun hnl => by
    rw [hnl, isBlank_newline] at hc
    cases hc
  rw [printedScreen, if_neg hnl, typedScreen, if_pos hfull]
  simp only [hc, Bool.false_eq_true, false_or]
  rw [write_newline, write_carriedScreen (isNewline_eq_false hc) h.single]

theorem Sound.step (h : w.Sound) (hsound : CarrySound w key) (hstep : w.step cc key = some w') :
    w'.Sound := by
  rcases h.step_cases hstep with ⟨htyped, hcursor, hscreen, -⟩ | ⟨hrunning, htyped, hscreen, hshows⟩
  · refine ⟨by rw [hcursor, hscreen]; exact h.shows, ?_⟩
    rw [htyped, hscreen]
    exact h.wrapped
  refine ⟨hshows, ?_⟩
  rw [htyped, hscreen]
  have hpos : 0 < maxColumns := Nat.succ_pos _
  by_cases hblank : isBlank key.c = true
  · by_cases hnl : key.c = newline
    · rw [printedScreen, if_pos hnl, write_newline]
      exact h.wrapped.newLine hpos hblank
    rw [printedScreen, if_neg hnl, typedScreen]
    by_cases hfull : w.editor.screen.line.length = maxColumns
    · rw [if_pos hfull, if_pos (.inl hblank), write_newline]
      exact h.wrapped.newLine hpos hblank
    · rw [if_neg hfull, write_text (by simpa [isNewline] using hnl)]
      exact h.wrapped.blank hpos hblank
  · rw [Bool.not_eq_true] at hblank
    by_cases hfull : w.editor.screen.line.length = maxColumns
    · obtain ⟨hbeyond, hend⟩ := hsound hrunning hfull hblank
      rw [printedScreen_full h.shows hfull hblank, hbeyond, if_neg Bool.false_ne_true]
      exact h.wrapped.carry hfull hblank hend
    · have hnl := isNewline_eq_false hblank
      rw [printedScreen, if_neg (by simpa [isNewline] using hnl), typedScreen, if_neg hfull,
        write_text (by simpa using hnl)]
      exact h.wrapped.letter hblank

theorem Sound.not_textKept (h : w.Sound) (hsound : ¬CarrySound w key)
    (hstep : w.step cc key = some w') : ¬w'.TextKept := by
  intro hkept
  simp only [CarrySound, Classical.not_imp] at hsound
  obtain ⟨hrunning, hfull, hblank, hbad⟩ := hsound
  rcases h.step_cases hstep with ⟨-, -, -, hnot⟩ | ⟨-, htyped, hscreen, -⟩
  · exact hnot hrunning hfull
  have hbefore := congrArg List.length h.textKept.characters
  have hafter := congrArg List.length hkept.characters
  rw [lines, htyped, hscreen, printedScreen_full h.shows hfull hblank] at hafter
  simp only [lines, letters, ← List.countP_eq_length_filter, List.flatten_append,
    List.flatten_singleton, List.countP_append, List.countP_singleton, hblank, Bool.not_false,
    if_true] at hbefore hafter
  by_cases hbeyond : isspaceSizeT key.beyond = true
  · rw [if_pos hbeyond] at hafter
    simp only [List.flatten_append, List.flatten_singleton, List.countP_append,
      List.countP_nil] at hafter
    omega
  · rw [if_neg hbeyond] at hafter
    rw [Bool.not_eq_true] at hbeyond
    obtain ⟨hend, hword⟩ := Classical.not_imp.mp fun hend => hbad ⟨hbeyond, hend⟩
    have hless := countP_lt_carry hfull hend hword
    simp only [List.flatten_append, List.flatten_singleton, List.countP_append,
      List.countP_singleton, hblank, Bool.not_false, if_true] at hafter
    rw [List.countP_append, carriedWord_eq] at hless
    omega

/-! ### Runs -/

/-- The text is kept exactly as long as no word is carried over from a line that ends with
blanks behind it, and what is read behind a full line is no white space. -/
theorem text_kept_iff (cc : ControlChars) (keys : List (PrintKey cc)) :
    RunKeeps TextKept (step cc) start keys ↔ RunMeets CarrySound (step cc) start keys := by
  refine runKeeps_iff_runMeets (fun _ h => h.textKept) (fun _ _ _ h hsound hstep =>
    h.step hsound hstep) (fun _ _ _ h hsound hstep => h.not_textKept hsound hstep)
    (fun w key h => ?_) Sound.start keys
  obtain ⟨editor, heditor, -⟩ := Editor.step_shows cc w.editor key.toKey ⟨_, h.shows⟩
  exact ⟨_, by rw [step, heditor]; rfl⟩

/-- A key of the usual terminal. Behind a full line the program finds its length. -/
def usualKey (c : CChar) (h : isPrintable c = true ∧ isControl c 0x7F = false ∧
    isControl c 0x17 = false ∧ isControl c 0x15 = false) : PrintKey .usual :=
  ⟨⟨c, 40⟩, h.1, h.2.1, h.2.2.1, h.2.2.2⟩

/-- `a` is carried over from behind blanks: it is shown twice, and joined to `b`. -/
theorem text_not_kept_behind_blanks :
    ¬RunKeeps TextKept (step .usual) start
      (usualKey 0x61 (by decide) :: List.replicate 39 (usualKey 0x20 (by decide)) ++
        [usualKey 0x62 (by decide)]) := by
  intro h
  have hany : (run (step .usual) start (usualKey 0x61 (by decide) ::
      List.replicate 39 (usualKey 0x20 (by decide)) ++ [usualKey 0x62 (by decide)])).any
        (fun w => letters w.lines.flatten = [0x61, 0x61, 0x62] ∧
          letters w.typed = [0x61, 0x62]) = true := by
    decide +kernel
  obtain ⟨w, hrun, hkept⟩ := h.last
  rw [hrun, Option.any_some, decide_eq_true_eq] at hany
  have hcharacters := hkept.characters
  rw [hany.1, hany.2] at hcharacters
  exact absurd hcharacters (by decide)

end Typing

end UnixLabs.Lab17
