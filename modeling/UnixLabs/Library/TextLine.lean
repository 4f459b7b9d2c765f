import Mathlib.Data.List.DropRight
import Mathlib.Logic.Function.Iterate
import Mathlib.Tactic.Common

/-!
The current line of a terminal, and the last word of a text.

A terminal shows text line by line: a newline starts an empty line, any other
character takes one cell, and cells are erased from the end of the line. Blanks part
the words of a text, and those after its last word belong to no word.
-/

namespace UnixLabs.Library

variable {α : Type*}

/-- The finished lines of a terminal and the one the cursor is on. -/
structure Screen (α : Type*) where
  above : List (List α)
  line : List α

namespace Screen

def put (isNewline : α → Bool) (s : Screen α) (c : α) : Screen α :=
  if isNewline c then ⟨s.above ++ [s.line], []⟩ else { s with line := s.line ++ [c] }

def print (isNewline : α → Bool) (s : Screen α) (text : List α) : Screen α :=
  text.foldl (put isNewline) s

def erase (s : Screen α) : Screen α := { s with line := s.line.dropLast }

theorem put_newline {isNewline : α → Bool} {c : α} (h : isNewline c = true) (s : Screen α) :
    s.put isNewline c = ⟨s.above ++ [s.line], []⟩ := if_pos h

theorem print_eq {isNewline : α → Bool} {text : List α} (h : ∀ c ∈ text, isNewline c = false)
    (s : Screen α) : s.print isNewline text = { s with line := s.line ++ text } := by
  induction text generalizing s with
  | nil => rw [List.append_nil]; rfl
  | cons c text ih =>
      rw [List.forall_mem_cons] at h
      have hput : s.put isNewline c = { s with line := s.line ++ [c] } := by
        rw [put, if_neg (by simp [h.1])]
      rw [print, List.foldl_cons, hput]
      exact (ih h.2 _).trans (by simp)

theorem iterate_erase_eq (n : ℕ) (s : Screen α) :
    erase^[n] s = { s with line := s.line.take (s.line.length - n) } := by
  induction n generalizing s with
  | zero => simp
  | succ n ih =>
      rw [Function.iterate_succ_apply, ih, erase, List.dropLast_eq_take]
      simp only [List.take_take, List.length_take]
      congr 2
      omega

end Screen

/-- What is left when the blanks at the end and the word before them are deleted. -/
def beforeLastWord (isBlank : α → Bool) (text : List α) : List α :=
  (text.rdropWhile isBlank).rdropWhile fun c => !isBlank c

def lastWord (isBlank : α → Bool) (text : List α) : List α :=
  (text.drop (beforeLastWord isBlank text).length).takeWhile fun c => !isBlank c

theorem beforeLastWord_prefix (isBlank : α → Bool) (text : List α) :
    beforeLastWord isBlank text <+: text :=
  (List.rdropWhile_prefix _ _).trans (List.rdropWhile_prefix _ _)

theorem lastWord_eq (isBlank : α → Bool) (text : List α) :
    lastWord isBlank text = (text.rdropWhile isBlank).rtakeWhile fun c => !isBlank c := by
  obtain ⟨word, hword⟩ : ∃ word,
    (text.rdropWhile isBlank).rtakeWhile (fun c => !isBlank c) = word := ⟨_, rfl⟩
  have hsplit : beforeLastWord isBlank text ++ (word ++ text.rtakeWhile isBlank) = text := by
    rw [← List.append_assoc, ← hword, beforeLastWord, List.rdropWhile_append_rtakeWhile,
      List.rdropWhile_append_rtakeWhile]
  have hdrop : text.drop (beforeLastWord isBlank text).length =
      word ++ text.rtakeWhile isBlank := by
    obtain ⟨front, hfront⟩ : ∃ front, beforeLastWord isBlank text = front := ⟨_, rfl⟩
    rw [hfront] at hsplit ⊢
    conv_lhs => rw [← hsplit]
    exact List.drop_left
  have hnone : (text.rtakeWhile isBlank).takeWhile (fun c => !isBlank c) = [] := by
    rw [List.takeWhile_eq_nil_iff]
    intro hl
    simpa using List.mem_rtakeWhile_imp (List.getElem_mem hl)
  rw [hword, lastWord, hdrop, List.takeWhile_append_of_pos, hnone, List.append_nil]
  intro c hc
  rw [← hword] at hc
  exact List.mem_rtakeWhile_imp (p := fun c => !isBlank c) hc

/-- A text is what stands before its last word, this word, and blanks. -/
theorem beforeLastWord_append_lastWord (isBlank : α → Bool) (text : List α) :
    beforeLastWord isBlank text ++ lastWord isBlank text ++ text.rtakeWhile isBlank = text := by
  rw [lastWord_eq, beforeLastWord, List.rdropWhile_append_rtakeWhile,
    List.rdropWhile_append_rtakeWhile]

theorem mem_of_mem_lastWord {isBlank : α → Bool} {text : List α} {c : α}
    (h : c ∈ lastWord isBlank text) : c ∈ text := by
  rw [← beforeLastWord_append_lastWord isBlank text]
  exact List.mem_append_left _ (List.mem_append_right _ h)

theorem length_lastWord_le (isBlank : α → Bool) (text : List α) :
    (beforeLastWord isBlank text).length + (lastWord isBlank text).length ≤ text.length := by
  conv_rhs => rw [← beforeLastWord_append_lastWord isBlank text]
  simp

end UnixLabs.Library
