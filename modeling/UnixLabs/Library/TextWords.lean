import UnixLabs.Library.TextLine

/-!
The words of a text, and lines that show them.

A line has a limit. A word that does not fit on its line is carried over to a line of its
own, unless it has a whole line already: only then it is broken.
-/

namespace UnixLabs.Library

variable {α : Type*} {isBlank : α → Bool} {text front word : List α} {c : α}

/-! ### Words -/

/-- The longest parts of a text without blanks. -/
def words (isBlank : α → Bool) (text : List α) : List (List α) :=
  (text.splitOnP isBlank).filter fun word => !word.isEmpty

@[simp] theorem words_nil : words isBlank ([] : List α) = [] := rfl

theorem words_append_cons (front back : List α) (h : isBlank c = true) :
    words isBlank (front ++ c :: back) = words isBlank front ++ words isBlank back := by
  rw [words, List.splitOnP_append_cons _ _ h, List.filter_append]
  rfl

theorem words_concat_blank (text : List α) (h : isBlank c = true) :
    words isBlank (text ++ [c]) = words isBlank text := by
  rw [words_append_cons text [] h, words_nil, List.append_nil]

theorem words_word (h : ∀ c ∈ word, isBlank c = false) (hne : word ≠ []) :
    words isBlank word = [word] := by
  rw [words, List.splitOnP_eq_singleton h]
  simp [hne]

theorem flatten_words (isBlank : α → Bool) (text : List α) :
    (words isBlank text).flatten = text.filter fun c => !isBlank c := by
  rw [show (words isBlank text).flatten = (text.splitOnP isBlank).flatten from
    List.flatten_filter_not_isEmpty]
  induction text with
  | nil => rfl
  | cons c text ih =>
      rw [List.splitOnP_cons_eq_if_modifyHead]
      by_cases hblank : isBlank c = true
      · rw [if_pos hblank, List.filter_cons_of_neg (by simp [hblank]), ← ih]
        rfl
      · rw [if_neg hblank, List.filter_cons_of_pos (by simp [hblank]), ← ih]
        obtain ⟨head, tail, hsplit⟩ := List.exists_cons_of_ne_nil
          (List.splitOnP_ne_nil isBlank text)
        rw [hsplit]
        rfl

/-- What stands before a word: nothing, or a text with a blank at its end. -/
def EndsBlank (isBlank : α → Bool) (text : List α) : Prop := ∀ c ∈ text.getLast?, isBlank c = true

theorem endsBlank_nil : EndsBlank isBlank ([] : List α) := by simp [EndsBlank]

theorem endsBlank_concat (text : List α) (h : isBlank c = true) :
    EndsBlank isBlank (text ++ [c]) := by
  simpa [EndsBlank] using h

theorem EndsBlank.words_append (h : EndsBlank isBlank front) (back : List α) :
    words isBlank (front ++ back) = words isBlank front ++ words isBlank back := by
  rcases List.eq_nil_or_concat front with rfl | ⟨front, c, rfl⟩
  · rfl
  · have hc : isBlank c = true := h c (by simp)
    rw [List.concat_eq_append, List.append_assoc, List.singleton_append, words_append_cons _ _ hc,
      words_concat_blank _ hc]

theorem EndsBlank.lastWord_append (h : EndsBlank isBlank front)
    (hword : ∀ c ∈ word, isBlank c = false) (hne : word ≠ []) :
    lastWord isBlank (front ++ word) = word := by
  have hlast : (front ++ word).rdropWhile isBlank = front ++ word := by
    rw [List.rdropWhile_eq_self_iff]
    intro hl
    rw [List.getLast_append_of_right_ne_nil _ _ hne, hword _ (List.getLast_mem hne)]
    exact Bool.false_ne_true
  have hfront : front.reverse.takeWhile (fun c => !isBlank c) = [] := by
    rcases List.eq_nil_or_concat front with rfl | ⟨front, c, rfl⟩
    · rfl
    · have hc : isBlank c = true := h c (by simp)
      rw [List.concat_eq_append, List.reverse_concat, List.takeWhile_cons_of_neg (by simp [hc])]
  rw [lastWord_eq, hlast, List.rtakeWhile, List.reverse_append, List.takeWhile_append_of_pos,
    hfront, List.append_nil, List.reverse_reverse]
  intro c hc
  rw [hword c (List.mem_reverse.mp hc)]
  rfl

theorem lastWord_eq_nil_iff : lastWord isBlank text = [] ↔ ∀ c ∈ text, isBlank c = true := by
  rw [lastWord_eq, List.rtakeWhile_eq_nil_iff, ← List.rdropWhile_eq_nil_iff]
  constructor
  · intro h
    by_contra hne
    exact h hne (by simpa using List.rdropWhile_last_not isBlank text hne)
  · intro h hne
    exact absurd h hne

theorem isBlank_of_mem_lastWord (h : c ∈ lastWord isBlank text) : isBlank c = false := by
  rw [lastWord_eq] at h
  simpa using List.mem_rtakeWhile_imp h

/-! ### Lines -/

/-- The words that are shown are parts of those that are typed, in order, and a word below
the limit is shown as it is. -/
def Broken (limit : ℕ) (typed shown : List (List α)) : Prop :=
  ∃ pieces : List (List (List α)), shown = pieces.flatten ∧ typed = pieces.map List.flatten ∧
    ∀ p ∈ pieces, p.flatten.length < limit → p = [p.flatten]

namespace Broken

variable {limit : ℕ} {typed shown : List (List α)}

theorem nil : Broken limit ([] : List (List α)) [] := ⟨[], rfl, rfl, List.forall_mem_nil _⟩

theorem flatten_eq (h : Broken limit typed shown) : shown.flatten = typed.flatten := by
  obtain ⟨pieces, rfl, rfl, -⟩ := h
  exact List.flatten_flatten

theorem concat (h : Broken limit typed shown) {parts : List (List α)}
    (hparts : parts.flatten.length < limit → parts = [parts.flatten]) :
    Broken limit (typed ++ [parts.flatten]) (shown ++ parts) := by
  obtain ⟨pieces, rfl, rfl, hpieces⟩ := h
  refine ⟨pieces ++ [parts], by simp, by simp, ?_⟩
  rw [List.forall_mem_append, List.forall_mem_singleton]
  exact ⟨hpieces, hparts⟩

end Broken

def lineWords (isBlank : α → Bool) (lines : List (List α)) : List (List α) :=
  lines.flatMap (words isBlank)

/-- The word that is carried over from a full line: its last one, unless this is the whole
line. -/
def carriedWord (isBlank : α → Bool) (limit : ℕ) (line : List α) : List α :=
  if (lastWord isBlank line).length = limit then [] else lastWord isBlank line

/-- Behind `before`, whose words the `lines` and the start of the last line show, comes the
word that is typed: it fills the lines `full`, and `word` is the rest of it. -/
structure Wraps (isBlank : α → Bool) (limit : ℕ) (before : List α) (lines full : List (List α))
    (front word : List α) : Prop where
  parted : EndsBlank isBlank before ∧ EndsBlank isBlank front
  shown : Broken limit (words isBlank before) (lineWords isBlank (lines ++ [front]))
  noBlank : ∀ c ∈ word, isBlank c = false
  filled : ∀ line ∈ full, line.length = limit ∧ ∀ c ∈ line, isBlank c = false
  begun : word = [] → full = []
  alone : full ≠ [] → front = []

def Wrapped (isBlank : α → Bool) (limit : ℕ) (typed : List α) (above : List (List α))
    (line : List α) : Prop :=
  ∃ before lines full front word, Wraps isBlank limit before lines full front word ∧
    typed = before ++ full.flatten ++ word ∧ above = lines ++ full ∧ line = front ++ word

theorem lineWords_append (front back : List (List α)) :
    lineWords isBlank (front ++ back) = lineWords isBlank front ++ lineWords isBlank back :=
  List.flatMap_append

theorem lineWords_singleton (line : List α) : lineWords isBlank [line] = words isBlank line :=
  List.flatMap_singleton _ _

theorem lineWords_concat_nil (lines : List (List α)) :
    lineWords isBlank (lines ++ [[]]) = lineWords isBlank lines := by
  rw [lineWords_append, lineWords_singleton, words_nil, List.append_nil]

section

variable {limit : ℕ} {typed before line : List α} {above lines full : List (List α)}

theorem lineWords_full (hlimit : 0 < limit)
    (h : ∀ line ∈ full, line.length = limit ∧ ∀ c ∈ line, isBlank c = false) :
    lineWords isBlank full = full := by
  induction full with
  | nil => rfl
  | cons line full ih =>
      rw [List.forall_mem_cons] at h
      have hne : line ≠ [] := List.ne_nil_of_length_pos (h.1.1 ▸ hlimit)
      rw [lineWords, List.flatMap_cons, words_word h.1.2 hne]
      exact congrArg (line :: ·) (ih h.2)

theorem Wraps.broken (hlimit : 0 < limit) (h : Wraps isBlank limit before lines full front word) :
    Broken limit (words isBlank (before ++ full.flatten ++ word))
      (lineWords isBlank (lines ++ full ++ [front ++ word])) := by
  by_cases hword : word = []
  · rw [h.begun hword, hword, List.flatten_nil, List.append_nil, List.append_nil,
      List.append_nil, List.append_nil]
    exact h.shown
  have hfullWord : ∀ c ∈ full.flatten ++ word, isBlank c = false := by
    intro c hc
    rcases List.mem_append.mp hc with hc | hc
    · obtain ⟨line, hline, hc⟩ := List.mem_flatten.mp hc
      exact (h.filled line hline).2 c hc
    · exact h.noBlank c hc
  have htyped : words isBlank (before ++ full.flatten ++ word) =
      words isBlank before ++ [(full ++ [word]).flatten] := by
    rw [List.append_assoc, h.parted.1.words_append, words_word hfullWord (by simp [hword]),
      List.flatten_append, List.flatten_singleton]
  have hshown : lineWords isBlank (lines ++ full ++ [front ++ word]) =
      lineWords isBlank (lines ++ [front]) ++ (full ++ [word]) := by
    rw [lineWords_append, lineWords_append, lineWords_append, lineWords_singleton,
      lineWords_singleton, h.parted.2.words_append, words_word h.noBlank hword,
      lineWords_full hlimit h.filled]
    by_cases hfull : full = []
    · simp [hfull]
    · simp [h.alone hfull]
  rw [htyped, hshown]
  refine h.shown.concat fun hshort => ?_
  have hnil : full = [] := by
    cases full with
    | nil => rfl
    | cons line full =>
        have hline := (h.filled line List.mem_cons_self).1
        rw [List.cons_append, List.flatten_cons, List.length_append] at hshort
        omega
  rw [hnil]
  simp

namespace Wrapped

theorem nil : Wrapped isBlank limit ([] : List α) [] [] :=
  ⟨[], [], [], [], [], ⟨⟨endsBlank_nil, endsBlank_nil⟩, Broken.nil, List.forall_mem_nil _,
    List.forall_mem_nil _, fun _ => rfl, fun _ => rfl⟩, rfl, rfl, rfl⟩

theorem broken (hlimit : 0 < limit) (h : Wrapped isBlank limit typed above line) :
    Broken limit (words isBlank typed) (lineWords isBlank (above ++ [line])) := by
  obtain ⟨before, lines, full, front, word, h, rfl, rfl, rfl⟩ := h
  exact h.broken hlimit

/-- Behind a blank, with these lines above and this start of the last one. -/
theorem of_blank (hc : isBlank c = true) (hfront : EndsBlank isBlank front)
    (h : Broken limit (words isBlank typed) (lineWords isBlank (lines ++ [front]))) :
    Wrapped isBlank limit (typed ++ [c]) lines front := by
  rw [← words_concat_blank typed hc] at h
  refine ⟨typed ++ [c], lines, [], front, [], ⟨⟨endsBlank_concat _ hc, hfront⟩, h,
    List.forall_mem_nil _, List.forall_mem_nil _, fun _ => rfl, fun hne => absurd rfl hne⟩, ?_, ?_,
    ?_⟩
  all_goals simp

theorem blank (hlimit : 0 < limit) (h : Wrapped isBlank limit typed above line)
    (hc : isBlank c = true) : Wrapped isBlank limit (typed ++ [c]) above (line ++ [c]) := by
  refine of_blank hc (endsBlank_concat line hc) ?_
  rw [lineWords_append, lineWords_singleton, words_concat_blank line hc,
    ← lineWords_singleton line, ← lineWords_append]
  exact h.broken hlimit

theorem newLine (hlimit : 0 < limit) (h : Wrapped isBlank limit typed above line)
    (hc : isBlank c = true) : Wrapped isBlank limit (typed ++ [c]) (above ++ [line]) [] := by
  refine of_blank hc endsBlank_nil ?_
  rw [lineWords_concat_nil]
  exact h.broken hlimit

theorem letter (h : Wrapped isBlank limit typed above line) (hc : isBlank c = false) :
    Wrapped isBlank limit (typed ++ [c]) above (line ++ [c]) := by
  obtain ⟨before, lines, full, front, word, h, rfl, rfl, rfl⟩ := h
  refine ⟨before, lines, full, front, word ++ [c], { h with noBlank := ?_, begun := ?_ }, ?_, rfl,
    ?_⟩
  · rw [List.forall_mem_append, List.forall_mem_singleton]
    exact ⟨h.noBlank, hc⟩
  · exact fun hnil => absurd hnil (by simp)
  · simp
  · simp

theorem of_newLine (hbefore : EndsBlank isBlank before)
    (hshown : Broken limit (words isBlank before) (lineWords isBlank (lines ++ [front])))
    (hword : ∀ c ∈ word, isBlank c = false) (hc : isBlank c = false) :
    Wrapped isBlank limit (before ++ word ++ [c]) (lines ++ [front]) (word ++ [c]) := by
  refine ⟨before, lines ++ [front], [], [], word ++ [c], ⟨⟨hbefore, endsBlank_nil⟩, ?_, ?_,
    List.forall_mem_nil _, fun _ => rfl, fun hne => absurd rfl hne⟩, ?_, ?_, rfl⟩
  · rw [lineWords_concat_nil]
    exact hshown
  · rw [List.forall_mem_append, List.forall_mem_singleton]
    exact ⟨hword, hc⟩
  all_goals simp

/-- A character is typed on a full line that ends with a word, or has none. This word is
carried over to a new line. -/
theorem carry (h : Wrapped isBlank limit typed above line) (hfull : line.length = limit)
    (hc : isBlank c = false)
    (hend : EndsBlank isBlank line → ∀ c ∈ line, isBlank c = true) :
    Wrapped isBlank limit (typed ++ [c])
      (above ++ [line.take (line.length - (carriedWord isBlank limit line).length)])
      (carriedWord isBlank limit line ++ [c]) := by
  obtain ⟨before, lines, full, front, word, h, rfl, rfl, rfl⟩ := h
  by_cases hword : word = []
  · -- a line of blanks stays above
    subst hword
    obtain rfl := h.begun rfl
    rw [List.append_nil front] at hfull hend ⊢
    have hblank := hend h.parted.2
    have hlast : lastWord isBlank front = [] := lastWord_eq_nil_iff.mpr hblank
    have hcarried : carriedWord isBlank limit front = [] := by
      rw [carriedWord, hlast]
      split_ifs <;> rfl
    rw [hcarried, List.length_nil, Nat.sub_zero, List.take_length, List.append_nil lines,
      List.flatten_nil, List.append_nil before]
    exact of_newLine h.parted.1 h.shown h.noBlank hc
  have hlast := h.parted.2.lastWord_append h.noBlank hword
  by_cases hwhole : word.length = limit
  · -- the word has filled one more line
    obtain rfl : front = [] := by
      rw [List.length_append] at hfull
      exact List.length_eq_zero_iff.mp (by omega)
    have hcarried : carriedWord isBlank limit ([] ++ word) = [] := by
      rw [carriedWord, hlast, if_pos hwhole]
    rw [hcarried, List.length_nil, Nat.sub_zero, List.take_length, List.nil_append]
    refine ⟨before, lines, full ++ [word], [], [c], ⟨h.parted, h.shown, by simpa using hc, ?_,
      fun hnil => absurd hnil (by simp), fun _ => rfl⟩, ?_, ?_, rfl⟩
    · rw [List.forall_mem_append, List.forall_mem_singleton]
      exact ⟨h.filled, hwhole, h.noBlank⟩
    all_goals simp
  · -- the word leaves the line
    have hcarried : carriedWord isBlank limit (front ++ word) = word := by
      rw [carriedWord, hlast, if_neg hwhole]
    obtain rfl : full = [] := by
      by_contra hne
      rw [h.alone hne] at hfull
      exact hwhole hfull
    rw [hcarried, List.length_append, Nat.add_sub_cancel, List.take_left, List.append_nil lines,
      List.flatten_nil, List.append_nil before]
    exact of_newLine h.parted.1 h.shown h.noBlank hc

end Wrapped

/-- The last word is not the whole line when there are blanks behind it. -/
theorem length_lastWord_lt (hend : EndsBlank isBlank line) (hne : line ≠ []) :
    (lastWord isBlank line).length < line.length := by
  have hle := length_lastWord_le isBlank line
  refine lt_of_le_of_ne (by omega) fun hwhole => ?_
  have hsplit := beforeLastWord_append_lastWord isBlank line
  have hlength := congrArg List.length hsplit
  simp only [List.length_append] at hlength
  have hbefore : beforeLastWord isBlank line = [] := List.length_eq_zero_iff.mp (by omega)
  have hbehind : line.rtakeWhile isBlank = [] := List.length_eq_zero_iff.mp (by omega)
  rw [hbefore, hbehind, List.nil_append, List.append_nil] at hsplit
  have hmem : line.getLast hne ∈ lastWord isBlank line := hsplit.symm ▸ List.getLast_mem hne
  have hlast := hend _ (List.getLast?_eq_some_getLast hne)
  rw [isBlank_of_mem_lastWord hmem] at hlast
  cases hlast

/-- When the line ends with blanks behind a word, the cells that are erased are not all
those of the word, which is shown once more. -/
theorem countP_lt_carry (hfull : line.length = limit) (hend : EndsBlank isBlank line)
    (hword : ¬∀ c ∈ line, isBlank c = true) :
    line.countP (fun c => !isBlank c) <
      (line.take (line.length - (carriedWord isBlank limit line).length) ++
        carriedWord isBlank limit line).countP fun c => !isBlank c := by
  have hne : lastWord isBlank line ≠ [] := fun hnil => hword (lastWord_eq_nil_iff.mp hnil)
  have hnonempty : line ≠ [] := fun hnil => hword (hnil ▸ List.forall_mem_nil _)
  have hlast : isBlank (line.getLast hnonempty) = true :=
    hend _ (List.getLast?_eq_some_getLast hnonempty)
  have hle := length_lastWord_lt hend hnonempty
  have hcarried : carriedWord isBlank limit line = lastWord isBlank line :=
    if_neg (hle.trans_eq hfull).ne
  have hpos := List.length_pos_of_ne_nil hne
  obtain ⟨erased, herased⟩ :
    ∃ erased, line.drop (line.length - (lastWord isBlank line).length) = erased := ⟨_, rfl⟩
  have herasedLength : erased.length = (lastWord isBlank line).length := by
    rw [← herased, List.length_drop]
    omega
  have hless : erased.countP (fun c => !isBlank c) < erased.length := by
    refine lt_of_le_of_ne List.countP_le_length fun hall => ?_
    have hmem : line.getLast hnonempty ∈ erased := by
      apply List.mem_of_getLast?
      rw [← herased, List.getLast?_drop, if_neg (by omega), List.getLast?_eq_some_getLast hnonempty]
    have := List.countP_eq_length.mp hall _ hmem
    rw [hlast] at this
    cases this
  have hall : (lastWord isBlank line).countP (fun c => !isBlank c) =
      (lastWord isBlank line).length :=
    List.countP_eq_length.mpr fun c hc => by rw [isBlank_of_mem_lastWord hc]; rfl
  conv_lhs => rw [← List.take_append_drop (line.length - (lastWord isBlank line).length) line]
  rw [hcarried, List.countP_append, List.countP_append, herased, hall]
  omega

end

end UnixLabs.Library
