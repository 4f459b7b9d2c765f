import UnixLabs.Lab6
import UnixLabs.Lab5
import UnixLabs.Decimal
import UnixLabs.Library.Pieces

/-!
The loop of `main` in lab5, lab6, lab7 and lab7-1: a line number is asked for and the line is
printed, until something else is typed, or nothing in time.

The loops are the same but for the conversions in a message, and `poll`, which lab5 does not
call. What a session consists of does not depend on the program; `replies` says it without
the tables.
-/

namespace UnixLabs

open Library

def ascii (s : String) : List CChar := s.toList.map fun c => BitVec.ofNat 8 c.toNat

def prompt : List CChar := ascii "Type line number: "

/-- What `poll` answers; a failure with the reason that `perror` prints. -/
inductive Poll
  | ready
  | timeout
  | failed (reason : List CChar)

/-! ### Messages -/

def notPositive : List CChar := ascii "Line number must be positive\n"

/-- The count comes as it was converted. -/
def exceeds (count : List CChar) : List CChar :=
  ascii "Line number must not exceed line count (" ++ count ++ ascii ")\n"

def pollFailed (reason : List CChar) : List CChar := ascii "poll: " ++ reason ++ ascii "\n"

/-- The process still waits in `poll`, or it has exited. -/
inductive Ending
  | waits
  | success
  | failure
  deriving DecidableEq

structure Session where
  out : List CChar
  err : List CChar
  ending : Ending

def Session.after (out err : List CChar) (s : Session) : Session :=
  ⟨out ++ s.out, err ++ s.err, s.ending⟩

/-- The functions of one of the programs: `print_line` leaves what it prints, or nothing
where it answers `EXIT_FAILURE`. What is said then is said of a line that was asked for, or
after a time-out. -/
structure LineProgram (τ : Type) where
  count : τ → ℕ
  printLine : τ → ℕ → Option (Option (List CChar) × τ)
  countText : ℕ → List CChar
  notPrinted : Option ℕ → List CChar

namespace LineProgram

variable {τ : Type} (p : LineProgram τ)

def printFrom : ℕ → ℕ → τ → Option Session
  | 0, _, _ => some ⟨[], [], .success⟩
  | left + 1, i, t => do
      let (line, t) ← p.printLine t i
      match line with
      | none => some ⟨[], p.notPrinted none, .failure⟩
      | some line => (printFrom left (i + 1) t).map (.after line [])

/-- The loop of `main`. `typed` is all that will be typed; `scanf` waits for it. -/
def mainLoop : List Poll → τ → List CChar → Option Session
  | [], _, _ => some ⟨prompt, [], .waits⟩
  | .failed reason :: _, _, _ => some ⟨prompt, pollFailed reason, .failure⟩
  | .timeout :: _, t, _ => (p.printFrom (p.count t) 0 t).map (.after prompt [])
  | .ready :: polls, t, typed =>
      match scanNumber typed with
      | none => some ⟨prompt, [], .success⟩
      | some (number, typed) =>
          let lineNum := clampLong number
          if lineNum = 0 then some ⟨prompt, [], .success⟩
          else if lineNum < 0 then
            (mainLoop polls t typed).map (.after prompt notPositive)
          else if sizeT lineNum > p.count t then
            (mainLoop polls t typed).map (.after prompt (exceeds (p.countText (p.count t))))
          else do
            let (line, t) ← p.printLine t (sizeT (lineNum - 1))
            match line with
            | none => some ⟨prompt, p.notPrinted (some (sizeT (lineNum - 1))), .failure⟩
            | some line => (mainLoop polls t typed).map (.after (prompt ++ line) [])

end LineProgram

theorem length_scanNumber {typed rest : List CChar} {number : ℤ}
    (h : scanNumber typed = some (number, rest)) : rest.length < typed.length := by
  obtain ⟨sign, hsign, -⟩ := splitSign_spec (typed.dropWhile isSpace)
  have hblanks := (List.dropWhile_suffix isSpace (l := typed)).length_le
  have hsplit := congrArg List.length
    (List.takeWhile_append_dropWhile (p := isDigit) (l := (splitSign (typed.dropWhile isSpace)).2))
  have htotal := congrArg List.length hsign
  rw [List.length_append] at hsplit htotal
  obtain ⟨hdigits, hresult⟩ := Option.ite_none_left_eq_some.mp h
  obtain ⟨-, rfl⟩ := Prod.mk.inj (Option.some_inj.mp hresult)
  have hpos := List.length_pos_of_ne_nil hdigits
  omega

/-! ### The programs -/

/-- `print_line` of lab5: a string is printed. `read` is taken to fill the buffer. -/
def Lab5.printLine (file : List CChar) (t : Lab5.LineTable) (index : ℕ) : Option (List CChar) := do
  let line ← readBytes file (t.offsets index) (t.lengths index)
  some (line.takeWhile (· ≠ 0) ++ [newline])

def longText (n : ℕ) : List CChar := decimalInt ((n : ℤ).bmod (2 ^ 64))

def Lab5.program (file : List CChar) : LineProgram Lab5.LineTable where
  count t := t.count
  printLine t i := (Lab5.printLine file t i).map fun line => (some line, t)
  countText := longText
  notPrinted _ := []

/-- lab5 does not ask `poll`, so nothing ends its wait. -/
def Lab5.mainLoop (file : List CChar) (fuel : ℕ) (t : Lab5.LineTable) (typed : List CChar) :
    Option Session :=
  (Lab5.program file).mainLoop (List.replicate fuel .ready) t typed

def Lab6.program (file : List CChar) : LineProgram LineTable where
  count t := t.count
  printLine t i := (Lab6.printLine file t i).map fun line => (some line, t)
  countText := longText
  notPrinted _ := []

/-- What lab7 and lab7-1 say of a line. After a time-out there is no variable `index` in
scope, and the name is that of a function of the library. -/
def notPrinted (index : ℤ) (asked : Option ℕ) : List CChar :=
  ascii "Couldn't print line " ++ percentD (asked.elim index (↑)) ++ ascii "\n"

def Lab7.program (file : List CChar) (pageSize : ℕ) (index : ℤ) : LineProgram Lab7.LineTable where
  count t := t.count
  printLine := Lab7.printLine file pageSize ⟨true, true⟩
  countText n := percentD n
  notPrinted := notPrinted index

def Lab71.program (index : ℤ) : LineProgram Lab71.LineTable where
  count t := t.count
  printLine t i := (Lab71.printLine t i).map fun line => (some line, t)
  countText n := percentD n
  notPrinted := notPrinted index

/-! ### What a session consists of -/

inductive Reply
  | line (i : ℕ)
  | all
  | notPositive
  | exceeds
  | failed (reason : List CChar)
  | nothing

def replies (count : ℕ) : List Poll → List CChar → List Reply × Ending
  | [], _ => ([.nothing], .waits)
  | .failed reason :: _, _ => ([.failed reason], .failure)
  | .timeout :: _, _ => ([.all], .success)
  | .ready :: polls, typed =>
      match scanNumber typed with
      | none => ([.nothing], .success)
      | some (number, typed) =>
          if number = 0 then ([.nothing], .success)
          else
            let reply : Reply :=
              if number < 0 then .notPositive
              else if number > count then .exceeds
              else .line (number - 1).toNat
            (reply :: (replies count polls typed).1, (replies count polls typed).2)

def Reply.indices (count : ℕ) : Reply → List ℕ
  | .line i => [i]
  | .all => List.range count
  | _ => []

def Reply.shown (count : ℕ) (line : ℕ → List CChar) (r : Reply) : List CChar :=
  prompt ++ (r.indices count).flatMap line

def Reply.message (countText : List CChar) : Reply → List CChar
  | .notPositive => UnixLabs.notPositive
  | .exceeds => UnixLabs.exceeds countText
  | .failed reason => pollFailed reason
  | _ => []

def answer (count : ℕ) (line : ℕ → List CChar) (countText : List CChar)
    (rs : List Reply × Ending) : Session :=
  ⟨rs.1.flatMap (Reply.shown count line), rs.1.flatMap (Reply.message countText), rs.2⟩

theorem answer_ending (count : ℕ) (line : ℕ → List CChar) (countText : List CChar)
    (rs : List Reply × Ending) : (answer count line countText rs).ending = rs.2 := rfl

theorem answer_err (count : ℕ) (line : ℕ → List CChar) (countText : List CChar)
    (rs : List Reply × Ending) :
    (answer count line countText rs).err = rs.1.flatMap (Reply.message countText) := rfl

theorem answer_cons (count : ℕ) (line : ℕ → List CChar) (countText : List CChar) (r : Reply)
    (rs : List Reply × Ending) : answer count line countText (r :: rs.1, rs.2) =
      (answer count line countText rs).after (r.shown count line) (r.message countText) := rfl

/-- When `poll` never times out, a session ends with the input at the latest. -/
theorem replies_ready {count fuel : ℕ} {typed : List CChar} (hfuel : typed.length < fuel) :
    (replies count (List.replicate fuel .ready) typed).2 = .success := by
  induction fuel generalizing typed with
  | zero => cases hfuel
  | succ fuel ih =>
      rw [List.replicate_succ, replies]
      cases hscan : scanNumber typed with
      | none => rfl
      | some r =>
          have hlength := length_scanNumber hscan
          rcases eq_or_ne r.1 0 with hzero | hzero
          · simp only [if_pos hzero]
          · simp only [if_neg hzero]
            exact ih (by omega)

structure LineProgram.Prints {τ : Type} (p : LineProgram τ) (I : τ → Prop) (count : ℕ)
    (line : ℕ → List CChar) : Prop where
  counts : ∀ t, I t → p.count t = count
  prints : ∀ t i, I t → i < count → ∃ t', p.printLine t i = some (some (line i), t') ∧ I t'

namespace LineProgram.Prints

variable {τ : Type} {p : LineProgram τ} {I : τ → Prop} {count : ℕ} {line : ℕ → List CChar}

theorem congr (h : p.Prints I count line) {count' : ℕ} {line' : ℕ → List CChar}
    (hcount : count = count') (hsame : ∀ i < count, line i = line' i) :
    p.Prints I count' line' := by
  subst hcount
  refine ⟨h.counts, fun t i ht hi => ?_⟩
  rw [← hsame i hi]
  exact h.prints t i ht hi

theorem printFrom (h : p.Prints I count line) {left i : ℕ} (hleft : i + left = count) {t : τ}
    (ht : I t) : p.printFrom left i t =
      some ⟨(List.range' i left).flatMap line, [], .success⟩ := by
  induction left generalizing i t with
  | zero => rfl
  | succ left ih =>
      obtain ⟨t', hline, ht'⟩ := h.prints t i ht (by omega)
      simp only [LineProgram.printFrom, hline, Option.bind_eq_bind, Option.bind_some,
        ih (show i + 1 + left = count by omega) ht', Option.map_some, List.range'_succ,
        List.flatMap_cons]
      rfl

/-- A number that is too large for a `long` is larger than the count all the same. -/
theorem sizeT_clampLong {number : ℤ} (hpos : 0 < number) (hcount : (count : ℤ) < longMax) :
    sizeT (clampLong number) > count ↔ number > count := by
  have hlong : longMax < 2 ^ 64 := by decide
  have hmin : longMin < 0 := by decide
  have hclamp : clampLong number = min number longMax := by
    rw [clampLong, if_neg (by omega)]
    split_ifs
    · omega
    · omega
  obtain ⟨k, hk⟩ : ∃ k : ℕ, clampLong number = k := Int.eq_ofNat_of_zero_le (by omega)
  rw [hk, sizeT_natCast (by omega)]
  omega

theorem mainLoop (h : p.Prints I count line) (hcount : (count : ℤ) < longMax) {t : τ} (ht : I t)
    (polls : List Poll) (typed : List CChar) : p.mainLoop polls t typed =
      some (answer count line (p.countText count) (replies count polls typed)) := by
  induction polls generalizing t typed with
  | nil => rfl
  | cons poll polls ih =>
      have hcounts := h.counts t ht
      cases poll with
      | failed reason =>
          simp [LineProgram.mainLoop, answer, replies, Reply.shown, Reply.indices, Reply.message]
      | timeout =>
          simp only [LineProgram.mainLoop, hcounts, h.printFrom (Nat.zero_add count) ht]
          rw [← List.range_eq_range']
          simp [answer, replies, Reply.shown, Reply.indices, Reply.message, Session.after]
      | ready =>
          rw [LineProgram.mainLoop, replies]
          rcases scanNumber typed with _ | ⟨number, typed⟩
          · rfl
          dsimp only
          rw [hcounts]
          rcases lt_trichotomy number 0 with hneg | rfl | hpos
          · have hclamp : clampLong number < 0 := by
              rw [clampLong, longMin, longMax]
              split_ifs <;> omega
            rw [if_neg hclamp.ne, if_pos hclamp, ih ht, if_neg hneg.ne, answer_cons, if_pos hneg,
              Option.map_some, Reply.shown]
            exact congrArg some (congrArg (Session.after · _ _) (List.append_nil _).symm)
          · rfl
          · have hclamp : 0 < clampLong number := by
              rw [clampLong, longMin, longMax]
              split_ifs <;> omega
            rw [if_neg hclamp.ne', if_neg hclamp.not_gt, if_neg hpos.ne', answer_cons,
              if_neg hpos.not_gt]
            by_cases hexceeds : number > count
            · rw [if_pos ((sizeT_clampLong hpos hcount).mpr hexceeds), ih ht, if_pos hexceeds,
                Option.map_some, Reply.shown]
              exact congrArg some (congrArg (Session.after · _ _) (List.append_nil _).symm)
            · have hsame : clampLong number = number :=
                clampLong_of_mem (by rw [longMin]; omega) (by omega)
              obtain ⟨i, rfl⟩ : ∃ i : ℕ, number = i + 1 :=
                ⟨(number - 1).toNat, by omega⟩
              have hindex : sizeT (clampLong (i + 1) - 1) = i := by
                rw [hsame, add_sub_cancel_right, sizeT_natCast (by rw [longMax] at hcount; omega)]
              obtain ⟨t', hline, ht'⟩ := h.prints t i ht (by omega)
              rw [if_neg (mt (sizeT_clampLong hpos hcount).mp hexceeds), hindex, hline,
                if_neg hexceeds, add_sub_cancel_right, Int.toNat_natCast, Option.bind_eq_bind,
                Option.bind_some]
              dsimp only
              rw [ih ht', Option.map_some, Reply.shown, Reply.indices, List.flatMap_singleton]
              rfl

end LineProgram.Prints

/-! ### The four programs print lines -/

def stringOutput (file : List CChar) (start stop : ℕ) : List CChar :=
  ((file.drop start).take (bareLength isNewline file start stop)).takeWhile (· ≠ 0) ++ [newline]

theorem Lab71.prints (index : ℤ) {file : List CChar} {t : Lab71.LineTable} (hcache : t.cache = file)
    (hlines : Lines isNewline file t.count t.offsets) :
    (Lab71.program index).Prints (· = t) t.count
      fun i => lineOutput file (t.offsets i) (t.offsets (i + 1)) where
  counts := by rintro t rfl; rfl
  prints := by
    rintro t i rfl hi
    refine ⟨t, ?_, rfl⟩
    show (Lab71.printLine t i).map _ = _
    rw [Lab71.printLine_spec hcache hlines hi]
    rfl

theorem Lab7.prints (index : ℤ) {file : List CChar} {pageSize : ℕ} {t : UnixLabs.LineTable}
    (hlines : Lines isNewline file t.count t.offsets) :
    (Lab7.program file pageSize index).Prints (Lab7.Windowed file pageSize t) t.count
      fun i => lineOutput file (t.offsets i) (t.offsets (i + 1)) where
  counts := by
    rintro lt h
    show lt.toLineTable.count = _
    rw [h.table]
  prints _ _ h hi := Lab7.printLine_spec h hlines hi

theorem Lab6.prints {file : List CChar} {t : LineTable}
    (hlines : Lines isNewline file t.count t.offsets) :
    (Lab6.program file).Prints (· = t) t.count
      fun i => lineOutput file (t.offsets i) (t.offsets (i + 1)) ++
        strayNul file (t.offsets (i + 1)) where
  counts := by rintro t rfl; rfl
  prints := by
    rintro t i rfl hi
    refine ⟨t, ?_, rfl⟩
    show (Lab6.printLine file t i).map _ = _
    rw [Lab6.printLine_spec hlines hi]
    rfl

theorem Lab5.prints {file : List CChar} {t : UnixLabs.LineTable}
    (hlines : Lines isNewline file t.count t.offsets) {t₅ : Lab5.LineTable}
    (hcount : t₅.count = t.count) (hsame : ∀ i < t.count, t₅.offsets i = t.offsets i ∧
      t₅.lengths i = bareLength isNewline file (t.offsets i) (t.offsets (i + 1))) :
    (Lab5.program file).Prints (· = t₅) t.count
      fun i => stringOutput file (t.offsets i) (t.offsets (i + 1)) where
  counts := by rintro t rfl; exact hcount
  prints := by
    rintro t₅ i rfl hi
    refine ⟨t₅, ?_, rfl⟩
    obtain ⟨hoffset, hlength⟩ := hsame i hi
    have hlt := hlines.increasing i hi
    have hstop := hlines.le_length hi
    have hbytes : readBytes file (t₅.offsets i) (t₅.lengths i) =
        some ((file.drop (t₅.offsets i)).take (t₅.lengths i)) := by
      apply if_pos
      rw [hoffset, hlength, bareLength]
      omega
    show (Lab5.printLine file t₅ i).map _ = _
    rw [Lab5.printLine, hbytes, Option.bind_eq_bind, Option.bind_some, hoffset, hlength]
    rfl

/-! ### What they have in common -/

def asked (count : ℕ) (polls : List Poll) (typed : List CChar) : List ℕ :=
  (replies count polls typed).1.flatMap (Reply.indices count)

theorem lt_of_mem_asked {count : ℕ} {polls : List Poll} {typed : List CChar} {i : ℕ}
    (h : i ∈ asked count polls typed) : i < count := by
  induction polls generalizing typed with
  | nil => cases h
  | cons poll polls ih =>
      cases poll with
      | failed reason => cases h
      | timeout =>
          have hmem : i ∈ List.range count ++ [] := h
          rw [List.append_nil] at hmem
          exact List.mem_range.mp hmem
      | ready =>
          revert h
          rw [asked, replies]
          rcases scanNumber typed with _ | ⟨number, typed⟩
          · exact fun h => by cases h
          dsimp only
          split_ifs with hzero hneg hexceeds
          · exact fun h => by cases h
          · exact fun h => ih h
          · exact fun h => ih h
          · intro h
            rcases List.mem_cons.mp h with rfl | hrest
            · omega
            · exact ih hrest

/-- Of two programs of which the first never prints more, both print the same exactly when
they do for the lines that are asked for. -/
theorem answer_out_iff {count : ℕ} {line line' : ℕ → List CChar} (text text' : List CChar)
    {polls : List Poll} {typed : List CChar}
    (hle : ∀ i < count, (line i).length ≤ (line' i).length) :
    (answer count line text (replies count polls typed)).out =
        (answer count line' text' (replies count polls typed)).out ↔
      ∀ i ∈ asked count polls typed, line i = line' i := by
  have hmem : ∀ r ∈ (replies count polls typed).1, ∀ i ∈ r.indices count,
      i ∈ asked count polls typed := fun r hr i hi => List.mem_flatMap.mpr ⟨r, hr, hi⟩
  have hreply : ∀ r ∈ (replies count polls typed).1, (r.shown count line).length ≤
      (r.shown count line').length := by
    intro r hr
    rw [Reply.shown, Reply.shown, List.length_append, List.length_append]
    apply Nat.add_le_add_left
    exact length_flatMap_le fun i hi => hle i (lt_of_mem_asked (hmem r hr i hi))
  show List.flatMap _ _ = List.flatMap _ _ ↔ _
  rw [flatMap_eq_flatMap_iff hreply]
  constructor
  · intro hsame i hi
    obtain ⟨r, hr, hir⟩ := List.mem_flatMap.mp hi
    have hshown := List.append_cancel_left (hsame r hr)
    exact (flatMap_eq_flatMap_iff fun j hj => hle j (lt_of_mem_asked (hmem r hr j hj))).mp
      hshown i hir
  · intro hsame r hr
    rw [Reply.shown, Reply.shown]
    exact congrArg _ (List.flatMap_congr fun i hi => hsame i (hmem r hr i hi))

theorem percentD_eq_longText {count : ℕ} (hint : FitsInt count) :
    percentD count = longText count := by
  have hsmall : -2 ^ 31 ≤ (count : ℤ) ∧ (count : ℤ) ≤ 2 ^ 31 - 1 := hint
  rw [(percentD_eq_iff count).mpr hint, longText, Int.bmod_eq_of_le]
  · omega
  · omega

theorem Lab6.strayNul_eq_nil_iff {file : List CChar} {n : ℕ} {start : ℕ → ℕ}
    (hlines : Lines isNewline file n start) {i : ℕ} (hi : i < n) :
    strayNul file (start (i + 1)) = [] ↔ (i = n - 1 → file.getLast? = some newline) := by
  rw [strayNul]
  rcases eq_or_ne (i + 1) n with hlast | hne
  · rw [hlast, hlines.last (by omega), ← List.getLast?_eq_getElem?, imp_iff_right (by omega)]
    simp
  · obtain ⟨b, hb, hnewline⟩ := hlines.ended i (by omega)
    rw [if_pos (by rw [hb, eq_of_beq hnewline])]
    exact iff_of_true rfl fun hi' => absurd hi' (by omega)

theorem lineOutput_eq {file : List CChar} {start stop : ℕ} (hlt : start < stop)
    (hstop : stop ≤ file.length) : lineOutput file start stop =
      (file.drop start).take (bareLength isNewline file start stop) ++ [newline] := by
  obtain ⟨n, rfl⟩ : ∃ n, stop = start + n + 1 := ⟨stop - start - 1, by omega⟩
  have hlast : (file.drop start)[n]? = file[start + n + 1 - 1]? := by
    rw [List.getElem?_drop, Nat.add_sub_cancel]
  have hlength : start + n + 1 - start = n + 1 := by omega
  obtain ⟨b, hb⟩ : ∃ b, file[start + n + 1 - 1]? = some b :=
    ⟨_, List.getElem?_eq_getElem (by omega)⟩
  simp only [lineOutput, bareLength, hlength, hb, Option.any_some, isNewline, Option.some_inj,
    beq_iff_eq]
  rcases eq_or_ne b newline with rfl | hb'
  · rw [if_pos rfl, if_pos rfl, Nat.add_sub_cancel, List.append_nil, List.take_add_one, hlast, hb]
    rfl
  · rw [if_neg hb', if_neg hb', Nat.sub_zero]

theorem stringOutput_iff {file : List CChar} {start stop : ℕ} (hlt : start < stop)
    (hstop : stop ≤ file.length) :
    stringOutput file start stop = lineOutput file start stop ↔
      0 ∉ lineOutput file start stop := by
  rw [lineOutput_eq hlt hstop, stringOutput, List.append_left_inj, List.takeWhile_eq_self_iff,
    List.mem_append, List.mem_singleton, or_iff_left (by decide)]
  constructor
  · intro hall hmem
    simpa using hall 0 hmem
  · intro hnul c hc
    simpa using ne_of_mem_of_not_mem hc hnul

theorem length_stringOutput_le {file : List CChar} {start stop : ℕ} (hlt : start < stop)
    (hstop : stop ≤ file.length) :
    (stringOutput file start stop).length ≤ (lineOutput file start stop).length := by
  rw [lineOutput_eq hlt hstop, stringOutput, List.length_append, List.length_append]
  exact Nat.add_le_add_right (List.takeWhile_prefix _).length_le _

/-- Of the same file, with the same answers of `poll` and the same characters typed: lab7 and
lab7-1 print the same, and lab6 does exactly when the last line has its newline or is not
printed. -/
theorem sessions_agree {file : List CChar} (hfile : file ≠ [])
    (hsize : (file.length : ℤ) < longMax) {pageSize : ℕ} (hpage : pageSize ∣ Lab7.cacheSize)
    {chunks : List (List CChar)} (hne : ∀ c ∈ chunks, c ≠ []) (hchunks : chunks.flatten = file)
    (junk₆ junk₇ junk₇₁ : ℕ → ℕ) (lenJunk idxJunk : ℕ) (index : ℤ) (polls : List Poll)
    (typed : List CChar) :
    ∃ t₆ t₇ t₇₁ s s₆,
      Lab6.getTable junk₆ (chunks.map some) = some (some t₆) ∧
      Lab7.getTable junk₇ lenJunk idxJunk file (fun glOff => glOff % pageSize = 0) =
        some (some t₇) ∧
      Lab71.getTable junk₇₁ file true = some (some t₇₁) ∧
      (Lab7.program file pageSize index).mainLoop polls t₇ typed = some s ∧
      (Lab71.program index).mainLoop polls t₇₁ typed = some s ∧
      (Lab6.program file).mainLoop polls t₆ typed = some s₆ ∧ s₆.ending = s.ending ∧
      (FitsInt t₆.count → s₆.err = s.err) ∧
      (s₆.out = s.out ↔
        (t₆.count - 1 ∈ asked t₆.count polls typed → file.getLast? = some newline)) := by
  have hmapped : ∀ k, decide (k * Lab7.cacheSize % pageSize = 0) = true := fun k =>
    decide_eq_true (Nat.mod_eq_zero_of_dvd (hpage.mul_left k))
  obtain ⟨t₆, hget₆, hholds₆⟩ := Lab6.getTable_spec junk₆ hne
  obtain ⟨t₇, hget₇, hholds₇, hfileSize, hcache₇⟩ := Lab7.getTable_spec junk₇ lenJunk idxJunk file
    (fun glOff => glOff % pageSize = 0) hmapped
  obtain ⟨t₇₁, hget₇₁, hholds₇₁, -, hcache₇₁⟩ := Lab71.getTable_spec junk₇₁ hfile
  rw [hchunks] at hholds₆
  have hlines := hholds₆.lines
  have hsame₇ := hholds₆.same hholds₇
  have hsame₇₁ := hholds₆.same hholds₇₁
  have hcount : (t₆.count : ℤ) < longMax := by
    have hle := hlines.count_le
    omega
  obtain ⟨line, hline⟩ : ∃ line : ℕ → List CChar,
    line = fun i => lineOutput file (t₆.offsets i) (t₆.offsets (i + 1)) := ⟨_, rfl⟩
  have hprints₇ : (Lab7.program file pageSize index).Prints _ t₆.count line :=
    (Lab7.prints index hholds₇.lines).congr hsame₇.count fun i hi => by
      rw [hsame₇.count] at hi
      rw [hline, hsame₇.offsets (by omega) i hi.le, hsame₇.offsets (by omega) (i + 1) hi]
  have hprints₇₁ : (Lab71.program index).Prints _ t₆.count line :=
    (Lab71.prints index hcache₇₁ hholds₇₁.lines).congr hsame₇₁.count fun i hi => by
      rw [hsame₇₁.count] at hi
      rw [hline, hsame₇₁.offsets (by omega) i hi.le, hsame₇₁.offsets (by omega) (i + 1) hi]
  have hmain₇ := hprints₇.mainLoop hcount ⟨rfl, hfileSize, .inl hcache₇⟩ polls typed
  have hmain₇₁ := hprints₇₁.mainLoop hcount rfl polls typed
  have hmain₆ := (Lab6.prints hlines).mainLoop hcount rfl polls typed
  refine ⟨t₆, t₇, t₇₁, _, _, hget₆, hget₇, hget₇₁, hmain₇, hmain₇₁, hmain₆, ?_, fun hint => ?_, ?_⟩
  · rw [answer_ending, answer_ending]
  · have htext : (Lab6.program file).countText t₆.count =
        (Lab7.program file pageSize index).countText t₆.count := by
      simp only [Lab6.program, Lab7.program, percentD_eq_longText hint]
    rw [answer_err, answer_err, htext]
  rw [eq_comm, answer_out_iff]
  · constructor
    · intro hsame hlast
      have hi := lt_of_mem_asked hlast
      have hstray := hsame _ hlast
      rw [hline] at hstray
      exact (Lab6.strayNul_eq_nil_iff hlines hi).mp
        (List.self_eq_append_right.mp hstray) rfl
    · intro hended i hi
      rw [hline, (Lab6.strayNul_eq_nil_iff hlines (lt_of_mem_asked hi)).mpr, List.append_nil]
      rintro rfl
      exact hended hi
  · intro i hi
    rw [hline, List.length_append]
    exact Nat.le_add_right _ _

theorem sessions_agree_two :
    ([0x61, 0x0A, 0x62] : List CChar) ≠ [] ∧
    (([0x61, 0x0A, 0x62] : List CChar).length : ℤ) < longMax ∧ 4096 ∣ Lab7.cacheSize ∧
    ∃ t₆ t₇ t₇₁ s s₆,
      Lab6.getTable (fun _ => 7) [some [0x61], some [0x0A, 0x62]] = some (some t₆) ∧
      Lab7.getTable (fun _ => 7) 0 0 [0x61, 0x0A, 0x62] (fun glOff => glOff % 4096 = 0) =
        some (some t₇) ∧
      Lab71.getTable (fun _ => 7) [0x61, 0x0A, 0x62] true = some (some t₇₁) ∧
      (Lab7.program [0x61, 0x0A, 0x62] 4096 0).mainLoop [.ready, .ready, .ready, .timeout] t₇
        (ascii "1 7 2") = some s ∧
      (Lab71.program 0).mainLoop [.ready, .ready, .ready, .timeout] t₇₁ (ascii "1 7 2") = some s ∧
      (Lab6.program [0x61, 0x0A, 0x62]).mainLoop [.ready, .ready, .ready, .timeout] t₆
        (ascii "1 7 2") = some s₆ ∧ s₆.ending = s.ending ∧
      (FitsInt t₆.count → s₆.err = s.err) ∧
      (s₆.out = s.out ↔
        (t₆.count - 1 ∈ asked t₆.count [.ready, .ready, .ready, .timeout] (ascii "1 7 2") →
          ([0x61, 0x0A, 0x62] : List CChar).getLast? = some newline)) :=
  ⟨by decide, by decide, by decide,
    sessions_agree (by decide) (by decide) (by decide)
      (show ∀ c ∈ [[0x61], [0x0A, 0x62]], c ≠ [] by decide) rfl (fun _ => 7) (fun _ => 7)
      (fun _ => 7) 0 0 0 [.ready, .ready, .ready, .timeout] (ascii "1 7 2")⟩

end UnixLabs
