import UnixLabs.Lab17.Words

/-!
`strtol` of the C library, in base 10.

White space and a sign may come first; then the longest run of digits is taken. What
`Denotes` says of a whole string does not mention a scan: the two are compared in
`scanNumber_iff`.
-/

namespace UnixLabs

/-- A string of C, without the NUL that ends it. -/
structure CString where
  chars : List CChar
  noNul : 0 ∉ chars

def isSpace (c : CChar) : Bool := Lab17.isspace c.toInt

def isDigit (c : CChar) : Bool := 0x30 ≤ c.toNat && c.toNat ≤ 0x39

def plusSign : CChar := 0x2B

def minusSign : CChar := 0x2D

def numeral (digits : List CChar) : ℕ := digits.foldl (fun v c => 10 * v + (c.toNat - 0x30)) 0

/-- Whether there is a minus sign, and what follows the sign. -/
def splitSign : List CChar → Bool × List CChar
  | [] => (false, [])
  | c :: text =>
      if c = minusSign then (true, text)
      else if c = plusSign then (false, text)
      else (false, c :: text)

def scanNumber (text : List CChar) : Option (ℤ × List CChar) :=
  let signed := splitSign (text.dropWhile isSpace)
  let digits := signed.2.takeWhile isDigit
  if digits = [] then none
  else some (if signed.1 then -numeral digits else numeral digits, signed.2.dropWhile isDigit)

def longMin : ℤ := -2 ^ 63

def longMax : ℤ := 2 ^ 63 - 1

def clampLong (i : ℤ) : ℤ := if i < longMin then longMin else if longMax < i then longMax else i

/-- What `strtol` returns, what it leaves in `end`, and whether it sets `errno` to
`ERANGE`. -/
structure StrtolResult where
  value : ℤ
  rest : List CChar
  erange : Bool
  deriving DecidableEq

/-- `strtol(str, &end, 10)`. Without digits nothing is read at all. -/
def strtol (text : List CChar) : StrtolResult :=
  match scanNumber text with
  | none => ⟨0, text, false⟩
  | some (i, rest) => ⟨clampLong i, rest, decide (clampLong i ≠ i)⟩

theorem clampLong_of_mem {i : ℤ} (hlow : longMin ≤ i) (hhigh : i ≤ longMax) : clampLong i = i := by
  rw [clampLong, if_neg (by omega), if_neg (by omega)]

/-! ### Numbers as strings -/

/-- The string is a number in decimal, perhaps with blanks and a sign in front of it. -/
def Denotes (text : List CChar) (i : ℤ) : Prop :=
  ∃ blanks sign digits, text = blanks ++ (sign ++ digits) ∧
    (∀ c ∈ blanks, isSpace c = true) ∧ digits ≠ [] ∧ (∀ c ∈ digits, isDigit c = true) ∧
    (sign = [minusSign] ∧ i = -numeral digits ∨
      (sign = [] ∨ sign = [plusSign]) ∧ i = numeral digits)

theorem isDigit_plain : ∀ c : CChar, isDigit c = true →
    isSpace c = false ∧ c ≠ minusSign ∧ c ≠ plusSign := by
  decide +kernel

theorem dropWhile_blanks {blanks rest : List CChar} (hblanks : ∀ c ∈ blanks, isSpace c = true)
    (hrest : ∀ c ∈ rest.head?, isSpace c = false) :
    (blanks ++ rest).dropWhile isSpace = rest := by
  rw [List.dropWhile_append_of_pos hblanks]
  cases rest with
  | nil => rfl
  | cons c rest =>
      apply List.dropWhile_cons_of_neg
      rw [hrest c rfl]
      exact Bool.false_ne_true

theorem splitSign_digits {digits : List CChar} (hdigits : ∀ c ∈ digits, isDigit c = true) :
    splitSign digits = (false, digits) := by
  cases digits with
  | nil => rfl
  | cons c digits =>
      obtain ⟨-, hminus, hplus⟩ := isDigit_plain c (hdigits c List.mem_cons_self)
      rw [splitSign, if_neg hminus, if_neg hplus]

theorem splitSign_spec (text : List CChar) :
    ∃ sign, text = sign ++ (splitSign text).2 ∧
      (sign = [minusSign] ∧ (splitSign text).1 = true ∨
        (sign = [] ∨ sign = [plusSign]) ∧ (splitSign text).1 = false) := by
  cases text with
  | nil => exact ⟨[], rfl, .inr ⟨.inl rfl, rfl⟩⟩
  | cons c text =>
      rw [splitSign]
      split_ifs with hminus hplus
      · exact ⟨[minusSign], by rw [hminus]; rfl, .inl ⟨rfl, rfl⟩⟩
      · exact ⟨[plusSign], by rw [hplus]; rfl, .inr ⟨.inr rfl, rfl⟩⟩
      · exact ⟨[], rfl, .inr ⟨.inl rfl, rfl⟩⟩

theorem scanNumber_blanks {blanks text digits : List CChar} {negative : Bool}
    (hblanks : ∀ c ∈ blanks, isSpace c = true) (htext : ∀ c ∈ text.head?, isSpace c = false)
    (hsplit : splitSign text = (negative, digits)) (hne : digits ≠ [])
    (hdigits : ∀ c ∈ digits, isDigit c = true) :
    scanNumber (blanks ++ text) =
      some (if negative then -(numeral digits : ℤ) else numeral digits, []) := by
  have htake : digits.takeWhile isDigit = digits := List.takeWhile_eq_self_iff.mpr hdigits
  have hdrop : digits.dropWhile isDigit = [] := List.dropWhile_eq_nil_iff.mpr hdigits
  simp only [scanNumber, dropWhile_blanks hblanks htext, hsplit, htake, hdrop, if_neg hne]

/-- To scan a string to its end is to find the number it denotes. -/
theorem scanNumber_iff {text : List CChar} {i : ℤ} :
    scanNumber text = some (i, []) ↔ Denotes text i := by
  constructor
  · intro h
    obtain ⟨sign, hsign, hvalue⟩ := splitSign_spec (text.dropWhile isSpace)
    simp only [scanNumber] at h
    by_cases hne : (splitSign (text.dropWhile isSpace)).2.takeWhile isDigit = []
    · rw [if_pos hne] at h
      cases h
    rw [if_neg hne, Option.some_inj, Prod.mk.injEq] at h
    obtain ⟨hi, hrest⟩ := h
    have hdigits := List.dropWhile_eq_nil_iff.mp hrest
    rw [List.takeWhile_eq_self_iff.mpr hdigits] at hi hne
    refine ⟨text.takeWhile isSpace, sign, _, ?_, fun c hc => List.mem_takeWhile_imp hc, hne,
      hdigits, ?_⟩
    · rw [← hsign, List.takeWhile_append_dropWhile]
    · rcases hvalue with ⟨hminus, hneg⟩ | ⟨hplus, hpos⟩
      · rw [hneg, if_pos rfl] at hi
        exact .inl ⟨hminus, hi.symm⟩
      · rw [hpos, if_neg Bool.false_ne_true] at hi
        exact .inr ⟨hplus, hi.symm⟩
  · rintro ⟨blanks, sign, digits, rfl, hblanks, hne, hdigits, hsign⟩
    have hplain := splitSign_digits hdigits
    -- the first character behind the blanks is a sign or a digit
    have hhead : ∀ c, isSpace c = false → ∀ d ∈ (c :: digits).head?, isSpace d = false := by
      intro c hc d hd
      cases hd
      exact hc
    rcases hsign with ⟨rfl, rfl⟩ | ⟨rfl | rfl, rfl⟩
    · have hsplit : splitSign (minusSign :: digits) = (true, digits) := rfl
      exact scanNumber_blanks hblanks (hhead _ (by decide)) hsplit hne hdigits
    · refine scanNumber_blanks hblanks (fun c hc => ?_) hplain hne hdigits
      exact (isDigit_plain c (hdigits c (List.mem_of_mem_head? hc))).1
    · have hsplit : splitSign (plusSign :: digits) = (false, digits) := rfl
      exact scanNumber_blanks hblanks (hhead _ (by decide)) hsplit hne hdigits

theorem Denotes.unique {text : List CChar} {i j : ℤ} (hi : Denotes text i) (hj : Denotes text j) :
    i = j := by
  have hsame := (scanNumber_iff.mpr hi).symm.trans (scanNumber_iff.mpr hj)
  simp only [Option.some_inj, Prod.mk.injEq] at hsame
  exact hsame.1

theorem strtol_of_denotes {text : List CChar} {i : ℤ} (h : Denotes text i) :
    strtol text = ⟨clampLong i, [], decide (clampLong i ≠ i)⟩ := by
  rw [strtol, scanNumber_iff.mpr h]

/-- Of the other strings it reads only the empty one to its end. -/
theorem strtol_rest_of_not_denotes {text : List CChar} (h : ∀ i, ¬Denotes text i)
    (hrest : (strtol text).rest = []) : text = [] := by
  unfold strtol at hrest
  cases hscan : scanNumber text with
  | none =>
      rw [hscan] at hrest
      exact hrest
  | some r =>
      obtain ⟨i, rest⟩ := r
      rw [hscan] at hrest
      obtain rfl : rest = [] := hrest
      exact absurd (scanNumber_iff.mp hscan) (h i)

/-- Nothing that follows the number is part of what came before: the rest of a string
is a suffix of it. -/
theorem strtol_rest_suffix (text : List CChar) : (strtol text).rest <:+ text := by
  unfold strtol
  cases hscan : scanNumber text with
  | none => exact List.suffix_rfl
  | some r =>
      obtain ⟨i, rest⟩ := r
      obtain ⟨sign, hsign, -⟩ := splitSign_spec (text.dropWhile isSpace)
      simp only [scanNumber] at hscan
      split_ifs at hscan
      all_goals
        simp only [Option.some_inj, Prod.mk.injEq] at hscan
        obtain ⟨-, rfl⟩ := hscan
        apply (List.dropWhile_suffix isDigit).trans
        apply List.IsSuffix.trans _ (List.dropWhile_suffix isSpace)
        exact ⟨sign, hsign.symm⟩

end UnixLabs
