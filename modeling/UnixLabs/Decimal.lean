import UnixLabs.Strtol

/-!
Numbers as `printf` writes them for `%d`.

`strtol` reads what is written, so that two numbers are never written the same way.
-/

namespace UnixLabs

def digit (d : ℕ) : CChar := BitVec.ofNat 8 (0x30 + d)

def decimal (n : ℕ) : List CChar :=
  if n < 10 then [digit n] else decimal (n / 10) ++ [digit (n % 10)]

def decimalInt (i : ℤ) : List CChar :=
  if i < 0 then minusSign :: decimal i.natAbs else decimal i.natAbs

/-- What `%d` writes for an argument of 64 bits: of the low 32 bits a signed number. -/
def percentD (i : ℤ) : List CChar := decimalInt (intOf i)

theorem digit_spec : ∀ d < 10, isDigit (digit d) = true ∧ (digit d).toNat - 0x30 = d := by
  decide

theorem numeral_concat (digits : List CChar) (c : CChar) :
    numeral (digits ++ [c]) = 10 * numeral digits + (c.toNat - 0x30) := by
  rw [numeral, List.foldl_append]
  rfl

theorem decimal_spec (n : ℕ) :
    decimal n ≠ [] ∧ (∀ c ∈ decimal n, isDigit c = true) ∧ numeral (decimal n) = n := by
  induction n using decimal.induct with
  | case1 n hn =>
      obtain ⟨hdigit, hvalue⟩ := digit_spec n hn
      rw [decimal, if_pos hn]
      refine ⟨List.cons_ne_nil _ _, fun c hc => ?_, ?_⟩
      · rw [List.mem_singleton.mp hc, hdigit]
      · show 10 * 0 + ((digit n).toNat - 0x30) = n
        omega
  | case2 n hn ih =>
      obtain ⟨hdigit, hvalue⟩ := digit_spec (n % 10) (Nat.mod_lt _ (by omega))
      obtain ⟨-, hdigits, hnumeral⟩ := ih
      rw [decimal, if_neg hn]
      refine ⟨List.append_ne_nil_of_right_ne_nil _ (List.cons_ne_nil _ _), fun c hc => ?_, ?_⟩
      · rcases List.mem_append.mp hc with hc | hc
        · exact hdigits c hc
        · rw [List.mem_singleton.mp hc, hdigit]
      · rw [numeral_concat, hnumeral, hvalue]
        omega

theorem denotes_decimalInt (i : ℤ) : Denotes (decimalInt i) i := by
  obtain ⟨hne, hdigits, hvalue⟩ := decimal_spec i.natAbs
  unfold decimalInt
  split_ifs with hneg
  · exact ⟨[], [minusSign], _, rfl, List.forall_mem_nil _, hne, hdigits, .inl ⟨rfl, by omega⟩⟩
  · exact ⟨[], [], _, rfl, List.forall_mem_nil _, hne, hdigits, .inr ⟨.inl rfl, by omega⟩⟩

theorem decimalInt_injective {i j : ℤ} (h : decimalInt i = decimalInt j) : i = j := by
  have hi := denotes_decimalInt i
  rw [h] at hi
  exact hi.unique (denotes_decimalInt j)

def FitsInt (i : ℤ) : Prop := -2 ^ 31 ≤ i ∧ i ≤ intMax

/-- A number is written with all its digits exactly when it is an `int`. -/
theorem percentD_eq_iff (i : ℤ) : percentD i = decimalInt i ↔ FitsInt i := by
  constructor
  · intro h
    have hsame := decimalInt_injective h
    have hlow := Int.le_bmod (x := i) (show 0 < 2 ^ 32 by decide)
    have hhigh := Int.bmod_lt (x := i) (show 0 < 2 ^ 32 by decide)
    unfold intOf at hsame
    unfold FitsInt intMax
    omega
  · rintro ⟨hlow, hhigh⟩
    rw [percentD, intOf_of_le hlow hhigh]

theorem length_decimal_le {n k : ℕ} (hk : 0 < k) (hn : n < 10 ^ k) : (decimal n).length ≤ k := by
  induction k generalizing n with
  | zero => exact absurd hk (lt_irrefl 0)
  | succ k ih =>
      rw [decimal]
      split_ifs with hsmall
      · exact Nat.succ_pos k
      · have hpos : 0 < k := by
          apply Nat.pos_of_ne_zero
          rintro rfl
          omega
        have hquot : n / 10 < 10 ^ k := by
          rw [pow_succ] at hn
          omega
        rw [List.length_append, List.length_singleton]
        exact Nat.succ_le_succ (ih hpos hquot)

theorem length_percentD_le (i : ℤ) : (percentD i).length ≤ 11 := by
  have hlow := Int.le_bmod (x := i) (show 0 < 2 ^ 32 by decide)
  have hhigh := Int.bmod_lt (x := i) (show 0 < 2 ^ 32 by decide)
  have hdigits : (decimal (intOf i).natAbs).length ≤ 10 := by
    apply length_decimal_le (by omega)
    unfold intOf
    omega
  unfold percentD decimalInt
  split_ifs
  · rw [List.length_cons]
    omega
  · omega

end UnixLabs
