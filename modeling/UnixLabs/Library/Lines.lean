import Mathlib.Data.List.Pairwise
import Mathlib.Order.Nat
import Mathlib.Tactic.Common

/-!
Lists that are cut behind every separator.

`cuts` are the lengths of the prefixes that end in a separator, and `lineEnds` has
the length of the list behind them when something follows the last separator. A
list can be cut piece by piece: what has been seen of it is enough to know the cuts
so far and the length of the unfinished line.
-/

namespace UnixLabs.Library

variable {α : Type*} {sep : α → Bool}

/-! ### Cuts -/

/-- The lengths of the prefixes that end in a separator, the shortest first. -/
def cuts (sep : α → Bool) : List α → List ℕ
  | [] => []
  | x :: xs => (if sep x then [1] else []) ++ (cuts sep xs).map (· + 1)

theorem cuts_append (xs ys : List α) :
    cuts sep (xs ++ ys) = cuts sep xs ++ (cuts sep ys).map (· + xs.length) := by
  induction xs with
  | nil => simp [cuts]
  | cons x xs ih =>
      simp only [List.cons_append, cuts, ih, List.map_append, List.map_map, List.append_assoc,
        List.length_cons]
      refine congrArg _ (congrArg _ (List.map_congr_left fun k _ => ?_))
      simp only [Function.comp_apply]
      omega

theorem cuts_eq_nil {xs : List α} (h : ∀ x ∈ xs, sep x = false) : cuts sep xs = [] := by
  induction xs with
  | nil => rfl
  | cons x xs ih =>
      rw [cuts, h x List.mem_cons_self, ih fun y hy => h y (List.mem_cons_of_mem x hy)]
      rfl

theorem cuts_line {line : List α} (h : ∀ x ∈ line, sep x = false) {x : α} (hx : sep x = true) :
    cuts sep (line ++ [x]) = [line.length + 1] := by
  rw [cuts_append, cuts_eq_nil h, cuts, hx]
  simp [cuts, Nat.add_comm]

theorem mem_cuts {xs : List α} {k : ℕ} :
    k ∈ cuts sep xs ↔ ∃ i, k = i + 1 ∧ ∃ x, xs[i]? = some x ∧ sep x = true := by
  induction xs generalizing k with
  | nil => simp [cuts]
  | cons x xs ih =>
      simp only [cuts, List.mem_append, List.mem_map, ih]
      constructor
      · rintro (hk | ⟨j, ⟨i, rfl, y, hy, hsep⟩, rfl⟩)
        · by_cases hx : sep x = true
          · simp only [hx, if_true, List.mem_singleton] at hk
            exact ⟨0, hk, x, rfl, hx⟩
          · simp [hx] at hk
        · exact ⟨i + 1, rfl, y, by simpa using hy, hsep⟩
      · rintro ⟨i, rfl, y, hy, hsep⟩
        cases i with
        | zero =>
            simp only [List.getElem?_cons_zero, Option.some_inj] at hy
            subst hy
            exact .inl (by simp [hsep])
        | succ i => exact .inr ⟨i + 1, ⟨i, rfl, y, by simpa using hy, hsep⟩, rfl⟩

theorem le_length_of_mem_cuts {xs : List α} {k : ℕ} (h : k ∈ cuts sep xs) : k ≤ xs.length := by
  obtain ⟨i, rfl, x, hx, -⟩ := mem_cuts.mp h
  exact (List.getElem?_eq_some_iff.mp hx).1

theorem pairwise_cuts (xs : List α) : (cuts sep xs).Pairwise (· < ·) := by
  induction xs with
  | nil => exact List.Pairwise.nil
  | cons x xs ih =>
      have hrest : ((cuts sep xs).map (· + 1)).Pairwise (· < ·) :=
        ih.map _ fun a b hab => by omega
      by_cases hx : sep x = true
      · simp only [cuts, hx, if_true, List.singleton_append, List.pairwise_cons]
        refine ⟨fun k hk => ?_, hrest⟩
        obtain ⟨j, hj, rfl⟩ := List.mem_map.mp hk
        obtain ⟨i, rfl, -⟩ := mem_cuts.mp hj
        omega
      · simpa [cuts, hx] using hrest

def lastCut (sep : α → Bool) (xs : List α) : ℕ := (cuts sep xs).getLastD 0

@[simp] theorem cuts_nil : cuts sep [] = [] := rfl

@[simp] theorem lastCut_nil : lastCut sep [] = 0 := rfl

theorem lastCut_le (xs : List α) : lastCut sep xs ≤ xs.length := by
  unfold lastCut
  cases h : (cuts sep xs).getLast? with
  | none => simp [List.getLastD_eq_getLast?, h]
  | some k =>
      simp only [List.getLastD_eq_getLast?, h, Option.getD_some]
      exact le_length_of_mem_cuts (List.mem_of_getLast? h)

theorem le_lastCut {xs : List α} {k : ℕ} (h : k ∈ cuts sep xs) : k ≤ lastCut sep xs := by
  have hsorted : (0 :: cuts sep xs).Pairwise (· ≤ ·) :=
    List.pairwise_cons.mpr ⟨fun _ _ => Nat.zero_le _, (pairwise_cuts xs).imp fun h => h.le⟩
  have hle := hsorted.rel_getLast (List.mem_cons_of_mem 0 h)
  rwa [List.getLast_eq_getLastD] at hle

/-! ### Seeing one more piece -/

theorem cuts_append_open (xs : List α) {ys : List α} (h : ∀ x ∈ ys, sep x = false) :
    cuts sep (xs ++ ys) = cuts sep xs := by
  rw [cuts_append, cuts_eq_nil h, List.map_nil, List.append_nil]

theorem cuts_append_line (xs : List α) {line : List α} (h : ∀ x ∈ line, sep x = false) {x : α}
    (hx : sep x = true) :
    cuts sep (xs ++ (line ++ [x])) = cuts sep xs ++ [xs.length + (line.length + 1)] := by
  rw [cuts_append, cuts_line h hx, List.map_singleton, Nat.add_comm]

theorem lastCut_append_open (xs : List α) {ys : List α} (h : ∀ x ∈ ys, sep x = false) :
    lastCut sep (xs ++ ys) = lastCut sep xs := by
  rw [lastCut, cuts_append_open xs h, lastCut]

theorem lastCut_append_line (xs : List α) {line : List α} (h : ∀ x ∈ line, sep x = false) {x : α}
    (hx : sep x = true) :
    lastCut sep (xs ++ (line ++ [x])) = xs.length + (line.length + 1) := by
  rw [lastCut, cuts_append_line xs h hx, List.getLastD_concat]

/-! ### Line ends -/

/-- The ends of all lines, that of a last line without a separator included. -/
def lineEnds (sep : α → Bool) (xs : List α) : List ℕ :=
  cuts sep xs ++ if lastCut sep xs < xs.length then [xs.length] else []

theorem lineEnds_of_eq {xs : List α} (h : lastCut sep xs = xs.length) :
    lineEnds sep xs = cuts sep xs := by
  rw [lineEnds, if_neg (by omega), List.append_nil]

theorem lineEnds_of_lt {xs : List α} (h : lastCut sep xs < xs.length) :
    lineEnds sep xs = cuts sep xs ++ [xs.length] := by rw [lineEnds, if_pos h]

theorem lineEnds_cases (sep : α → Bool) (xs : List α) :
    lineEnds sep xs = cuts sep xs ∧ lastCut sep xs = xs.length ∨
      lineEnds sep xs = cuts sep xs ++ [xs.length] ∧ lastCut sep xs < xs.length := by
  have hle : lastCut sep xs ≤ xs.length := lastCut_le xs
  by_cases h : lastCut sep xs = xs.length
  · exact .inl ⟨lineEnds_of_eq h, h⟩
  · have hlt : lastCut sep xs < xs.length := by omega
    exact .inr ⟨lineEnds_of_lt hlt, hlt⟩

theorem getLastD_lineEnds (sep : α → Bool) (xs : List α) :
    (lineEnds sep xs).getLastD 0 = xs.length := by
  rcases lineEnds_cases sep xs with ⟨hends, hlast⟩ | ⟨hends, -⟩
  · rw [hends]
    exact hlast
  · rw [hends, List.getLastD_concat]

theorem lineEnds_eq_nil_iff {xs : List α} : lineEnds sep xs = [] ↔ xs = [] := by
  constructor
  · intro h
    have hlast := getLastD_lineEnds sep xs
    rw [h] at hlast
    exact List.length_eq_zero_iff.mp hlast.symm
  · rintro rfl
    rfl

theorem pairwise_lineEnds (sep : α → Bool) (xs : List α) :
    (0 :: lineEnds sep xs).Pairwise (· < ·) := by
  have hcuts : (0 :: cuts sep xs).Pairwise (· < ·) := by
    refine List.pairwise_cons.mpr ⟨fun k hk => ?_, pairwise_cuts xs⟩
    obtain ⟨i, rfl, -⟩ := mem_cuts.mp hk
    exact Nat.succ_pos i
  rcases lineEnds_cases sep xs with ⟨hends, -⟩ | ⟨hends, hlast⟩
  · rwa [hends]
  · rw [hends, ← List.cons_append]
    refine List.pairwise_append.mpr ⟨hcuts, List.pairwise_singleton _ _, fun k hk e he => ?_⟩
    rw [List.mem_singleton] at he
    subst he
    rcases List.mem_cons.mp hk with rfl | hk
    · omega
    · exact (le_lastCut hk).trans_lt hlast

/-- `n` lines, of which the `i`-th goes from `start i` to `start (i + 1)`, are those of
the list: they cover it, none is empty, a separator is at the end of its line, and
every line but the last has one. -/
structure Lines (sep : α → Bool) (xs : List α) (n : ℕ) (start : ℕ → ℕ) : Prop where
  count_eq_zero : n = 0 ↔ xs = []
  first : 0 < n → start 0 = 0
  last : 0 < n → start n = xs.length
  increasing : ∀ i < n, start i < start (i + 1)
  only_last : ∀ i < n, ∀ k, start i ≤ k → k < start (i + 1) →
    ∀ x, xs[k]? = some x → sep x = true → k + 1 = start (i + 1)
  ended : ∀ i, i + 1 < n → ∃ x, xs[start (i + 1) - 1]? = some x ∧ sep x = true

theorem Lines.le_length {xs : List α} {n : ℕ} {start : ℕ → ℕ} (h : Lines sep xs n start) {i : ℕ}
    (hi : i < n) : start (i + 1) ≤ xs.length := by
  rw [← h.last (Nat.zero_lt_of_lt hi)]
  -- the lines after this one only add to it
  have hmono : ∀ j, i + 1 ≤ j → j ≤ n → start (i + 1) ≤ start j := by
    intro j hij
    induction j, hij using Nat.le_induction with
    | base => exact fun _ => le_rfl
    | succ j hij ih => exact fun hj => (ih (by omega)).trans (h.increasing j (by omega)).le
  exact hmono n hi le_rfl

theorem Lines.count_le {xs : List α} {n : ℕ} {start : ℕ → ℕ} (h : Lines sep xs n start) :
    n ≤ xs.length := by
  rcases Nat.eq_zero_or_pos n with rfl | hpos
  · exact Nat.zero_le _
  have hstart : ∀ i ≤ n, i ≤ start i := by
    intro i
    induction i with
    | zero => exact fun _ => Nat.zero_le _
    | succ i ih => exact fun hi => (ih (by omega)).trans_lt (h.increasing i hi)
  rw [← h.last hpos]
  exact hstart n le_rfl

theorem lines_of_lineEnds {xs : List α} {n : ℕ} {start : ℕ → ℕ}
    (hn : n = (lineEnds sep xs).length)
    (hstart : 0 < n → ∀ i (hi : i < (0 :: lineEnds sep xs).length),
      start i = (0 :: lineEnds sep xs)[i]) : Lines sep xs n start := by
  have hlength : (0 :: lineEnds sep xs).length = n + 1 := by rw [List.length_cons, hn]
  have hsorted := List.pairwise_iff_getElem.mp (pairwise_lineEnds sep xs)
  have hlt : ∀ i j, i < j → j ≤ n → start i < start j := by
    intro i j hij hj
    rw [hstart (by omega) i (by omega), hstart (by omega) j (by omega)]
    exact hsorted i j (by omega) (by omega) hij
  have hcut : ∀ i, i + 1 < n → start (i + 1) ∈ cuts sep xs := by
    intro i hi
    rw [hstart (by omega) (i + 1) (by omega), List.getElem_cons_succ]
    rcases lineEnds_cases sep xs with ⟨hends, -⟩ | ⟨hends, -⟩
    · simp only [hends]
      exact List.getElem_mem _
    · have hlast : i < (cuts sep xs).length := by
        rw [hends, List.length_append, List.length_singleton] at hn
        omega
      simp only [hends]
      rw [List.getElem_append_left hlast]
      exact List.getElem_mem _
  refine ⟨?_, fun hpos => hstart hpos 0 (by omega), ?_, fun i hi => hlt i (i + 1) (by omega) hi, ?_,
    ?_⟩
  · rw [hn, List.length_eq_zero_iff, lineEnds_eq_nil_iff]
  · intro hpos
    rw [hstart hpos n (by omega), ← getLastD_lineEnds sep xs,
      ← List.getLast_eq_getLastD (List.cons_ne_nil 0 _), List.getLast_eq_getElem]
    simp only [hlength, Nat.add_sub_cancel]
  · intro i hi k hik hki x hx hsep
    have hmem : k + 1 ∈ 0 :: lineEnds sep xs :=
      List.mem_cons_of_mem _ (List.mem_append_left _ (mem_cuts.mpr ⟨k, rfl, x, hx, hsep⟩))
    obtain ⟨j, hj, he⟩ := List.getElem_of_mem hmem
    rw [← hstart (by omega) j hj] at he
    -- no line starts between the ends of another
    have hji : ¬j ≤ i := by
      intro hle
      rcases hle.lt_or_eq with h | rfl
      · have := hlt j i h (by omega)
        omega
      · omega
    have hij : ¬i + 1 < j := by
      intro hgt
      have := hlt (i + 1) j hgt (by omega)
      omega
    obtain rfl : j = i + 1 := by omega
    exact he.symm
  · intro i hi
    obtain ⟨k, hk, x, hx, hsep⟩ := mem_cuts.mp (hcut i hi)
    exact ⟨x, by rw [hk, Nat.add_sub_cancel]; exact hx, hsep⟩

/-! ### Starts and ends together -/

def spansFrom (start : ℕ) (ends : List ℕ) : List (ℕ × ℕ) := (start :: ends).zip ends

theorem spansFrom_concat (start : ℕ) (ends : List ℕ) (e : ℕ) :
    spansFrom start (ends ++ [e]) = spansFrom start ends ++ [(ends.getLastD start, e)] := by
  induction ends generalizing start with
  | nil => rfl
  | cons a as ih =>
      have hrest := ih a
      simp only [spansFrom, List.cons_append, List.zip_cons_cons] at hrest ⊢
      rw [hrest, List.getLastD_cons]

@[simp] theorem length_spansFrom (start : ℕ) (ends : List ℕ) :
    (spansFrom start ends).length = ends.length := by simp [spansFrom]

theorem dropLast_concat (start : ℕ) (ends : List ℕ) (e : ℕ) :
    (start :: (ends ++ [e])).dropLast = (start :: ends).dropLast ++ [ends.getLastD start] := by
  rw [← List.cons_append, List.dropLast_concat, ← List.getLast_eq_getLastD (List.cons_ne_nil _ _),
    List.dropLast_concat_getLast]

theorem any_last_of_lt {xs : List α} (h : lastCut sep xs < xs.length) :
    (xs[xs.length - 1]?).any sep = false := by
  by_contra hany
  obtain ⟨x, hx, hsep⟩ := (Option.any_eq_true _ _).mp (by simpa using hany)
  have hmem : xs.length ∈ cuts sep xs := mem_cuts.mpr ⟨xs.length - 1, by omega, x, hx, hsep⟩
  exact absurd (le_lastCut hmem) (by omega)

def bareLength (sep : α → Bool) (xs : List α) (s e : ℕ) : ℕ :=
  e - s - if (xs[e - 1]?).any sep then 1 else 0

end UnixLabs.Library
