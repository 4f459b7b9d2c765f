import Mathlib.Data.List.Basic
import Mathlib.Tactic.Common

/-!
Lists that are read in pieces.

A piece ends behind a separator, or when it has some length. So the pieces are the lines,
each cut into chunks of that length.
-/

namespace UnixLabs.Library

variable {α : Type*}

/-! ### Lines -/

/-- The lines of a list, with the separators that end them. -/
def splitAfter (sep : α → Bool) : List α → List (List α)
  | [] => []
  | x :: xs =>
      if sep x then [x] :: splitAfter sep xs
      else match splitAfter sep xs with
        | [] => [[x]]
        | l :: ls => (x :: l) :: ls

variable {sep : α → Bool}

@[simp] theorem splitAfter_nil : splitAfter sep [] = [] := rfl

theorem splitAfter_sep {x : α} (hx : sep x = true) (xs : List α) :
    splitAfter sep (x :: xs) = [x] :: splitAfter sep xs := by
  rw [splitAfter, if_pos hx]

theorem splitAfter_cons {x : α} (hx : sep x = false) (xs : List α) :
    splitAfter sep (x :: xs) =
      (x :: (splitAfter sep xs).headD []) :: (splitAfter sep xs).tail := by
  rw [splitAfter, if_neg (by simp [hx])]
  cases splitAfter sep xs <;> rfl

theorem flatten_splitAfter (sep : α → Bool) (xs : List α) : (splitAfter sep xs).flatten = xs := by
  induction xs with
  | nil => rfl
  | cons x xs ih =>
      cases hx : sep x with
      | true => rw [splitAfter_sep hx, List.flatten_cons, ih, List.singleton_append]
      | false =>
          rw [splitAfter_cons hx, List.flatten_cons, List.cons_append]
          cases hls : splitAfter sep xs with
          | nil => simpa [hls] using ih
          | cons l ls => simpa [hls] using ih

theorem splitAfter_eq_nil_iff {xs : List α} : splitAfter sep xs = [] ↔ xs = [] := by
  refine ⟨fun h => ?_, fun h => h ▸ rfl⟩
  rw [← flatten_splitAfter sep xs, h, List.flatten_nil]

theorem ne_nil_of_mem_splitAfter {xs l : List α} (h : l ∈ splitAfter sep xs) : l ≠ [] := by
  induction xs generalizing l with
  | nil => cases h
  | cons x xs ih =>
      cases hx : sep x with
      | true =>
          rw [splitAfter_sep hx] at h
          rcases List.mem_cons.mp h with rfl | h
          · exact List.cons_ne_nil x []
          · exact ih h
      | false =>
          rw [splitAfter_cons hx] at h
          rcases List.mem_cons.mp h with rfl | h
          · exact List.cons_ne_nil x _
          · exact ih (List.mem_of_mem_tail h)

/-! ### Chunks -/

/-- Chunks of length `k`; the last one may be shorter. -/
def chunks (k : ℕ) (xs : List α) : List (List α) :=
  if k = 0 ∨ xs = [] then [] else xs.take k :: chunks k (xs.drop k)
  termination_by xs.length
  decreasing_by
    rename_i h
    have := List.length_pos_of_ne_nil fun hxs => h (.inr hxs)
    rw [List.length_drop]
    omega

section Chunks

variable {k : ℕ}

@[simp] theorem chunks_nil : chunks k ([] : List α) = [] := by rw [chunks, if_pos (.inr rfl)]

theorem chunks_of_ne_nil (hk : 0 < k) {xs : List α} (hxs : xs ≠ []) :
    chunks k xs = xs.take k :: chunks k (xs.drop k) := by
  rw [chunks, if_neg (not_or.mpr ⟨Nat.ne_of_gt hk, hxs⟩)]

theorem flatten_chunks (hk : 0 < k) (xs : List α) : (chunks k xs).flatten = xs := by
  induction xs using chunks.induct k with
  | case1 xs h =>
      rcases h with h | rfl
      · omega
      · rw [chunks_nil, List.flatten_nil]
  | case2 xs h ih =>
      rw [chunks_of_ne_nil hk (not_or.mp h).2, List.flatten_cons, ih, List.take_append_drop]

theorem ne_nil_of_mem_chunks {xs p : List α} (h : p ∈ chunks k xs) : p ≠ [] := by
  induction xs using chunks.induct k with
  | case1 xs hxs =>
      rw [chunks, if_pos hxs] at h
      cases h
  | case2 xs hxs ih =>
      rw [chunks, if_neg hxs] at h
      rcases List.mem_cons.mp h with rfl | h
      · intro htake
        exact hxs (List.take_eq_nil_iff.mp htake)
      · exact ih h

theorem exists_head_chunks_iff (hk : 0 < k) (xs : List α) (x : α) :
    (∃ p ∈ chunks k xs, p.head? = some x) ↔ ∃ j, xs[j * k]? = some x := by
  induction xs using chunks.induct k with
  | case1 xs h =>
      rcases h with h | rfl
      · omega
      · simp
  | case2 xs h ih =>
      have hhead : (xs.take k).head? = xs[0 * k]? := by
        rw [List.head?_take, if_neg (Nat.ne_of_gt hk), Nat.zero_mul, List.head?_eq_getElem?]
      have hrest : ∀ j, (xs.drop k)[j * k]? = xs[(j + 1) * k]? := fun j => by
        rw [List.getElem?_drop, Nat.add_mul, Nat.one_mul, Nat.add_comm]
      simp only [hrest] at ih
      simp only [chunks_of_ne_nil hk (not_or.mp h).2, List.mem_cons, or_and_right, exists_or,
        exists_eq_left, hhead, ih]
      constructor
      · rintro (h0 | ⟨j, hj⟩)
        · exact ⟨0, h0⟩
        · exact ⟨j + 1, hj⟩
      · rintro ⟨_ | j, hj⟩
        · exact .inl hj
        · exact .inr ⟨j, hj⟩

end Chunks

/-! ### Pieces -/

def readPiece (sep : α → Bool) : ℕ → List α → List α × List α
  | 0, xs => ([], xs)
  | _ + 1, [] => ([], [])
  | k + 1, x :: xs =>
      if sep x then ([x], xs)
      else
        let r := readPiece sep k xs
        (x :: r.1, r.2)

def pieces (sep : α → Bool) (k : ℕ) (xs : List α) : List (List α) :=
  (splitAfter sep xs).flatMap (chunks k)

theorem readPiece_append (sep : α → Bool) (k : ℕ) (xs : List α) :
    (readPiece sep k xs).1 ++ (readPiece sep k xs).2 = xs := by
  induction xs generalizing k with
  | nil => cases k <;> rfl
  | cons x xs ih =>
      cases k with
      | zero => rfl
      | succ k =>
          cases hx : sep x with
          | true => simp [readPiece, hx]
          | false => simpa [readPiece, hx] using ih k

theorem readPiece_eq (k : ℕ) (xs : List α) :
    readPiece sep k xs = (((splitAfter sep xs).headD []).take k,
      ((splitAfter sep xs).headD []).drop k ++ (splitAfter sep xs).tail.flatten) := by
  induction xs generalizing k with
  | nil => cases k <;> simp [readPiece]
  | cons x xs ih =>
      cases k with
      | zero =>
          have hflat := flatten_splitAfter sep (x :: xs)
          cases h : splitAfter sep (x :: xs) with
          | nil => cases splitAfter_eq_nil_iff.mp h
          | cons l ls =>
              rw [h, List.flatten_cons] at hflat
              simp [readPiece, hflat]
      | succ k =>
          cases hx : sep x with
          | true => simp [readPiece, hx, splitAfter_sep hx, flatten_splitAfter]
          | false => simp [readPiece, hx, splitAfter_cons hx, ih k]

theorem splitAfter_rest (k : ℕ) (xs : List α) :
    splitAfter sep (readPiece sep k xs).2 =
      [((splitAfter sep xs).headD []).drop k].filter (· ≠ []) ++ (splitAfter sep xs).tail := by
  induction xs generalizing k with
  | nil => cases k <;> rfl
  | cons x xs ih =>
      cases k with
      | zero =>
          cases h : splitAfter sep (x :: xs) with
          | nil => cases splitAfter_eq_nil_iff.mp h
          | cons l ls =>
              have hl : l ≠ [] := ne_nil_of_mem_splitAfter (h ▸ List.mem_cons_self)
              simp [readPiece, h, hl]
      | succ k =>
          cases hx : sep x with
          | true => simp [readPiece, hx, splitAfter_sep hx]
          | false => simpa [readPiece, hx, splitAfter_cons hx] using ih k

@[simp] theorem pieces_nil (k : ℕ) : pieces sep k ([] : List α) = [] := rfl

theorem pieces_of_ne_nil {k : ℕ} (hk : 0 < k) {xs : List α} (hxs : xs ≠ []) :
    pieces sep k xs = (readPiece sep k xs).1 :: pieces sep k (readPiece sep k xs).2 := by
  have hrest : pieces sep k (readPiece sep k xs).2 =
      chunks k (((splitAfter sep xs).headD []).drop k) ++
        (splitAfter sep xs).tail.flatMap (chunks k) := by
    rw [pieces, splitAfter_rest, List.flatMap_append]
    rcases eq_or_ne (((splitAfter sep xs).headD []).drop k) [] with h | h
    · -- the piece was the whole line
      rw [h, chunks_nil]
      rfl
    · rw [List.filter_cons_of_pos (by simpa using h), List.filter_nil, List.flatMap_singleton]
  rw [hrest, readPiece_eq]
  cases h : splitAfter sep xs with
  | nil => exact absurd (splitAfter_eq_nil_iff.mp h) hxs
  | cons l ls =>
      have hl : l ≠ [] := ne_nil_of_mem_splitAfter (h ▸ List.mem_cons_self)
      rw [pieces, h, List.flatMap_cons, chunks_of_ne_nil hk hl]
      rfl

theorem flatten_flatMap_chunks {k : ℕ} (hk : 0 < k) (ls : List (List α)) :
    (ls.flatMap (chunks k)).flatten = ls.flatten := by
  induction ls with
  | nil => rfl
  | cons l ls ih =>
      rw [List.flatMap_cons, List.flatten_append, flatten_chunks hk, ih, List.flatten_cons]

theorem ne_nil_of_mem_pieces {k : ℕ} {xs p : List α} (h : p ∈ pieces sep k xs) : p ≠ [] := by
  obtain ⟨l, -, hp⟩ := List.mem_flatMap.mp h
  exact ne_nil_of_mem_chunks hp

theorem length_le_length_flatten {ps : List (List α)} (h : ∀ p ∈ ps, p ≠ []) :
    ps.length ≤ ps.flatten.length := by
  induction ps with
  | nil => exact Nat.le_refl 0
  | cons p ps ih =>
      have hpos := List.length_pos_of_ne_nil (h p List.mem_cons_self)
      have hrest := ih fun q hq => h q (List.mem_cons_of_mem p hq)
      rw [List.flatten_cons, List.length_append, List.length_cons]
      omega

theorem readPiece_ne_nil (sep : α → Bool) {k : ℕ} (hk : 0 < k) {xs : List α} (hxs : xs ≠ []) :
    (readPiece sep k xs).1 ≠ [] := by
  have hmem : (readPiece sep k xs).1 ∈ pieces sep k xs := by
    rw [pieces_of_ne_nil hk hxs]
    exact List.mem_cons_self
  exact ne_nil_of_mem_pieces hmem

theorem length_pieces_le {k : ℕ} (hk : 0 < k) (xs : List α) :
    (pieces sep k xs).length ≤ xs.length := by
  have h : (pieces sep k xs).length ≤ (pieces sep k xs).flatten.length :=
    length_le_length_flatten fun p hp => ne_nil_of_mem_pieces hp
  rwa [pieces, flatten_flatMap_chunks hk, flatten_splitAfter] at h

/-! ### Two renderings of a list -/

theorem length_flatMap_le {ι : Type*} {is : List ι} {f g : ι → List α}
    (hle : ∀ i ∈ is, (f i).length ≤ (g i).length) :
    (is.flatMap f).length ≤ (is.flatMap g).length := by
  induction is with
  | nil => exact Nat.le_refl 0
  | cons i is ih =>
      rw [List.flatMap_cons, List.flatMap_cons, List.length_append, List.length_append]
      exact Nat.add_le_add (hle i List.mem_cons_self)
        (ih fun j hj => hle j (List.mem_cons_of_mem i hj))

/-- What one piece lacks, the others cannot make up for. -/
theorem flatMap_eq_flatMap_iff {ι : Type*} {is : List ι} {f g : ι → List α}
    (hle : ∀ i ∈ is, (f i).length ≤ (g i).length) :
    is.flatMap f = is.flatMap g ↔ ∀ i ∈ is, f i = g i := by
  refine ⟨fun hsame => ?_, List.flatMap_congr⟩
  induction is with
  | nil => exact List.forall_mem_nil _
  | cons i is ih =>
      rw [List.forall_mem_cons] at hle
      rw [List.flatMap_cons, List.flatMap_cons] at hsame
      have hlengths := congrArg List.length hsame
      rw [List.length_append, List.length_append] at hlengths
      have hrest := length_flatMap_le hle.2
      have hfirst : (f i).length = (g i).length := by
        have hpiece := hle.1
        omega
      exact List.forall_mem_cons.mpr ⟨List.append_inj_left hsame hfirst,
        ih hle.2 (List.append_inj_right hsame hfirst)⟩

end UnixLabs.Library
