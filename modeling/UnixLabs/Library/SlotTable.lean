import Mathlib.Data.Int.Order.Basic
import Mathlib.Data.List.Perm.Basic
import Mathlib.Data.List.Nodup
import Mathlib.Data.Finset.Card
import Mathlib.Data.Finset.Range
import Mathlib.Logic.Function.Basic

/-!
Dense tables with swap-with-last removal.

A dense table keeps its entries in the first positions of an array and fills the
hole of a removed entry with the last one. On the list of entries that is
`swapRemove`, whose result is a permutation of the erased list.

`Indexed` is the representation that goes with it: two arrays that send keys to
positions and positions to keys, mutually inverse on the listed keys and marked
everywhere else. Listing a fresh key and removing a listed one are two writes to
each array.
-/

namespace UnixLabs.Library

variable {α : Type*}

/-! ### Removal on the list of entries -/

/-- Put the last entry in position `p` and drop the last position. -/
def swapRemove (l : List α) (p : ℕ) : List α :=
  match l.getLast? with
  | none => []
  | some x => (l.set p x).dropLast

theorem swapRemove_of_ne_nil {l : List α} (h : l ≠ []) (p : ℕ) :
    swapRemove l p = (l.set p (l.getLast h)).dropLast := by
  rw [swapRemove, List.getLast?_eq_some_getLast h]

@[simp] theorem length_swapRemove (l : List α) (p : ℕ) :
    (swapRemove l p).length = l.length - 1 := by
  cases h : l.getLast? with
  | none => simp [swapRemove, List.getLast?_eq_none_iff.mp h]
  | some x => simp [swapRemove, h]

theorem last_lt {l : List α} {p : ℕ} (hp : p < l.length) : l.length - 1 < l.length := by omega

theorem getElem_swapRemove (l : List α) (p q : ℕ) (h : q < (swapRemove l p).length) :
    (swapRemove l p)[q] =
      if q = p then l.get ⟨l.length - 1, by rw [length_swapRemove] at h; omega⟩
      else l.get ⟨q, by rw [length_swapRemove] at h; omega⟩ := by
  have hne : l ≠ [] := by rintro rfl; simp at h
  simp only [swapRemove_of_ne_nil hne, List.getElem_dropLast, List.getElem_set,
    List.getLast_eq_getElem, List.get_eq_getElem, eq_comm (a := p)]

theorem swapRemove_last (l : List α) : swapRemove l (l.length - 1) = l.dropLast := by
  refine List.ext_getElem (by simp) fun q h₁ _ => ?_
  rw [length_swapRemove] at h₁
  rw [getElem_swapRemove, if_neg (by omega), List.get_eq_getElem, List.getElem_dropLast]

/-- Filling the hole: the entry replaced at `p` and the new list are the old list
with the replacing entry. -/
theorem set_perm (l : List α) (x : α) {p : ℕ} (h : p < l.length) :
    (l[p] :: l.set p x).Perm (x :: l) := by
  induction l generalizing p with
  | nil => simp at h
  | cons y l ih =>
      cases p with
      | zero => exact List.Perm.swap x y l
      | succ p =>
          have hp : p < l.length := by simpa using h
          rw [List.getElem_cons_succ, List.set_cons_succ]
          calc (l[p] :: y :: l.set p x).Perm (y :: l[p] :: l.set p x) := List.Perm.swap _ _ _
            List.Perm _ (y :: x :: l) := (ih hp).cons y
            List.Perm _ (x :: y :: l) := List.Perm.swap _ _ _

theorem swapRemove_perm (l : List α) {p : ℕ} (h : p < l.length) :
    (l[p] :: swapRemove l p).Perm l := by
  have hne : l ≠ [] := by rintro rfl; simp at h
  by_cases hp : p = l.length - 1
  · subst hp
    rw [swapRemove_last, ← List.getLast_eq_getElem hne]
    exact (List.perm_append_singleton _ _).symm.trans
      (by rw [List.dropLast_append_getLast hne])
  · have hlast : (l.set p (l.getLast hne)).getLast (by simpa using hne) = l.getLast hne := by
      rw [List.getLast_eq_getElem, List.getLast_eq_getElem, List.getElem_set_ne (by simp; omega)]
      simp
    have hinit : (l.set p (l.getLast hne)).dropLast ++ [l.getLast hne] =
        l.set p (l.getLast hne) :=
      List.dropLast_append_getLast? _
        (by rw [List.getLast?_eq_some_getLast (by simpa using hne), hlast]; rfl)
    rw [swapRemove_of_ne_nil hne]
    apply List.Perm.cons_inv (a := l.getLast hne)
    calc (l.getLast hne :: l[p] :: (l.set p (l.getLast hne)).dropLast).Perm
          (l[p] :: l.getLast hne :: (l.set p (l.getLast hne)).dropLast) := List.Perm.swap _ _ _
      List.Perm _ (l[p] :: l.set p (l.getLast hne)) := by
          exact List.Perm.cons _ ((List.perm_append_singleton _ _).symm.trans (by rw [hinit]))
      List.Perm _ (l.getLast hne :: l) := set_perm l _ h

theorem mem_swapRemove {l : List α} (hl : l.Nodup) {p : ℕ} (h : p < l.length) {x : α} :
    x ∈ swapRemove l p ↔ x ∈ l ∧ x ≠ l[p] := by
  have hperm := swapRemove_perm l h
  have hnodup : (l[p] :: swapRemove l p).Nodup := hperm.nodup_iff.mpr hl
  rw [← hperm.mem_iff, List.mem_cons]
  have hnot : l[p] ∉ swapRemove l p := (List.nodup_cons.mp hnodup).1
  constructor
  · exact fun hx => ⟨.inr hx, fun he => hnot (he ▸ hx)⟩
  · rintro ⟨hx | hx, hne⟩
    · exact absurd hx hne
    · exact hx

theorem nodup_swapRemove {l : List α} (hl : l.Nodup) {p : ℕ} (h : p < l.length) :
    (swapRemove l p).Nodup :=
  (List.nodup_cons.mp ((swapRemove_perm l h).nodup_iff.mpr hl)).2

/-! ### Keys and positions -/

/-- The arrays `index` (key to position) and `key` (position to key), of `n`
cells each, list exactly `keys`, in order; the other cells hold the mark `none`
of their array. -/
structure Indexed (n : ℕ) (noIndex noKey : ℤ) (index key : ℕ → ℤ) (keys : List ℕ) : Prop where
  nodup : keys.Nodup
  lt : ∀ k ∈ keys, k < n
  key_eq : ∀ p (h : p < keys.length), key p = keys[p]
  index_eq : ∀ p (h : p < keys.length), index keys[p] = p
  key_none : ∀ p, keys.length ≤ p → p < n → key p = noKey
  index_none : ∀ k, k < n → k ∉ keys → index k = noIndex

namespace Indexed

variable {n : ℕ} {noIndex noKey : ℤ} {index key : ℕ → ℤ} {keys : List ℕ}

theorem length_le (h : Indexed n noIndex noKey index key keys) : keys.length ≤ n := by
  have hsub : keys.toFinset ⊆ Finset.range n := fun k hk =>
    Finset.mem_range.mpr (h.lt k (List.mem_toFinset.mp hk))
  have hcard := Finset.card_le_card hsub
  rwa [List.toFinset_card_of_nodup h.nodup, Finset.card_range] at hcard

theorem mem_of_full (h : Indexed n noIndex noKey index key keys) (hfull : keys.length = n)
    {k : ℕ} (hk : k < n) : k ∈ keys := by
  have hsub : keys.toFinset ⊆ Finset.range n := fun k hk =>
    Finset.mem_range.mpr (h.lt k (List.mem_toFinset.mp hk))
  have heq : keys.toFinset = Finset.range n := by
    apply Finset.eq_of_subset_of_card_le hsub
    rw [List.toFinset_card_of_nodup h.nodup, Finset.card_range, hfull]
  exact List.mem_toFinset.mp (heq ▸ Finset.mem_range.mpr hk)

theorem exists_fresh (h : Indexed n noIndex noKey index key keys) (hroom : keys.length < n) :
    ∃ k < n, k ∉ keys := by
  by_contra hall
  push Not at hall
  have hsub : Finset.range n ⊆ keys.toFinset := fun k hk =>
    List.mem_toFinset.mpr (hall k (Finset.mem_range.mp hk))
  have hcard := Finset.card_le_card hsub
  rw [Finset.card_range, List.toFinset_card_of_nodup h.nodup] at hcard
  omega

theorem exists_position (h : Indexed n noIndex noKey index key keys) {k : ℕ} (hk : k ∈ keys) :
    ∃ p, ∃ hp : p < keys.length, keys[p] = k ∧ index k = p := by
  obtain ⟨p, hp, rfl⟩ := List.getElem_of_mem hk
  exact ⟨p, hp, rfl, h.index_eq p hp⟩

theorem index_eq_none_iff (h : Indexed n noIndex noKey index key keys) (hneg : noIndex < 0)
    {k : ℕ} (hk : k < n) : index k = noIndex ↔ k ∉ keys := by
  constructor
  · intro hnone hmem
    obtain ⟨p, -, -, hp⟩ := h.exists_position hmem
    omega
  · exact h.index_none k hk

theorem active_iff (h : Indexed n noIndex noKey index key keys) (hneg : noIndex < 0) {k : ℕ} :
    k < n ∧ index k ≠ noIndex ↔ k ∈ keys := by
  constructor
  · rintro ⟨hlt, hne⟩
    by_contra hmem
    exact hne (h.index_none k hlt hmem)
  · intro hmem
    have hlt := h.lt k hmem
    exact ⟨hlt, fun he => (h.index_eq_none_iff hneg hlt).mp he hmem⟩

/-- A search for a marked index finds an unlisted key while there is room. -/
theorem find?_fresh (h : Indexed n noIndex noKey index key keys) (hneg : noIndex < 0)
    (hroom : keys.length < n) :
    ∃ k, (List.range n).find? (fun i => index i = noIndex) = some k ∧ k < n ∧ k ∉ keys := by
  cases hf : (List.range n).find? fun i => index i = noIndex with
  | some k =>
      have hk := List.mem_range.mp (List.mem_of_find?_eq_some hf)
      have hval : index k = noIndex := by simpa using List.find?_some hf
      exact ⟨k, rfl, hk, (h.index_eq_none_iff hneg hk).mp hval⟩
  | none =>
      obtain ⟨k, hk, hnot⟩ := h.exists_fresh hroom
      have hmissed := List.find?_eq_none.mp hf k (List.mem_range.mpr hk)
      rw [decide_eq_true_eq] at hmissed
      exact absurd (h.index_none k hk hnot) hmissed

theorem find?_full (h : Indexed n noIndex noKey index key keys) (hneg : noIndex < 0)
    (hfull : keys.length = n) : (List.range n).find? (fun i => index i = noIndex) = none := by
  rw [List.find?_eq_none]
  intro k hk
  rw [decide_eq_true_eq]
  have hlt := List.mem_range.mp hk
  exact fun he => (h.index_eq_none_iff hneg hlt).mp he (h.mem_of_full hfull hlt)

theorem empty (hindex : ∀ k < n, index k = noIndex) (hkey : ∀ p < n, key p = noKey) :
    Indexed n noIndex noKey index key [] where
  nodup := List.nodup_nil
  lt := by simp
  key_eq := by simp
  index_eq := by simp
  key_none := fun p _ hp => hkey p hp
  index_none := fun k hk _ => hindex k hk

theorem push (h : Indexed n noIndex noKey index key keys) {k : ℕ} (hk : k < n)
    (hfresh : k ∉ keys) :
    Indexed n noIndex noKey (Function.update index k keys.length)
      (Function.update key keys.length k) (keys ++ [k]) where
  nodup := List.nodup_append.mpr ⟨h.nodup, List.nodup_singleton k, by
    rintro a ha b hb rfl
    exact hfresh (List.mem_singleton.mp hb ▸ ha)⟩
  lt := by
    intro j hj
    rcases List.mem_append.mp hj with hj | hj
    · exact h.lt j hj
    · exact List.mem_singleton.mp hj ▸ hk
  key_eq := by
    intro p hp
    rw [List.length_append, List.length_singleton] at hp
    rw [Function.update_apply, List.getElem_append]
    by_cases hlt : p < keys.length
    · rw [dif_pos hlt, if_neg (by omega)]
      exact h.key_eq p hlt
    · have : p = keys.length := by omega
      simp [this]
  index_eq := by
    intro p hp
    rw [List.length_append, List.length_singleton] at hp
    rw [Function.update_apply, List.getElem_append]
    by_cases hlt : p < keys.length
    · have hne : keys[p] ≠ k := fun he => hfresh (he ▸ List.getElem_mem hlt)
      rw [dif_pos hlt, if_neg hne]
      exact h.index_eq p hlt
    · rw [dif_neg hlt]
      have : p = keys.length := by omega
      simp [this]
  key_none := by
    intro p hp hpn
    rw [List.length_append, List.length_singleton] at hp
    rw [Function.update_of_ne (by omega)]
    exact h.key_none p (by omega) hpn
  index_none := by
    intro j hj hnot
    rw [List.mem_append, List.mem_singleton, not_or] at hnot
    rw [Function.update_of_ne hnot.2]
    exact h.index_none j hj hnot.1

/-- Removing the key at position `p`: the last key takes its position, and the
removed key and the last position are marked. -/
theorem remove (h : Indexed n noIndex noKey index key keys) {p : ℕ} (hp : p < keys.length) :
    Indexed n noIndex noKey
      (Function.update (Function.update index keys[keys.length - 1] p) keys[p] noIndex)
      (Function.update (Function.update key p keys[keys.length - 1]) (keys.length - 1) noKey)
      (swapRemove keys p) where
  nodup := nodup_swapRemove h.nodup hp
  lt := fun k hk => h.lt k ((mem_swapRemove h.nodup hp).mp hk).1
  key_eq := by
    intro q hq
    have hq' : q < keys.length - 1 := by simpa using hq
    rw [Function.update_of_ne (by omega), getElem_swapRemove, Function.update_apply]
    split_ifs with hqp
    · rfl
    · exact h.key_eq q (by omega)
  index_eq := by
    intro q hq
    have hq' : q < keys.length - 1 := by simpa using hq
    have hmem := (mem_swapRemove h.nodup hp).mp (List.getElem_mem hq)
    rw [Function.update_of_ne hmem.2, getElem_swapRemove, Function.update_apply]
    by_cases hqp : q = p
    · simp [hqp]
    · have hne : keys[q] ≠ keys[keys.length - 1] := fun he => by
        have := (List.Nodup.getElem_inj_iff h.nodup).mp he
        omega
      rw [if_neg hqp, List.get_eq_getElem, if_neg hne]
      exact h.index_eq q (by omega)
  key_none := by
    intro q hq hqn
    rw [length_swapRemove] at hq
    by_cases hlast : q = keys.length - 1
    · rw [hlast, Function.update_self]
    · rw [Function.update_of_ne hlast, Function.update_of_ne (by omega)]
      exact h.key_none q (by omega) hqn
  index_none := by
    intro k hk hnot
    by_cases hkp : k = keys[p]
    · rw [hkp, Function.update_self]
    · have hnotin : k ∉ keys := fun hmem =>
        hnot ((mem_swapRemove h.nodup hp).mpr ⟨hmem, hkp⟩)
      have hne : k ≠ keys[keys.length - 1] := by
        intro he
        exact hnotin (by rw [he]; exact List.getElem_mem _)
      rw [Function.update_of_ne hkp, Function.update_of_ne hne]
      exact h.index_none k hk hnotin

end Indexed

end UnixLabs.Library
