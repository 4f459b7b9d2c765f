import Mathlib.Data.List.Basic
import Mathlib.Logic.Function.Basic
import Mathlib.Tactic.Common

/-!
Singly linked lists in a memory of cells.

`Chain` says which cells a link leads to, and with which values. `LinkedList.append`
puts a new cell behind the last one, `traverse` visits the cells in order, and `clear`
frees them. A cell that is read or freed must be allocated.
-/

namespace UnixLabs.Library

variable {κ α β : Type*}

structure Cell (κ α : Type*) where
  value : α
  next : Option κ

abbrev Cells (κ α : Type*) := κ → Option (Cell κ α)

/-- The cells a link leads to, the addresses and the values. -/
inductive Chain (cells : Cells κ α) : Option κ → List κ → List α → Prop where
  | nil : Chain cells none [] []
  | cons {p : κ} {x : α} {next : Option κ} {ps : List κ} {xs : List α}
      (hcell : cells p = some ⟨x, next⟩) (hrest : Chain cells next ps xs) :
      Chain cells (some p) (p :: ps) (x :: xs)

section Chain

variable {cells cells' : Cells κ α} {link : Option κ} {ps : List κ} {xs : List α}

theorem Chain.length_eq (h : Chain cells link ps xs) : ps.length = xs.length := by
  induction h with
  | nil => rfl
  | cons hcell hrest ih => rw [List.length_cons, ih, List.length_cons]

theorem Chain.head (h : Chain cells link ps xs) : ps.head? = link := by
  cases h <;> rfl

theorem Chain.congr (h : Chain cells link ps xs) (hsame : ∀ p ∈ ps, cells' p = cells p) :
    Chain cells' link ps xs := by
  induction h with
  | nil => exact .nil
  | cons hcell hrest ih =>
      refine .cons ?_ (ih fun q hq => hsame q (List.mem_cons_of_mem _ hq))
      rw [hsame _ List.mem_cons_self, hcell]

theorem Chain.cell_of_mem (h : Chain cells link ps xs) {p : κ} (hp : p ∈ ps) :
    ∃ c, cells p = some c := by
  induction h with
  | nil => cases hp
  | cons hcell hrest ih =>
      rcases List.mem_cons.mp hp with rfl | hp
      · exact ⟨_, hcell⟩
      · exact ih hp

variable [DecidableEq κ]

theorem Chain.link_last (h : Chain cells link ps xs) (hnodup : ps.Nodup) {t p : κ}
    (hlast : ps.getLast? = some t) (hp : p ∉ ps) {c : Cell κ α} (hc : cells t = some c)
    {x : α} (hnew : cells p = some ⟨x, none⟩) :
    Chain (Function.update cells t (some { c with next := some p })) link (ps ++ [p])
      (xs ++ [x]) := by
  induction h with
  | nil => cases hlast
  | @cons q y next ps xs hcell hrest ih =>
      obtain ⟨hq, hnodup⟩ := List.nodup_cons.mp hnodup
      obtain ⟨hpq, hp⟩ := not_or.mp (mt List.mem_cons.mpr hp)
      cases hrest with
      | nil =>
          -- `q` is the last cell
          obtain rfl : q = t := by simpa using hlast
          obtain rfl : (⟨y, none⟩ : Cell κ α) = c := by simpa [hcell] using hc
          have hlink := (Function.update_of_ne hpq (some ⟨y, some p⟩) cells).trans hnew
          exact .cons (Function.update_self ..) (.cons hlink .nil)
      | @cons r z next ps xs hcell' hrest' =>
          -- the last cell is further on, so `q` stays as it is
          rw [List.getLast?_cons_cons] at hlast
          have hqt : q ≠ t := fun heq => hq (heq ▸ List.mem_of_getLast? hlast)
          refine .cons ?_ (ih hnodup hlast hp)
          rw [Function.update_of_ne hqt, hcell]

end Chain

/-! ### A list with its last cell -/

structure LinkedList (κ α : Type*) where
  cells : Cells κ α
  head : Option κ
  tail : Option κ

namespace LinkedList

def empty : LinkedList κ α := ⟨fun _ => none, none, none⟩

/-- The values of the list, and where its cells are. -/
structure Holds (l : LinkedList κ α) (ps : List κ) (xs : List α) : Prop where
  chain : Chain l.cells l.head ps xs
  nodup : ps.Nodup
  tail_eq : l.tail = ps.getLast?

theorem holds_empty : (empty : LinkedList κ α).Holds [] [] := ⟨.nil, List.nodup_nil, rfl⟩

variable [DecidableEq κ]

def append (l : LinkedList κ α) (p : κ) (x : α) : Option (LinkedList κ α) := do
  let cells := Function.update l.cells p (some ⟨x, none⟩)
  let cells ← match l.tail with
    | none => some cells
    | some t => (cells t).map fun c => Function.update cells t (some { c with next := some p })
  some ⟨cells, l.head.or (some p), some p⟩

theorem Holds.append {l : LinkedList κ α} {ps : List κ} {xs : List α} (h : l.Holds ps xs) {p : κ}
    (hp : p ∉ ps) (x : α) : ∃ l', l.append p x = some l' ∧ l'.Holds (ps ++ [p]) (xs ++ [x]) := by
  have hnodup : (ps ++ [p]).Nodup :=
    List.nodup_append.mpr ⟨h.nodup, by simp, fun q hq r hr => by
      rw [List.mem_singleton.mp hr]
      exact ne_of_mem_of_not_mem hq hp⟩
  have hnew : Function.update l.cells p (some ⟨x, none⟩) p = some ⟨x, none⟩ :=
    Function.update_self ..
  cases hps : ps.getLast? with
  | none =>
      obtain rfl := List.getLast?_eq_none_iff.mp hps
      obtain rfl : xs = [] := List.length_eq_zero_iff.mp h.chain.length_eq.symm
      refine ⟨⟨Function.update l.cells p (some ⟨x, none⟩), some p, some p⟩, ?_, ?_, hnodup, ?_⟩
      · simp [LinkedList.append, h.tail_eq, ← h.chain.head]
      · exact .cons hnew .nil
      · simp
  | some t =>
      have ht : t ∈ ps := List.mem_of_getLast? hps
      obtain ⟨c, hc⟩ := h.chain.cell_of_mem ht
      have hkept : ∀ q ∈ ps, Function.update l.cells p (some ⟨x, none⟩) q = l.cells q :=
        fun q hq => Function.update_of_ne (ne_of_mem_of_not_mem hq hp) ..
      have hc' := (hkept t ht).trans hc
      have hhead : l.head.or (some p) = l.head := by
        rw [← h.chain.head, List.head?_eq_some_head (List.ne_nil_of_mem ht), Option.some_or]
      refine ⟨⟨Function.update (Function.update l.cells p (some ⟨x, none⟩)) t
        (some { c with next := some p }), l.head, some p⟩, ?_, ?_, hnodup, ?_⟩
      · simp [LinkedList.append, h.tail_eq, hps, hc', hhead]
      · exact (h.chain.congr hkept).link_last h.nodup hps hp hc' hnew
      · simp

end LinkedList

/-! ### Visiting the cells -/

/-- What `f` makes of each value, for at most `fuel` cells. -/
def traverse (cells : Cells κ α) (f : α → Option β) : ℕ → Option κ → Option (List β)
  | _, none => some []
  | 0, some _ => none
  | fuel + 1, some p =>
      (cells p).bind fun c => (f c.value).bind fun y => (traverse cells f fuel c.next).map (y :: ·)

theorem Chain.traverse {cells : Cells κ α} {link : Option κ} {ps : List κ} {xs : List α}
    (h : Chain cells link ps xs) (f : α → Option β) {fuel : ℕ} (hfuel : xs.length ≤ fuel) :
    Library.traverse cells f fuel link = xs.mapM f := by
  induction h generalizing fuel with
  | nil => cases fuel <;> rfl
  | @cons p x next ps xs hcell hrest ih =>
      cases fuel with
      | zero => cases hfuel
      | succ fuel =>
          rw [Library.traverse, hcell, Option.bind_some, ih (Nat.le_of_succ_le_succ hfuel)]
          cases hfx : f x with
          | none => simp [hfx]
          | some y => cases hxs : xs.mapM f <;> simp [hfx, hxs]

variable [DecidableEq κ]

def clear : ℕ → Cells κ α → Option κ → Option (Cells κ α)
  | _, cells, none => some cells
  | 0, _, some _ => none
  | fuel + 1, cells, some p =>
      (cells p).bind fun c => clear fuel (Function.update cells p none) c.next

/-- The cells of the list are freed, each of them once, and no others. -/
theorem Chain.clear {cells : Cells κ α} {link : Option κ} {ps : List κ} {xs : List α}
    (h : Chain cells link ps xs) (hnodup : ps.Nodup) {fuel : ℕ} (hfuel : xs.length ≤ fuel) :
    Library.clear fuel cells link = some fun q => if q ∈ ps then none else cells q := by
  induction ps generalizing cells link xs fuel with
  | nil =>
      cases h
      cases fuel <;> simp [Library.clear]
  | cons p ps ih =>
      obtain ⟨hp, hnodup⟩ := List.nodup_cons.mp hnodup
      cases h with
      | cons hcell hrest =>
          cases fuel with
          | zero => cases hfuel
          | succ fuel =>
              -- freeing `p` does not touch the cells behind it
              have hrest' := hrest.congr fun q hq =>
                Function.update_of_ne (ne_of_mem_of_not_mem hq hp) none cells
              rw [Library.clear, hcell]
              show Library.clear fuel (Function.update cells p none) _ = _
              rw [ih hrest' hnodup (Nat.le_of_succ_le_succ hfuel)]
              congr 1
              ext q : 1
              rcases eq_or_ne q p with rfl | hq
              · simp
              · simp [hq]

end UnixLabs.Library
