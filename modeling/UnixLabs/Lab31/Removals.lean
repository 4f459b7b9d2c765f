import UnixLabs.Lab31.TableBounds
import Mathlib.Data.List.TakeWhile

/-!
What is left of the tables of lab31 after clients were removed.

A pass marks some clients and closes the gaps. The gaps are closed from the lowest mark
on, of which 0 stands for none: with the listener at index 0 that is no index of a mark,
but `multithreading/multiplexer.c` has a client there.
-/

namespace UnixLabs.Lab31

open Library

variable {max : Somaxconn} {α : Type}

/-! ### A pass -/

/-- Clients are removed one after the other, and the removals are committed. -/
def TableOps.removalPass (ops : TableOps max α) (t : ClientTable max) (is : List ℕ) :
    Option (ClientTable max) :=
  (run ops.removeClient t is).bind ops.commitRemoveClients

structure Settled (t : ClientTable max) : Prop where
  inArray : InArray t
  live : ∀ k < t.clientCount, fds t.clients k ≠ removedClient
  toRemove : t.clientsToRemoveCount = 0
  first : t.firstClientToRemove = 0

def keptFds (t : ClientTable max) (is : List ℕ) : List ℤ :=
  ((List.range t.clientCount).filter (· ∉ is)).map (fds t.clients)

def removedOf (t : ClientTable max) (is : List ℕ) : ℕ :=
  (List.range t.clientCount).countP (· ∈ is)

/-- The clients in use are those that were not removed, and no removal is pending. -/
structure Committed (t t' : ClientTable max) (is : List ℕ) : Prop where
  count : t'.clientCount = t.clientCount - removedOf t is
  kept : (firstCells (fds t'.clients) t'.clientCount).Perm (keptFds t is)
  live : ∀ k < t'.clientCount, fds t'.clients k ≠ removedClient
  toRemove : t'.clientsToRemoveCount = 0
  first : t'.firstClientToRemove = 0

/-- Nothing but index 0 is removed for the first time after index 0 is. -/
def ZeroLast (is : List ℕ) : Prop :=
  ∀ k ∈ is.dropWhile (· ≠ 0), k = 0 ∨ k ∈ is.takeWhile (· ≠ 0)

instance (is : List ℕ) : Decidable (ZeroLast is) :=
  inferInstanceAs (Decidable (∀ k ∈ is.dropWhile (· ≠ 0), k = 0 ∨ k ∈ is.takeWhile (· ≠ 0)))

theorem zeroLast_split {before after : List ℕ} (h : 0 ∉ before) :
    ZeroLast (before ++ 0 :: after) ↔ ∀ k ∈ after, k = 0 ∨ k ∈ before := by
  have hpos : ∀ k ∈ before, decide (k ≠ 0) = true := fun k hk => by
    simpa using fun he : k = 0 => h (he ▸ hk)
  rw [ZeroLast, List.takeWhile_append_of_pos hpos, List.dropWhile_append_of_pos hpos]
  simp

theorem zeroLast_of_not_mem {is : List ℕ} (h : 0 ∉ is) : ZeroLast is := by
  have hdrop : is.dropWhile (· ≠ 0) = [] :=
    List.dropWhile_eq_nil_iff.mpr fun k hk => by
      simpa using fun he : k = 0 => h (he ▸ hk)
  rw [ZeroLast, hdrop]
  exact nofun

theorem zeroLast_append_of_not_mem {is : List ℕ} (h : 0 ∉ is) (k : ℕ) : ZeroLast (is ++ [k]) := by
  by_cases hk : k = 0
  · rw [hk, zeroLast_split h]
    exact nofun
  · exact zeroLast_of_not_mem (by simpa [h] using Ne.symm hk)

theorem zeroLast_append_of_mem {is : List ℕ} (h : 0 ∈ is) (k : ℕ) :
    ZeroLast (is ++ [k]) ↔ ZeroLast is ∧ k ∈ is := by
  obtain ⟨before, after, rfl, hbefore⟩ := List.eq_append_cons_of_mem h
  rw [List.append_assoc, List.cons_append, zeroLast_split hbefore, zeroLast_split hbefore]
  simp only [List.mem_append, List.mem_cons]
  constructor
  · intro hall
    exact ⟨fun j hj => hall j (.inl hj), (hall k (.inr (.inl rfl))).symm.imp_right .inl⟩
  · rintro ⟨hall, hk⟩ j (hj | rfl | hj)
    · exact hall j hj
    · rcases hk with hk | hk | hk
      · exact .inr hk
      · exact .inl hk
      · exact hall _ hk
    · cases hj

/-! ### The index that is remembered -/

/-- The lowest index of those that were removed, or index 0 was removed and is
forgotten. -/
structure Remembers (first : ℕ) (is : List ℕ) : Prop where
  unset : is = [] → first = 0
  mem : is ≠ [] → first ∈ is
  le : ZeroLast is → ∀ k ∈ is, first ≤ k
  forgotten : ¬ZeroLast is → 0 < first ∧ 0 ∈ is

theorem remembers_nil : Remembers 0 [] where
  unset := fun _ => rfl
  mem := fun hne => absurd rfl hne
  le := fun _ => List.forall_mem_nil _
  forgotten := fun hnot => absurd (zeroLast_of_not_mem List.not_mem_nil) hnot

theorem mem_append_again {is : List ℕ} {index : ℕ} (hmem : index ∈ is) (k : ℕ) :
    k ∈ is ++ [index] ↔ k ∈ is := by
  rw [List.mem_append, List.mem_singleton]
  exact ⟨fun hk => hk.elim id fun he => he ▸ hmem, .inl⟩

namespace Remembers

variable {first index : ℕ} {is : List ℕ}

theorem again (h : Remembers first is) (hmem : index ∈ is) : Remembers first (is ++ [index]) := by
  have hiff := mem_append_again hmem
  have hlast : ZeroLast (is ++ [index]) ↔ ZeroLast is := by
    by_cases hzero : 0 ∈ is
    · rw [zeroLast_append_of_mem hzero, and_iff_left hmem]
    · exact iff_of_true (zeroLast_append_of_not_mem hzero index) (zeroLast_of_not_mem hzero)
  refine ⟨by simp, fun _ => ?_, fun hz k hk => ?_, fun hnot => ?_⟩
  · exact (hiff first).mpr (h.mem (List.ne_nil_of_mem hmem))
  · exact h.le (hlast.mp hz) k ((hiff k).mp hk)
  · rw [hiff]
    exact h.forgotten (mt hlast.mpr hnot)

theorem add (h : Remembers first is) (hnew : index ∉ is) :
    Remembers (if first = 0 ∨ first > index then index else first) (is ++ [index]) := by
  refine ⟨by simp, fun _ => ?_, fun hz k hk => ?_, fun hnot => ?_⟩
  · split_ifs with hunset
    · exact List.mem_append_right is List.mem_cons_self
    · exact List.mem_append_left [index] (h.mem fun hnil => hunset (.inl (h.unset hnil)))
  · -- index 0 is not among the others, so they have been remembered
    have hzero : 0 ∉ is := fun hzero => hnew ((zeroLast_append_of_mem hzero index).mp hz).2
    have hset : is ≠ [] → first ≠ 0 := fun hne he => hzero (he ▸ h.mem hne)
    rcases List.mem_append.mp hk with hk | hk
    · have hle := h.le (zeroLast_of_not_mem hzero) k hk
      have hpos := hset (List.ne_nil_of_mem hk)
      split_ifs with hunset
      · omega
      · exact hle
    · rw [List.mem_singleton.mp hk]
      split_ifs with hunset
      · exact le_rfl
      · omega
  · have hzero : 0 ∈ is := by
      by_contra hzero
      exact hnot (zeroLast_append_of_not_mem hzero index)
    have hne : index ≠ 0 := fun he => hnew (he ▸ hzero)
    refine ⟨?_, List.mem_append_left [index] hzero⟩
    split_ifs with hunset
    · omega
    · omega

end Remembers

/-! ### The marks of a pass -/

/-- The table after the removals: the marks are where they were asked for. -/
structure Marks (before t : ClientTable max) (is : List ℕ) : Prop where
  count : t.clientCount = before.clientCount
  fds_eq : ∀ k, fds t.clients k = if k ∈ is then removedClient else fds before.clients k
  toRemove : t.clientsToRemoveCount = marked removedClient (fds t.clients) t.clientCount
  first : Remembers t.firstClientToRemove is

theorem Settled.marks {t : ClientTable max} (h : Settled t) : Marks t t [] where
  count := rfl
  fds_eq := fun _ => (if_neg List.not_mem_nil).symm
  toRemove := h.toRemove.trans (marked_eq_zero_iff.mpr h.live).symm
  first := h.first ▸ remembers_nil

namespace Marks

variable {before t : ClientTable max} {is : List ℕ}

theorem inOrder (h : Marks before t is) (hin : InArray before) : InOrder t :=
  ⟨by rw [InArray, h.count]; exact hin, h.toRemove.le⟩

theorem again (h : Marks before t is) {index : ℕ} (hmem : index ∈ is) :
    Marks before t (is ++ [index]) := by
  refine ⟨h.count, fun k => ?_, h.toRemove, h.first.again hmem⟩
  rw [h.fds_eq]
  simp only [mem_append_again hmem]

theorem mark (h : Marks before t is) (hin : InArray before) {index : ℕ}
    (hindex : index < before.clientCount) (hnew : index ∉ is)
    (hlive : fds before.clients index ≠ removedClient) :
    ∃ t', t.mark index = some t' ∧ Marks before t' (is ++ [index]) := by
  have hcell : fds t.clients index ≠ removedClient := by
    rw [h.fds_eq, if_neg hnew]
    exact hlive
  have hlt : index < max.size := hindex.trans_le hin
  obtain ⟨clients, hstore⟩ : ∃ clients, t.clients.store index
      { t.clients.cells index with fd := removedClient } = some clients :=
    ⟨_, CArray.store_of_lt _ _ hlt⟩
  have hfds : fds clients = Function.update (fds t.clients) index removedClient :=
    fds_store hstore
  have hmark : t.mark index = some { t with
      clients
      clientsToRemoveCount := t.clientsToRemoveCount + 1
      firstClientToRemove :=
        if t.firstClientToRemove = 0 ∨ t.firstClientToRemove > index then index
        else t.firstClientToRemove } := by
    rw [ClientTable.mark, CArray.load_of_lt _ hlt, Option.bind_eq_bind, Option.bind_some,
      if_neg (by exact hcell), hstore]
    rfl
  refine ⟨_, hmark, h.count, fun k => ?_, ?_, h.first.add hnew⟩
  · simp only [hfds, Function.update_apply, List.mem_append, List.mem_singleton]
    by_cases hk : k = index
    · rw [if_pos hk, if_pos (.inr hk)]
    · rw [if_neg hk, h.fds_eq]
      simp only [hk, or_false]
  · simp only [hfds]
    rw [marked_mark (by rw [h.count]; exact hindex) hcell, h.toRemove]

end Marks

theorem Settled.run_mark {t : ClientTable max} (h : Settled t) {is : List ℕ}
    (his : ∀ i ∈ is, i < t.clientCount) : ∃ t', run ClientTable.mark t is = some t' ∧
      Marks t t' is := by
  induction is using List.reverseRecOn with
  | nil => exact ⟨t, rfl, h.marks⟩
  | append_singleton is index ih =>
      obtain ⟨t₁, hrun, hmarks⟩ := ih fun i hi => his i (List.mem_append_left [index] hi)
      have hindex := his index (List.mem_append_right is List.mem_cons_self)
      have hone : ∃ t', t₁.mark index = some t' ∧ Marks t t' (is ++ [index]) := by
        by_cases hmem : index ∈ is
        · have hmark : (t₁.clients.cells index).fd = removedClient :=
            (hmarks.fds_eq index).trans (if_pos hmem)
          refine ⟨t₁, ?_, hmarks.again hmem⟩
          rw [ClientTable.mark, CArray.load_of_lt _ (hindex.trans_le h.inArray),
            Option.bind_eq_bind, Option.bind_some, if_pos hmark]
        · exact hmarks.mark h.inArray hindex hmem (h.live index hindex)
      obtain ⟨t', hmark, hmarks'⟩ := hone
      refine ⟨t', ?_, hmarks'⟩
      rw [run_append, hrun, Option.bind_some, run_cons, hmark]
      rfl

/-! ### Closing the gaps behind the marks -/

namespace Marks

variable {before t : ClientTable max} {is : List ℕ}

theorem live_eq (h : Marks before t is) (hsettled : Settled before) :
    Library.live removedClient (fds t.clients) t.clientCount = keptFds before is := by
  rw [Library.live, firstCells, keptFds, List.filter_map, h.count]
  have hfilter : (List.range before.clientCount).filter
      ((fun fd => decide (fd ≠ removedClient)) ∘ fds t.clients) =
        (List.range before.clientCount).filter (· ∉ is) := by
    refine List.filter_congr fun k hk => ?_
    have hlive := hsettled.live k (List.mem_range.mp hk)
    rw [Function.comp_apply, h.fds_eq]
    split_ifs with hmem
    · simp [hmem]
    · simp [hmem, hlive]
  rw [hfilter]
  refine List.map_congr_left fun k hk => ?_
  rw [h.fds_eq, if_neg (by simpa using (List.mem_filter.mp hk).2)]

theorem toRemove_eq (h : Marks before t is) (hsettled : Settled before) :
    t.clientsToRemoveCount = removedOf before is := by
  have hlength : (Library.live removedClient (fds t.clients) t.clientCount).length +
      marked removedClient (fds t.clients) t.clientCount = t.clientCount := length_live
  rw [h.live_eq hsettled, keptFds, List.length_map, ← List.countP_eq_length_filter, ← h.toRemove,
    h.count] at hlength
  have hsplit := List.length_eq_countP_add_countP (· ∈ is) (l := List.range before.clientCount)
  rw [List.length_range] at hsplit
  have hsame : (List.range before.clientCount).countP (fun k => decide ¬decide (k ∈ is) = true) =
      (List.range before.clientCount).countP (fun k => decide (k ∉ is)) :=
    List.countP_congr fun k _ => by simp
  rw [hsame] at hsplit
  rw [removedOf]
  omega

theorem first_lt (h : Marks before t is) (his : ∀ i ∈ is, i < before.clientCount)
    (hne : is ≠ []) : t.firstClientToRemove < t.clientCount :=
  (his _ (h.first.mem hne)).trans_eq h.count.symm

theorem toRemove_pos (h : Marks before t is) (his : ∀ i ∈ is, i < before.clientCount)
    (hne : is ≠ []) : t.clientsToRemoveCount ≠ 0 := by
  rw [h.toRemove]
  intro hnone
  refine marked_eq_zero_iff.mp hnone _ (h.first_lt his hne) ?_
  rw [h.fds_eq, if_pos (h.first.mem hne)]

/-- From the lowest mark on the gaps are closed. -/
theorem closed (h : Marks before t is) (hsettled : Settled before) (hlast : ZeroLast is)
    (his : ∀ i ∈ is, i < before.clientCount) (hne : is ≠ []) {clients : CArray max.size Pollfd}
    (hclosed : fds clients = closeGaps removedClient t.clientsToRemoveCount (t.clientCount + 1)
      t.firstClientToRemove t.clientCount 0 (fds t.clients)) :
    Committed before ⟨clients, t.clientCount - t.clientsToRemoveCount, 0, 0⟩ is := by
  have hfirst := h.first_lt his hne
  have hfront : ∀ k < t.firstClientToRemove, fds t.clients k ≠ removedClient := by
    intro k hk
    have hmem : k ∉ is := fun hmem => absurd (h.first.le hlast k hmem) (by omega)
    rw [h.fds_eq, if_neg hmem]
    exact hsettled.live k (by rw [← h.count]; omega)
  obtain ⟨hperm, htail⟩ := (Compacting.start hfront h.toRemove.symm).closeGaps_spec
    (by omega : t.clientCount < t.clientCount + 1 + _) (Nat.succ_pos _)
  rw [← hclosed] at hperm htail
  have hle := (h.inOrder hsettled.inArray).toRemove_le
  have hmarked : marked removedClient (fds clients) t.clientCount = t.clientsToRemoveCount :=
    (hperm.count_eq removedClient).trans h.toRemove.symm
  obtain ⟨hlive, hnone⟩ := live_of_marked_tail (by omega) htail
  refine ⟨?_, ?_, hnone, rfl, rfl⟩
  · simp only [h.count, h.toRemove_eq hsettled]
  · rw [← hlive, ← h.live_eq hsettled]
    exact hperm.filter _

/-- Closing the gaps of a table without clients that stay leaves none. -/
theorem closed_of_all (h : Marks before t is) (hsettled : Settled before)
    (hall : ∀ k < before.clientCount, k ∈ is) (clients : CArray max.size Pollfd) :
    Committed before ⟨clients, t.clientCount - t.clientsToRemoveCount, 0, 0⟩ is := by
  have hkept : keptFds before is = [] := by
    rw [keptFds, List.map_eq_nil_iff, List.filter_eq_nil_iff]
    intro k hk
    simpa using hall k (List.mem_range.mp hk)
  have hcount : removedOf before is = before.clientCount := by
    rw [removedOf, List.countP_eq_length.mpr fun k hk => by
      simpa using hall k (List.mem_range.mp hk), List.length_range]
  have hzero : t.clientCount - t.clientsToRemoveCount = 0 := by
    rw [h.count, h.toRemove_eq hsettled, hcount, Nat.sub_self]
  refine ⟨by simp only [h.count, h.toRemove_eq hsettled], ?_, fun k hk => ?_, rfl, rfl⟩
  · rw [hkept, hzero, firstCells_zero]
  · rw [hzero] at hk
    exact absurd hk k.not_lt_zero

end Marks

theorem Settled.committed_nil {t : ClientTable max} (h : Settled t) : Committed t t [] := by
  refine ⟨?_, ?_, h.live, h.toRemove, h.first⟩
  · rw [← h.marks.toRemove_eq h, h.toRemove, Nat.sub_zero]
  · rw [← h.marks.live_eq h, live_eq_firstCells h.live]

/-! ### The multiplexer -/

/-- The pass of the multiplexer is right exactly when index 0 is not removed, or is the
last index to be removed for the first time, or nobody stays. -/
theorem multiplexer_removals_iff {t : ClientTable max} (h : Settled t) {is : List ℕ}
    (his : ∀ i ∈ is, i < t.clientCount) :
    (∃ t', (Multiplexer.ops max).removalPass t is = some t' ∧ Committed t t' is) ↔
      ZeroLast is ∨ ∀ k < t.clientCount, k ∈ is := by
  obtain ⟨t₁, hrun, hmarks⟩ := h.run_mark his
  have hpass : (Multiplexer.ops max).removalPass t is = Multiplexer.commitRemoveClients t₁ := by
    rw [TableOps.removalPass, show run (Multiplexer.ops max).removeClient t is = some t₁ from hrun]
    rfl
  rw [hpass]
  by_cases hne : is = []
  · subst hne
    cases hrun
    refine iff_of_true ⟨t, if_pos h.toRemove, h.committed_nil⟩
      (.inl (zeroLast_of_not_mem List.not_mem_nil))
  obtain ⟨clients, hcommit, hclosed⟩ :=
    (hmarks.inOrder h.inArray).multiplexer_commit_eq (hmarks.toRemove_pos his hne)
  constructor
  · rintro ⟨t', ht', hcommitted⟩
    rw [hcommit] at ht'
    cases ht'
    by_contra hnot
    push Not at hnot
    obtain ⟨hlast, k, hk, hstays⟩ := hnot
    obtain ⟨hpos, hzero⟩ := hmarks.first.forgotten hlast
    have hlive : 0 < t₁.clientCount - t₁.clientsToRemoveCount := by
      have hmem : fds t.clients k ∈ keptFds t is := by
        refine List.mem_map_of_mem (List.mem_filter.mpr ⟨List.mem_range.mpr hk, ?_⟩)
        simpa using hstays
      have hlength := hcommitted.kept.length_eq
      rw [length_firstCells] at hlength
      exact (List.length_pos_of_mem hmem).trans_eq hlength.symm
    refine hcommitted.live 0 hlive ?_
    simp only
    rw [hclosed, closeGaps_front hpos, hmarks.fds_eq, if_pos hzero]
  · rintro (hlast | hall)
    · exact ⟨_, hcommit, hmarks.closed h hlast his hne hclosed⟩
    · exact ⟨_, hcommit, hmarks.closed_of_all h hall clients⟩

def tableOf (max : Somaxconn) (n : ℕ) : ClientTable max where
  clients := ⟨fun k => ⟨10 + k, pollIn, 0⟩⟩
  clientCount := n
  clientsToRemoveCount := 0
  firstClientToRemove := 0

theorem settled_tableOf {max : Somaxconn} {n : ℕ} (hn : n ≤ max.size) :
    Settled (tableOf max n) := by
  refine ⟨hn, fun k _ => ?_, rfl, rfl⟩
  show (10 + k : ℤ) ≠ -1
  omega

theorem multiplexer_removals_iff_three :
    Settled (tableOf .linux 3) ∧ (∀ i ∈ [2, 0], i < 3) ∧
      ((∃ t', (Multiplexer.ops .linux).removalPass (tableOf .linux 3) [2, 0] = some t' ∧
          Committed (tableOf .linux 3) t' [2, 0]) ↔
        ZeroLast [2, 0] ∨ ∀ k < 3, k ∈ [2, 0]) :=
  have hsettled := settled_tableOf (show 3 ≤ Somaxconn.linux.size by decide)
  ⟨hsettled, by decide, multiplexer_removals_iff hsettled (by decide)⟩

/-- In the other order index 0 is forgotten and its mark stays in front. -/
theorem multiplexer_forgets_zero :
    Settled (tableOf .linux 3) ∧ (∀ i ∈ [0, 2], i < 3) ∧
      ¬∃ t', (Multiplexer.ops .linux).removalPass (tableOf .linux 3) [0, 2] = some t' ∧
        Committed (tableOf .linux 3) t' [0, 2] := by
  refine ⟨settled_tableOf (by decide), by decide, ?_⟩
  rintro ⟨t', hpass, hcommitted⟩
  have hmark : ((Multiplexer.ops .linux).removalPass (tableOf .linux 3) [0, 2]).any
      (fun t => 0 < t.clientCount ∧ fds t.clients 0 = removedClient) = true := by
    decide +kernel
  rw [hpass, Option.any_some, decide_eq_true_eq] at hmark
  exact hcommitted.live 0 hmark.1 hmark.2

/-! ### The server with one thread -/

/-- The listener is never removed, so what matters are the other indices. -/
theorem run_server_removeClient (t : ClientTable max) (is : List ℕ) :
    run Server.removeClient t is = run ClientTable.mark t (is.filter (· ≠ 0)) := by
  induction is generalizing t with
  | nil => rfl
  | cons i is ih =>
      by_cases hi : i = 0
      · rw [List.filter_cons_of_neg (by simpa using hi), run_cons, Server.removeClient, if_pos hi,
          Option.bind_some, ih]
      · rw [List.filter_cons_of_pos (by simpa using hi), run_cons, run_cons, Server.removeClient,
          if_neg hi]
        exact congrArg (t.mark i).bind (funext ih)

def ClientTable.cut (t : ClientTable max) (hpos : 0 < t.clientCount) (hin : InArray t) :
    ClientTable ⟨t.clientCount, hpos, hin.trans_lt max.lt⟩ :=
  ⟨⟨t.clients.cells⟩, t.clientCount, t.clientsToRemoveCount, t.firstClientToRemove⟩

def clientIndices (is : List ℕ) : List ℕ := is.filter (· ≠ 0)

theorem zero_not_mem_clientIndices (is : List ℕ) : 0 ∉ clientIndices is := by
  simp [clientIndices]

/-- The pass of the server marks the clients and closes the gaps from the lowest one on,
if there is one. -/
theorem Settled.server_pass {t : ClientTable max} (h : Settled t) {is : List ℕ}
    (his : ∀ i ∈ is, i < t.clientCount) :
    ∃ t', (Server.ops max).removalPass t is = some t' ∧ Committed t t' (clientIndices is) ∧
      fds t'.clients 0 = fds t.clients 0 ∧
      (clientIndices is = [] ∧ t' = t ∨
        ∃ first ∈ clientIndices is, (∀ k ∈ clientIndices is, first ≤ k) ∧
          fds t'.clients = closeGaps removedClient (removedOf t (clientIndices is))
            (t.clientCount + 1) first t.clientCount 0
            fun k => if k ∈ clientIndices is then removedClient else fds t.clients k) := by
  have hzero := zero_not_mem_clientIndices is
  have hlast := zeroLast_of_not_mem hzero
  have hlt : ∀ i ∈ clientIndices is, i < t.clientCount := fun i hi =>
    his i (List.mem_filter.mp hi).1
  obtain ⟨t₁, hrun, hmarks⟩ := h.run_mark hlt
  have hpass : (Server.ops max).removalPass t is = Server.commitRemoveClients t₁ := by
    rw [TableOps.removalPass, show run (Server.ops max).removeClient t is = some t₁ from
      (run_server_removeClient t is).trans hrun]
    rfl
  rw [hpass]
  by_cases hne : clientIndices is = []
  · rw [hne] at hrun ⊢
    cases hrun
    exact ⟨t, if_pos h.toRemove, h.committed_nil, rfl, .inl ⟨rfl, rfl⟩⟩
  have hmem := hmarks.first.mem hne
  have hpos : 0 < t₁.firstClientToRemove := Nat.pos_of_ne_zero fun he => hzero (he ▸ hmem)
  obtain ⟨clients, hcommit, hclosed⟩ := (hmarks.inOrder h.inArray).server_commit_eq
    (hmarks.toRemove_pos hlt hne) hpos.ne'
  refine ⟨_, hcommit, hmarks.closed h hlast hlt hne hclosed, ?_,
    .inr ⟨_, hmem, hmarks.first.le hlast, ?_⟩⟩
  · simp only
    rw [hclosed, closeGaps_front hpos, hmarks.fds_eq, if_neg hzero]
  · rw [hclosed, hmarks.toRemove_eq h, hmarks.count]
    exact congrArg _ (funext hmarks.fds_eq)

/-- What a pass of the server leaves: the listener first, behind it the clients that were
not removed, and no removal pending. -/
structure ListenerKept (t t' : ClientTable max) (is : List ℕ) : Prop where
  committed : Committed t t' (clientIndices is)
  count_pos : 0 < t'.clientCount
  listener : fds t'.clients 0 = fds t.clients 0
  clients : (firstCells (fun k => fds t'.clients (1 + k)) (t'.clientCount - 1)).Perm
    (((List.range' 1 (t.clientCount - 1)).filter (· ∉ is)).map (fds t.clients))

theorem ListenerKept.of_committed {t t' : ClientTable max} {is : List ℕ}
    (hpos : 0 < t.clientCount) (h : Committed t t' (clientIndices is))
    (hlistener : fds t'.clients 0 = fds t.clients 0) : ListenerKept t t' is := by
  have hkept : keptFds t (clientIndices is) = fds t.clients 0 ::
      ((List.range' 1 (t.clientCount - 1)).filter (· ∉ is)).map (fds t.clients) := by
    obtain ⟨n, hn⟩ : ∃ n, t.clientCount = n + 1 := ⟨t.clientCount - 1, by omega⟩
    rw [keptFds, hn, List.range_eq_range', List.range'_succ,
      List.filter_cons_of_pos (by simpa using zero_not_mem_clientIndices is), List.map_cons,
      Nat.add_sub_cancel]
    refine congrArg _ (congrArg _ (List.filter_congr fun k hk => ?_))
    have hone := (List.mem_range'_1.mp hk).1
    simp [clientIndices, show k ≠ 0 by omega]
  have hcount : 0 < t'.clientCount := by
    have hlength := h.kept.length_eq
    rw [hkept, length_firstCells, List.length_cons] at hlength
    omega
  refine ⟨h, hcount, hlistener, ?_⟩
  obtain ⟨n, hn⟩ : ∃ n, t'.clientCount = 1 + n := ⟨t'.clientCount - 1, by omega⟩
  have hperm := h.kept
  rw [hkept, hn, firstCells_add, firstCells_succ, firstCells_zero, hlistener] at hperm
  rw [hn, Nat.add_sub_cancel_left]
  exact hperm.cons_inv

/-- The pass ends in the same way with an array that ends behind the last client in use,
so it accesses nothing there. -/
def InsideCount (t t' : ClientTable max) (is : List ℕ) : Prop :=
  ∃ (hpos : 0 < t.clientCount) (hin : InArray t) (cut' : ClientTable _),
    (Server.ops _).removalPass (t.cut hpos hin) is = some cut' ∧
      fds cut'.clients = fds t'.clients ∧ cut'.clientCount = t'.clientCount

/-- Every pass of the server is right and stays inside the clients in use. -/
theorem server_removals {t : ClientTable max} (h : Settled t) (hpos : 0 < t.clientCount)
    {is : List ℕ} (his : ∀ i ∈ is, i < t.clientCount) :
    ∃ t', (Server.ops max).removalPass t is = some t' ∧ ListenerKept t t' is ∧
      InsideCount t t' is := by
  have hcut : Settled (t.cut hpos h.inArray) := ⟨le_rfl, h.live, h.toRemove, h.first⟩
  obtain ⟨t', hpass, hcommitted, hlistener, hcells⟩ := h.server_pass his
  obtain ⟨cut', hpass', hcommitted', -, hcells'⟩ := hcut.server_pass his
  refine ⟨t', hpass, .of_committed hpos hcommitted hlistener, hpos, h.inArray, cut', hpass', ?_,
    hcommitted'.count.trans hcommitted.count.symm⟩
  rcases hcells with ⟨hnil, rfl⟩ | ⟨first, hmem, hle, hfds⟩
  · rcases hcells' with ⟨-, rfl⟩ | ⟨first', hmem', -⟩
    · rfl
    · rw [hnil] at hmem'
      cases hmem'
  · rcases hcells' with ⟨hnil, -⟩ | ⟨first', hmem', hle', hfds'⟩
    · rw [hnil] at hmem
      cases hmem
    · obtain rfl : first' = first := le_antisymm (hle' first hmem) (hle first' hmem')
      rw [hfds, hfds']
      rfl

theorem server_removals_four :
    Settled (tableOf .linux 4) ∧ 0 < 4 ∧ (∀ i ∈ [3, 0, 1, 3], i < 4) ∧
      ∃ t', (Server.ops .linux).removalPass (tableOf .linux 4) [3, 0, 1, 3] = some t' ∧
        ListenerKept (tableOf .linux 4) t' [3, 0, 1, 3] ∧
        InsideCount (tableOf .linux 4) t' [3, 0, 1, 3] :=
  have hsettled := settled_tableOf (show 4 ≤ Somaxconn.linux.size by decide)
  ⟨hsettled, by decide, by decide, server_removals hsettled (by decide) (by decide)⟩

end UnixLabs.Lab31
