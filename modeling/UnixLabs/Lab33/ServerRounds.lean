import UnixLabs.Lab33.UsualSlots

/-!
What a round of the server program does with its clients.

The loop of `try_read` stops as soon as it has seen as many entries with events as `poll`
has counted.
-/

namespace UnixLabs.Lab33.Usual

open Library Lab25
open Lab31.Server (upcaseFrom)

/-! ### One client -/

def received (slot : Pollfd) (input : ℤ → Option (List CChar)) : List CChar :=
  if canReadFrom slot then ((input slot.fd).getD []).take bufferSize else []

def stays (input : ℤ → Option (List CChar)) (slot : Pollfd) : Bool :=
  !hasErrors slot && (!canReadFrom slot || !(received slot input).isEmpty)

def shown (input : ℤ → Option (List CChar)) (slot : Pollfd) : List CChar :=
  if hasErrors slot then [] else (received slot input).map upper

theorem tryTransfer_spec (slot : Pollfd) (buf : ℕ → CChar) (input : ℤ → Option (List CChar)) :
    ∃ buf', tryTransfer slot buf (input slot.fd) =
      some (!canReadFrom slot || !(received slot input).isEmpty,
        (received slot input).map upper, buf') := by
  rcases Bool.eq_false_or_eq_true (canReadFrom slot) with hread | hread
  · cases hinput : input slot.fd with
    | none =>
        refine ⟨writeAt buf 0 [], ?_⟩
        simp only [tryTransfer, received, hread, hinput, if_true]
        rfl
    | some bytes =>
        obtain ⟨bs, hbs⟩ : ∃ bs, bytes.take bufferSize = bs := ⟨_, rfl⟩
        have hlen : bs.length ≤ bufferSize := hbs ▸ List.length_take_le _ _
        have hreceived : received slot input = bs := by
          rw [received, if_pos hread, hinput, Option.getD_some, hbs]
        simp only [tryTransfer, hread, hreceived, Option.getD_some, hbs, reduceCtorEq, if_true,
          if_false, if_neg (Int.not_lt.mpr (Int.natCast_nonneg bs.length)), Int.toNat_natCast]
        cases bs with
        | nil => exact ⟨_, rfl⟩
        | cons b bs =>
            obtain ⟨buf', hupper, hmap⟩ :=
              (upperLoop_faithful (by decide : bufferSize < 2 ^ 63)).edit
                _ hlen (writeAt buf 0 (b :: bs))
            replace hupper : upcaseFrom bufferSize (b :: bs).length 0 (writeAt buf 0 (b :: bs)) =
              some buf' := hupper
            have hcells := firstCells_writeAt buf 0 (b :: bs)
            rw [Nat.zero_add, firstCells_zero, List.nil_append] at hcells
            rw [hcells] at hmap
            have hcount : ((b :: bs).length : ℤ) ≠ 0 := Int.natCast_ne_zero.mpr (by simp)
            refine ⟨buf', ?_⟩
            rw [if_neg hcount, hupper, ← hmap]
            rfl
  · refine ⟨buf, ?_⟩
    simp only [tryTransfer, received, hread, Bool.false_eq_true, if_false]
    rfl

structure Visited (input : ℤ → Option (List CChar)) (slot : Pollfd) (i : ℕ) (p p' : Program) :
    Prop where
  clientCount : p'.proxy.clientCount = p.proxy.clientCount
  cells : p'.proxy.idTable.cells = if stays input slot then p.proxy.idTable.cells
    else Function.update p.proxy.idTable.cells i removedClient
  accepted : p'.accepted = p.accepted
  printed : p'.printed = p.printed ++ shown input slot
  closed : p'.closed = p.closed ++ if stays input slot then [] else [slot.fd]
  stopped : p'.stopped = p.stopped

section Visit

variable {listener : Pollfd} {slots : ℕ → Pollfd} {p : Program} {ids : List ℕ} {i : ℕ}
  (h : ProxyServer.Lists (Holding listener slots) p.proxy ids) (hi : i < p.proxy.clientCount)
  (hleft : p.proxy.idTable.cells i ≠ removedClient)

include h hi hleft

theorem lookup_eq :
    ∃ id ∈ ids, p.proxy.idTable.cells i = (id : ℤ) ∧ sizeT (p.proxy.idTable.cells i) = id ∧
      slotOf p.proxy.server id = slots (p.proxy.idTable.cells i).toNat := by
  obtain ⟨id, hid, he⟩ := h.entry_active hi hleft
  have hlt := h.active.tables.indexed.lt id hid
  refine ⟨id, hid, he, ?_, ?_⟩
  · rw [he, sizeT_natCast (by unfold maxClients at hlt; omega)]
  · rw [he, Int.toNat_natCast, h.active.slot id hid]

theorem remove_spec :
    ∃ p', p.remove i = some p' ∧
      (∃ ids', ProxyServer.Lists (Holding listener slots) p'.proxy ids') ∧
      p'.proxy.clientCount = p.proxy.clientCount ∧
      p'.proxy.idTable.cells = Function.update p.proxy.idTable.cells i removedClient ∧
      p'.closed = p.closed ++ [(slots (p.proxy.idTable.cells i).toNat).fd] ∧
      p'.accepted = p.accepted ∧ p'.printed = p.printed ∧ p'.stopped = p.stopped := by
  obtain ⟨id, hid, he, hsize, hslot⟩ := lookup_eq h hi hleft
  obtain ⟨proxy, ids', hremove, hlists, hcount, -⟩ :=
    h.prRemoveClient (manages_holding listener slots) hi
  have hconnected := h.active.connected id hid
  rw [← h.active.slot id hid] at hconnected
  have hcloses := h.active.tables.disconnects_eq hid (by unfold removedClient; omega)
  refine ⟨{ p with proxy, closed := p.closed ++ disconnects p.proxy.server id }, ?_,
    ⟨ids', hlists⟩, hcount, ProxyServer.prRemoveClient_cells hremove, ?_, rfl, rfl, rfl⟩
  · simp only [Program.remove, entry_of_lt h.count_le hi, hremove, hsize, Option.bind_eq_bind,
      Option.bind_some]
  · simp only [hcloses, hslot]

theorem visit_spec (input : ℤ → Option (List CChar)) :
    ∃ p', p.visit i input =
        some (if isIoable (slots (p.proxy.idTable.cells i).toNat) then 1 else 0, p') ∧
      (∃ ids', ProxyServer.Lists (Holding listener slots) p'.proxy ids') ∧
      Visited input (slots (p.proxy.idTable.cells i).toNat) i p p' := by
  obtain ⟨id, hid, he, hsize, hslot⟩ := lookup_eq h hi hleft
  obtain ⟨client, hclient, hload⟩ := h.active.tables.load_slot hid
  obtain ⟨slot, hthis⟩ : ∃ slot, slots (p.proxy.idTable.cells i).toNat = slot := ⟨_, rfl⟩
  rw [hthis] at hslot ⊢
  simp only [Program.visit, entry_of_lt h.count_le hi, hsize, hclient, hload, hslot,
    Option.bind_eq_bind, Option.bind_some]
  rcases Bool.eq_false_or_eq_true (hasErrors slot) with herror | hfine
  · -- an error: no transfer
    obtain ⟨p', hremove, hlists, hcount, hcells, hclosed, haccepted, hprinted, hstopped⟩ :=
      remove_spec h hi hleft
    have hstays : stays input slot = false := by rw [stays, herror]; rfl
    rw [if_pos herror, hremove]
    refine ⟨p', rfl, hlists, hcount, ?_, haccepted, ?_, ?_, hstopped⟩
    · rw [hstays, hcells]; rfl
    · rw [shown, if_pos herror, hprinted, List.append_nil]
    · rw [hstays, hclosed, hthis]; rfl
  · obtain ⟨buf, htransfer⟩ := tryTransfer_spec slot p.buf input
    have hstays : stays input slot = (!canReadFrom slot || !(received slot input).isEmpty) := by
      rw [stays, hfine]; rfl
    have hshown : shown input slot = (received slot input).map upper := by
      rw [shown, hfine]; rfl
    rw [hfine, htransfer, ← hstays, ← hshown]
    simp only [Bool.false_eq_true, if_false, Option.bind_some]
    rcases Bool.eq_false_or_eq_true (stays input slot) with hkept | hgone
    · simp only [hkept, Bool.not_true, Bool.false_eq_true, if_false]
      exact ⟨_, rfl, ⟨ids, h⟩, rfl, by rw [hkept]; rfl, rfl, rfl,
        by rw [hkept]; exact (List.append_nil _).symm, rfl⟩
    · obtain ⟨p', hremove, hlists, hcount, hcells, hclosed, haccepted, hprinted, hstopped⟩ :=
        remove_spec (p := { p with buf, printed := p.printed ++ shown input slot }) h hi hleft
      simp only [hgone, hremove, Bool.not_false, if_true, Option.bind_some]
      refine ⟨p', rfl, hlists, hcount, ?_, haccepted, hprinted, ?_, hstopped⟩
      · rw [hgone, hcells]; rfl
      · rw [hgone, hclosed, hthis]; rfl

end Visit

/-! ### The loop of `try_read` -/

def ioables (slot : ℕ → Pollfd) (m : ℕ) : ℕ := (List.range m).countP fun k => isIoable (slot k)

theorem ioables_succ (slot : ℕ → Pollfd) (m : ℕ) :
    ioables slot (m + 1) = ioables slot m + if isIoable (slot m) then 1 else 0 := by
  rw [ioables, List.range_succ, List.countP_append, List.countP_singleton]
  rfl

theorem ioables_mono (slot : ℕ → Pollfd) {m n : ℕ} (h : m ≤ n) : ioables slot m ≤ ioables slot n :=
  List.Sublist.countP_le (List.range_sublist.mpr h)

/-- The program after visits of the first `m` clients, which had these entries. -/
structure Passed (input : ℤ → Option (List CChar)) (slot : ℕ → Pollfd) (m : ℕ)
    (p q : Program) : Prop where
  clientCount : q.proxy.clientCount = p.proxy.clientCount
  cells : ∀ k, q.proxy.idTable.cells k =
    if k < m ∧ stays input (slot k) = false then removedClient else p.proxy.idTable.cells k
  accepted : q.accepted = p.accepted
  printed : q.printed = p.printed ++ (List.range m).flatMap fun k => shown input (slot k)
  closed : q.closed = p.closed ++
    ((List.range m).filter fun k => !stays input (slot k)).map fun k => (slot k).fd
  stopped : q.stopped = p.stopped

namespace Passed

variable {input : ℤ → Option (List CChar)} {slot : ℕ → Pollfd} {m : ℕ} {p q q' : Program}

theorem zero (input : ℤ → Option (List CChar)) (slot : ℕ → Pollfd) (p : Program) :
    Passed input slot 0 p p where
  clientCount := rfl
  cells k := by rw [if_neg (by omega)]
  accepted := rfl
  printed := (List.append_nil _).symm
  closed := (List.append_nil _).symm
  stopped := rfl

theorem succ (h : Passed input slot m p q) (hvisit : Visited input (slot m) m q q') :
    Passed input slot (m + 1) p q' where
  clientCount := hvisit.clientCount.trans h.clientCount
  cells k := by
    rw [hvisit.cells]
    rcases Bool.eq_false_or_eq_true (stays input (slot m)) with hstays | hgone
    · rw [if_pos hstays, h.cells]
      apply if_congr _ rfl rfl
      rcases eq_or_ne k m with rfl | hne
      · simp [hstays]
      · exact and_congr_left' (by omega)
    · rw [hgone, if_neg Bool.false_ne_true, Function.update_apply, h.cells]
      rcases eq_or_ne k m with rfl | hne
      · rw [if_pos rfl, if_pos ⟨by omega, hgone⟩]
      · rw [if_neg hne]
        exact if_congr (and_congr_left' (by omega)) rfl rfl
  accepted := hvisit.accepted.trans h.accepted
  printed := by
    rw [hvisit.printed, h.printed, List.append_assoc, List.range_succ, List.flatMap_append,
      List.flatMap_singleton]
  closed := by
    rw [hvisit.closed, h.closed, List.append_assoc, List.range_succ, List.filter_append,
      List.map_append]
    refine congrArg _ (congrArg _ ?_)
    cases hstays : stays input (slot m) <;> simp [hstays]
  stopped := hvisit.stopped.trans h.stopped

/-- Visits of clients that neither leave nor print anything make no difference. -/
theorem extend (h : Passed input slot m p q) {n : ℕ} (hn : m ≤ n)
    (hidle : ∀ k, m ≤ k → k < n → stays input (slot k) = true ∧ shown input (slot k) = []) :
    Passed input slot n p q := by
  induction n, hn using Nat.le_induction with
  | base => exact h
  | succ n hn ih =>
      have hn' := ih fun k hk hkn => hidle k hk (by omega)
      obtain ⟨hstays, hshown⟩ := hidle n hn (Nat.lt_succ_self n)
      apply hn'.succ
      exact ⟨rfl, by rw [hstays]; rfl, rfl, by rw [hshown, List.append_nil],
        by rw [hstays]; exact (List.append_nil _).symm, rfl⟩

end Passed

section Loop

variable {listener : Pollfd} {slots : ℕ → Pollfd} {p : Program} {ids : List ℕ}

/-- The loop visits the first clients, until it has counted enough. -/
theorem visits_spec (h : ProxyServer.Lists (Holding listener slots) p.proxy ids)
    (hnone : ∀ i < p.proxy.clientCount, p.proxy.idTable.cells i ≠ removedClient)
    {slot : ℕ → Pollfd} (hslot : ∀ k, slots (p.proxy.idTable.cells k).toNat = slot k)
    (input : ℤ → Option (List CChar)) (ioableCount : ℕ) {n : ℕ} (hn : n ≤ p.proxy.clientCount) :
    ∃ q m, run (Program.visitStep input ioableCount) (p, 0) (List.range n) =
        some (q, ioables slot m) ∧ m ≤ n ∧
      (∃ ids', ProxyServer.Lists (Holding listener slots) q.proxy ids') ∧
      Passed input slot m p q ∧ (m < n → ioableCount ≤ ioables slot m) ∧
      ∀ k < m, ioables slot k < ioableCount := by
  induction n with
  | zero =>
      exact ⟨p, 0, rfl, le_refl 0, ⟨ids, h⟩, Passed.zero input slot p,
        fun hlt => absurd hlt (by omega), fun k hk => absurd hk (by omega)⟩
  | succ n ih =>
      obtain ⟨q, m, hrun, hmn, ⟨ids', hq⟩, hpassed, hstop, hmore⟩ := ih (by omega)
      rw [List.range_succ, run_append, hrun, Option.bind_some, run_cons]
      by_cases hgo : ioables slot m < ioableCount
      · obtain rfl : m = n := by
          by_contra hne
          have := hstop (by omega)
          omega
        have hcell : q.proxy.idTable.cells m = p.proxy.idTable.cells m := by
          rw [hpassed.cells, if_neg (by omega)]
        obtain ⟨q', hvisit, hlists, hvisited⟩ := visit_spec (i := m) hq
          (by rw [hpassed.clientCount]; omega) (by rw [hcell]; exact hnone m (by omega)) input
        rw [hcell, hslot] at hvisit hvisited
        refine ⟨q', m + 1, ?_, le_refl _, hlists, hpassed.succ hvisited, fun hlt => absurd hlt
          (by omega), fun k hk => ?_⟩
        · rw [Program.visitStep, if_pos hgo, hvisit, ioables_succ]
          rfl
        · rcases Nat.lt_succ_iff_lt_or_eq.mp hk with hk | rfl
          · exact hmore k hk
          · exact hgo
      · refine ⟨q, m, ?_, by omega, ⟨ids', hq⟩, hpassed, fun _ => by omega, hmore⟩
        rw [Program.visitStep, if_neg hgo]
        rfl

end Loop

/-! ### A call of `try_read` -/

def Program.clients (p : Program) : List ℤ :=
  (firstCells p.proxy.idTable.cells p.proxy.clientCount).map fun id =>
    (slotOf p.proxy.server id.toNat).fd

/-- Between rounds the clients are listed, without marks. -/
structure Ready (listener : Pollfd) (slots : ℕ → Pollfd) (p : Program) (ids : List ℕ) :
    Prop where
  lists : ProxyServer.Lists (Holding listener slots) p.proxy ids
  zero : p.proxy.removedCount = 0

namespace Ready

variable {listener : Pollfd} {slots : ℕ → Pollfd} {p : Program} {ids : List ℕ}

theorem no_mark (h : Ready listener slots p ids) :
    ∀ i < p.proxy.clientCount, p.proxy.idTable.cells i ≠ removedClient :=
  marked_eq_zero_iff.mp (h.lists.removed.trans h.zero)

theorem clientCount_eq (h : Ready listener slots p ids) : p.proxy.clientCount = ids.length :=
  h.lists.clientCount_eq h.zero

/-- What is known of the listed clients does not depend on their order. -/
theorem map_perm (h : Ready listener slots p ids) {α : Type} (f : ℕ → α) :
    ((List.range p.proxy.clientCount).map fun k => f (p.proxy.idTable.cells k).toNat).Perm
      (ids.map f) := by
  have hlisted := h.lists.listed.map fun id => f id.toNat
  rw [live_eq_firstCells h.no_mark, firstCells, List.map_map, List.map_map] at hlisted
  exact hlisted

theorem clients_eq (h : Ready listener slots p ids) : p.clients =
    (List.range p.proxy.clientCount).map fun k =>
      (slots (p.proxy.idTable.cells k).toNat).fd := by
  rw [Program.clients, firstCells, List.map_map]
  apply List.map_congr_left
  intro k hk
  obtain ⟨id, hid, he⟩ := h.lists.entry_active (List.mem_range.mp hk)
    (h.no_mark k (List.mem_range.mp hk))
  show (slotOf p.proxy.server (p.proxy.idTable.cells k).toNat).fd = _
  rw [he, Int.toNat_natCast, h.lists.active.slot id hid]

theorem clients_perm (h : Ready listener slots p ids) :
    p.clients.Perm (ids.map fun id => (slots id).fd) :=
  h.clients_eq ▸ h.map_perm fun id => (slots id).fd

end Ready

structure Served (input : ℤ → Option (List CChar)) (slot : ℕ → Pollfd) (m n : ℕ)
    (p p' : Program) : Prop where
  clients : p'.clients.Perm
    (((List.range n).filter fun k => decide (m ≤ k) || stays input (slot k)).map fun k =>
      (slot k).fd)
  accepted : p'.accepted = p.accepted
  printed : p'.printed = p.printed ++ (List.range m).flatMap fun k => shown input (slot k)
  closed : p'.closed = p.closed ++
    ((List.range m).filter fun k => !stays input (slot k)).map fun k => (slot k).fd
  stopped : p'.stopped = p.stopped

section TryRead

variable {listener : Pollfd} {slots : ℕ → Pollfd} {p : Program} {ids : List ℕ}
  {slot : ℕ → Pollfd}

theorem Passed.live_eq {input : ℤ → Option (List CChar)} {m : ℕ} {q : Program}
    (h : Passed input slot m p q)
    (hnone : ∀ i < p.proxy.clientCount, p.proxy.idTable.cells i ≠ removedClient) :
    live removedClient q.proxy.idTable.cells q.proxy.clientCount =
      ((List.range p.proxy.clientCount).filter fun k =>
        decide (m ≤ k) || stays input (slot k)).map p.proxy.idTable.cells := by
  rw [live, firstCells, h.clientCount, List.filter_map]
  have hleft : ∀ k ∈ List.range p.proxy.clientCount,
      (decide (q.proxy.idTable.cells k ≠ removedClient)) =
        (decide (m ≤ k) || stays input (slot k)) := by
    intro k hk
    rw [h.cells]
    split_ifs with hgone
    · simp [hgone.2, Nat.not_le.mpr hgone.1]
    · rw [decide_eq_true (hnone k (List.mem_range.mp hk))]
      by_cases hkm : m ≤ k
      · rw [decide_eq_true hkm, Bool.true_or]
      · have hstays : stays input (slot k) = true := by
          rw [← Bool.not_eq_false]
          exact fun hs => hgone ⟨by omega, hs⟩
        rw [hstays, Bool.or_true]
  rw [← List.filter_congr hleft]
  apply List.map_congr_left
  intro k hk
  have hne := (List.mem_filter.mp hk).2
  simp only [Function.comp_apply, decide_eq_true_eq] at hne
  rw [h.cells] at hne ⊢
  split_ifs at hne ⊢ with hgone
  · exact absurd rfl hne
  · rfl

theorem tryRead_spec (h : Ready listener slots p ids)
    (hslot : ∀ k, slots (p.proxy.idTable.cells k).toNat = slot k)
    (input : ℤ → Option (List CChar)) (ioableCount : ℕ) :
    ∃ p' m, p.tryRead ioableCount input = some p' ∧ m ≤ p.proxy.clientCount ∧
      (∃ ids', Ready listener slots p' ids') ∧
      Served input slot m p.proxy.clientCount p p' ∧
      (m < p.proxy.clientCount → ioableCount ≤ ioables slot m) ∧
      ∀ k < m, ioables slot k < ioableCount := by
  obtain ⟨q, m, hrun, hm, ⟨ids', hq⟩, hpassed, hstop, hmore⟩ :=
    visits_spec h.lists h.no_mark hslot input ioableCount (le_refl _)
  obtain ⟨proxy, hcommit, hproxy, hzero⟩ := hq.commitRemove
  have hready : Ready listener slots { q with proxy } ids' := ⟨hproxy, hzero⟩
  refine ⟨{ q with proxy }, m, ?_, hm, ⟨ids', hready⟩, ⟨?_, hpassed.accepted, hpassed.printed,
    hpassed.closed, hpassed.stopped⟩, hstop, hmore⟩
  · simp only [Program.tryRead, hrun, hcommit, Option.bind_eq_bind, Option.bind_some]
  · have hlisted := hq.listed.map fun id => (slots id.toNat).fd
    rw [hpassed.live_eq h.no_mark, List.map_map, List.map_map] at hlisted
    apply hready.clients_perm.trans
    apply hlisted.symm.trans
    apply List.Perm.of_eq
    apply List.map_congr_left
    intro k _
    rw [Function.comp_apply, hslot]

end TryRead

end UnixLabs.Lab33.Usual
