import UnixLabs.Lab33.ServerProgram

/-!
The entries of the clients of the server program.

A removal moves the last client into the hole and leaves the other entries alone, so that
every client that stays keeps its descriptor and its flags.
-/

namespace UnixLabs.Lab33.Usual

open Library

def slotOf (s : Server) (id : ℕ) : Pollfd := s.clients.cells ((s.idTable.cells id).toNat + 1)

theorem cells_poll (s : Server) (events : ℤ → BitVec 16) (k : ℕ) :
    (poll s events).clients.cells k = if k < getPollCount s then
        { s.clients.cells k with revents := reported events (s.clients.cells k).fd }
      else s.clients.cells k := rfl

theorem disconnected_of_ne (s : Server) {p k : ℕ} (h : k ≠ p + 1) :
    (disconnected s p).cells k = s.clients.cells k := by
  show Function.update s.clients.cells (p + 1) _ k = _
  rw [Function.update_of_ne h]

namespace Tables

variable {s s' : Server} {ids : List ℕ} {p : ℕ}

theorem slotOf_eq (h : Tables s ids) (hp : p < ids.length) :
    slotOf s ids[p] = s.clients.cells (p + 1) := by
  rw [slotOf, h.indexed.index_eq p hp, Int.toNat_natCast]

theorem load_slot (h : Tables s ids) {id : ℕ} (hid : id ∈ ids) :
    ∃ client : ℤ, getClient s id = some client ∧
      s.clients.load client = some (slotOf s id) := by
  obtain ⟨p, hp, rfl⟩ := List.getElem_of_mem hid
  refine ⟨_, h.getClient_eq hp, ?_⟩
  rw [h.slotOf_eq hp, CArray.load_of_lt _ (h.slot_lt hp)]

theorem disconnects_eq (h : Tables s ids) {id : ℕ} (hid : id ∈ ids)
    (hfd : (slotOf s id).fd ≠ removedClient) : disconnects s id = [(slotOf s id).fd] := by
  obtain ⟨client, hclient, hload⟩ := h.load_slot hid
  rw [disconnects, hclient, Option.bind_some, hload]
  exact if_neg hfd

/-- The entry at an index other than that of the removed client is its own or, where the
removed client was, that of the last one. -/
theorem slotOf_removed (h : Tables s ids) (hp : p < ids.length)
    (h' : Tables s' (swapRemove ids p))
    (hcells : s'.clients.cells = swapCells (disconnected s p).cells (p + 1) ids.length)
    {id : ℕ} (hid : id ∈ swapRemove ids p) : slotOf s' id = slotOf s id := by
  obtain ⟨q, hq, rfl⟩ := List.getElem_of_mem hid
  have hlt : q < ids.length - 1 := by rwa [length_swapRemove] at hq
  rw [h'.slotOf_eq hq, hcells, swapCells_apply, if_neg (by omega), getElem_swapRemove]
  rcases eq_or_ne q p with rfl | hne
  · have hlast : ids.length - 1 < ids.length := last_lt hp
    rw [if_pos rfl, if_pos rfl, List.get_eq_getElem, h.slotOf_eq hlast,
      Nat.sub_add_cancel (by omega : 1 ≤ ids.length), disconnected_of_ne s (by omega)]
  · rw [if_neg (by omega), if_neg hne, List.get_eq_getElem, h.slotOf_eq (by omega : q < ids.length),
      disconnected_of_ne s (by omega)]

theorem listener_removed
    (hcells : s'.clients.cells = swapCells (disconnected s p).cells (p + 1) ids.length)
    (hp : p < ids.length) : s'.clients.cells 0 = s.clients.cells 0 := by
  have hlast : 0 ≠ ids.length := by omega
  rw [hcells, swapCells_apply, if_neg hlast, if_neg (by omega), disconnected_of_ne s (by omega)]

end Tables

/-- The clients are `ids`, and they have these entries, each with a descriptor. -/
structure Holding (listener : Pollfd) (slots : ℕ → Pollfd) (s : Server) (ids : List ℕ) :
    Prop where
  tables : Tables s ids
  slot : ∀ id ∈ ids, slotOf s id = slots id
  connected : ∀ id ∈ ids, 0 ≤ (slots id).fd
  listener : s.clients.cells 0 = listener

namespace Holding

variable {listener : Pollfd} {slots : ℕ → Pollfd} {s : Server} {ids : List ℕ}

theorem removeClient (h : Holding listener slots s ids) {p : ℕ} (hp : p < ids.length) :
    ∃ s', removeClient s ids[p] = some s' ∧ Holding listener slots s' (swapRemove ids p) := by
  obtain ⟨s', hremove, htables, hcells⟩ := h.tables.removeClient_eq hp
  have hsub : ∀ id ∈ swapRemove ids p, id ∈ ids := fun id hid =>
    ((mem_swapRemove h.tables.indexed.nodup hp).mp hid).1
  refine ⟨s', hremove, htables, fun id hid => ?_, fun id hid => h.connected id (hsub id hid), ?_⟩
  · rw [h.tables.slotOf_removed hp htables hcells hid, h.slot id (hsub id hid)]
  · rw [Tables.listener_removed hcells hp, h.listener]

/-- A new client takes the entry behind those in use, with the flags that are there. -/
theorem addClient (h : Holding listener slots s ids) (hlen : ids.length < maxClients) {fd : ℤ}
    (hfd : 0 ≤ fd) :
    ∃ (id : ℕ) (s' : Server), addClient s fd = some ((id : ℤ), s') ∧ id ∉ ids ∧
      Holding listener
        (Function.update slots id { s.clients.cells (ids.length + 1) with fd }) s'
        (ids ++ [id]) := by
  obtain ⟨id, s', hadd, htables, hcells⟩ := h.tables.addClient_eq hlen hfd
  have hnodup := htables.indexed.nodup
  have hfresh : id ∉ ids := fun hid =>
    (List.nodup_append.mp hnodup).2.2 id hid id (List.mem_singleton_self id) rfl
  have hnew : slotOf s' id = { s.clients.cells (ids.length + 1) with fd } := by
    have hlast := htables.slotOf_eq (p := ids.length) (by simp)
    rw [List.getElem_concat_length] at hlast
    · rw [hlast, hcells, Function.update_self]
    · rfl
  have hold : ∀ id' ∈ ids, slotOf s' id' = slots id' := by
    intro id' hid'
    obtain ⟨p, hp, rfl⟩ := List.getElem_of_mem hid'
    have hslot := htables.slotOf_eq (p := p) (by rw [List.length_append]; omega)
    rw [List.getElem_append_left hp, hcells, Function.update_of_ne (by omega),
      ← h.tables.slotOf_eq hp] at hslot
    rw [hslot, h.slot _ hid']
  refine ⟨id, s', hadd, hfresh, htables, fun id' hid' => ?_, fun id' hid' => ?_, ?_⟩
  · rcases eq_or_ne id' id with rfl | hne
    · rw [Function.update_self, hnew]
    · rw [Function.update_of_ne hne]
      exact hold id' ((List.mem_append.mp hid').resolve_right (by simpa using hne))
  · rcases eq_or_ne id' id with rfl | hne
    · rw [Function.update_self]
      exact hfd
    · rw [Function.update_of_ne hne]
      exact h.connected id' ((List.mem_append.mp hid').resolve_right (by simpa using hne))
  · rw [hcells, Function.update_of_ne (by omega), h.listener]

theorem poll (h : Holding listener slots s ids) (events : ℤ → BitVec 16) :
    Holding { listener with revents := reported events listener.fd }
      (fun id => { slots id with revents := reported events (slots id).fd })
      (poll s events) ids where
  tables := ⟨h.tables.count, h.tables.indexed⟩
  slot := by
    intro id hid
    obtain ⟨p, hp, rfl⟩ := List.getElem_of_mem hid
    have hpolled : Tables (Usual.poll s events) ids := ⟨h.tables.count, h.tables.indexed⟩
    have hlt : p + 1 < getPollCount s := by
      rw [getPollCount, h.tables.count]
      exact Nat.succ_lt_succ hp
    rw [hpolled.slotOf_eq hp, cells_poll, if_pos hlt, ← h.slot _ hid, h.tables.slotOf_eq hp]
  connected := h.connected
  listener := by
    have hpos : 0 < getPollCount s := Nat.succ_pos s.clientCount
    rw [cells_poll, if_pos hpos, h.listener]

end Holding

/-- Removals are as the table of ids relies on; clients are added elsewhere. -/
theorem manages_holding (listener : Pollfd) (slots : ℕ → Pollfd) :
    ProxyServer.Manages (Holding listener slots) (fun s (_ : Unit) => some (noId, s))
      removeClient where
  nodup := fun _ _ h => h.tables.indexed.nodup
  lt := fun _ _ h => h.tables.indexed.lt
  length_le := fun _ _ h => h.tables.indexed.length_le
  add := fun s _ _ h => .inl ⟨s, rfl, h⟩
  remove := by
    intro s ids id h hid
    obtain ⟨p, hp, rfl⟩ := List.getElem_of_mem hid
    obtain ⟨s', hremove, h'⟩ := h.removeClient hp
    exact ⟨s', _, hremove, h', swapRemove_perm ids hp⟩

end UnixLabs.Lab33.Usual
