import UnixLabs.Lab34.Sender
import UnixLabs.Lab34.ServerTables

/-!
The sender's position table next to the tables of its server.

`ts_actual_remove` takes a position and `process_empty_removed` passes it an id.
As long as the two agree for every client that is released, the positions list
the active ids in the order of the server's indices.
-/

namespace UnixLabs.Lab34

open Library

/-- The server lists `ids`, and the positions list them in the same order. -/
structure Positions (ts : TunnelServer) (ids : List ℕ) : Prop where
  tables : Tables ts.server ids
  count : ts.clientCount = ids.length
  position : ∀ k (hk : k < ids.length), ts.idTable.cells k = (ids[k] : ℤ)
  range : ∀ k < maxClients, ∃ id : ℕ, id < maxClients ∧ ts.idTable.cells k = id

theorem sizeT_id {id : ℕ} (h : id < maxClients) : sizeT id = id :=
  sizeT_natCast (by unfold maxClients at h; omega)

namespace Positions

variable {ts : TunnelServer} {ids : List ℕ}

theorem length_le (h : Positions ts ids) : ids.length ≤ maxClients := h.tables.length_le

theorem id_lt (h : Positions ts ids) {i : ℕ} (hi : i < ids.length) : ids[i] < maxClients :=
  h.tables.indexed.lt _ (List.getElem_mem hi)

theorem load_idTable (h : Positions ts ids) {i : ℕ} (hi : i < ids.length) :
    ts.idTable.load i = some (ids[i] : ℤ) := by
  rw [ts.idTable.load_of_lt (hi.trans_le h.length_le), h.position i hi]

theorem congr (h : Positions ts ids) {ts' : TunnelServer} (hserver : ts'.server = ts.server)
    (htable : ts'.idTable = ts.idTable) (hcount : ts'.clientCount = ts.clientCount) :
    Positions ts' ids :=
  ⟨hserver ▸ h.tables, hcount ▸ h.count, htable ▸ h.position, htable ▸ h.range⟩

theorem built (listenFd tunnelFd : ℤ) (tpbJunk queueJunk : ℕ → CChar) :
    Positions (builtTserver (builtServer listenFd tunnelFd) tpbJunk queueJunk) [] where
  tables := Tables.built listenFd tunnelFd
  count := rfl
  position := nofun
  range := fun _ _ => ⟨0, by decide, rfl⟩

/-! ### Disconnecting and adding -/

def marked (ts : TunnelServer) (ids : List ℕ) (i : ℕ) (hi : i < ids.length) : TunnelServer :=
  { ts with
    server := Tables.disconnected ts.server i
    removeFlag := ⟨Function.update ts.removeFlag.cells ids[i] true⟩ }

theorem tsRemoveClient_eq (h : Positions ts ids) {i : ℕ} (hi : i < ids.length) :
    tsRemoveClient ts i = some (marked ts ids i hi) := by
  simp only [tsRemoveClient, h.load_idTable hi, Option.bind_eq_bind, Option.bind_some,
    sizeT_id (h.id_lt hi), h.tables.disconnectClient_eq hi, CArray.store_of_lt _ _ (h.id_lt hi)]
  rfl

theorem marked_positions (h : Positions ts ids) {i : ℕ} (hi : i < ids.length) :
    Positions (marked ts ids i hi) ids :=
  ⟨h.tables.tables_disconnected hi, h.count, h.position, h.range⟩

def joined (ts : TunnelServer) (id : ℕ) (fd : ℤ) (clientJunk tunnelJunk : ℕ → CChar) :
    TunnelServer :=
  { ts with
    server := Tables.added ts.server id fd
    clientBuffers := ⟨Function.update ts.clientBuffers.cells id
      (CyclicBuffer.cbInit clientJunk bufferSize)⟩
    tunnelBuffers := ⟨Function.update ts.tunnelBuffers.cells id
      (CyclicBuffer.cbInit tunnelJunk bufferSize)⟩
    addQueue := (ts.addQueue.cbPutc (BitVec.ofInt 8 id)).2
    idTable := ⟨Function.update ts.idTable.cells ts.clientCount id⟩
    clientCount := ts.clientCount + 1 }

theorem tsAddClient_eq (h : Positions ts ids) (hlen : ids.length < maxClients) (fd : ℤ)
    (clientJunk tunnelJunk : ℕ → CChar) :
    ∃ id : ℕ, id < maxClients ∧ id ∉ ids ∧ tsAddClient ts fd clientJunk tunnelJunk =
      some ((id : ℤ), joined ts id fd clientJunk tunnelJunk) := by
  obtain ⟨id, hid, hfresh, hadd⟩ := h.tables.addClient_eq hlen fd
  have hne : (id : ℤ) ≠ noId := by unfold noId; omega
  refine ⟨id, hid, hfresh, ?_⟩
  simp only [tsAddClient, hadd, Option.bind_eq_bind, Option.bind_some, hne, if_false,
    CArray.store_of_lt _ _ hid, ts.idTable.store_of_lt _ (h.count ▸ hlen)]
  rfl

theorem joined_positions (h : Positions ts ids) {id : ℕ} (hid : id < maxClients)
    (hfresh : id ∉ ids) (fd : ℤ) (clientJunk tunnelJunk : ℕ → CChar) :
    Positions (joined ts id fd clientJunk tunnelJunk) (ids ++ [id]) where
  tables := h.tables.tables_added fd hid hfresh
  count := by simp [joined, h.count]
  position := by
    intro k hk
    rw [List.length_append, List.length_singleton] at hk
    simp only [joined, h.count, Function.update_apply]
    by_cases hkl : k < ids.length
    · rw [if_neg (by omega), List.getElem_append_left hkl, h.position k hkl]
    · obtain rfl : k = ids.length := by omega
      rw [if_pos rfl, List.getElem_concat_length rfl]
  range := by
    intro k hk
    simp only [joined, Function.update_apply]
    split_ifs
    · exact ⟨id, hid, rfl⟩
    · exact h.range k hk

/-! ### Releasing -/

def released (ts : TunnelServer) (server : Server) (p id : ℕ) : TunnelServer :=
  { ts with
    server
    clientBuffers := ⟨Function.update ts.clientBuffers.cells id CyclicBuffer.cbFree⟩
    tunnelBuffers := ⟨Function.update ts.tunnelBuffers.cells id CyclicBuffer.cbFree⟩
    idTable := ⟨Function.update ts.idTable.cells p (ts.idTable.cells (ts.clientCount - 1))⟩
    clientCount := ts.clientCount - 1 }

/-- On any position the server releases the client whose id is found there. -/
theorem tsActualRemove_eq (h : Positions ts ids) (hne : 0 < ids.length) {p id : ℕ}
    (hp : p < maxClients) (hid : id < maxClients) (hcell : ts.idTable.cells p = id) :
    ∃ server, removeClient ts.server id = some server ∧
      tsActualRemove ts p = some (released ts server p id) := by
  have hserver : ∃ server, removeClient ts.server id = some server := by
    by_cases hmem : id ∈ ids
    · obtain ⟨q, hq, rfl⟩ := List.getElem_of_mem hmem
      exact ⟨_, h.tables.removeClient_eq hq⟩
    · exact ⟨_, removeClient_inactive (mt h.tables.active_iff.mp hmem)⟩
  obtain ⟨server, hserver⟩ := hserver
  have hlast : ((ts.clientCount : ℤ) - 1) = ((ts.clientCount - 1 : ℕ) : ℤ) := by
    rw [h.count]
    omega
  have hlt : ts.clientCount - 1 < maxClients := by
    rw [h.count]
    exact (Nat.sub_lt hne one_pos).trans_le h.length_le
  refine ⟨server, hserver, ?_⟩
  simp only [tsActualRemove, ts.idTable.load_of_lt hp, hcell, Option.bind_eq_bind,
    Option.bind_some, sizeT_id hid, hserver, CArray.store_of_lt _ _ hid, hlast,
    ts.idTable.load_of_lt hlt, CArray.store_of_lt _ _ hp]
  rfl

/-- A client whose id is its position, or who is the last and has its id kept at
the position that is the id, is released from the position table too. -/
theorem released_positions (h : Positions ts ids) {i : ℕ} (hi : i < ids.length)
    (hcell : ts.idTable.cells ids[i] = (ids[i] : ℤ))
    (hown : ids[i] < ids.length ∨ i + 1 = ids.length) :
    Positions (released ts (Tables.removed ts.server ids i hi) ids[i] ids[i])
      (swapRemove ids i) := by
  have hlast : ts.idTable.cells (ids.length - 1) = (ids[ids.length - 1] : ℤ) :=
    h.position _ (by omega)
  refine ⟨h.tables.tables_removed hi, ?_, ?_, ?_⟩
  · simp [released, h.count]
  · intro k hk
    rw [length_swapRemove] at hk
    simp only [released, h.count, Function.update_apply, hlast, getElem_swapRemove]
    by_cases hlt : ids[i] < ids.length
    · -- the id is a position, and so its own
      have hself : ids[i] = i := by
        have := h.position _ hlt
        rw [hcell] at this
        exact (List.Nodup.getElem_inj_iff h.tables.indexed.nodup).mp (by exact_mod_cast this.symm)
      simp only [hself]
      split_ifs
      · rfl
      · exact h.position k (by omega)
    · have hend := hown.resolve_left hlt
      rw [if_neg (by omega), if_neg (by omega)]
      exact h.position k (by omega)
  · intro k hk
    simp only [released, h.count, Function.update_apply]
    split_ifs
    · exact h.range _ (by have := h.length_le; omega)
    · exact h.range k hk

end Positions

/-! ### One iteration of `process_empty_removed` -/

/-- The client at position `i` is to be released: it is marked, its buffer is
empty and the tunnel takes the event. -/
structure Releases (ts : TunnelServer) (i id : ℕ) : Prop where
  position_lt : i < ts.clientCount
  position_eq : ts.idTable.cells i = id
  flagged : ts.removeFlag.cells id = true
  empty : (ts.clientBuffers.cells id).cbEmpty = true
  put : (ts.tunnelTpb.tpbContolMessage clientRemove id).1 = true

/-- The position that is the id of a client belongs to that client: it is the
client's own, or it lies behind all positions and the client has the last one. -/
def OwnPosition (ts : TunnelServer) (i id : ℕ) : Prop :=
  ts.idTable.cells id = id ∧ (id < ts.clientCount ∨ i + 1 = ts.clientCount)

instance (ts : TunnelServer) (i id : ℕ) : Decidable (Releases ts i id) :=
  decidable_of_iff (i < ts.clientCount ∧ ts.idTable.cells i = id ∧
      ts.removeFlag.cells id = true ∧ (ts.clientBuffers.cells id).cbEmpty = true ∧
      (ts.tunnelTpb.tpbContolMessage clientRemove id).1 = true)
    ⟨fun ⟨h₁, h₂, h₃, h₄, h₅⟩ => ⟨h₁, h₂, h₃, h₄, h₅⟩,
      fun ⟨h₁, h₂, h₃, h₄, h₅⟩ => ⟨h₁, h₂, h₃, h₄, h₅⟩⟩

instance (ts : TunnelServer) (i id : ℕ) : Decidable (OwnPosition ts i id) :=
  inferInstanceAs (Decidable (_ ∧ _))

instance (ts : TunnelServer) (i : ℕ) (P : ℕ → Prop) [DecidablePred P] :
    Decidable (∀ id, Releases ts i id → P id) :=
  decidable_of_iff (Releases ts i (ts.idTable.cells i).toNat → P (ts.idTable.cells i).toNat)
    ⟨fun h id hrel => by
      have hid : (ts.idTable.cells i).toNat = id := by rw [hrel.position_eq, Int.toNat_natCast]
      exact hid ▸ h (hid.symm ▸ hrel), fun h => h _⟩

def announced (ts : TunnelServer) (id : ℕ) : TunnelServer :=
  { ts with
    tunnelTpb := (ts.tunnelTpb.tpbContolMessage clientRemove id).2
    removeFlag := ⟨Function.update ts.removeFlag.cells id false⟩ }

theorem Positions.getElem_eq {ts : TunnelServer} {ids : List ℕ} (h : Positions ts ids)
    {i id : ℕ} (hrel : Releases ts i id) (hi : i < ids.length) : ids[i] = id := by
  have := (h.position i hi).symm.trans hrel.position_eq
  exact_mod_cast this

/-- Without a client to release the iteration leaves all but the tunnel alone and
goes on to the next position, if to any. -/
theorem Positions.iterate_of_not_releases {ts : TunnelServer} {ids : List ℕ} (h : Positions ts ids)
    {i : ℕ} (hno : ∀ id, ¬Releases ts i id) :
    ∃ turn tunnelTpb, processEmptyRemovedAt ts i = some (turn, { ts with tunnelTpb }) ∧
      tunnelTpb.buffer.size = ts.tunnelTpb.buffer.size ∧
      ∀ j, turn = .next j → j = i + 1 ∧ i < ids.length := by
  unfold processEmptyRemovedAt
  by_cases hi : i < ts.clientCount
  · have hi' : i < ids.length := h.count ▸ hi
    have hlt := h.id_lt hi'
    simp only [ge_iff_le, not_le.mpr hi, if_false, h.load_idTable hi', Option.bind_eq_bind,
      Option.bind_some, ts.removeFlag.load_of_lt hlt, ts.clientBuffers.load_of_lt hlt]
    by_cases hskip :
        (!ts.removeFlag.cells ids[i] || !(ts.clientBuffers.cells ids[i]).cbEmpty) = true
    · exact ⟨.next (i + 1), ts.tunnelTpb, if_pos hskip, rfl, by rintro _ ⟨⟩; exact ⟨rfl, hi'⟩⟩
    · simp only [Bool.or_eq_true, Bool.not_eq_true', not_or, Bool.not_eq_false] at hskip
      have hput : (ts.tunnelTpb.tpbContolMessage clientRemove ids[i]).1 = false := by
        rw [Bool.eq_false_iff]
        exact fun hput => hno ids[i] ⟨hi, h.position i hi', hskip.1, hskip.2, hput⟩
      refine ⟨.done false, (ts.tunnelTpb.tpbContolMessage clientRemove ids[i]).2, ?_,
        TPBuffer.size_tpbContolMessage _ _ _, nofun⟩
      simp [hskip, hput]
  · exact ⟨.done true, ts.tunnelTpb, if_pos (by omega), rfl, nofun⟩

/-- Otherwise it releases whoever has the id at the position that is the id. -/
theorem Positions.iterate_of_releases {ts : TunnelServer} {ids : List ℕ} (h : Positions ts ids)
    {i id : ℕ} (hrel : Releases ts i id) :
    ∃ (id' : ℕ) (server : Server), ts.idTable.cells id = id' ∧
      removeClient ts.server id' = some server ∧
      processEmptyRemovedAt ts i =
        some (.next i, Positions.released (announced ts id) server id id') := by
  have hi : i < ids.length := h.count ▸ hrel.position_lt
  obtain rfl : ids[i] = id := h.getElem_eq hrel hi
  have hlt := h.id_lt hi
  obtain ⟨id', hid', hcell⟩ := h.range _ hlt
  have hannounced : Positions (announced ts ids[i]) ids := h.congr rfl rfl rfl
  obtain ⟨server, hserver, hremove⟩ :=
    hannounced.tsActualRemove_eq (Nat.zero_lt_of_lt hi) hlt hid' hcell
  refine ⟨id', server, hcell, hserver, ?_⟩
  unfold processEmptyRemovedAt
  simp only [ge_iff_le, not_le.mpr hrel.position_lt, if_false, h.load_idTable hi,
    Option.bind_eq_bind, Option.bind_some, ts.removeFlag.load_of_lt hlt,
    ts.clientBuffers.load_of_lt hlt, hrel.flagged, hrel.empty, hrel.put, Bool.not_true,
    Bool.or_self, Bool.false_eq_true, if_false, CArray.store_of_lt _ _ hlt]
  change (tsActualRemove (announced ts ids[i]) ids[i]).bind _ = _
  rw [hremove]
  rfl

theorem Positions.iterate_own {ts : TunnelServer} {ids : List ℕ} (h : Positions ts ids)
    {i id : ℕ} (hrel : Releases ts i id) (hown : OwnPosition ts i id) :
    ∃ hi : i < ids.length, ids[i] = id ∧
      processEmptyRemovedAt ts i = some (.next i,
        Positions.released (announced ts id) (Tables.removed ts.server ids i hi) id id) ∧
      Positions (Positions.released (announced ts id) (Tables.removed ts.server ids i hi) id id)
        (swapRemove ids i) := by
  have hi : i < ids.length := h.count ▸ hrel.position_lt
  obtain rfl : ids[i] = id := h.getElem_eq hrel hi
  obtain ⟨id', server, hcell, hserver, hiter⟩ := h.iterate_of_releases hrel
  obtain rfl : id' = ids[i] := by
    have := hcell.symm.trans hown.1
    exact_mod_cast this
  rw [h.tables.removeClient_eq hi] at hserver
  cases hserver
  have hannounced : Positions (announced ts ids[i]) ids := h.congr rfl rfl rfl
  have hown' := hown.2
  rw [h.count] at hown'
  exact ⟨hi, rfl, hiter, hannounced.released_positions hi hown.1 hown'⟩

/-! ### What a call may do -/

/-- The positions list exactly the active ids, each once. -/
structure IdsRight (ts : TunnelServer) : Prop where
  count_eq : ts.clientCount = ts.server.clientCount
  listed : ∀ k < ts.clientCount, ∃ id : ℕ, ts.idTable.cells k = id
  active_iff : ∀ id : ℕ, Active ts.server id ↔ ∃ k < ts.clientCount, ts.idTable.cells k = id
  once : ∀ k < ts.clientCount, ∀ l < ts.clientCount,
    ts.idTable.cells k = ts.idTable.cells l → k = l

structure Kept (before after : TunnelServer) (id : ℕ) : Prop where
  active : Active after.server id
  slot_eq : slot after.server id = slot before.server id
  flag_eq : after.removeFlag.cells id = before.removeFlag.cells id
  client_eq : after.clientBuffers.cells id = before.clientBuffers.cells id
  tunnel_eq : after.tunnelBuffers.cells id = before.tunnelBuffers.cells id

structure Gone (before after : TunnelServer) (id : ℕ) : Prop where
  inactive : ¬Active after.server id
  flagged : before.removeFlag.cells id = true
  empty : (before.clientBuffers.cells id).cbEmpty = true

/-- Every client is kept or rightly released, and none is new. -/
structure CallRight (before after : TunnelServer) : Prop where
  kept_or_gone : ∀ id, Active before.server id → Kept before after id ∨ Gone before after id
  none_new : ∀ id, Active after.server id → Active before.server id

theorem CallRight.refl (ts : TunnelServer) : CallRight ts ts where
  kept_or_gone := fun _ h => .inl ⟨h, rfl, rfl, rfl, rfl⟩
  none_new := fun _ h => h

theorem CallRight.trans {a b c : TunnelServer} (h : CallRight a b) (h' : CallRight b c) :
    CallRight a c where
  none_new := fun id hid => h.none_new id (h'.none_new id hid)
  kept_or_gone := by
    intro id hid
    rcases h.kept_or_gone id hid with hk | hg
    · rcases h'.kept_or_gone id hk.active with hk' | hg'
      · exact .inl ⟨hk'.active, hk'.slot_eq.trans hk.slot_eq, hk'.flag_eq.trans hk.flag_eq,
          hk'.client_eq.trans hk.client_eq, hk'.tunnel_eq.trans hk.tunnel_eq⟩
      · exact .inr ⟨hg'.inactive, hk.flag_eq ▸ hg'.flagged, hk.client_eq ▸ hg'.empty⟩
    · exact .inr ⟨fun ha => hg.inactive (h'.none_new id ha), hg.flagged, hg.empty⟩

theorem Positions.idsRight {ts : TunnelServer} {ids : List ℕ} (h : Positions ts ids) :
    IdsRight ts where
  count_eq := h.count.trans h.tables.count.symm
  listed := fun k hk => ⟨_, h.position k (h.count ▸ hk)⟩
  active_iff := by
    intro id
    rw [h.tables.active_iff, h.count]
    constructor
    · intro hmem
      obtain ⟨k, hk, rfl⟩ := List.getElem_of_mem hmem
      exact ⟨k, hk, h.position k hk⟩
    · rintro ⟨k, hk, he⟩
      rw [h.position k hk] at he
      exact (by exact_mod_cast he : ids[k] = id) ▸ List.getElem_mem hk
  once := by
    intro k hk l hl he
    rw [h.count] at hk hl
    rw [h.position k hk, h.position l hl] at he
    exact (List.Nodup.getElem_inj_iff h.tables.indexed.nodup).mp (by exact_mod_cast he)

/-- A release at its own position is of one client, who was to be released. -/
theorem Positions.callRight_own {ts : TunnelServer} {ids : List ℕ} (h : Positions ts ids)
    {i id : ℕ} (hrel : Releases ts i id) (hi : i < ids.length) (hid : ids[i] = id) :
    CallRight ts
      (Positions.released (announced ts id) (Tables.removed ts.server ids i hi) id id) := by
  subst hid
  have htables := h.tables.tables_removed hi
  have hmem := fun j => mem_swapRemove (x := j) h.tables.indexed.nodup hi
  have hactive : ∀ j, Active (Tables.removed ts.server ids i hi) j ↔ j ∈ ids ∧ j ≠ ids[i] :=
    fun j => htables.active_iff.trans (hmem j)
  refine ⟨fun j hj => ?_, fun j hj => h.tables.active_iff.mpr ((hactive j).mp hj).1⟩
  rw [h.tables.active_iff] at hj
  by_cases he : j = ids[i]
  · subst he
    exact .inr ⟨fun ha => ((hactive _).mp ha).2 rfl, hrel.flagged, hrel.empty⟩
  · refine .inl ⟨(hactive j).mpr ⟨hj, he⟩, h.tables.slot_removed hi hj he, ?_, ?_, ?_⟩
    all_goals simp [Positions.released, announced, Function.update_of_ne he]

/-- Any other release does wrong: it takes the mark from a client it does not
release, or it leaves a released client among the positions. -/
theorem Positions.not_right_of_not_own {before ts ts' : TunnelServer} {ids : List ℕ}
    (h : Positions ts ids) (hbefore : CallRight before ts) {i id : ℕ} (hrel : Releases ts i id)
    (hown : ¬OwnPosition ts i id) {turn : Turn ℕ}
    (hiter : processEmptyRemovedAt ts i = some (turn, ts')) :
    ¬(IdsRight ts' ∧ CallRight before ts') := by
  obtain ⟨id', server, hcell, hserver, hiter'⟩ := h.iterate_of_releases hrel
  rw [hiter'] at hiter
  cases hiter
  rintro ⟨hids, hcall⟩
  have hi : i < ids.length := h.count ▸ hrel.position_lt
  obtain rfl : ids[i] = id := h.getElem_eq hrel hi
  by_cases hsame : id' = ids[i]
  · -- the right client, but the positions keep it
    subst hsame
    rw [h.tables.removeClient_eq hi] at hserver
    cases hserver
    have hbehind : ¬ids[i] < ts.clientCount ∧ i + 1 ≠ ts.clientCount := by
      unfold OwnPosition at hown
      push Not at hown
      simpa using hown hcell
    have hlt := hrel.position_lt
    have hstill : Active (Tables.removed ts.server ids i hi) ids[i] := by
      refine (hids.active_iff ids[i]).mpr ⟨i, ?_, ?_⟩
      · simp only [Positions.released, announced]
        omega
      · simp only [Positions.released, announced]
        rw [Function.update_of_ne (by omega), h.position i hi]
    exact (mem_swapRemove h.tables.indexed.nodup hi).mp
      ((h.tables.tables_removed hi).active_iff.mp hstill) |>.2 rfl
  · -- another client: the marked one stays and has lost its mark
    have hactive : Active server ids[i] := by
      by_cases hmem : id' ∈ ids
      · obtain ⟨q, hq, rfl⟩ := List.getElem_of_mem hmem
        rw [h.tables.removeClient_eq hq] at hserver
        cases hserver
        exact (h.tables.tables_removed hq).active_iff.mpr
          ((mem_swapRemove h.tables.indexed.nodup hq).mpr ⟨List.getElem_mem hi, Ne.symm hsame⟩)
      · rw [removeClient_inactive (mt h.tables.active_iff.mp hmem)] at hserver
        cases hserver
        exact h.tables.active_iff.mpr (List.getElem_mem hi)
    have hold := h.tables.active_iff.mpr (List.getElem_mem hi)
    have hkept : Kept before ts ids[i] :=
      (hbefore.kept_or_gone _ (hbefore.none_new _ hold)).resolve_right fun hg => hg.inactive hold
    have hkept' := (hcall.kept_or_gone _ (hbefore.none_new _ hold)).resolve_right
      fun hg => hg.inactive hactive
    have hflag := hkept'.flag_eq.trans (hkept.flag_eq.symm.trans hrel.flagged)
    simp [Positions.released, announced] at hflag

/-! ### Runs -/

/-- The sender, the position inside `process_empty_removed` while it is called, and
the sender as the call found it. -/
structure TableWorld where
  ts : TunnelServer
  before : TunnelServer
  inside : Option ℕ

def TableWorld.start (listenFd tunnelFd : ℤ) (tpbJunk queueJunk : ℕ → CChar) : TableWorld :=
  let ts := builtTserver (builtServer listenFd tunnelFd) tpbJunk queueJunk
  ⟨ts, ts, none⟩

/-- `rest` stands for all that happens to the tunnel and the clients' buffers
between calls; `iterate` is one iteration of the call that is under way. -/
inductive SenderOp
  | add (fd : ℤ) (clientJunk tunnelJunk : ℕ → CChar)
  | disconnect (i : ℕ)
  | rest (tunnelTpb : TPBuffer) (clientBuffers : CArray maxClients CyclicBuffer)
  | call
  | iterate

def tableWorldStep (w : TableWorld) (op : SenderOp) : Option TableWorld :=
  match w.inside, op with
  | none, .add fd clientJunk tunnelJunk =>
      if isFull w.ts.server then some w
      else (tsAddClient w.ts fd clientJunk tunnelJunk).map fun (_, ts) => ⟨ts, ts, none⟩
  | none, .disconnect i =>
      if i < w.ts.clientCount then (tsRemoveClient w.ts i).map fun ts => ⟨ts, ts, none⟩
      else some w
  | none, .rest tunnelTpb clientBuffers =>
      let ts := { w.ts with tunnelTpb, clientBuffers }
      some ⟨ts, ts, none⟩
  | none, .call => some { w with before := w.ts, inside := some 0 }
  | some i, .iterate => (processEmptyRemovedAt w.ts i).map fun (turn, ts) =>
      { w with
        ts
        inside := match turn with
          | .next i => some i
          | .done _ => none }
  | none, .iterate | some _, _ => some w

def TableWorld.Right (w : TableWorld) : Prop := IdsRight w.ts ∧ CallRight w.before w.ts

/-- An iteration releases a client only at its own position. -/
def ReleasesOwn (w : TableWorld) (op : SenderOp) : Prop :=
  match w.inside, op with
  | some i, .iterate => ∀ id, Releases w.ts i id → OwnPosition w.ts i id
  | _, _ => True

def TableWorld.Listed (w : TableWorld) : Prop :=
  (∃ ids, Positions w.ts ids) ∧ CallRight w.before w.ts

namespace TableWorld.Listed

theorem start (listenFd tunnelFd : ℤ) (tpbJunk queueJunk : ℕ → CChar) :
    (TableWorld.start listenFd tunnelFd tpbJunk queueJunk).Listed :=
  ⟨⟨[], Positions.built listenFd tunnelFd tpbJunk queueJunk⟩, CallRight.refl _⟩

theorem right {w : TableWorld} (h : w.Listed) : w.Right :=
  have ⟨_, hpos⟩ := h.1
  ⟨hpos.idsRight, h.2⟩

theorem of_positions {ts : TunnelServer} {ids : List ℕ} (h : Positions ts ids)
    (inside : Option ℕ) : (TableWorld.mk ts ts inside).Listed := ⟨⟨ids, h⟩, CallRight.refl ts⟩

/-- An iteration is defined; it keeps the tables if it releases nobody or releases
a client at its own position, and else it does wrong. -/
theorem iterate {w : TableWorld} (h : w.Listed) {i : ℕ} (hinside : w.inside = some i) :
    ∃ w', tableWorldStep w .iterate = some w' ∧ (ReleasesOwn w .iterate → w'.Listed) ∧
      (¬ReleasesOwn w .iterate → ¬w'.Right) := by
  obtain ⟨⟨ids, hpos⟩, hcall⟩ := h
  have hown : ReleasesOwn w .iterate ↔ ∀ id, Releases w.ts i id → OwnPosition w.ts i id := by
    simp [ReleasesOwn, hinside]
  rw [hown]
  by_cases hsome : ∃ id, Releases w.ts i id
  · obtain ⟨id, hrel⟩ := hsome
    -- the position determines the id
    have hone : (∀ id, Releases w.ts i id → OwnPosition w.ts i id) ↔ OwnPosition w.ts i id := by
      refine ⟨fun hall => hall id hrel, fun hid j hj => ?_⟩
      obtain rfl : id = j := by
        have := hrel.position_eq.symm.trans hj.position_eq
        exact_mod_cast this
      exact hid
    rw [hone]
    by_cases hid : OwnPosition w.ts i id
    · obtain ⟨hi, hget, hiter, hpos'⟩ := hpos.iterate_own hrel hid
      refine ⟨_, by simp only [tableWorldStep, hinside, hiter]; rfl, fun _ => ⟨⟨_, hpos'⟩, ?_⟩,
        fun hnot => absurd hid hnot⟩
      exact hcall.trans (hpos.callRight_own hrel hi hget)
    · obtain ⟨id', server, -, -, hiter⟩ := hpos.iterate_of_releases hrel
      have hstep : tableWorldStep w .iterate = some { w with
          ts := Positions.released (announced w.ts id) server id id', inside := some i } := by
        simp only [tableWorldStep, hinside, hiter]
        rfl
      exact ⟨_, hstep, fun hyes => absurd hyes hid,
        fun _ => hpos.not_right_of_not_own hcall hrel hid hiter⟩
  · push Not at hsome
    obtain ⟨turn, tunnelTpb, hiter, -, -⟩ := hpos.iterate_of_not_releases hsome
    refine ⟨_, by simp only [tableWorldStep, hinside, hiter]; rfl, fun _ => ⟨⟨ids, ?_⟩, ?_⟩,
      fun hnot => absurd (fun id hrel => absurd hrel (hsome id)) hnot⟩
    · exact hpos.congr rfl rfl rfl
    · exact hcall.trans
        ⟨fun _ ha => .inl ⟨ha, rfl, rfl, rfl, rfl⟩, fun _ ha => ha⟩

/-- Every operation other than an iteration is defined and keeps the tables. -/
theorem other {w : TableWorld} (h : w.Listed) {op : SenderOp}
    (hop : w.inside = none ∨ op ≠ .iterate) :
    ∃ w', tableWorldStep w op = some w' ∧ w'.Listed := by
  obtain ⟨⟨ids, hpos⟩, hcall⟩ := id h
  cases hinside : w.inside with
  | some i =>
      have hne := hop.resolve_left (by simp [hinside])
      cases op with
      | iterate => exact absurd rfl hne
      | _ => exact ⟨w, by simp [tableWorldStep, hinside], h⟩
  | none =>
      cases op with
      | iterate => exact ⟨w, by simp [tableWorldStep, hinside], h⟩
      | call =>
          exact ⟨⟨w.ts, w.ts, some 0⟩, by simp only [tableWorldStep, hinside],
            of_positions hpos (some 0)⟩
      | rest tunnelTpb clientBuffers =>
          have hpos' : Positions { w.ts with tunnelTpb, clientBuffers } ids :=
            hpos.congr rfl rfl rfl
          exact ⟨_, by simp only [tableWorldStep, hinside], of_positions hpos' none⟩
      | disconnect i =>
          by_cases hi : i < w.ts.clientCount
          · have hi' : i < ids.length := hpos.count ▸ hi
            refine ⟨_, ?_, of_positions (hpos.marked_positions hi') none⟩
            simp only [tableWorldStep, hinside, if_pos hi, hpos.tsRemoveClient_eq hi']
            rfl
          · exact ⟨w, by simp [tableWorldStep, hinside, hi], h⟩
      | add fd clientJunk tunnelJunk =>
          by_cases hfull : isFull w.ts.server
          · exact ⟨w, by simp [tableWorldStep, hinside, hfull], h⟩
          · obtain ⟨id, hid, hfresh, hadd⟩ :=
              hpos.tsAddClient_eq (hpos.tables.lt_of_not_isFull hfull) fd clientJunk tunnelJunk
            refine ⟨_, ?_, of_positions
              (hpos.joined_positions hid hfresh fd clientJunk tunnelJunk) none⟩
            simp only [tableWorldStep, hinside, if_neg hfull, hadd]
            rfl

end TableWorld.Listed

/-- In a run of the operations all states are right exactly when every release is
of a client whose id is its position, or of the last client, whose id is found at
the unused position that is the id. -/
theorem releases_run_iff (listenFd tunnelFd : ℤ) (tpbJunk queueJunk : ℕ → CChar)
    (ops : List SenderOp) :
    RunKeeps TableWorld.Right tableWorldStep
        (TableWorld.start listenFd tunnelFd tpbJunk queueJunk) ops ↔
      RunMeets ReleasesOwn tableWorldStep
        (TableWorld.start listenFd tunnelFd tpbJunk queueJunk) ops := by
  have hsplit : ∀ w op, w.Listed → ∃ w', tableWorldStep w op = some w' ∧
      (ReleasesOwn w op → w'.Listed) ∧ (¬ReleasesOwn w op → ¬w'.Right) := by
    intro w op hw
    by_cases hop : w.inside = none ∨ op ≠ .iterate
    · obtain ⟨w', hstep, hw'⟩ := hw.other hop
      refine ⟨w', hstep, fun _ => hw', fun hnot => absurd ?_ hnot⟩
      rcases hop with hnone | hne
      · simp [ReleasesOwn, hnone]
      · cases op <;> simp_all [ReleasesOwn]
    · push Not at hop
      obtain ⟨hinside, rfl⟩ := hop
      obtain ⟨i, hinside⟩ := Option.ne_none_iff_exists'.mp hinside
      exact hw.iterate hinside
  refine runKeeps_iff_runMeets (I := TableWorld.Listed) (fun w hw => hw.right) ?_ ?_ ?_
    (TableWorld.Listed.start listenFd tunnelFd tpbJunk queueJunk) ops
  · intro w op w' hw hC hstep
    obtain ⟨w₁, h₁, hgood, -⟩ := hsplit w op hw
    rw [hstep] at h₁
    cases h₁
    exact hgood hC
  · intro w op w' hw hC hstep
    obtain ⟨w₁, h₁, -, hbad⟩ := hsplit w op hw
    rw [hstep] at h₁
    cases h₁
    exact hbad hC
  · intro w op hw
    obtain ⟨w₁, h₁, -⟩ := hsplit w op hw
    exact ⟨w₁, h₁⟩

/-- Client 0 leaves and comes back, so that the positions are `1, 0`. When client 1
leaves then, the call of `process_empty_removed` ends with client 0 released, which
was never marked. -/
theorem call_releases_unmarked_client :
    ¬RunKeeps TableWorld.Right tableWorldStep
      (TableWorld.start 3 4 (fun _ => 0) (fun _ => 0))
      [.add 10 (fun _ => 0) (fun _ => 0), .add 11 (fun _ => 0) (fun _ => 0), .disconnect 0,
        .call, .iterate, .iterate, .iterate, .add 12 (fun _ => 0) (fun _ => 0), .disconnect 0,
        .call, .iterate, .iterate, .iterate] := by
  intro h
  obtain ⟨w, hw, -, hcall⟩ := h.last
  have hread : (run tableWorldStep (TableWorld.start 3 4 (fun _ => 0) (fun _ => 0))
      [.add 10 (fun _ => 0) (fun _ => 0), .add 11 (fun _ => 0) (fun _ => 0), .disconnect 0,
        .call, .iterate, .iterate, .iterate, .add 12 (fun _ => 0) (fun _ => 0), .disconnect 0,
        .call, .iterate, .iterate, .iterate]).map (fun w =>
          (w.inside, decide (Active w.before.server 0), w.before.removeFlag.cells 0,
            decide (Active w.ts.server 0))) =
      some (none, true, false, false) := by
    decide +kernel
  rw [hw, Option.map_some, Option.some_inj] at hread
  simp only [Prod.mk.injEq, decide_eq_true_eq, decide_eq_false_iff_not] at hread
  obtain ⟨-, hbefore, hunmarked, hafter⟩ := hread
  rcases hcall.kept_or_gone 0 hbefore with hkept | hgone
  · exact hafter hkept.active
  · exact Bool.false_ne_true (hunmarked.symm.trans hgone.flagged)

end UnixLabs.Lab34
