import UnixLabs.Lab33.Relay

/-!
`try_read` of `lab33-proxy.c`, and how sessions end.

A round visits the listed sessions one after the other until as many entries with
events were seen as `poll` counted, and removes those that fail. Whenever a
session is removed because a side was at the end of its file, an `Ending` is put
down next to the table.
-/

namespace UnixLabs.Lab33

open Library

/-- What is known of a session that is removed at the end of a side's file: the bytes
that were read from that side and written to the other, and those left in the buffer. -/
structure Ending where
  id : ℕ
  direction : Direction
  received : List CChar
  written : List CChar
  pending : List CChar

def Ending.Complete (e : Ending) : Prop := e.pending = [] ∧ e.written = e.received

structure Proxy where
  table : ProxyServer Relay
  endings : List Ending

/-- What the system answers while a session is visited: to `read` on the sender of a
direction, and to `write` on its receiver. No write fails. -/
structure VisitAnswers where
  input : Direction → Option (List CChar)
  written : Direction → ℕ

structure Visited where
  id : ℕ
  client : Pollfd
  server : Pollfd

/-- What `try_read` looks up at a position; NULL must not be followed. -/
def visited (p : ProxyServer Relay) (i : ℕ) : Option Visited := do
  let id ← entry p.idTable p.clientCount i
  let client ← getClient p.server.server (sizeT id)
  let server ← getServer p.server.server (sizeT id)
  let clientSlot ← p.server.server.clients.load client
  let serverSlot ← p.server.server.clients.load server
  some ⟨sizeT id, clientSlot, serverSlot⟩

namespace Proxy

def start (listenFd : ℤ) : Proxy := ⟨ProxyServer.prInitServer (Relay.start listenFd), []⟩

def remove (w : Proxy) (i id : ℕ) (d : Direction) (t : Transfer) : Option Proxy := do
  let table ← w.table.prRemoveClient Relay.removeClient i
  let relay := w.table.server
  let ending := ⟨id, d, relay.received d id, relay.written d id, t.buffer.contents⟩
  some ⟨table, if t.endOfFile then w.endings ++ [ending] else w.endings⟩

def visit (w : Proxy) (i : ℕ) (answers : VisitAnswers) : Option (ℕ × Proxy) := do
  let v ← visited w.table i
  let seen := (if isIoable v.client then 1 else 0) + if isIoable v.server then 1 else 0
  if hasErrors v.client || hasErrors v.server then do
    let table ← w.table.prRemoveClient Relay.removeClient i
    some (seen, { w with table })
  else do
    let (t, server) ← w.table.server.transfer .ctos v.id v.client v.server
      (answers.input .ctos) (some (answers.written .ctos))
    let w := { w with table := { w.table with server } }
    if !t.ok then do
      let w ← w.remove i v.id .ctos t
      some (seen, w)
    else do
      let (t, server) ← w.table.server.transfer .stoc v.id v.server v.client
        (answers.input .stoc) (some (answers.written .stoc))
      let w := { w with table := { w.table with server } }
      if !t.ok then do
        let w ← w.remove i v.id .stoc t
        some (seen, w)
      else some (seen, w)

/-- The loop of `try_read` at a position, with `ioable_processed`. Once enough entries
are processed the loop is over, and nothing is done at the positions that are left. -/
def visitStep (ioableCount : ℕ) (s : Proxy × ℕ) (v : ℕ × VisitAnswers) : Option (Proxy × ℕ) :=
  if s.2 < ioableCount then (visit s.1 v.1 v.2).map fun (seen, w) => (w, s.2 + seen)
  else some s

def positions (w : Proxy) (answers : ℕ → VisitAnswers) : List (ℕ × VisitAnswers) :=
  (List.range w.table.clientCount).map fun i => (i, answers i)

def tryRead (w : Proxy) (ioableCount : ℕ) (answers : ℕ → VisitAnswers) : Option Proxy := do
  let (w, _) ← run (visitStep ioableCount) (w, 0) (w.positions answers)
  let table ← w.table.commitRemove
  some { w with table }

def poll (w : Proxy) (revents : ℕ → BitVec 16) : Proxy :=
  let server := w.table.server.server
  let clients := ⟨fun k => if k < getPollCount server then
      { server.clients.cells k with revents := revents k }
    else server.clients.cells k⟩
  { w with table := { w.table with server := { w.table.server with
    server := { server with clients } } } }

end Proxy

inductive ProxyOp
  | poll (revents : ℕ → BitVec 16)
  | accept (a : Accepted)
  | tryRead (ioableCount : ℕ) (answers : ℕ → VisitAnswers)

def proxyStep (w : Proxy) : ProxyOp → Option Proxy
  | .poll revents => some (w.poll revents)
  | .accept a => (w.table.listClient Relay.addSession a).map fun table => { w with table }
  | .tryRead ioableCount answers => w.tryRead ioableCount answers

/-! ### When a transfer fails -/

def ReadFails (sender : Pollfd) (b : IOBuffer) (input : Option (List CChar)) : Prop :=
  b.iobFull = false ∧ canReadFrom sender = true ∧ (input = none ∨ input = some [])

/-- The end of the sender's file is read while there are still bytes of it in the
buffer. -/
def CutsOff (sender : Pollfd) (b : IOBuffer) (input : Option (List CChar)) : Prop :=
  b.iobFull = false ∧ canReadFrom sender = true ∧ input = some [] ∧ b.iobEmpty = false

def failedRead (b : IOBuffer) (input : Option (List CChar)) : Transfer :=
  ⟨false, b, some b.iobFreeSpace, decide (input = some []), [], []⟩

@[simp] theorem ok_failedRead (b : IOBuffer) (input : Option (List CChar)) :
    (failedRead b input).ok = false := rfl

theorem tryTransfer_of_readFails {sender : Pollfd} {b : IOBuffer} {input : Option (List CChar)}
    (h : ReadFails sender b input) (receiver : Pollfd) (written : Option ℕ) :
    tryTransfer sender b receiver input written = failedRead b input := by
  obtain ⟨hfull, hread, rfl | rfl⟩ := h
  · simp [tryTransfer, hfull, hread, IOBuffer.iobRecv, failedRead]
  · simp [tryTransfer, hfull, hread, IOBuffer.iobRecv, failedRead]

theorem tryTransfer_ok {sender : Pollfd} {b : IOBuffer} {input : Option (List CChar)}
    (h : ¬ReadFails sender b input) (receiver : Pollfd) (n : ℕ) :
    (tryTransfer sender b receiver input (some n)).ok = true := by
  have hrecv : ∃ count filled, (if !b.iobFull && canReadFrom sender then b.iobRecv input
      else (0, b)) = (count, filled) ∧ count ≠ -1 := by
    by_cases hreads : (!b.iobFull && canReadFrom sender) = true
    · rw [if_pos hreads]
      rw [Bool.and_eq_true, Bool.not_eq_true'] at hreads
      refine ⟨_, _, rfl, ?_⟩
      cases input with
      | none => exact absurd ⟨hreads.1, hreads.2, .inl rfl⟩ h
      | some bytes =>
          have hne : bytes ≠ [] := fun he => h ⟨hreads.1, hreads.2, .inr (by rw [he])⟩
          have hroom : 0 < b.iobFreeSpace := by
            have hfull := hreads.1
            have := b.count_le
            rw [← Bool.not_eq_true, IOBuffer.iobFull_iff] at hfull
            unfold IOBuffer.iobFreeSpace
            omega
          have hlen : (bytes.take b.iobFreeSpace).length ≠ 0 := by
            rw [List.length_take]
            have := List.length_pos_iff.mpr hne
            omega
          have hcount : (b.iobRecv (some bytes)).1 = ((bytes.take b.iobFreeSpace).length : ℤ) :=
            congrArg Prod.fst (if_neg hlen)
          show (b.iobRecv (some bytes)).1 ≠ -1
          omega
    · rw [if_neg hreads]
      exact ⟨0, b, rfl, by decide⟩
  obtain ⟨count, filled, hrecv, hcount⟩ := hrecv
  simp only [tryTransfer, hrecv, if_neg hcount]
  by_cases hsend : (!filled.iobEmpty && canWriteTo receiver) = true
  · rw [if_pos hsend]
    have hsent : (filled.iobSend (some n)).1 ≠ -1 := by
      simp only [IOBuffer.iobSend]
      omega
    exact decide_eq_true hsent
  · rw [if_neg hsend]

/-! ### One visit -/

/-- Neither side of the visited session is read to the end of its file while bytes of
that side are in its buffer. The server is only read when the client's read did
not fail, and neither is when an entry has an error. -/
def VisitDrained (w : Proxy) (i : ℕ) (answers : VisitAnswers) : Prop :=
  ∀ v, visited w.table i = some v → hasErrors v.client = false → hasErrors v.server = false →
    let buffer := fun d => bufferAt w.table.server.server d v.id
    ¬CutsOff v.client (buffer .ctos) (answers.input .ctos) ∧
      (¬ReadFails v.client (buffer .ctos) (answers.input .ctos) →
        ¬CutsOff v.server (buffer .stoc) (answers.input .stoc))

/-- What a visit leaves: the table with the other entries as they were, and some more
endings, all of them complete exactly when `drained` holds. -/
structure VisitDone (w w' : Proxy) (i : ℕ) (drained : Prop) : Prop where
  lists : ∃ ids, ProxyServer.Lists Relaying w'.table ids
  clientCount : w'.table.clientCount = w.table.clientCount
  entries : ∀ k ≠ i, w'.table.idTable.cells k = w.table.idTable.cells k
  endings : ∃ es, w'.endings = w.endings ++ es ∧ (drained ↔ ∀ e ∈ es, e.Complete)

theorem manages_relay :
    ProxyServer.Manages Relaying Relay.addSession Relay.removeClient where
  nodup := fun _ _ h => h.tables.indexed.nodup
  lt := fun _ _ h => h.tables.indexed.lt
  length_le := fun _ _ h => h.tables.length_le
  add := fun _ _ a h => h.addSession a
  remove := by
    intro r ids id h hid
    obtain ⟨p, hp, rfl⟩ := List.getElem_of_mem hid
    obtain ⟨r', hremove, h'⟩ := h.removeClient hp
    exact ⟨r', _, hremove, h', swapRemove_perm ids hp⟩

section Visit

variable {w : Proxy} {ids : List ℕ} {i : ℕ}

/-- The entry at a position that is not removed is that of a session. -/
theorem visited_eq (h : ProxyServer.Lists Relaying w.table ids) (hi : i < w.table.clientCount)
    (hleft : w.table.idTable.cells i ≠ removedClient) :
    ∃ v, visited w.table i = some v ∧ v.id ∈ ids := by
  obtain ⟨id, hid, he⟩ := h.entry_active hi hleft
  obtain ⟨p, hp, rfl⟩ := List.getElem_of_mem hid
  have htables := h.active.tables
  obtain ⟨hclient, hserver⟩ := htables.slots_lt hp
  have hlt := htables.indexed.lt _ hid
  have hsize : sizeT (ids[p] : ℤ) = ids[p] := sizeT_natCast (by unfold maxClients at hlt; omega)
  refine ⟨⟨ids[p], w.table.server.server.clients.cells (2 * p + 1),
    w.table.server.server.clients.cells (2 * p + 2)⟩, ?_, hid⟩
  simp only [visited, entry_of_lt h.count_le hi, he, hsize, htables.getClient_eq hp,
    htables.getServer_eq hp, CArray.load_of_lt _ hclient, CArray.load_of_lt _ hserver,
    Option.bind_eq_bind, Option.bind_some]

theorem VisitDone.of_endings {w' : Proxy} {drained : Prop}
    (hlists : ∃ ids, ProxyServer.Lists Relaying w'.table ids)
    (hcount : w'.table.clientCount = w.table.clientCount)
    (hentries : ∀ k ≠ i, w'.table.idTable.cells k = w.table.idTable.cells k)
    (hendings : w'.endings = w.endings) (hdrained : drained) : VisitDone w w' i drained :=
  ⟨hlists, hcount, hentries, [], by rw [hendings, List.append_nil],
    iff_of_true hdrained (by simp)⟩

/-- Removing a session after a failed read puts down an ending exactly at the end of
the file, and it is complete when the buffer is empty. -/
theorem VisitDone.remove (h : ProxyServer.Lists Relaying w.table ids)
    (hi : i < w.table.clientCount) {id : ℕ} (hid : id ∈ ids) {d : Direction} {sender : Pollfd}
    {input : Option (List CChar)}
    (hfails : ReadFails sender (bufferAt w.table.server.server d id) input) :
    ∃ w', w.remove i id d (failedRead (bufferAt w.table.server.server d id) input) = some w' ∧
      VisitDone w w' i (¬CutsOff sender (bufferAt w.table.server.server d id) input) := by
  obtain ⟨p', ids', hremove, hlists, hcount, hentries⟩ := h.prRemoveClient manages_relay hi
  by_cases hend : input = some []
  · have hrun : w.remove i id d (failedRead (bufferAt w.table.server.server d id) input) =
        some ⟨p', w.endings ++ [⟨id, d, w.table.server.received d id,
        w.table.server.written d id, (bufferAt w.table.server.server d id).contents⟩]⟩ := by
      simp only [Proxy.remove, hremove, failedRead, hend, Option.bind_eq_bind, Option.bind_some,
        decide_true, if_true]
    have hstream := h.active.stream id hid d
    have hcuts : CutsOff sender (bufferAt w.table.server.server d id) input ↔
        (bufferAt w.table.server.server d id).iobEmpty = false :=
      ⟨fun hcut => hcut.2.2.2, fun hne => ⟨hfails.1, hfails.2.1, hend, hne⟩⟩
    refine ⟨_, hrun, ⟨ids', hlists⟩, hcount, hentries, _, rfl, ?_⟩
    rw [hcuts, Bool.not_eq_false, IOBuffer.iobEmpty_iff]
    simp only [List.mem_singleton, forall_eq, Ending.Complete]
    constructor
    · intro hnil
      rw [hnil, List.append_nil] at hstream
      exact ⟨hnil, hstream⟩
    · exact fun hcomplete => hcomplete.1
  · have hrun : w.remove i id d (failedRead (bufferAt w.table.server.server d id) input) =
        some ⟨p', w.endings⟩ := by
      simp only [Proxy.remove, hremove, failedRead, hend, Option.bind_eq_bind, Option.bind_some,
        decide_false, Bool.false_eq_true, if_false]
    exact ⟨_, hrun, VisitDone.of_endings ⟨ids', hlists⟩ hcount hentries rfl
      fun hcut => hend hcut.2.2.1⟩

theorem VisitDone.congr {w' : Proxy} {drained drained' : Prop} (h : VisitDone w w' i drained)
    (hiff : drained ↔ drained') : VisitDone w w' i drained' := propext hiff ▸ h

theorem VisitDone.of_server {w' : Proxy} {drained : Prop} {server : Relay}
    (h : VisitDone { w with table := { w.table with server } } w' i drained) :
    VisitDone w w' i drained := ⟨h.lists, h.clientCount, h.entries, h.endings⟩

theorem not_cutsOff {sender : Pollfd} {b : IOBuffer} {input : Option (List CChar)}
    (h : ¬ReadFails sender b input) : ¬CutsOff sender b input :=
  fun hcut => h ⟨hcut.1, hcut.2.1, .inr hcut.2.2.1⟩

section Direction

variable (h : ProxyServer.Lists Relaying w.table ids) {id : ℕ} (hid : id ∈ ids) (d : Direction)
  {sender : Pollfd} (receiver : Pollfd) {input : Option (List CChar)} (written : ℕ)

include h hid

theorem transfer_fails (hi : i < w.table.clientCount)
    (hread : ReadFails sender (bufferAt w.table.server.server d id) input) :
    ∃ t relay w', w.table.server.transfer d id sender receiver input (some written) =
        some (t, relay) ∧ t.ok = false ∧
      Proxy.remove { w with table := { w.table with server := relay } } i id d t = some w' ∧
      VisitDone w w' i (¬CutsOff sender (bufferAt w.table.server.server d id) input) := by
  obtain ⟨relay, htransfer, hrelay, -, hbuffer⟩ :=
    h.active.transfer hid d sender receiver input (some written)
  have hsame := hbuffer d id
  rw [if_pos ⟨rfl, rfl⟩] at hsame
  rw [tryTransfer_of_readFails hread] at hsame htransfer
  replace hsame : bufferAt relay.server d id = bufferAt w.table.server.server d id := hsame
  obtain ⟨w', hremove, hdone⟩ := VisitDone.remove
    (w := ⟨{ w.table with server := relay }, w.endings⟩)
    ⟨hrelay, h.listed, h.removed, h.count_le⟩ hi hid
    (hsame ▸ hread : ReadFails sender (bufferAt relay.server d id) input)
  dsimp only at hremove hdone
  rw [hsame] at hremove hdone
  exact ⟨_, relay, w', htransfer, rfl, hremove, hdone.of_server⟩

theorem transfer_passes
    (hread : ¬ReadFails sender (bufferAt w.table.server.server d id) input) :
    ∃ t relay, w.table.server.transfer d id sender receiver input (some written) =
        some (t, relay) ∧ t.ok = true ∧
      ProxyServer.Lists Relaying { w.table with server := relay } ids ∧
      ∀ d' ≠ d, bufferAt relay.server d' id = bufferAt w.table.server.server d' id := by
  obtain ⟨relay, htransfer, hrelay, -, hbuffer⟩ :=
    h.active.transfer hid d sender receiver input (some written)
  exact ⟨_, relay, htransfer, tryTransfer_ok hread receiver written,
    ⟨hrelay, h.listed, h.removed, h.count_le⟩,
    fun d' hd' => (hbuffer d' id).trans (if_neg fun hboth => hd' hboth.1)⟩

end Direction

theorem visitDrained_iff {v : Visited} (hvisited : visited w.table i = some v)
    (answers : VisitAnswers) : VisitDrained w i answers ↔
      (hasErrors v.client = false → hasErrors v.server = false →
        ¬CutsOff v.client (bufferAt w.table.server.server .ctos v.id) (answers.input .ctos) ∧
          (¬ReadFails v.client (bufferAt w.table.server.server .ctos v.id) (answers.input .ctos) →
            ¬CutsOff v.server (bufferAt w.table.server.server .stoc v.id)
              (answers.input .stoc))) := by
  unfold VisitDrained
  rw [hvisited]
  simp only [Option.some.injEq, forall_eq']

theorem visit_spec (h : ProxyServer.Lists Relaying w.table ids) (hi : i < w.table.clientCount)
    (hleft : w.table.idTable.cells i ≠ removedClient) (answers : VisitAnswers) :
    ∃ seen w', w.visit i answers = some (seen, w') ∧
      VisitDone w w' i (VisitDrained w i answers) := by
  obtain ⟨⟨id, client, server⟩, hvisited, hid⟩ := visited_eq h hi hleft
  dsimp only at hid
  rw [visitDrained_iff hvisited]
  obtain ⟨seen, hseen⟩ : ∃ seen, ((if isIoable client then 1 else 0) +
    if isIoable server then 1 else 0) = seen := ⟨_, rfl⟩
  simp only [Proxy.visit, hvisited, hseen, Option.bind_eq_bind, Option.bind_some]
  by_cases herrors : (hasErrors client || hasErrors server) = true
  · -- an entry with an error: no transfer
    obtain ⟨p', ids', hremove, hlists, hcount, hentries⟩ := h.prRemoveClient manages_relay hi
    rw [if_pos herrors, hremove]
    refine ⟨_, _, rfl, VisitDone.of_endings ⟨ids', hlists⟩ hcount hentries rfl ?_⟩
    intro hclient hserver
    rw [hclient, hserver] at herrors
    cases herrors
  · rw [if_neg herrors]
    rw [Bool.or_eq_true, not_or, Bool.not_eq_true, Bool.not_eq_true] at herrors
    simp only [herrors.1, herrors.2, forall_const]
    by_cases hread : ReadFails client (bufferAt w.table.server.server .ctos id)
        (answers.input .ctos)
    · -- the client fails, and the server is not read
      obtain ⟨t, relay, w', htransfer, hok, hremove, hdone⟩ :=
        transfer_fails h hid .ctos server (answers.written .ctos) hi hread
      simp only [htransfer, hok, hremove, Option.bind_some, Bool.not_false, if_true]
      exact ⟨seen, w', rfl, hdone.congr (and_iff_left fun hok => absurd hread hok).symm⟩
    · obtain ⟨t, relay, htransfer, hok, h₁, hother⟩ :=
        transfer_passes h hid .ctos server (answers.written .ctos) hread
      have hsame : bufferAt relay.server .stoc id = bufferAt w.table.server.server .stoc id :=
        hother .stoc (by simp)
      simp only [htransfer, hok, Option.bind_some, Bool.not_true, Bool.false_eq_true, if_false]
      by_cases hread₂ : ReadFails server (bufferAt relay.server .stoc id) (answers.input .stoc)
      · obtain ⟨t₂, relay₂, w', htransfer₂, hok₂, hremove, hdone⟩ :=
          transfer_fails (w := ⟨{ w.table with server := relay }, w.endings⟩) h₁ hid .stoc client
            (answers.written .stoc) hi hread₂
        simp only [htransfer₂, hok₂, hremove, Option.bind_some, Bool.not_false, if_true]
        refine ⟨seen, w', rfl, hdone.of_server.congr ?_⟩
        dsimp only
        rw [hsame]
        exact ⟨fun hcut => ⟨not_cutsOff hread, fun _ => hcut⟩, fun hboth => hboth.2 hread⟩
      · obtain ⟨t₂, relay₂, htransfer₂, hok₂, h₂, -⟩ :=
          transfer_passes (w := ⟨{ w.table with server := relay }, w.endings⟩) h₁ hid .stoc client
            (answers.written .stoc) hread₂
        simp only [htransfer₂, hok₂, Option.bind_some, Bool.not_true, Bool.false_eq_true, if_false]
        refine ⟨_, _, rfl, VisitDone.of_endings ⟨ids, h₂⟩ rfl (fun _ _ => rfl) rfl ?_⟩
        exact ⟨not_cutsOff hread, fun _ => hsame ▸ not_cutsOff hread₂⟩

end Visit

/-! ### Rounds and runs -/

def StepDrained (ioableCount : ℕ) (s : Proxy × ℕ) (v : ℕ × VisitAnswers) : Prop :=
  s.2 < ioableCount → VisitDrained s.1 v.1 v.2

def RoundDrained (w : Proxy) : ProxyOp → Prop
  | .poll _ | .accept _ => True
  | .tryRead ioableCount answers =>
      RunMeets (StepDrained ioableCount) (Proxy.visitStep ioableCount) (w, 0) (w.positions answers)

theorem visits_spec (ioableCount : ℕ) {visits : List (ℕ × VisitAnswers)} {w : Proxy} {ids : List ℕ}
    (h : ProxyServer.Lists Relaying w.table ids) (processed : ℕ)
    (hlt : ∀ v ∈ visits, v.1 < w.table.clientCount)
    (hleft : ∀ v ∈ visits, w.table.idTable.cells v.1 ≠ removedClient)
    (hnodup : (visits.map Prod.fst).Nodup) :
    ∃ s, run (Proxy.visitStep ioableCount) (w, processed) visits = some s ∧
      (∃ ids, ProxyServer.Lists Relaying s.1.table ids) ∧
      ∃ es, s.1.endings = w.endings ++ es ∧
        (RunMeets (StepDrained ioableCount) (Proxy.visitStep ioableCount) (w, processed) visits ↔
          ∀ e ∈ es, e.Complete) := by
  induction visits generalizing w ids processed with
  | nil => exact ⟨_, rfl, ⟨ids, h⟩, [], (List.append_nil _).symm, by simp [RunMeets]⟩
  | cons v visits ih =>
      rw [List.map_cons, List.nodup_cons] at hnodup
      have hlt' := fun u hu => hlt u (List.mem_cons_of_mem v hu)
      have hleft' := fun u hu => hleft u (List.mem_cons_of_mem v hu)
      by_cases hmore : processed < ioableCount
      · obtain ⟨seen, w₁, hvisit, hdone⟩ :=
          visit_spec h (hlt v List.mem_cons_self) (hleft v List.mem_cons_self) v.2
        obtain ⟨ids₁, h₁⟩ := hdone.lists
        obtain ⟨es₁, hes₁, hdrained⟩ := hdone.endings
        have hstep : Proxy.visitStep ioableCount (w, processed) v =
            some (w₁, processed + seen) := by
          simp only [Proxy.visitStep, if_pos hmore, hvisit, Option.map_some]
        -- the positions that are left are others
        have hother : ∀ u ∈ visits, u.1 ≠ v.1 := fun u hu he =>
          hnodup.1 (he ▸ List.mem_map_of_mem hu)
        obtain ⟨s, hrun, hlists, es, hes, hmeets⟩ := ih h₁ (processed + seen)
          (fun u hu => hdone.clientCount ▸ hlt' u hu)
          (fun u hu => by rw [hdone.entries _ (hother u hu)]; exact hleft' u hu) hnodup.2
        refine ⟨s, by rw [run_cons, hstep]; exact hrun, hlists, es₁ ++ es, ?_, ?_⟩
        · rw [hes, hes₁, List.append_assoc]
        · rw [runMeets_cons_some hstep, hmeets, List.forall_mem_append, ← hdrained]
          exact and_congr_left fun _ => ⟨fun hvisited => hvisited hmore, fun hd _ => hd⟩
      · have hstep : Proxy.visitStep ioableCount (w, processed) v = some (w, processed) := by
          simp only [Proxy.visitStep, if_neg hmore]
        obtain ⟨s, hrun, hlists, es, hes, hmeets⟩ := ih h processed hlt' hleft' hnodup.2
        refine ⟨s, by rw [run_cons, hstep]; exact hrun, hlists, es, hes, ?_⟩
        rw [runMeets_cons_some hstep, hmeets]
        exact and_iff_right fun hm => absurd hm hmore

/-- A step from a state between rounds ends in one, and adds endings that are all
complete exactly when the step is drained. -/
theorem proxyStep_spec {w : Proxy} {ids : List ℕ} (h : ProxyServer.Lists Relaying w.table ids)
    (hzero : w.table.removedCount = 0) (op : ProxyOp) :
    ∃ w', proxyStep w op = some w' ∧
      (∃ ids', ProxyServer.Lists Relaying w'.table ids' ∧ w'.table.removedCount = 0) ∧
      ∃ es, w'.endings = w.endings ++ es ∧ (RoundDrained w op ↔ ∀ e ∈ es, e.Complete) := by
  cases op with
  | poll revents =>
      have hsame : ∀ d id, bufferAt (w.poll revents).table.server.server d id =
          bufferAt w.table.server.server d id := fun d id => by cases d <;> rfl
      have hpolled : Relaying (w.poll revents).table.server ids :=
        ⟨⟨h.active.tables.count, h.active.tables.indexed⟩,
          fun id hid d => by rw [hsame]; exact h.active.stream id hid d,
          fun id hid d => by rw [hsame]; exact h.active.size id hid d⟩
      exact ⟨_, rfl, ⟨ids, ⟨hpolled, h.listed, h.removed, h.count_le⟩, hzero⟩, [],
        (List.append_nil _).symm, by simp [RoundDrained]⟩
  | accept a =>
      obtain ⟨p', ids', hlist, h', hzero'⟩ := h.listClient manages_relay hzero a
      exact ⟨{ w with table := p' }, by rw [proxyStep, hlist]; rfl, ⟨ids', h', hzero'⟩, [],
        (List.append_nil _).symm, by simp [RoundDrained]⟩
  | tryRead ioableCount answers =>
      have hnone : ∀ i < w.table.clientCount, w.table.idTable.cells i ≠ removedClient :=
        marked_eq_zero_iff.mp (h.removed.trans hzero)
      have hposition : ∀ v ∈ w.positions answers, v.1 < w.table.clientCount := by
        intro v hv
        obtain ⟨i, hi, rfl⟩ := List.mem_map.mp hv
        exact List.mem_range.mp hi
      have hnodup : ((w.positions answers).map Prod.fst).Nodup := by
        rw [Proxy.positions, List.map_map]
        exact (List.map_id _).symm ▸ List.nodup_range
      obtain ⟨s, hrun, ⟨ids', h'⟩, es, hes, hmeets⟩ := visits_spec ioableCount h 0 hposition
        (fun v hv => hnone v.1 (hposition v hv)) hnodup
      obtain ⟨p', hcommit, hp', hzero'⟩ := h'.commitRemove
      refine ⟨{ s.1 with table := p' }, ?_, ⟨ids', hp', hzero'⟩, es, hes, hmeets⟩
      simp only [proxyStep, Proxy.tryRead, hrun, hcommit, Option.bind_eq_bind, Option.bind_some]

/-- In a run of polls, accepts and rounds every session that is removed at the end of a
side's file was passed all of that side's bytes, exactly when no round reads the end
of a side's file while bytes of that side are in its buffer. -/
theorem endings_complete_iff (listenFd : ℤ) (ops : List ProxyOp) :
    RunKeeps (fun w => ∀ e ∈ w.endings, e.Complete) proxyStep (Proxy.start listenFd) ops ↔
      RunMeets RoundDrained proxyStep (Proxy.start listenFd) ops := by
  refine runKeeps_iff_runMeets (I := fun w => (∃ ids, ProxyServer.Lists Relaying w.table ids ∧
    w.table.removedCount = 0) ∧ ∀ e ∈ w.endings, e.Complete) ?_ ?_ ?_ ?_ ?_ ops
  · exact fun w h => h.2
  · rintro w op w' ⟨⟨ids, h, hzero⟩, hcomplete⟩ hdrained hstep
    obtain ⟨w₁, hstep₁, hlists, es, hes, hiff⟩ := proxyStep_spec h hzero op
    rw [hstep₁] at hstep
    cases hstep
    refine ⟨hlists, ?_⟩
    rw [hes]
    exact List.forall_mem_append.mpr ⟨hcomplete, hiff.mp hdrained⟩
  · rintro w op w' ⟨⟨ids, h, hzero⟩, -⟩ hdrained hstep hcomplete
    obtain ⟨w₁, hstep₁, -, es, hes, hiff⟩ := proxyStep_spec h hzero op
    rw [hstep₁] at hstep
    cases hstep
    rw [hes] at hcomplete
    exact hdrained (hiff.mpr (List.forall_mem_append.mp hcomplete).2)
  · rintro w op ⟨⟨ids, h, hzero⟩, -⟩
    obtain ⟨w', hstep, -⟩ := proxyStep_spec h hzero op
    exact ⟨w', hstep⟩
  · exact ⟨⟨[], ⟨Relaying.start listenFd, List.Perm.refl _, rfl, Nat.zero_le _⟩, rfl⟩,
      by simp [Proxy.start]⟩

/-- A client sends two bytes and closes while its server takes nothing. -/
def ProxyOp.hangup : List ProxyOp :=
  [.accept ⟨10, 20, fun _ => 0, fun _ => 0⟩,
    .poll fun k => if k = 1 then pollIn else 0,
    .tryRead 1 fun _ => ⟨fun _ => some [104, 105], fun _ => 0⟩,
    .poll fun k => if k = 1 then pollIn else 0,
    .tryRead 1 fun _ => ⟨fun _ => some [], fun _ => 0⟩]

/-- The session is removed with both bytes in its buffer. -/
theorem hangup_cuts_off :
    ¬RunKeeps (fun w => ∀ e ∈ w.endings, e.Complete) proxyStep (Proxy.start 3)
      ProxyOp.hangup := by
  intro h
  obtain ⟨w, hrun, hcomplete⟩ := h.last
  have hread : (run proxyStep (Proxy.start 3) ProxyOp.hangup).map
      (fun w => w.endings.map fun e => (e.id, e.pending)) = some [(0, [104, 105])] := by
    decide +kernel
  rw [hrun, Option.map_some, Option.some_inj] at hread
  obtain ⟨e, he, hpending⟩ := List.mem_map.mp (hread ▸ List.mem_singleton_self _)
  rw [Prod.mk.injEq, (hcomplete e he).1] at hpending
  exact absurd hpending.2 (by decide)

end UnixLabs.Lab33
