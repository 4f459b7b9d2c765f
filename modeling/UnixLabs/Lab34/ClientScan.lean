import UnixLabs.Lab34.SenderPolls

/-!
The early exit of `perform_client_io` in `lab34/lab34-sender.c`.

The loop ends when it has counted as many entries with something to do as `poll`
counted entries with something to report. The entries with something to do are among
those, and a client that came after the call of `poll` is at the last position, so the
count is not reached before the last polled client with something to do.
-/

namespace UnixLabs.Lab34

open Library

/-! ### The loop -/

/-- The loop of `perform_client_io` from position `i` on with at most `fuel` tests, as
long as there may be `more` after the entries processed: the positions it visits and
the sender. `inputs` is what `read` delivers to each position. -/
def scanFrom (more : ℕ → Bool) (inputs : ℕ → Option (List CChar)) :
    ℕ → ℕ → ℕ → TunnelServer → Option (List ℕ × TunnelServer)
  | 0, _, _, _ => none
  | fuel + 1, i, processed, ts =>
      if more processed ∧ i < ts.clientCount then do
        let (_, processed, ts) ← performClientIoAt ts i processed (inputs i)
        let (visited, ts) ← scanFrom more inputs fuel (i + 1) processed ts
        some (i :: visited, ts)
      else some ([], ts)

def scan (more : ℕ → Bool) (ts : TunnelServer) (inputs : ℕ → Option (List CChar)) :
    Option (List ℕ × TunnelServer) := do
  let ioable ← tunnelIoable ts.server
  let processed := if ioable then 1 else 0
  scanFrom more inputs (ts.clientCount + 1) 0 processed ts

def performClientIo (ts : TunnelServer) (ioableCount : ℕ) (inputs : ℕ → Option (List CChar)) :
    Option (List ℕ × TunnelServer) :=
  scan (fun processed => processed < ioableCount) ts inputs

def fullScan (ts : TunnelServer) (inputs : ℕ → Option (List CChar)) :
    Option (List ℕ × TunnelServer) :=
  scan (fun _ => true) ts inputs

/-- The steps of the sender that belong to the loop are those of `scanFrom`. -/
theorem run_senderStep_scanFrom {ioableCount : ℕ} {inputs : ℕ → Option (List CChar)}
    (answers : Answers) {fuel i processed : ℕ} {ts ts' : TunnelServer} {visited : List ℕ}
    (h : scanFrom (fun processed => processed < ioableCount) inputs fuel i processed ts =
      some (visited, ts')) :
    run (fun s answers => (senderStep s answers).map Prod.snd)
        ⟨ts, .clientIo ioableCount i processed⟩
        (visited.map (fun k => { answers with input := inputs k }) ++ [answers]) =
      some ⟨ts', .emptyRemoved 0⟩ := by
  induction fuel generalizing i processed ts visited with
  | zero => cases h
  | succ fuel ih =>
      simp only [scanFrom, decide_eq_true_eq] at h
      split_ifs at h with hmore
      · simp only [Option.bind_eq_bind, Option.bind_eq_some_iff] at h
        obtain ⟨⟨received, processed', ts₁⟩, hio, ⟨rest, ts₂⟩, hrest, h⟩ := h
        cases h
        simp only [List.map_cons, List.cons_append, run_cons, senderStep, if_pos hmore, hio,
          Option.bind_eq_bind, Option.bind_some, Option.map_some]
        exact ih hrest
      · cases h
        simp only [List.map_nil, List.nil_append, run_cons, senderStep, if_neg hmore,
          Option.map_some, Option.bind_some, run_nil]

/-! ### The state in which it starts -/

/-- The clients `polled` were covered by the poll call, in the order of their slots, and
`fresh` was accepted since. The positions list the former in some order, and the
latter last. -/
structure Scannable (ts : TunnelServer) (polled order : List ℕ) (fresh : Option ℕ) : Prop where
  tables : Tables ts.server (polled ++ fresh.toList)
  perm : order.Perm polled
  count : ts.clientCount = (order ++ fresh.toList).length
  position : ∀ k (hk : k < (order ++ fresh.toList).length),
    ts.idTable.cells k = ((order ++ fresh.toList)[k] : ℤ)

/-- What `poll` returned for the listener, the tunnel and `n` clients. -/
def polledCount (s : Server) (n : ℕ) : ℕ :=
  (List.range (n + pollClientOffset)).countP fun k => (s.clients.cells k).revents ≠ 0

def passedCount (s : Server) (n : ℕ) : ℕ :=
  if isPollable (s.clients.cells pollListenerIndex) pollIn then polledCount s n - 1
  else polledCount s n

def readyClient (s : Server) (id : ℕ) : Bool := clientIoable s id = some true

structure SameClient (id : ℕ) (ts ts' : TunnelServer) : Prop where
  buffer : ts'.clientBuffers.cells id = ts.clientBuffers.cells id
  flag : ts'.removeFlag.cells id = ts.removeFlag.cells id
  slot : slot ts'.server id = slot ts.server id

namespace SameClient

variable {id : ℕ} {ts₁ ts₂ ts₃ : TunnelServer}

theorem refl (id : ℕ) (ts : TunnelServer) : SameClient id ts ts := ⟨rfl, rfl, rfl⟩

theorem trans (h : SameClient id ts₁ ts₂) (h' : SameClient id ts₂ ts₃) : SameClient id ts₁ ts₃ :=
  ⟨h'.buffer.trans h.buffer, h'.flag.trans h.flag, h'.slot.trans h.slot⟩

end SameClient

/-- The client is disconnected, flagged for its removal, and keeps its bytes. -/
structure Disconnected (id : ℕ) (ts ts' : TunnelServer) : Prop where
  bytes : (ts'.clientBuffers.cells id).contents = (ts.clientBuffers.cells id).contents
  flag : ts'.removeFlag.cells id = true
  slot : slot ts'.server id =
    (slot ts.server id).map fun pollfd => { pollfd with fd := removedClient }

/-- The client's buffer has got as much of these bytes as it has room for. -/
structure Received (bytes : List CChar) (id : ℕ) (ts ts' : TunnelServer) : Prop where
  bytes : (ts'.clientBuffers.cells id).contents =
    (ts.clientBuffers.cells id).contents ++ bytes.take (ts.clientBuffers.cells id).cbFreeSpace
  flag : ts'.removeFlag.cells id = ts.removeFlag.cells id
  slot : slot ts'.server id = slot ts.server id

/-- What is done for a client by the flags in its slot, when `read` answers `input`; a
failure and the end of the input remove it. -/
def Served (input : Option (List CChar)) (id : ℕ) (ts ts' : TunnelServer) : Prop :=
  ∃ pollfd, slot ts.server id = some pollfd ∧
    if isPollable pollfd pollErr then Disconnected id ts ts'
    else if !(ts.clientBuffers.cells id).cbFull && isPollable pollfd pollIn then
      if input.getD [] = [] then Disconnected id ts ts' else Received (input.getD []) id ts ts'
    else SameClient id ts ts'

theorem Served.congr {input : Option (List CChar)} {id : ℕ} {ts₁ ts₂ ts₃ ts₄ : TunnelServer}
    (h : Served input id ts₂ ts₃) (hbefore : SameClient id ts₁ ts₂)
    (hafter : SameClient id ts₃ ts₄) : Served input id ts₁ ts₄ := by
  obtain ⟨pollfd, hslot, h⟩ := h
  rw [hbefore.buffer] at h
  have hdisconnected : Disconnected id ts₂ ts₃ → Disconnected id ts₁ ts₄ := fun h =>
    ⟨by rw [hafter.buffer, h.bytes, hbefore.buffer], hafter.flag.trans h.flag,
      by rw [hafter.slot, h.slot, hbefore.slot]⟩
  refine ⟨pollfd, hbefore.slot.symm.trans hslot, ?_⟩
  split_ifs at h ⊢ with herror hread hend
  · exact hdisconnected h
  · exact hdisconnected h
  · exact ⟨by rw [hafter.buffer, h.bytes, hbefore.buffer],
      by rw [hafter.flag, h.flag, hbefore.flag], by rw [hafter.slot, h.slot, hbefore.slot]⟩
  · exact (hbefore.trans h).trans hafter

/-! ### One iteration -/

theorem ActsOn.ioableAt {ts : TunnelServer} {i : ℕ} {id : ℤ} (hload : ts.idTable.load i = some id)
    (h : ActsOn ts id) : ioableAt ts i = true := by
  obtain ⟨revents, hflags, hharm⟩ := h.flags
  rw [Lab34.ioableAt, CArray.cells_of_load hload, decide_eq_true_eq, clientIoable,
    clientPollable_iff]
  refine ⟨revents, hflags, fun hnone => hharm ?_⟩
  rw [BitVec.and_or_distrib_left, BitVec.and_or_distrib_left] at hnone
  obtain ⟨hio, herr⟩ := BitVec.or_eq_zero_iff.mp hnone
  rw [Harmless, BitVec.and_or_distrib_left]
  exact BitVec.or_eq_zero_iff.mpr ⟨(BitVec.or_eq_zero_iff.mp hio).1, herr⟩

theorem SameScan.ioableAt {ts ts' : TunnelServer} (h : SameScan ts ts') (k : ℕ) :
    Lab34.ioableAt ts' k = Lab34.ioableAt ts k := by
  simp only [Lab34.ioableAt, clientIoable, clientPollable_iff, h.flags_eq, h.table]

theorem ioables_mono (ts : TunnelServer) {i k : ℕ} (h : i ≤ k) : ioables ts i ≤ ioables ts k :=
  (List.range_sublist.mpr h).countP_le

theorem isPollable_ne_zero {pollfd : Pollfd} {mask : BitVec 16}
    (h : isPollable pollfd mask = true) :
    pollfd.revents ≠ 0 := by
  intro hnone
  rw [isPollable, decide_eq_true_eq, hnone] at h
  exact h BitVec.zero_and

theorem countP_range_getElem {α : Type*} (l : List α) (p : α → Bool) (f : ℕ → Bool)
    (h : ∀ k (hk : k < l.length), f k = p l[k]) : (List.range l.length).countP f = l.countP p := by
  induction l generalizing f with
  | nil => rfl
  | cons a l ih =>
      have hrest := ih (f ∘ Nat.succ) fun k hk => h (k + 1) (Nat.succ_lt_succ hk)
      rw [List.length_cons, List.range_succ_eq_map, List.countP_cons, List.countP_map, hrest,
        List.countP_cons, h 0 (Nat.succ_pos _), List.getElem_cons_zero]

namespace Scannable

variable {ts : TunnelServer} {polled order : List ℕ} {fresh : Option ℕ}

theorem exists_slot (h : Scannable ts polled order fresh) {k : ℕ}
    (hk : k < (order ++ fresh.toList).length) :
    ∃ p, ∃ hp : p < (polled ++ fresh.toList).length,
      (polled ++ fresh.toList)[p] = (order ++ fresh.toList)[k] :=
  List.getElem_of_mem ((h.perm.append_right _).mem_iff.mp (List.getElem_mem hk))

theorem load_idTable (h : Scannable ts polled order fresh) {k : ℕ}
    (hk : k < (order ++ fresh.toList).length) :
    ts.idTable.load k = some ((order ++ fresh.toList)[k] : ℤ) := by
  have hle := h.tables.length_le
  rw [← (h.perm.append_right _).length_eq] at hle
  rw [ts.idTable.load_of_lt (hk.trans_le hle), h.position k hk]

/-- An iteration writes to the buffer of its client and may disconnect it, by its flags. -/
theorem performClientIoAt_eq (h : Scannable ts polled order fresh) {k p : ℕ}
    (hk : k < (order ++ fresh.toList).length) (hp : p < (polled ++ fresh.toList).length)
    (hid : (polled ++ fresh.toList)[p] = (order ++ fresh.toList)[k]) (processed : ℕ)
    (input : Option (List CChar)) :
    ∃ received processed' buffer ts₁,
      Lab34.performClientIoAt ts k processed input = some (received, processed', ts₁) ∧
      (ts₁ = { ts with clientBuffers :=
          ⟨Function.update ts.clientBuffers.cells (polled ++ fresh.toList)[p] buffer⟩ } ∨
        ts₁ = { ts with
          server := Tables.disconnected ts.server p
          removeFlag := ⟨Function.update ts.removeFlag.cells (polled ++ fresh.toList)[p] true⟩
          clientBuffers :=
            ⟨Function.update ts.clientBuffers.cells (polled ++ fresh.toList)[p] buffer⟩ }) ∧
      Served input (polled ++ fresh.toList)[p] ts ts₁ := by
  have hload := h.load_idTable hk
  rw [← hid] at hload
  have hlt := h.tables.indexed.lt _ (List.getElem_mem hp)
  have hslot := h.tables.slot_eq hp
  obtain ⟨pollfd, hpollfd⟩ : ∃ pollfd, ts.server.clients.cells (p + pollClientOffset) = pollfd :=
    ⟨_, rfl⟩
  rw [hpollfd] at hslot
  have hpoll : ∀ mask, clientPollable ts.server (polled ++ fresh.toList)[p] mask =
      some (isPollable pollfd mask) := fun mask => by
    simp only [clientPollable, h.tables.getClient_eq hp, h.tables.load_slot _ hp, hpollfd,
      Option.map_some]
  have hremove : ∀ clientBuffers, tsRemoveClient { ts with clientBuffers } k = some { ts with
      clientBuffers
      server := Tables.disconnected ts.server p
      removeFlag := ⟨Function.update ts.removeFlag.cells (polled ++ fresh.toList)[p] true⟩ } := by
    intro clientBuffers
    simp only [tsRemoveClient, hload, sizeT_id hlt, h.tables.disconnectClient_eq hp,
      CArray.store_of_lt _ _ hlt, Option.bind_eq_bind, Option.bind_some]
    rfl
  have hgone := h.tables.slot_disconnected_eq hp
  simp only [Lab34.performClientIoAt, clientIoable, clientHasErrors, clientReadable, hload,
    sizeT_id hlt, hpoll, ts.clientBuffers.load_of_lt hlt, CArray.store_of_lt _ _ hlt,
    Option.bind_eq_bind, Option.bind_some]
  have hsame : ts.clientBuffers = ⟨Function.update ts.clientBuffers.cells
      (polled ++ fresh.toList)[p] (ts.clientBuffers.cells (polled ++ fresh.toList)[p])⟩ := by
    rw [Function.update_eq_self]
  by_cases hfail : isPollable pollfd pollErr = true
  · have hremove' := hremove ts.clientBuffers
    rw [if_pos hfail, hremove', Option.bind_some]
    refine ⟨_, _, _, _, rfl, .inr (by rw [← hsame]), pollfd, hslot, ?_⟩
    rw [if_pos hfail]
    exact ⟨rfl, Function.update_self _ _ _, hgone⟩
  rw [if_neg hfail]
  by_cases hread :
      (!(ts.clientBuffers.cells (polled ++ fresh.toList)[p]).cbFull && isPollable pollfd pollIn) =
        true
  · rw [if_pos hread]
    have hroom : (ts.clientBuffers.cells (polled ++ fresh.toList)[p]).cbFull = false := by
      rw [Bool.and_eq_true, Bool.not_eq_true'] at hread
      exact hread.1
    rcases eq_or_ne (input.getD []) [] with hnone | hsome
    · obtain ⟨hend, hkept⟩ := CyclicBuffer.cbRecv_end
        (ts.clientBuffers.cells (polled ++ fresh.toList)[p]) hnone
      rw [if_pos hend, hremove, Option.bind_some]
      refine ⟨_, _, _, _, rfl, .inr rfl, pollfd, hslot, ?_⟩
      rw [if_neg hfail, if_pos hread, if_pos hnone]
      refine ⟨?_, Function.update_self _ _ _, hgone⟩
      show (Function.update ts.clientBuffers.cells _ _ _).contents = _
      rw [Function.update_self, hkept]
    · obtain ⟨hgoes, hcontents⟩ := CyclicBuffer.cbRecv_bytes hroom hsome
      rw [if_neg hgoes]
      refine ⟨_, _, _, _, rfl, .inl rfl, pollfd, hslot, ?_⟩
      rw [if_neg hfail, if_pos hread, if_neg hsome]
      refine ⟨?_, rfl, rfl⟩
      show (Function.update ts.clientBuffers.cells _ _ _).contents = _
      rw [Function.update_self, hcontents]
  · rw [if_neg hread]
    refine ⟨_, _, _, _, rfl, .inl (by rw [← hsame]), pollfd, hslot, ?_⟩
    rw [if_neg hfail, if_neg hread]
    exact .refl _ ts

/-- An iteration keeps the tables and all but its own client, which it serves. -/
theorem performClientIoAt (h : Scannable ts polled order fresh) {k : ℕ}
    (hk : k < (order ++ fresh.toList).length) (processed : ℕ) (input : Option (List CChar)) :
    ∃ received ts₁, Lab34.performClientIoAt ts k processed input =
        some (received, processed + (if ioableAt ts k then 1 else 0), ts₁) ∧
      Scannable ts₁ polled order fresh ∧ SameScan ts ts₁ ∧
      (∀ j, j ≠ (order ++ fresh.toList)[k] → SameClient j ts ts₁) ∧
      Served input (order ++ fresh.toList)[k] ts ts₁ ∧ (ioableAt ts k = false → ts₁ = ts) := by
  obtain ⟨p, hp, hid⟩ := h.exists_slot hk
  obtain ⟨received, processed', buffer, ts₁, hio, hts₁, hserved⟩ :=
    h.performClientIoAt_eq hk hp hid processed input
  have hsame := SameScan.performClientIoAt hio
  have hquiet : ioableAt ts k = false → ts₁ = ts := by
    intro hnone
    obtain ⟨id, -, hload, -, -, ⟨-, -, hsame⟩ | ⟨hacts, -⟩⟩ := performClientIoAt_cases hio
    · exact hsame
    · rw [hacts.ioableAt hload] at hnone
      cases hnone
  rw [performClientIoAt_processed hio] at hio
  refine ⟨received, ts₁, hio, ?_, hsame, ?_, hid ▸ hserved, hquiet⟩
  · refine ⟨?_, h.perm, hsame.count ▸ h.count, fun l hl => ?_⟩
    · rcases hts₁ with rfl | rfl
      · exact h.tables
      · exact h.tables.tables_disconnected hp
    · rw [hsame.table]
      exact h.position l hl
  · rw [← hid]
    intro j hj
    rcases hts₁ with rfl | rfl
    · exact ⟨Function.update_of_ne hj _ _, rfl, rfl⟩
    · exact ⟨Function.update_of_ne hj _ _, Function.update_of_ne hj _ _,
        h.tables.slot_disconnected hp hj⟩

theorem not_mem_polled (h : Scannable ts polled order fresh) {k : ℕ}
    (hk : k < (order ++ fresh.toList).length) (hlast : order.length ≤ k) :
    (order ++ fresh.toList)[k] ∉ polled := by
  have hmem : (order ++ fresh.toList)[k] ∈ fresh.toList := by
    rw [List.getElem_append_right hlast]
    exact List.getElem_mem _
  exact fun hpolled => List.disjoint_of_nodup_append h.tables.indexed.nodup hpolled hmem

/-! ### Two scans -/

variable (inputs : ℕ → Option (List CChar))

theorem served_of_not_ioable (h : Scannable ts polled order fresh) {k : ℕ}
    (hk : k < (order ++ fresh.toList).length) (hquiet : ioableAt ts k = false)
    (input : Option (List CChar)) : Served input (order ++ fresh.toList)[k] ts ts := by
  obtain ⟨received, ts₁, -, -, -, -, hserved, hsame⟩ := h.performClientIoAt hk 0 input
  rwa [hsame hquiet] at hserved

/-- Where no polled client has anything to do the full scan changes none. -/
theorem scanFrom_quiet (h : Scannable ts polled order fresh) {i : ℕ}
    (hquiet : ∀ k, i ≤ k → k < order.length → ioableAt ts k = false) {fuel : ℕ}
    (hi : i ≤ ts.clientCount) (hfuel : ts.clientCount < i + fuel) (processed : ℕ) :
    ∃ visited ts', scanFrom (fun _ => true) inputs fuel i processed ts = some (visited, ts') ∧
      ∀ id ∈ polled, SameClient id ts ts' := by
  induction fuel generalizing i processed ts with
  | zero => omega
  | succ fuel ih =>
      by_cases hmore : i < ts.clientCount
      · have hpos := h.count ▸ hmore
        obtain ⟨received, ts₁, hio, h₁, hscan, hothers, -, hnone⟩ :=
          h.performClientIoAt hpos processed (inputs i)
        obtain ⟨visited, ts', hrest, hsame⟩ := ih (i := i + 1) h₁
          (fun k hk hlast => by rw [hscan.ioableAt]; exact hquiet k (by omega) hlast)
          (by rw [hscan.count]; omega) (by rw [hscan.count]; omega)
          (processed + if ioableAt ts i then 1 else 0)
        refine ⟨i :: visited, ts', ?_, fun id hid => .trans ?_ (hsame id hid)⟩
        · simp only [scanFrom, hmore, and_self, if_true, hio, hrest, Option.bind_eq_bind,
            Option.bind_some]
        · by_cases hlast : i < order.length
          · rw [hnone (hquiet i le_rfl hlast)]
            exact .refl id ts
          · exact hothers id fun he => h.not_mem_polled hpos (by omega) (he ▸ hid)
      · exact ⟨[], ts, by simp only [scanFrom, hmore, and_false, if_false],
          fun id _ => .refl id ts⟩

theorem getElem_ne (h : Scannable ts polled order fresh) {i k : ℕ}
    (hi : i < (order ++ fresh.toList).length) (hk : k < order.length) (hne : k ≠ i) :
    order[k] ≠ (order ++ fresh.toList)[i] := by
  have hlen : k < (order ++ fresh.toList).length := by
    rw [List.length_append]
    omega
  have hnodup : (order ++ fresh.toList).Nodup :=
    (h.perm.append_right _).nodup_iff.mpr h.tables.indexed.nodup
  have hthis : (order ++ fresh.toList)[k] = order[k] := List.getElem_append_left hk
  rw [← hthis, ne_eq, hnodup.getElem_inj_iff]
  exact hne

/-- As long as the entries that are still to be counted are enough for the polled
clients ahead, the early exit comes after the last of them with something to do. -/
theorem scanFrom_early (h : Scannable ts polled order fresh) {ioableCount i processed : ℕ}
    (hahead : i ≤ order.length →
      processed + ioables ts order.length ≤ ioableCount + ioables ts i)
    (hi : i ≤ ts.clientCount) {fuel : ℕ} (hfuel : ts.clientCount < i + fuel) :
    ∃ visited ts' all ts'',
      scanFrom (fun processed => processed < ioableCount) inputs fuel i processed ts =
        some (visited, ts') ∧
      scanFrom (fun _ => true) inputs fuel i processed ts = some (all, ts'') ∧
      (∀ k, i ≤ k → k < order.length → ioableAt ts k = true → k ∈ visited) ∧
      (∀ k (hk : k < order.length), (k < i → SameClient order[k] ts ts') ∧
        (i ≤ k → Served (inputs k) order[k] ts ts')) ∧
      ∀ id ∈ polled, SameClient id ts' ts'' := by
  induction fuel generalizing i processed ts with
  | zero => omega
  | succ fuel ih =>
      by_cases hmore : processed < ioableCount ∧ i < ts.clientCount
      · have hpos := h.count ▸ hmore.2
        obtain ⟨received, ts₁, hio, h₁, hscan, hothers, hthis, -⟩ :=
          h.performClientIoAt hpos processed (inputs i)
        have hnext : i + 1 ≤ order.length →
            (processed + if ioableAt ts i then 1 else 0) + ioables ts₁ order.length ≤
              ioableCount + ioables ts₁ (i + 1) := by
          intro hle
          have := hahead (by omega)
          rw [hscan.ioables, hscan.ioables, ioables_succ]
          omega
        obtain ⟨visited, ts', all, ts'', hearly, hfull, hvisited, hserved, hsame⟩ :=
          ih h₁ hnext (by rw [hscan.count]; omega) (by rw [hscan.count]; omega)
        refine ⟨i :: visited, ts', i :: all, ts'', ?_, ?_, fun k hik hk hready => ?_,
          fun k hk => ⟨fun hki => ?_, fun hik => ?_⟩, hsame⟩
        · simp only [scanFrom, hmore.1, hmore.2, decide_true, and_self, if_true, hio, hearly,
            Option.bind_eq_bind, Option.bind_some]
        · simp only [scanFrom, hmore.2, and_self, if_true, hio, hfull, Option.bind_eq_bind,
            Option.bind_some]
        · rcases Nat.eq_or_lt_of_le hik with rfl | hlt
          · exact List.mem_cons_self
          · exact List.mem_cons_of_mem i (hvisited k hlt hk (hscan.ioableAt k ▸ hready))
        · have hkept := hothers _ (h.getElem_ne hpos hk hki.ne)
          exact hkept.trans ((hserved k hk).1 (Nat.lt_succ_of_lt hki))
        · rcases Nat.eq_or_lt_of_le hik with rfl | hlt
          · rw [List.getElem_append_left hk] at hthis
            exact hthis.congr (.refl _ ts) ((hserved i hk).1 (Nat.lt_succ_self i))
          · have hkept := hothers _ (h.getElem_ne hpos hk hlt.ne')
            exact ((hserved k hk).2 hlt).congr hkept (.refl _ ts')
      · -- at the exit no polled client ahead has anything to do
        have hquiet : ∀ k, i ≤ k → k < order.length → ioableAt ts k = false := by
          intro k hik hk
          have hahead := hahead (by omega)
          have hlen : k < ts.clientCount := by
            rw [h.count, List.length_append]
            omega
          by_contra hready
          have hsucc := ioables_succ ts k
          rw [if_pos (by simpa using hready)] at hsucc
          have hle := ioables_mono ts hik
          have hle' := ioables_mono ts (show k + 1 ≤ order.length from hk)
          omega
        obtain ⟨all, ts'', hfull, hsame⟩ := h.scanFrom_quiet inputs hquiet hi hfuel processed
        refine ⟨[], ts, all, ts'', ?_, hfull, fun k hik hk hready => ?_,
          fun k hk => ⟨fun _ => .refl _ ts, fun hik => ?_⟩, hsame⟩
        · simp only [scanFrom, decide_eq_true_eq, hmore, if_false]
        · rw [hquiet k hik hk] at hready
          cases hready
        · have hlen : k < (order ++ fresh.toList).length := by
            rw [List.length_append]
            omega
          have hserved := h.served_of_not_ioable hlen (hquiet k hik hk) (inputs k)
          rwa [List.getElem_append_left hk] at hserved

/-! ### What `poll` has counted -/

theorem ioableAt_eq (h : Scannable ts polled order fresh) {k : ℕ} (hk : k < order.length) :
    ioableAt ts k = readyClient ts.server order[k] := by
  have hlen : k < (order ++ fresh.toList).length := by
    rw [List.length_append]
    omega
  have hid := h.position k hlen
  rw [List.getElem_append_left hk] at hid
  have hlt := h.tables.indexed.lt order[k]
    (List.mem_append_left _ (h.perm.mem_iff.mp (List.getElem_mem hk)))
  rw [ioableAt, hid, sizeT_id hlt, readyClient]

theorem ioables_eq_countP (h : Scannable ts polled order fresh) :
    ioables ts order.length = order.countP (readyClient ts.server) :=
  countP_range_getElem order _ _ fun _ hk => h.ioableAt_eq hk

/-- The clients with something to do are among the entries that `poll` counted, and so
is the tunnel. -/
theorem countP_ready_le (h : Scannable ts polled order fresh) :
    (if tunnelIoable ts.server = some true then 1 else 0) +
        polled.countP (readyClient ts.server) ≤ passedCount ts.server polled.length := by
  have hclients : polled.countP (readyClient ts.server) ≤
      (List.range polled.length).countP fun p =>
        (ts.server.clients.cells (p + pollClientOffset)).revents ≠ 0 := by
    rw [← countP_range_getElem polled (readyClient ts.server)
      (fun p => isPollable (ts.server.clients.cells (p + pollClientOffset))
        (pollIn ||| pollOut ||| pollErr))]
    · refine List.countP_mono_left fun p _ hready => ?_
      simpa using isPollable_ne_zero hready
    · intro p hp
      have hlen : p < (polled ++ fresh.toList).length := by
        rw [List.length_append]
        omega
      have hget := h.tables.getClient_eq hlen
      rw [List.getElem_append_left hp] at hget
      simp only [readyClient, clientIoable, clientPollable, hget, h.tables.load_slot _ hlen,
        Option.map_some, Option.some_inj, Bool.decide_eq_true]
  have hsplit : polledCount ts.server polled.length =
      (List.range polled.length).countP (fun p =>
        (ts.server.clients.cells (p + pollClientOffset)).revents ≠ 0) +
        (if (ts.server.clients.cells pollTunnelIndex).revents ≠ 0 then 1 else 0) +
        if (ts.server.clients.cells pollListenerIndex).revents ≠ 0 then 1 else 0 := by
    simp only [polledCount, pollClientOffset, pollTunnelIndex, pollListenerIndex,
      List.range_succ_eq_map, List.map_cons, List.map_map, List.countP_cons, List.countP_map,
      decide_eq_true_eq]
    rfl
  have htunnel : (if tunnelIoable ts.server = some true then 1 else 0) ≤
      if (ts.server.clients.cells pollTunnelIndex).revents ≠ 0 then 1 else 0 := by
    split_ifs with hioable hnone
    · exact le_rfl
    · rw [tunnelIoable_eq, Option.some_inj] at hioable
      exact absurd hnone (not_not.mpr (isPollable_ne_zero hioable))
    · exact Nat.zero_le _
    · exact le_rfl
  by_cases hpending :
      isPollable (ts.server.clients.cells pollListenerIndex) pollIn = true
  · rw [if_pos (isPollable_ne_zero hpending)] at hsplit
    rw [passedCount, if_pos hpending]
    omega
  · rw [passedCount, if_neg hpending]
    omega

end Scannable

/-! ### The main loop -/

theorem Positions.scannable {ts : TunnelServer} {ids : List ℕ} {fresh : Option ℕ}
    (h : Positions ts (ids ++ fresh.toList)) : Scannable ts ids ids fresh :=
  ⟨h.tables, .refl ids, h.count, h.position⟩

theorem Positions.polled {ts : TunnelServer} {ids : List ℕ} (h : Positions ts ids)
    (revents : ℕ → BitVec 16) :
    Positions { ts with server := pollServer ts.server revents } ids :=
  ⟨h.tables.polled revents, h.count, h.position, h.range⟩

theorem Tables.cells_added {s : Server} {n k : ℕ} (hcount : s.clientCount = n) (id : ℕ) (fd : ℤ)
    (hk : k < n + pollClientOffset) :
    (Tables.added s id fd).clients.cells k = s.clients.cells k :=
  Function.update_of_ne (by rw [hcount]; exact hk.ne) _ _

theorem passedCount_added {s : Server} {n : ℕ} (hcount : s.clientCount = n) (id : ℕ) (fd : ℤ) :
    passedCount (Tables.added s id fd) n = passedCount s n := by
  have hpolled : polledCount (Tables.added s id fd) n = polledCount s n :=
    List.countP_congr fun k hk => by
      rw [Tables.cells_added hcount id fd (List.mem_range.mp hk)]
  rw [passedCount, hpolled, Tables.cells_added hcount id fd
    (by unfold pollListenerIndex pollClientOffset; omega), passedCount]

theorem tunnelIoable_added {s : Server} {n : ℕ} (hcount : s.clientCount = n) (id : ℕ) (fd : ℤ) :
    tunnelIoable (Tables.added s id fd) = tunnelIoable s := by
  rw [tunnelIoable_eq, tunnelIoable_eq, Tables.cells_added hcount id fd
    (by unfold pollTunnelIndex pollClientOffset; omega)]

/-- With tables that list the clients in one order, `main_loop` comes to the scan in
such a state and passes on such a count. -/
theorem acceptOnce_scannable {ts : TunnelServer} {ids : List ℕ} (h : Positions ts ids)
    {answers : Answers} {happening : Option Happening} {s' : Sender}
    (hstep : acceptOnce ts (pollResult ts.server) answers = some (happening, s')) :
    s'.place = .poll ∨ ∃ fresh ioable, Scannable s'.ts ids ids fresh ∧
      tunnelIoable s'.ts.server = some ioable ∧
      s'.place = .clientIo (passedCount s'.ts.server ids.length) 0 (if ioable then 1 else 0) := by
  have hresult : pollResult ts.server = polledCount ts.server ids.length := by
    rw [pollResult, polledCount, getPollCount, getClientCount, h.tables.count]
  rw [hresult] at hstep
  obtain ⟨ioable, hioable, ⟨-, rfl | rfl⟩ | ⟨hpending, hfailed, hfull, id, ts', hadd, rfl, -⟩⟩ :=
    acceptOnce_cases hstep
  · exact .inl rfl
  · exact .inr ⟨none, ioable, Positions.scannable (by simpa using h), hioable, rfl⟩
  · obtain ⟨id, hid, hfresh, hadded⟩ := h.tsAddClient_eq (h.tables.lt_of_not_isFull hfull)
      answers.accepted answers.clientJunk answers.tunnelJunk
    rw [hadded] at hadd
    cases hadd
    have hjoined := h.joined_positions hid hfresh answers.accepted answers.clientJunk
      answers.tunnelJunk
    refine .inr ⟨some id, ioable, @Positions.scannable _ ids (some id) hjoined, ?_, ?_⟩
    · exact (tunnelIoable_added h.tables.count id answers.accepted).trans hioable
    · have hpassed : passedCount (Tables.added ts.server id answers.accepted) ids.length =
          polledCount ts.server ids.length - 1 := by
        rw [passedCount_added h.tables.count, passedCount, if_pos hpending]
      exact congrArg (Place.clientIo · 0 _) hpassed.symm

/-! ### The result -/

theorem Scannable.performClientIo_spec {ts : TunnelServer} {polled order : List ℕ}
    {fresh : Option ℕ} (h : Scannable ts polled order fresh)
    (inputs : ℕ → Option (List CChar)) :
    ∃ visited ts' all ts'',
      performClientIo ts (passedCount ts.server polled.length) inputs = some (visited, ts') ∧
      fullScan ts inputs = some (all, ts'') ∧
      (∀ k (hk : k < order.length), readyClient ts.server order[k] = true → k ∈ visited) ∧
      (∀ k (hk : k < order.length), Served (inputs k) order[k] ts ts') ∧
      ∀ id ∈ polled, SameClient id ts' ts'' := by
  obtain ⟨ioable, hioable⟩ : ∃ ioable, tunnelIoable ts.server = some ioable :=
    ⟨_, tunnelIoable_eq _⟩
  have hcounted := h.countP_ready_le
  rw [← h.perm.countP_eq, ← h.ioables_eq_countP, hioable] at hcounted
  simp only [Option.some_inj] at hcounted
  obtain ⟨visited, ts', all, ts'', hearly, hfull, hvisited, hserved, hsame⟩ :=
    h.scanFrom_early inputs (fun _ => Nat.le_add_right_of_le hcounted) (Nat.zero_le _)
      (Nat.lt_of_lt_of_eq (Nat.lt_succ_self _) (Nat.zero_add _).symm)
  refine ⟨visited, ts', all, ts'', ?_, ?_, fun k hk hready => ?_,
    fun k hk => (hserved k hk).2 (Nat.zero_le k), hsame⟩
  · simp only [performClientIo, scan, hioable, Option.bind_eq_bind, Option.bind_some, hearly]
  · simp only [fullScan, scan, hioable, Option.bind_eq_bind, Option.bind_some, hfull]
  · exact hvisited k (Nat.zero_le k) hk (by rw [h.ioableAt_eq hk, hready])

/-- `perform_client_io` visits every polled client with something to do. By its flags a
polled client is disconnected and flagged, or gets what `read` delivers into its buffer,
or is left alone, as by the scan without the early exit. -/
theorem performClientIo_misses_none {ts : TunnelServer} {polled order : List ℕ}
    {fresh : Option ℕ} (h : Scannable ts polled order fresh)
    (inputs : ℕ → Option (List CChar)) :
    ∃ visited ts' all ts'',
      performClientIo ts (passedCount ts.server polled.length) inputs = some (visited, ts') ∧
      fullScan ts inputs = some (all, ts'') ∧
      (∀ k (hk : k < order.length), readyClient ts.server order[k] = true → k ∈ visited) ∧
      (∀ k (hk : k < order.length), Served (inputs k) order[k] ts ts') ∧
      ∀ id ∈ polled, SameClient id ts' ts'' :=
  h.performClientIo_spec inputs

def waiting : TunnelServer :=
  let start := builtTserver (builtServer 3 4) (fun _ => 0) (fun _ => 0)
  let ts := Positions.joined start 0 10 (fun _ => 0) (fun _ => 0)
  let ts := Positions.joined ts 1 11 (fun _ => 0) (fun _ => 0)
  let ts := { ts with server := pollServer ts.server fun k => if k = 3 then pollIn else 0 }
  Positions.joined ts 2 12 (fun _ => 0) (fun _ => 0)

theorem scannable_waiting : Scannable waiting [0, 1] [0, 1] (some 2) := by
  have hstart := Positions.built 3 4 (fun _ => 0) (fun _ => 0)
  have hone := hstart.joined_positions (by decide : 0 < maxClients) (by decide) 10 (fun _ => 0)
    fun _ => 0
  have htwo := hone.joined_positions (by decide : 1 < maxClients) (by decide) 11 (fun _ => 0)
    fun _ => 0
  have hpolled := htwo.polled fun k => if k = 3 then pollIn else 0
  exact Positions.scannable
    (hpolled.joined_positions (by decide : 2 < maxClients) (by decide) 12 (fun _ => 0)
      fun _ => 0)

theorem performClientIo_misses_none_waiting :
    Scannable waiting [0, 1] [0, 1] (some 2) ∧
      ∃ visited ts' all ts'',
        performClientIo waiting (passedCount waiting.server 2) (fun _ => some [104]) =
          some (visited, ts') ∧
        fullScan waiting (fun _ => some [104]) = some (all, ts'') ∧
        (∀ k (hk : k < 2), readyClient waiting.server ([0, 1].get ⟨k, hk⟩) = true → k ∈ visited) ∧
        (∀ k (hk : k < 2), Served (some [104]) ([0, 1].get ⟨k, hk⟩) waiting ts') ∧
        ∀ id ∈ [0, 1], SameClient id ts' ts'' :=
  ⟨scannable_waiting, performClientIo_misses_none scannable_waiting fun _ => some [104]⟩

/-- In a round of `main_loop` whose tables list the clients in one order, every client that
was polled is served, unless `accept` fails and the round is over. -/
theorem Positions.round_serves {ts : TunnelServer} {ids : List ℕ} (h : Positions ts ids)
    {answers : Answers} {happening : Option Happening} {s : Sender}
    (hstep : senderStep ⟨ts, .accept (pollResult ts.server)⟩ answers = some (happening, s))
    (inputs : ℕ → Option (List CChar)) :
    s.place = .poll ∨ ∃ (visited : List ℕ) (ts' : TunnelServer),
      run (fun s answers => (senderStep s answers).map Prod.snd) s
          (visited.map (fun k => { answers with input := inputs k }) ++ [answers]) =
        some ⟨ts', .emptyRemoved 0⟩ ∧
      ∀ k (hk : k < ids.length), Served (inputs k) ids[k] s.ts ts' := by
  rcases acceptOnce_scannable h hstep with hfailed | ⟨fresh, ioable, hscan, hioable, hplace⟩
  · exact .inl hfailed
  · obtain ⟨visited, ts', -, -, hio, -, -, hserved, -⟩ := hscan.performClientIo_spec inputs
    simp only [performClientIo, scan, hioable, Option.bind_eq_bind, Option.bind_some] at hio
    have hrun := run_senderStep_scanFrom answers hio
    rw [← hplace] at hrun
    exact .inr ⟨visited, ts', hrun, hserved⟩

end UnixLabs.Lab34
