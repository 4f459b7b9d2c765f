import UnixLabs.Lab33.ServerRounds

/-!
The server program as its clients see it.

In every round each client there is gets served once, whatever the order of the entries.
The exception is a client that is accepted in a round: it may find the flags of an earlier
client in its entry.
-/

namespace UnixLabs.Lab33.Usual

open Library Lab25

/-- Who is connected, who ever was, what was printed and who was hung up on. -/
structure Service where
  clients : List ℤ
  accepted : List ℤ
  printed : List CChar
  closed : List ℤ
  stopped : Bool

namespace Service

section Serve

variable (events : ℤ → BitVec 16) (input : ℤ → Option (List CChar))

def takes (fd : ℤ) : List CChar :=
  if events fd &&& pollIn ≠ 0 then ((input fd).getD []).take bufferSize else []

/-- A client stays connected unless there is an error, or nothing where there should be
something. -/
def keeps (fd : ℤ) : Bool :=
  decide (events fd &&& pollErr = 0) &&
    (decide (events fd &&& pollIn = 0) || !(takes events input fd).isEmpty)

def shows (fd : ℤ) : List CChar :=
  if events fd &&& pollErr = 0 then (takes events input fd).map upper else []

def serve (d : Service) : Service :=
  { d with
    clients := d.clients.filter (keeps events input)
    printed := d.printed ++ d.clients.flatMap (shows events input)
    closed := d.closed ++ d.clients.filter fun fd => !keeps events input fd }

/-- Only the clients `first` are served, and `rest` are left alone. -/
def serveFirst (d : Service) (first rest : List ℤ) : Service :=
  { d with
    clients := first.filter (keeps events input) ++ rest
    printed := d.printed ++ first.flatMap (shows events input)
    closed := d.closed ++ first.filter fun fd => !keeps events input fd }

theorem serveFirst_all (d : Service) :
    serveFirst events input d d.clients [] = serve events input d := by
  rw [serveFirst, List.append_nil, serve]

end Serve

def join (d : Service) (fd : ℤ) : Service :=
  { d with clients := d.clients ++ [fd], accepted := d.accepted ++ [fd] }

def refuse (d : Service) (fd : ℤ) : Service :=
  { d with accepted := d.accepted ++ [fd], closed := d.closed ++ [fd] }

/-- A round: a client that cannot be accepted makes the others wait for the next one. -/
def round (listenFd : ℤ) (d : Service) (a : Answers) : Service :=
  if d.stopped then d
  else
    match a.events with
    | none => { d with closed := d.closed ++ listenFd :: d.clients, stopped := true }
    | some events =>
        if reported events listenFd &&& pollIn ≠ 0 then
          if a.accepted = -1 then d
          else if a.accepted < 0 ∨ d.clients.length = maxClients then d.refuse a.accepted
          else (d.serve (reported events) a.input).join a.accepted
        else d.serve (reported events) a.input

/-- The same, up to the order of the clients and of the calls of `close`. -/
structure Agrees (d d' : Service) : Prop where
  clients : d.clients.Perm d'.clients
  accepted : d.accepted = d'.accepted
  printed : d.printed = d'.printed
  closed : d.closed.Perm d'.closed
  stopped : d.stopped = d'.stopped

theorem Agrees.refl (d : Service) : Agrees d d :=
  ⟨List.Perm.refl _, rfl, rfl, List.Perm.refl _, rfl⟩

end Service

def Program.service (p : Program) : Service :=
  ⟨p.clients, p.accepted, p.printed, p.closed, p.stopped⟩

def seen (flags : BitVec 16) : Bool :=
  flags &&& pollIn ≠ 0 || flags &&& pollOut ≠ 0 || flags &&& pollErr ≠ 0

/-- An entry that a new client is given does not say that there is anything to do, or
`try_read` counts all the entries that `poll` has counted. -/
def Program.Settled (listenFd : ℤ) (p : Program) (a : Answers) : Prop :=
  ∀ events ∈ a.events, p.stopped = false → reported events listenFd &&& pollIn ≠ 0 →
    0 ≤ a.accepted → p.proxy.clientCount < maxClients →
      (canReadFrom (p.proxy.server.clients.cells (p.proxy.clientCount + 1)) = false ∧
        hasErrors (p.proxy.server.clients.cells (p.proxy.clientCount + 1)) = false) ∨
      ∀ fd ∈ p.clients, reported events fd ≠ 0 → seen (reported events fd) = true

/-- Every descriptor that was accepted is a client's or has been closed, each as often. -/
def Program.Books (p : Program) : Prop := (p.clients ++ p.closed).Perm p.accepted

structure Program.Keeps (p p' : Program) : Prop where
  stopped : p'.stopped = p.stopped
  books : p.Books → p'.Books

/-! ### A client in both -/

section Client

variable {events : ℤ → BitVec 16} {slot : Pollfd} (h : slot.revents = events slot.fd)
  (input : ℤ → Option (List CChar))

include h

theorem received_eq : received slot input = Service.takes events input slot.fd := by
  rw [received, Service.takes, canReadFrom, h]
  exact if_congr decide_eq_true_iff rfl rfl

theorem stays_eq : stays input slot = Service.keeps events input slot.fd := by
  rw [stays, Service.keeps, received_eq h, hasErrors, canReadFrom, h]
  simp only [ne_eq, decide_not, Bool.not_not]

theorem shown_eq : shown input slot = Service.shows events input slot.fd := by
  rw [shown, Service.shows, received_eq h, hasErrors, h, ← ite_not]
  exact if_congr (by rw [decide_eq_true_iff, not_not]) rfl rfl

end Client

theorem idle_of_not_ioable {slot : Pollfd} (h : isIoable slot = false)
    (input : ℤ → Option (List CChar)) : stays input slot = true ∧ shown input slot = [] := by
  simp only [isIoable, Bool.or_eq_false_iff] at h
  obtain ⟨⟨hread, -⟩, herror⟩ := h
  rw [stays, shown, received, hread, herror]
  exact ⟨rfl, rfl⟩

theorem idle_iff (slot : Pollfd) (input : ℤ → Option (List CChar)) :
    stays input slot = true ∧ shown input slot = [] ↔
      canReadFrom slot = false ∧ hasErrors slot = false := by
  rw [stays, shown, received]
  cases hasErrors slot <;> cases canReadFrom slot <;> simp

/-! ### What `poll` counts -/

namespace Ready

variable {listener : Pollfd} {slots : ℕ → Pollfd} {p : Program} {ids : List ℕ}

theorem entries_eq (h : Ready listener slots p ids) :
    (List.range ids.length).map (fun k => p.proxy.server.clients.cells (k + 1)) =
      ids.map slots := by
  refine List.ext_getElem (by simp) fun k h₁ h₂ => ?_
  have hk : k < ids.length := by simpa using h₁
  rw [List.getElem_map, List.getElem_map, List.getElem_range,
    ← h.lists.active.slot _ (List.getElem_mem hk), h.lists.active.tables.slotOf_eq hk]

theorem pollResult_eq (h : Ready listener slots p ids) : pollResult p.proxy.server =
    ((List.range p.proxy.clientCount).countP fun k =>
      (slots (p.proxy.idTable.cells k).toNat).revents ≠ 0) +
        if listener.revents ≠ 0 then 1 else 0 := by
  have hclients : (List.range ids.length).countP
      (fun k => (p.proxy.server.clients.cells (k + 1)).revents ≠ 0) =
        (ids.map slots).countP fun slot => slot.revents ≠ 0 := by
    rw [← h.entries_eq, List.countP_map]
    rfl
  have hperm := (h.map_perm slots).countP_eq fun slot => slot.revents ≠ 0
  rw [List.countP_map] at hperm
  have hcount : getPollCount p.proxy.server = ids.length + 1 := by
    rw [← h.lists.active.tables.count]
    rfl
  rw [pollResult, hcount, List.range_succ_eq_map, List.countP_cons, List.countP_map,
    h.lists.active.listener]
  refine congrArg₂ (· + ·) ?_ (if_congr decide_eq_true_iff rfl rfl)
  exact hclients.trans hperm.symm

theorem getListener_eq (h : Ready listener slots p ids) :
    getListener p.proxy.server = some listener := by
  rw [getListener, ← h.lists.active.listener]
  exact CArray.load_of_lt _ (Nat.zero_lt_succ _)

theorem cleanupServer_eq (h : Ready listener slots p ids) :
    cleanupServer p.proxy.server = some (listener.fd :: ids.map fun id => (slots id).fd) := by
  have htables := h.lists.active.tables
  have heach : ∀ i < ids.length, fdAt p.proxy.server i =
      some (p.proxy.server.clients.cells (i + 1)).fd := by
    intro i hlt
    have hid := htables.indexed.lt _ (List.getElem_mem hlt)
    have hlen := htables.indexed.length_le
    have hsize : sizeT (ids[i] : ℤ) = ids[i] :=
      sizeT_natCast (by unfold maxClients at hid; omega)
    simp only [fdAt, CArray.load_of_lt _ (by omega : i < maxClients), htables.indexed.key_eq i hlt,
      hsize, htables.getClient_eq hlt, CArray.load_of_lt _ (htables.slot_lt hlt),
      Option.bind_eq_bind, Option.bind_some]
  have hfds := congrArg (List.map Pollfd.fd) h.entries_eq
  rw [List.map_map, List.map_map] at hfds
  rw [cleanupServer, h.getListener_eq, htables.count, mapM_eq_firstCells heach]
  exact congrArg some (congrArg (listener.fd :: ·) hfds)

end Ready

/-! ### What a call of `try_read` has done -/

section TryRead

variable {input : ℤ → Option (List CChar)} {slot : ℕ → Pollfd} {m n : ℕ} {p p' : Program}

theorem served_succ (hidle : stays input (slot m) = true ∧ shown input (slot m) = []) :
    Served input slot (m + 1) n p p' ↔ Served input slot m n p p' := by
  have hkept : (fun k => decide (m + 1 ≤ k) || stays input (slot k)) =
      fun k => decide (m ≤ k) || stays input (slot k) := by
    funext k
    rcases eq_or_ne k m with rfl | hne
    · rw [hidle.1, Bool.or_true, Bool.or_true]
    · rw [decide_eq_decide.mpr (by omega : m + 1 ≤ k ↔ m ≤ k)]
  have hshown : ((List.range (m + 1)).flatMap fun k => shown input (slot k)) =
      (List.range m).flatMap fun k => shown input (slot k) := by
    rw [List.range_succ, List.flatMap_append, List.flatMap_singleton, hidle.2, List.append_nil]
  have hgone : ((List.range (m + 1)).filter fun k => !stays input (slot k)) =
      (List.range m).filter fun k => !stays input (slot k) := by
    rw [List.range_succ, List.filter_append]
    simp [hidle.1]
  constructor
  · intro h
    exact ⟨hkept ▸ h.clients, h.accepted, hshown ▸ h.printed, hgone ▸ h.closed, h.stopped⟩
  · intro h
    exact ⟨hkept.symm ▸ h.clients, h.accepted, hshown.symm ▸ h.printed, hgone.symm ▸ h.closed,
      h.stopped⟩

theorem Served.extend (h : Served input slot m n p p') {m' : ℕ} (hm : m ≤ m')
    (hidle : ∀ k, m ≤ k → k < m' → isIoable (slot k) = false) :
    Served input slot m' n p p' := by
  induction m', hm using Nat.le_induction with
  | base => exact h
  | succ m' hm ih =>
      have hlast := idle_of_not_ioable (hidle m' hm (Nat.lt_succ_self m')) input
      exact (served_succ hlast).mpr (ih fun k hk hkm => hidle k hk (by omega))

/-- The clients that were visited are served, and the others are left alone. -/
theorem Served.agrees {r : ℕ} (h : Served input slot m (m + r) p p') {events : ℤ → BitVec 16}
    (hevents : ∀ k < m, (slot k).revents = events (slot k).fd) {first rest : List ℤ}
    (hfirst : ((List.range m).map fun k => (slot k).fd) = first)
    (hrest : ((List.range r).map fun k => (slot (m + k)).fd) = rest) :
    p'.service.Agrees (p.service.serveFirst events input first rest) := by
  have hstays : ∀ k ∈ List.range m,
      stays input (slot k) = Service.keeps events input (slot k).fd := fun k hk =>
    stays_eq (hevents k (List.mem_range.mp hk)) input
  have hshown : ∀ k ∈ List.range m,
      shown input (slot k) = Service.shows events input (slot k).fd := fun k hk =>
    shown_eq (hevents k (List.mem_range.mp hk)) input
  refine ⟨?_, h.accepted, ?_, List.Perm.of_eq ?_, h.stopped⟩
  · apply h.clients.trans
    apply List.Perm.of_eq
    rw [List.range_add, List.filter_append, List.map_append]
    refine congrArg₂ _ ?_ ?_
    · show _ = first.filter (Service.keeps events input)
      rw [← hfirst, List.filter_map]
      refine congrArg _ (List.filter_congr fun k hk => ?_)
      rw [decide_eq_false (Nat.not_le.mpr (List.mem_range.mp hk)), Bool.false_or, hstays k hk]
      rfl
    · rw [← hrest, List.filter_eq_self.mpr, List.map_map]
      · rfl
      · intro k hk
        obtain ⟨j, -, rfl⟩ := List.mem_map.mp hk
        rw [decide_eq_true (Nat.le_add_right m j), Bool.true_or]
  · show p'.printed = p.printed ++ first.flatMap (Service.shows events input)
    rw [h.printed, ← hfirst, List.flatMap_map, List.flatMap_congr hshown]
  · show p'.closed = p.closed ++ first.filter fun fd => !Service.keeps events input fd
    rw [h.closed, ← hfirst, List.filter_map]
    refine congrArg _ (congrArg _ (List.filter_congr fun k hk => ?_))
    rw [hstays k hk]
    rfl

/-- A client is removed from the table where its descriptor is closed. -/
theorem Served.books (h : Served input slot m n p p') (hm : m ≤ n)
    (hclients : p.clients = (List.range n).map fun k => (slot k).fd) (hbooks : p.Books) :
    p'.Books := by
  obtain ⟨r, rfl⟩ := Nat.exists_eq_add_of_le hm
  have hgone : ((List.range (m + r)).filter fun k => !(decide (m ≤ k) || stays input (slot k))) =
      (List.range m).filter fun k => !stays input (slot k) := by
    have hrest : (((List.range r).map (m + ·)).filter fun k =>
        !(decide (m ≤ k) || stays input (slot k))) = [] := by
      rw [List.filter_eq_nil_iff]
      intro k hk
      obtain ⟨j, -, rfl⟩ := List.mem_map.mp hk
      simp
    rw [List.range_add, List.filter_append, hrest, List.append_nil]
    apply List.filter_congr
    intro k hk
    rw [decide_eq_false (Nat.not_le.mpr (List.mem_range.mp hk)), Bool.false_or]
  have hsplit := (List.filter_append_perm (fun k => decide (m ≤ k) || stays input (slot k))
    (List.range (m + r))).map fun k => (slot k).fd
  rw [hgone, List.map_append, ← hclients] at hsplit
  rw [Program.Books, h.accepted, h.closed]
  apply List.Perm.trans _ hbooks
  apply (h.clients.append_right _).trans
  apply (List.perm_append_comm_assoc _ _ _).trans
  apply List.perm_append_comm.trans
  exact hsplit.append_right _

end TryRead

/-! ### The clients that are visited -/

def eventful (slot : ℕ → Pollfd) (n : ℕ) : ℕ :=
  (List.range n).countP fun k => (slot k).revents ≠ 0

theorem revents_ne_zero {slot : Pollfd} (h : isIoable slot = true) : slot.revents ≠ 0 := by
  intro hzero
  rw [isIoable, canReadFrom, canWriteTo, hasErrors, hzero] at h
  simp at h

theorem ioables_le_eventful (slot : ℕ → Pollfd) (n : ℕ) : ioables slot n ≤ eventful slot n := by
  apply List.countP_mono_left
  intro k _ hk
  exact decide_eq_true (revents_ne_zero hk)

/-- Every entry with events is counted by the loop, when it counts as many as `poll` does. -/
theorem ioables_eq_eventful_iff (slot : ℕ → Pollfd) (n : ℕ) :
    ioables slot n = eventful slot n ↔
      ∀ k < n, (slot k).revents ≠ 0 → isIoable (slot k) = true := by
  induction n with
  | zero => simp [ioables, eventful]
  | succ n ih =>
      have hle := ioables_le_eventful slot n
      have hsucc : eventful slot (n + 1) =
          eventful slot n + if (slot n).revents ≠ 0 then 1 else 0 := by
        rw [eventful, List.range_succ, List.countP_append, List.countP_singleton]
        exact congrArg _ (if_congr decide_eq_true_iff rfl rfl)
      rw [ioables_succ, hsucc, Nat.forall_lt_succ_right, ← ih]
      by_cases hlast : isIoable (slot n) = true
      · rw [if_pos hlast, if_pos (revents_ne_zero hlast), Nat.add_right_cancel_iff]
        exact (and_iff_left fun _ => hlast).symm
      · rw [if_neg hlast]
        by_cases hzero : (slot n).revents = 0
        · rw [if_neg (not_not.mpr hzero)]
          exact (and_iff_left fun hne => absurd hzero hne).symm
        · rw [if_pos hzero]
          exact iff_of_false (by omega) fun hboth => hlast (hboth.2 hzero)

theorem not_ioable_of_le {slot : ℕ → Pollfd} {m n : ℕ} (h : ioables slot n ≤ ioables slot m) :
    ∀ k, m ≤ k → k < n → isIoable (slot k) = false := by
  intro k hmk hkn
  rw [← Bool.not_eq_true]
  intro hio
  have hsucc := ioables_succ slot k
  rw [if_pos hio] at hsucc
  have := ioables_mono slot hmk
  have := ioables_mono slot (show k + 1 ≤ n from hkn)
  omega

section Round

variable {listener : Pollfd} {slots : ℕ → Pollfd} {p : Program} {ids : List ℕ}
  {events : ℤ → BitVec 16}

theorem Ready.tryRead_all (h : Ready listener slots p ids)
    (hevents : ∀ id, (slots id).revents = events (slots id).fd)
    (input : ℤ → Option (List CChar)) {ioableCount : ℕ}
    (hcount : eventful (fun k => slots (p.proxy.idTable.cells k).toNat) p.proxy.clientCount ≤
      ioableCount) :
    ∃ p', p.tryRead ioableCount input = some p' ∧ (∃ ids', Ready listener slots p' ids') ∧
      p.Keeps p' ∧ p'.service.Agrees (p.service.serve events input) := by
  obtain ⟨p', m, hrun, hm, hready, hserved, hstop, -⟩ :=
    tryRead_spec h (fun _ => rfl) input ioableCount
  refine ⟨p', hrun, hready, ⟨hserved.stopped, hserved.books hm h.clients_eq⟩, ?_⟩
  have hrest : ∀ k, m ≤ k → k < p.proxy.clientCount →
      isIoable (slots (p.proxy.idTable.cells k).toNat) = false := by
    rcases Nat.lt_or_ge m p.proxy.clientCount with hlt | hge
    · apply not_ioable_of_le
      exact ((ioables_le_eventful _ _).trans hcount).trans (hstop hlt)
    · exact fun k hmk hk => absurd (hmk.trans_lt hk) (by omega)
  have hall := (hserved.extend hm hrest).agrees (r := 0) (fun k _ => hevents _)
    h.clients_eq.symm rfl
  rw [← Service.serveFirst_all]
  exact hall

/-- After a visit of all clients, the last one has been left alone exactly when there was
nothing to do for it. -/
theorem Served.agrees_iff {input : ℤ → Option (List CChar)} {slot : ℕ → Pollfd} {n : ℕ}
    {p p' : Program} (h : Served input slot (n + 1) (n + 1) p p')
    (hevents : ∀ k < n, (slot k).revents = events (slot k).fd) {first : List ℤ}
    (hfirst : ((List.range n).map fun k => (slot k).fd) = first) :
    p'.service.Agrees (p.service.serveFirst events input first [(slot n).fd]) ↔
      stays input (slot n) = true ∧ shown input (slot n) = [] := by
  constructor
  · intro hagrees
    constructor
    · have hkept : ∀ k ∈ List.range n, (decide (n + 1 ≤ k) || stays input (slot k)) =
          (Service.keeps events input ∘ fun k => (slot k).fd) k := by
        intro k hk
        have hlt := List.mem_range.mp hk
        rw [decide_eq_false (by omega), Bool.false_or, stays_eq (hevents k hlt)]
        rfl
      have hlength := (hagrees.clients.symm.trans h.clients).length_eq
      simp only [Service.serveFirst, ← hfirst, List.filter_map, List.range_succ,
        List.filter_append, List.map_append, List.length_append, List.length_map,
        List.filter_congr hkept, List.length_singleton, Nat.add_left_cancel_iff] at hlength
      by_contra hgone
      rw [List.filter_singleton, decide_eq_false (by omega), Bool.false_or,
        Bool.not_eq_true _ |>.mp hgone] at hlength
      cases hlength
    · have hshown : ∀ k ∈ List.range n,
          shown input (slot k) = Service.shows events input (slot k).fd := fun k hk =>
        shown_eq (hevents k (List.mem_range.mp hk)) input
      have hprinted : p'.printed = p.printed ++ first.flatMap (Service.shows events input) :=
        hagrees.printed
      rw [h.printed, ← hfirst, List.flatMap_map, List.range_succ, List.flatMap_append,
        List.flatMap_singleton, List.flatMap_congr hshown] at hprinted
      exact List.append_right_eq_self.mp (List.append_cancel_left hprinted)
  · intro hidle
    exact ((served_succ hidle).mp h).agrees (r := 1) hevents hfirst rfl

/-- A new client is left alone exactly when its entry is clear or the loop has counted
enough before it. -/
theorem Ready.tryRead_new (h : Ready listener slots p ids) {n : ℕ}
    (hn : p.proxy.clientCount = n + 1) {slot : ℕ → Pollfd}
    (hslot : ∀ k, slots (p.proxy.idTable.cells k).toNat = slot k)
    (hevents : ∀ k < n, (slot k).revents = events (slot k).fd) {first : List ℤ}
    (hfirst : ((List.range n).map fun k => (slot k).fd) = first)
    (input : ℤ → Option (List CChar)) :
    ∃ p', p.tryRead (eventful slot n) input = some p' ∧ (∃ ids', Ready listener slots p' ids') ∧
      p.Keeps p' ∧
      (p'.service.Agrees (p.service.serveFirst events input first [(slot n).fd]) ↔
        (canReadFrom (slot n) = false ∧ hasErrors (slot n) = false) ∨
          ∀ k < n, (slot k).revents ≠ 0 → isIoable (slot k) = true) := by
  obtain ⟨p', m, hrun, hm, hready, hserved, hstop, hmore⟩ :=
    tryRead_spec h hslot input (eventful slot n)
  refine ⟨p', hrun, hready, ⟨hserved.stopped, hserved.books hm ?_⟩, ?_⟩
  · rw [h.clients_eq]
    exact List.map_congr_left fun k _ => congrArg Pollfd.fd (hslot k)
  rw [hn] at hm hserved hstop
  rw [← ioables_eq_eventful_iff, ← idle_iff (slot n) input]
  have hle := ioables_le_eventful slot n
  rcases Nat.lt_or_ge n m with hlast | hbefore
  · -- the new client is visited, since the loop has not counted enough
    obtain rfl : m = n + 1 := by omega
    have hless := hmore n (Nat.lt_succ_self n)
    rw [hserved.agrees_iff hevents hfirst]
    exact (or_iff_left hless.ne).symm
  · have henough := hstop (by omega)
    have hmono := ioables_mono slot hbefore
    have hvisited := hserved.extend hbefore (not_ioable_of_le (hle.trans henough))
    exact iff_of_true (hvisited.agrees (r := 1) hevents hfirst rfl) (.inr (by omega))

/-- After `poll` the entries of the clients say what is reported on their descriptors. -/
theorem Ready.polled (h : Ready listener slots p ids) (events : ℤ → BitVec 16) :
    Ready { listener with revents := reported events listener.fd }
      (fun id => { slots id with revents := reported events (slots id).fd }) (p.polled events)
      ids :=
  ⟨⟨h.lists.active.poll events, h.lists.listed, h.lists.removed, h.lists.count_le⟩, h.zero⟩

theorem Ready.clients_polled (h : Ready listener slots p ids) (events : ℤ → BitVec 16) :
    (p.polled events).clients = p.clients := by
  rw [h.clients_eq, (h.polled events).clients_eq]
  rfl

def Program.joined (p : Program) (server : Server) (id : ℕ) (fd : ℤ) : Program :=
  { p with
    proxy := { p.proxy with
      server
      idTable := ⟨Function.update p.proxy.idTable.cells p.proxy.clientCount id⟩
      clientCount := p.proxy.clientCount + 1 }
    accepted := p.accepted ++ [fd] }

theorem Ready.joined (h : Ready listener slots p ids) (hroom : p.proxy.clientCount < maxClients)
    {fd : ℤ} (hfd : 0 ≤ fd) :
    ∃ (id : ℕ) (server : Server), addClient p.proxy.server fd = some ((id : ℤ), server) ∧
      id ∉ ids ∧
      Ready listener (Function.update slots id
        { p.proxy.server.clients.cells (p.proxy.clientCount + 1) with fd })
        (p.joined server id fd) (ids ++ [id]) := by
  have hcount := h.clientCount_eq
  obtain ⟨id, server, hadd, hfresh, hactive⟩ := h.lists.active.addClient (hcount ▸ hroom) hfd
  have hleft : (id : ℤ) ≠ removedClient := by unfold removedClient; omega
  rw [← hcount] at hactive
  refine ⟨id, server, hadd, hfresh, ⟨hactive, ?_, ?_, hroom⟩, h.zero⟩
  · simp only [Program.joined, live_push hleft, List.map_append, List.map_cons, List.map_nil]
    exact h.lists.listed.append_right _
  · simp only [Program.joined, marked_push hleft]
    exact h.lists.removed

theorem Ready.slot_joined (h : Ready listener slots p ids) {id : ℕ} (hfresh : id ∉ ids)
    (server : Server) (fd : ℤ) (new : Pollfd) {k : ℕ} (hk : k < p.proxy.clientCount) :
    Function.update slots id new ((p.joined server id fd).proxy.idTable.cells k).toNat =
      slots (p.proxy.idTable.cells k).toNat := by
  have hcell : (p.joined server id fd).proxy.idTable.cells k = p.proxy.idTable.cells k :=
    Function.update_of_ne hk.ne _ _
  obtain ⟨id', hid', he⟩ := h.lists.entry_active hk (h.no_mark k hk)
  rw [hcell, he, Int.toNat_natCast, Function.update_of_ne (by rintro rfl; exact hfresh hid')]

theorem Tables.addClient_refuses {s : Server} {fd : ℤ} (h : Tables s ids)
    (hno : fd < 0 ∨ ids.length = maxClients) : addClient s fd = some (noId, s) := by
  by_cases hneg : fd < 0
  · rw [addClient, if_pos hneg]
  · rw [addClient, if_neg hneg, h.nextId_full (hno.resolve_left hneg)]
    exact if_pos rfl

theorem Ready.round_joined (h : Ready listener slots p ids)
    (hevents : ∀ id, (slots id).revents = events (slots id).fd)
    (hpending : canReadFrom listener = true) (hroom : p.proxy.clientCount < maxClients) {fd : ℤ}
    (hfd : 0 ≤ fd) (input : ℤ → Option (List CChar)) :
    ∃ p', p.serveOnce (pollResult p.proxy.server) fd input = some p' ∧
      (∃ slots' ids', Ready listener slots' p' ids') ∧ p.Keeps p' ∧
      (p'.service.Agrees ((p.service.serve events input).join fd) ↔
        (canReadFrom (p.proxy.server.clients.cells (p.proxy.clientCount + 1)) = false ∧
          hasErrors (p.proxy.server.clients.cells (p.proxy.clientCount + 1)) = false) ∨
        ∀ fd ∈ p.clients, events fd ≠ 0 → seen (events fd) = true) := by
  obtain ⟨id, server, hadd, hfresh, hjoined⟩ := h.joined hroom hfd
  obtain ⟨new, hnew⟩ : ∃ new : Pollfd,
    { p.proxy.server.clients.cells (p.proxy.clientCount + 1) with fd } = new := ⟨_, rfl⟩
  rw [hnew] at hjoined
  obtain ⟨slot, hslot⟩ : ∃ slot : ℕ → Pollfd, ∀ k, Function.update slots id new
    ((p.joined server id fd).proxy.idTable.cells k).toNat = slot k := ⟨_, fun _ => rfl⟩
  have hold : ∀ k < p.proxy.clientCount, slot k = slots (p.proxy.idTable.cells k).toNat :=
    fun k hk => (hslot k).symm.trans (h.slot_joined hfresh server fd new hk)
  have hlast : slot p.proxy.clientCount = new := by
    rw [← hslot]
    simp [Program.joined]
  have hfirst : ((List.range p.proxy.clientCount).map fun k => (slot k).fd) = p.clients := by
    rw [h.clients_eq]
    apply List.map_congr_left
    intro k hk
    rw [hold k (List.mem_range.mp hk)]
  -- the listener and the clients are what `poll` has counted
  have hcount : sizeT ((pollResult p.proxy.server : ℕ) - 1 : ℤ) =
      eventful slot p.proxy.clientCount := by
    have hclients : eventful slot p.proxy.clientCount =
        (List.range p.proxy.clientCount).countP fun k =>
          (slots (p.proxy.idTable.cells k).toNat).revents ≠ 0 := by
      apply List.countP_congr
      intro k hk
      rw [hold k (List.mem_range.mp hk)]
    have hle : eventful slot p.proxy.clientCount ≤ p.proxy.clientCount := by
      have := List.countP_le_length (p := fun k => decide ((slot k).revents ≠ 0))
        (l := List.range p.proxy.clientCount)
      rwa [List.length_range] at this
    have hlistener : listener.revents ≠ 0 := revents_ne_zero (by rw [isIoable, hpending]; rfl)
    rw [h.pollResult_eq, ← hclients, if_pos hlistener]
    exact sizeT_pred (le_refl maxClients) (hle.trans_lt hroom)
  have hne : (id : ℤ) ≠ noId := by unfold noId; omega
  have hneg : fd ≠ -1 := by omega
  obtain ⟨p', hrun, ⟨ids', hready⟩, hkeeps, hiff⟩ := hjoined.tryRead_new rfl hslot
    (fun k hk => by rw [hold k hk]; exact hevents _) hfirst input
  refine ⟨p', ?_, ⟨_, ids', hready⟩, ⟨hkeeps.stopped, fun hp => hkeeps.books ?_⟩, ?_⟩
  · rw [← hcount] at hrun
    simp only [Program.serveOnce, h.getListener_eq, hpending, hneg, hadd, hne,
      CArray.store_of_lt _ _ hroom, Option.bind_eq_bind, Option.bind_some, if_true, if_false]
    exact hrun
  · have hclients : (p.joined server id fd).clients = p.clients ++ [fd] := by
      have hall : ((List.range (p.proxy.clientCount + 1)).map fun k => (slot k).fd) =
          p.clients ++ [fd] := by
        rw [List.range_succ, List.map_append, hfirst, List.map_singleton, hlast, ← hnew]
      rw [hjoined.clients_eq, ← hall]
      exact List.map_congr_left fun k _ => congrArg Pollfd.fd (hslot k)
    rw [Program.Books, hclients, List.append_assoc]
    refine List.Perm.trans List.perm_middle ?_
    exact (hp.cons fd).trans (List.perm_append_singleton fd p.accepted).symm
  · rw [hlast] at hiff
    have hservice : (p.joined server id fd).service.serveFirst events input p.clients [new.fd] =
        (p.service.serve events input).join fd := by
      rw [← hnew]
      rfl
    rw [← hservice, hiff, ← hfirst, List.forall_mem_map]
    refine or_congr (by rw [← hnew]; rfl) ?_
    refine forall_congr' fun k => ?_
    rw [List.mem_range]
    refine forall_congr' fun hk => ?_
    rw [hold k hk, ← hevents]
    rfl

theorem Ready.length_clients (h : Ready listener slots p ids) :
    p.clients.length = p.proxy.clientCount := by
  rw [h.clients_eq, List.length_map, List.length_range]

theorem Ready.serveOnce (h : Ready listener slots p ids)
    (hevents : ∀ id, (slots id).revents = events (slots id).fd) (accepted : ℤ)
    (input : ℤ → Option (List CChar)) :
    ∃ p', p.serveOnce (pollResult p.proxy.server) accepted input = some p' ∧
      (∃ slots' ids', Ready listener slots' p' ids') ∧ p.Keeps p' ∧
      (p'.service.Agrees (if canReadFrom listener then
          if accepted = -1 then p.service
          else if accepted < 0 ∨ p.clients.length = maxClients then p.service.refuse accepted
          else (p.service.serve events input).join accepted
        else p.service.serve events input) ↔
        (canReadFrom listener = true → 0 ≤ accepted → p.proxy.clientCount < maxClients →
          (canReadFrom (p.proxy.server.clients.cells (p.proxy.clientCount + 1)) = false ∧
            hasErrors (p.proxy.server.clients.cells (p.proxy.clientCount + 1)) = false) ∨
          ∀ fd ∈ p.clients, events fd ≠ 0 → seen (events fd) = true)) := by
  by_cases hpending : canReadFrom listener = true
  · rw [if_pos hpending, h.length_clients]
    rcases eq_or_ne accepted (-1) with hfails | hcomes
    · -- `accept` fails
      subst hfails
      rw [if_pos rfl]
      refine ⟨p, ?_, ⟨slots, ids, h⟩, ⟨rfl, id⟩, iff_of_true (Service.Agrees.refl _) ?_⟩
      · simp only [Program.serveOnce, h.getListener_eq, hpending, Option.bind_eq_bind,
          Option.bind_some, if_true]
      · exact fun _ hneg => absurd hneg (by decide)
    · rw [if_neg hcomes]
      by_cases hno : accepted < 0 ∨ p.proxy.clientCount = maxClients
      · -- there is no room
        have hrefuses : addClient p.proxy.server accepted = some (noId, p.proxy.server) :=
          h.lists.active.tables.addClient_refuses (h.clientCount_eq ▸ hno)
        rw [if_pos hno]
        refine ⟨{ p with accepted := p.accepted ++ [accepted], closed := p.closed ++ [accepted] },
          ?_, ⟨slots, ids, h.lists, h.zero⟩, ⟨rfl, fun hbooks => ?_⟩,
          iff_of_true (Service.Agrees.refl _) ?_⟩
        · simp only [Program.serveOnce, h.getListener_eq, hpending, hcomes, hrefuses,
            Option.bind_eq_bind, Option.bind_some, if_true, if_false]
        · rw [Program.Books, ← List.append_assoc]
          exact hbooks.append_right _
        · intro _ hfd hroom
          omega
      · have hroom : p.proxy.clientCount < maxClients := by
          have := h.lists.count_le
          omega
        have hfd : 0 ≤ accepted := by omega
        rw [if_neg hno]
        simp only [hpending, hfd, hroom, forall_const]
        exact h.round_joined hevents hpending hroom hfd input
  · have hcount : eventful (fun k => slots (p.proxy.idTable.cells k).toNat) p.proxy.clientCount ≤
        pollResult p.proxy.server := by
      rw [h.pollResult_eq]
      exact Nat.le_add_right _ _
    obtain ⟨p', hrun, ⟨ids', hready⟩, hkeeps, hagrees⟩ := h.tryRead_all hevents input hcount
    rw [if_neg hpending]
    refine ⟨p', ?_, ⟨slots, ids', hready⟩, hkeeps,
      iff_of_true hagrees fun htrue => absurd htrue hpending⟩
    simp only [Program.serveOnce, h.getListener_eq, Option.bind_eq_bind, Option.bind_some]
    rw [if_neg hpending]
    exact hrun

/-- At the end the listener and every client that is left are hung up on. -/
structure Program.Accounted (listenFd : ℤ) (p : Program) : Prop where
  running : p.stopped = false → p.Books
  stopped : p.stopped = true → p.closed.Perm (listenFd :: p.accepted)

/-- An iteration of `main_loop` does what a round of the service does, up to order, exactly
when it is settled. -/
theorem Ready.round (h : Ready listener slots p ids) (a : Answers) :
    ∃ p', p.round a = some p' ∧
      (∃ listener' slots' ids', listener'.fd = listener.fd ∧ Ready listener' slots' p' ids') ∧
      (p.Accounted listener.fd → p'.Accounted listener.fd) ∧
      (p'.service.Agrees (p.service.round listener.fd a) ↔ p.Settled listener.fd a) := by
  cases hstopped : p.stopped with
  | true =>
      have hspec : p.service.round listener.fd a = p.service := if_pos hstopped
      refine ⟨p, if_pos hstopped, ⟨listener, slots, ids, rfl, h⟩, id, ?_⟩
      rw [hspec]
      refine iff_of_true (Service.Agrees.refl _) fun _ _ hgoing => ?_
      rw [hstopped] at hgoing
      cases hgoing
  | false =>
      have hspec : p.service.stopped = false := hstopped
      cases hanswer : a.events with
      | none =>
          refine ⟨{ p with
            closed := p.closed ++ listener.fd :: ids.map fun id => (slots id).fd
            stopped := true }, ?_, ⟨listener, slots, ids, rfl, h.lists, h.zero⟩,
            fun haccounted => ?_, ?_⟩
          · rw [Program.round, hstopped, hanswer, h.cleanupServer_eq]
            rfl
          · refine ⟨fun hgoing => Bool.noConfusion hgoing, fun _ => ?_⟩
            have hbooks := haccounted.running hstopped
            apply List.perm_middle.trans
            apply List.Perm.cons
            apply List.perm_append_comm.trans
            exact (h.clients_perm.symm.append_right _).trans hbooks
          · rw [Service.round, hspec, hanswer]
            refine iff_of_true ⟨List.Perm.refl _, rfl, rfl, ?_, rfl⟩ fun events hevents => ?_
            · exact (h.clients_perm.symm.cons _).append_left _
            · rw [hanswer] at hevents
              cases hevents
      | some events =>
          have hpolled := h.polled events
          obtain ⟨p', hrun, ⟨slots', ids', hready⟩, hkeeps, hiff⟩ :=
            hpolled.serveOnce (fun _ => rfl : ∀ k, _ = reported events _) a.accepted a.input
          have hservice : (p.polled events).service = p.service := by
            rw [Program.service, h.clients_polled]
            rfl
          have hnew : (p.polled events).proxy.server.clients.cells (p.proxy.clientCount + 1) =
              p.proxy.server.clients.cells (p.proxy.clientCount + 1) := by
            have hcount : getPollCount p.proxy.server = p.proxy.clientCount + 1 := by
              rw [h.clientCount_eq, ← h.lists.active.tables.count]
              rfl
            exact (cells_poll p.proxy.server events _).trans (if_neg (by omega))
          have hpending : canReadFrom
              { listener with revents := reported events listener.fd } = true ↔
                reported events listener.fd &&& pollIn ≠ 0 := decide_eq_true_iff
          refine ⟨p', ?_, ⟨{ listener with revents := reported events listener.fd }, slots', ids',
            rfl, hready⟩, fun haccounted => ?_, ?_⟩
          · rw [Program.round, hstopped, hanswer]
            exact hrun
          · have hgoing : p'.stopped = false := hkeeps.stopped.trans hstopped
            refine ⟨fun _ => hkeeps.books ?_, fun hend => ?_⟩
            · rw [Program.Books, h.clients_polled]
              exact haccounted.running hstopped
            · rw [hgoing] at hend
              cases hend
          · rw [hservice, h.clients_polled, if_congr hpending rfl rfl, hpending] at hiff
            rw [Service.round, hspec, hanswer, Program.Settled, hanswer]
            simp only [Option.mem_def, Option.some.injEq, forall_eq', hstopped, forall_const]
            rw [← hnew, if_neg Bool.false_ne_true]
            exact hiff

end Round

/-! ### Runs -/

theorem ready_start (listenFd : ℤ) (junk : ℕ → CChar) :
    Ready ⟨listenFd, pollIn, 0⟩ (fun _ => freeSlot) (Program.start listenFd junk) [] :=
  ⟨⟨⟨Tables.built listenFd, fun _ hid => absurd hid List.not_mem_nil,
    fun _ hid => absurd hid List.not_mem_nil, rfl⟩, List.Perm.refl _, rfl, Nat.zero_le _⟩, rfl⟩

/-- In every run no pointer is followed and no array is left where there is nothing, and every
iteration serves each client that is there once, and no other, exactly when it is settled. -/
theorem rounds_serve_iff (listenFd : ℤ) (junk : ℕ → CChar) (as : List Answers) :
    RunKeeps (fun p => ∀ a, ∃ p', p.round a = some p' ∧
      (p'.service.Agrees (p.service.round listenFd a) ↔ p.Settled listenFd a))
      Program.round (Program.start listenFd junk) as := by
  refine runKeeps_of_meets (C := fun _ _ => True)
    (I := fun p => ∃ listener slots ids, listener.fd = listenFd ∧ Ready listener slots p ids)
    ?_ ?_ ⟨_, _, _, rfl, ready_start listenFd junk⟩ (runMeets_of_forall (C := fun _ => True)
      fun _ _ => trivial)
  · rintro p ⟨listener, slots, ids, rfl, h⟩ a
    obtain ⟨p', hround, -, -, hiff⟩ := h.round a
    exact ⟨p', hround, hiff⟩
  · rintro p a ⟨listener, slots, ids, rfl, h⟩ -
    obtain ⟨p', hround, hready, -⟩ := h.round a
    exact ⟨p', hround, hready⟩

-- Client 5 leaves its flags to client 7, who is hung up on since 6 only reports `POLLHUP`.
example : (run Program.round (Program.start 3 fun _ => 0)
    [⟨some fun _ => pollIn, 5, fun _ => none⟩,
      ⟨some fun fd => if fd = 3 then pollIn else pollOut, 6, fun _ => none⟩,
      ⟨some fun fd => if fd = 5 then pollIn else 0, -1, fun _ => some []⟩,
      ⟨some fun fd => if fd = 3 then pollIn else 0x010, 7, fun _ => none⟩]).map
    (fun p => p.closed) = some [5, 7] := by
  decide +kernel

/-- In every run each descriptor that `accept` returned is that of one client or has been
closed once, and when the main loop is left all of them and the listener have been. -/
theorem descriptors_accounted (listenFd : ℤ) (junk : ℕ → CChar) (as : List Answers) :
    ∃ p, run Program.round (Program.start listenFd junk) as = some p ∧
      p.Accounted listenFd := by
  have hstart : (Program.start listenFd junk).Accounted listenFd :=
    ⟨fun _ => List.Perm.refl _, fun hstopped => Bool.noConfusion hstopped⟩
  have hstep : ∀ (p : Program) (a : Answers),
      ((∃ listener slots ids, listener.fd = listenFd ∧ Ready listener slots p ids) ∧
        p.Accounted listenFd) → ∃ p', p.round a = some p' ∧
          (∃ listener slots ids, listener.fd = listenFd ∧ Ready listener slots p' ids) ∧
            p'.Accounted listenFd := by
    rintro p a ⟨⟨listener, slots, ids, rfl, h⟩, haccounted⟩
    obtain ⟨p', hround, hready, hkept, -⟩ := h.round a
    exact ⟨p', hround, hready, hkept haccounted⟩
  obtain ⟨p, hrun, -, haccounted⟩ :=
    run_total hstep ⟨⟨_, _, _, rfl, ready_start listenFd junk⟩, hstart⟩ as
  exact ⟨p, hrun, haccounted⟩

end UnixLabs.Lab33.Usual
