import UnixLabs.Lab32.Server
import UnixLabs.Library.MarkedTable

/-!
The descriptors and buffers of `lab32/lab32-server.c`, over whole runs.

While the server runs each client is in one slot and each slot has one buffer. When
`cleanup_server` ends it, all buffers are freed once, but `safe_cleanup` has closed the
clients already that it closes then.
-/

namespace UnixLabs.Lab32.Server

open Library
open Lab31 (Somaxconn removedClient)

variable {max : Somaxconn} {s : Server max}

/-! ### Slots -/

def withSlot (s : Server max) (i : ℕ) (c : Aiocb) (log : Log) : Server max :=
  { s with clients := ⟨Function.update s.clients.cells i c⟩, log }

theorem perm_slotFds {i : ℕ} (hi : i < s.clientCount) (c : Aiocb) (log : Log) :
    ((s.clients.cells i).aioFildes :: (s.withSlot i c log).slotFds).Perm
      (c.aioFildes :: s.slotFds) := by
  have hfds : (fun k => ((s.withSlot i c log).clients.cells k).aioFildes) =
      Function.update (fun k => (s.clients.cells k).aioFildes) i c.aioFildes :=
    Function.comp_update Aiocb.aioFildes s.clients.cells i c
  rw [slotFds, slotFds, hfds]
  exact firstCells_update_of_lt (m := fun k => (s.clients.cells k).aioFildes) hi c.aioFildes

theorem perm_liveFds_add {i : ℕ} {c : Aiocb} (hi : i < s.clientCount)
    (hfree : (s.clients.cells i).aioFildes = removedClient) (hlive : c.aioFildes ≠ removedClient)
    (log : Log) : (s.withSlot i c log).liveFds.Perm (c.aioFildes :: s.liveFds) := by
  have hperm := (perm_slotFds hi c log).filter (· ≠ removedClient)
  rw [hfree, List.filter_cons_of_neg (by simp), List.filter_cons_of_pos (by simpa using hlive)]
    at hperm
  exact hperm

theorem perm_liveFds_remove {i : ℕ} {c : Aiocb} (hi : i < s.clientCount)
    (hlive : (s.clients.cells i).aioFildes ≠ removedClient) (hfree : c.aioFildes = removedClient)
    (log : Log) :
    ((s.clients.cells i).aioFildes :: (s.withSlot i c log).liveFds).Perm s.liveFds := by
  have hperm := (perm_slotFds hi c log).filter (· ≠ removedClient)
  rw [hfree, List.filter_cons_of_neg (a := removedClient) (by simp),
    List.filter_cons_of_pos (by simpa using hlive)] at hperm
  exact hperm

/-- The first slot that is free comes no later than any slot that is. -/
theorem firstSuitableFrom_spec {clients : CArray max.size Aiocb} {left i k : ℕ} (hik : i ≤ k)
    (hk : k < i + left) (hsize : i + left ≤ max.size)
    (hfree : (clients.cells k).aioFildes = removedClient) :
    ∃ index, firstSuitableFrom clients left i = some index ∧ index ≤ k ∧
      (clients.cells index).aioFildes = removedClient := by
  induction left generalizing i with
  | zero => omega
  | succ left ih =>
      simp only [firstSuitableFrom, CArray.load_of_lt clients (show i < max.size by omega),
        Option.bind_eq_bind, Option.bind_some]
      by_cases hi : (clients.cells i).aioFildes = removedClient
      · rw [if_neg (not_not.mpr hi)]
        exact ⟨i, rfl, hik, hi⟩
      · rw [if_pos hi]
        have hne : i ≠ k := fun h => hi (h ▸ hfree)
        exact ih (by omega) (by omega) (by omega)

theorem firstSuitableFrom_lt {clients : CArray max.size Aiocb} {left i index : ℕ}
    (h : firstSuitableFrom clients left i = some index) : index < i + left := by
  induction left generalizing i with
  | zero => cases h
  | succ left ih =>
      rw [firstSuitableFrom] at h
      obtain ⟨client, -, hrest⟩ := Option.bind_eq_some_iff.mp h
      split_ifs at hrest
      · have hlt := ih hrest
        omega
      · cases hrest
        omega

/-! ### While the server runs -/

/-- The slots, and what happened so far. -/
structure InOrder (s : Server max) : Prop where
  count_le : s.clientCount ≤ max.size
  beyond : ∀ i, s.clientCount ≤ i → i < max.size →
    (s.clients.cells i).aioFildes = removedClient
  once : ∀ fd, s.log.accepted.count fd = s.log.closed.count fd + s.liveFds.count fd
  nodup : s.liveFds.Nodup
  accepted : ∀ fd ∈ s.log.accepted, fd ≠ s.sockfd
  buffers : ∀ i < s.clientCount, (s.clients.cells i).aioBuf = some i
  allocated : s.log.allocated = List.range s.clientCount
  freed : s.log.freed = []

theorem inOrder_initServer (max : Somaxconn) (sockfd : ℤ) : InOrder (initServer max sockfd) where
  count_le := Nat.zero_le _
  beyond _ _ _ := rfl
  once _ := rfl
  nodup := List.nodup_nil
  accepted := List.forall_mem_nil _
  buffers _ hi := absurd hi (Nat.not_lt_zero _)
  allocated := rfl
  freed := rfl

theorem InOrder.index_le (h : InOrder s) {index : ℕ}
    (hindex : getFirstSuitableIndex s = some index) : index ≤ s.clientCount := by
  have hlt := firstSuitableFrom_lt hindex
  have hcount := h.count_le
  rcases Nat.lt_or_ge s.clientCount max.size with hroom | hfull
  · obtain ⟨index', hindex', hle, -⟩ := firstSuitableFrom_spec (Nat.zero_le s.clientCount)
      (by omega) (Nat.zero_add _).le (h.beyond s.clientCount le_rfl hroom)
    cases hindex.symm.trans hindex'
    exact hle
  · omega

theorem InOrder.slotsRight (h : InOrder s) : SlotsRight s where
  once := h.once
  nodup := h.nodup
  index _ hindex := h.index_le hindex
  buffers i hi := by
    rw [h.allocated]
    exact List.count_eq_one_of_mem List.nodup_range (List.mem_range.mpr hi)

theorem InOrder.exists_index (h : InOrder s) (hroom : s.liveFds.length < max.size) :
    ∃ index, getFirstSuitableIndex s = some index ∧ index ≤ s.clientCount ∧ index < max.size ∧
      (s.clients.cells index).aioFildes = removedClient := by
  obtain ⟨k, hk, hfree⟩ : ∃ k < max.size, (s.clients.cells k).aioFildes = removedClient := by
    rcases h.count_le.lt_or_eq with hlt | hfull
    · exact ⟨s.clientCount, hlt, h.beyond _ le_rfl hlt⟩
    · -- not all of the slots are taken
      by_contra hnone
      have hall : s.liveFds = s.slotFds := by
        apply List.filter_eq_self.mpr
        intro fd hfd
        obtain ⟨k, hk, rfl⟩ := List.mem_map.mp hfd
        have hlt := List.mem_range.mp hk
        exact decide_eq_true fun hremoved => hnone ⟨k, by omega, hremoved⟩
      rw [hall, slotFds, length_firstCells] at hroom
      omega
  obtain ⟨index, hindex, hle, hremoved⟩ := firstSuitableFrom_spec (Nat.zero_le k) (by omega)
    (Nat.zero_add _).le hfree
  exact ⟨index, hindex, h.index_le hindex, by omega, hremoved⟩

/-- A slot behind the last one gets a buffer, and nothing else changes. -/
theorem ensureBuffer_new (hlt : s.clientCount < max.size) :
    ∃ s₁, Server.ensureBuffer s s.clientCount = some s₁ ∧ s₁.clientCount = s.clientCount + 1 ∧
      (∀ i, (s₁.clients.cells i).aioFildes = (s.clients.cells i).aioFildes) ∧
      (∀ i, (s₁.clients.cells i).aioBuf =
        if i = s.clientCount then some s.log.allocated.length else (s.clients.cells i).aioBuf) ∧
      s₁.log = { s.log with allocated := s.log.allocated ++ [s.clientCount] } ∧
      s₁.sockfd = s.sockfd := by
  simp only [Server.ensureBuffer, if_pos (Nat.le_refl s.clientCount),
    CArray.load_of_lt s.clients hlt, CArray.store_of_lt s.clients _ hlt, Option.bind_eq_bind,
    Option.bind_some]
  refine ⟨_, rfl, rfl, fun i => ?_, fun i => ?_, rfl, rfl⟩
  · show (Function.update s.clients.cells s.clientCount _ i).aioFildes = _
    rw [Function.update_apply]
    split_ifs with hi
    · rw [hi]
    · rfl
  · show (Function.update s.clients.cells s.clientCount _ i).aioBuf = _
    rw [Function.update_apply]
    split_ifs
    · rfl
    · rfl

theorem liveFds_new {s₁ : Server max} (hcount : s₁.clientCount = s.clientCount + 1)
    (hfildes : ∀ i, (s₁.clients.cells i).aioFildes = (s.clients.cells i).aioFildes)
    (hfree : (s.clients.cells s.clientCount).aioFildes = removedClient) :
    s₁.liveFds = s.liveFds := by
  have hslots : s₁.slotFds = s.slotFds ++ [removedClient] := by
    rw [slotFds, hcount, firstCells_congr (fun i _ => hfildes i), firstCells_succ, hfree]
    rfl
  rw [liveFds, hslots, List.filter_append, List.filter_cons_of_neg (by simp), List.filter_nil,
    List.append_nil]
  rfl

/-- A slot behind the last one is taken into use, still without a client. -/
theorem InOrder.ensureBuffer (h : InOrder s) {index : ℕ} (hle : index ≤ s.clientCount)
    (hlt : index < max.size) (hfree : (s.clients.cells index).aioFildes = removedClient) :
    ∃ s₁, Server.ensureBuffer s index = some s₁ ∧ InOrder s₁ ∧ index < s₁.clientCount ∧
      (s₁.clients.cells index).aioFildes = removedClient ∧ s₁.liveFds = s.liveFds ∧
      s₁.sockfd = s.sockfd := by
  rcases hle.lt_or_eq with hused | rfl
  · -- a slot that was used before has its buffer
    exact ⟨s, if_neg (not_le.mpr hused), h, hused, hfree, rfl, rfl⟩
  · obtain ⟨s₁, hensure, hcount, hfildes, hbuf, hlog, hsockfd⟩ := ensureBuffer_new hlt
    have hlive := liveFds_new hcount hfildes hfree
    refine ⟨s₁, hensure, ?_, by omega, (hfildes _).trans hfree, hlive, hsockfd⟩
    refine ⟨by omega, fun i hi hin => ?_, fun fd => ?_, ?_, ?_, fun i hi => ?_, ?_, ?_⟩
    · rw [hfildes]
      exact h.beyond i (by omega) hin
    · rw [hlog, hlive]
      exact h.once fd
    · rw [hlive]
      exact h.nodup
    · rw [hlog, hsockfd]
      exact h.accepted
    · rw [hbuf]
      split_ifs with heq
      · rw [heq, h.allocated, List.length_range]
      · exact h.buffers i (by omega)
    · rw [hlog, hcount, List.range_succ, ← h.allocated]
    · rw [hlog]
      exact h.freed

theorem InOrder.withSlot (h : InOrder s) {i : ℕ} {c : Aiocb} {log : Log} (hi : i < s.clientCount)
    (hbuf : c.aioBuf = (s.clients.cells i).aioBuf)
    (honce : ∀ fd, log.accepted.count fd =
      log.closed.count fd + (s.withSlot i c log).liveFds.count fd)
    (hnodup : (s.withSlot i c log).liveFds.Nodup)
    (haccepted : ∀ fd ∈ log.accepted, fd ≠ s.sockfd)
    (hallocated : log.allocated = s.log.allocated) (hfreed : log.freed = s.log.freed) :
    InOrder (s.withSlot i c log) where
  count_le := h.count_le
  beyond k hk hin := by
    show (Function.update s.clients.cells i c k).aioFildes = removedClient
    have hle : s.clientCount ≤ k := hk
    rw [Function.update_of_ne (by omega)]
    exact h.beyond k hk hin
  once := honce
  nodup := hnodup
  accepted := haccepted
  buffers k hk := by
    show (Function.update s.clients.cells i c k).aioBuf = some k
    rw [Function.update_apply]
    split_ifs with heq
    · rw [heq, hbuf]
      exact h.buffers i hi
    · exact h.buffers k hk
  allocated := hallocated.trans h.allocated
  freed := hfreed.trans h.freed

theorem InOrder.addClient (h : InOrder s) {fd : ℤ} (hallowed : Allowed s (.accept fd)) :
    ∃ s', Server.addClient s fd = some s' ∧ InOrder s' := by
  obtain ⟨hpos, hsock, hfresh, hroom⟩ := hallowed
  obtain ⟨index, hindex, hle, hlt, hfree⟩ := h.exists_index hroom
  obtain ⟨s₁, hensure, h₁, hin, hfree₁, hlive, hsockfd⟩ := h.ensureBuffer hle hlt hfree
  simp only [Server.addClient, hindex, hensure, CArray.load_of_lt s₁.clients hlt,
    CArray.store_of_lt s₁.clients _ hlt, Option.bind_eq_bind, Option.bind_some]
  refine ⟨s₁.withSlot index ⟨fd, (s₁.clients.cells index).aioBuf⟩
    { s₁.log with accepted := s₁.log.accepted ++ [fd] }, rfl, ?_⟩
  have hfd : fd ≠ removedClient := by
    unfold removedClient
    omega
  have hperm := perm_liveFds_add (c := ⟨fd, (s₁.clients.cells index).aioBuf⟩) hin hfree₁ hfd
    { s₁.log with accepted := s₁.log.accepted ++ [fd] }
  apply h₁.withSlot (c := ⟨fd, (s₁.clients.cells index).aioBuf⟩) hin rfl
  · intro x
    rw [hperm.count_eq, List.count_append, List.count_cons, h₁.once x, List.count_cons,
      List.count_nil, Nat.zero_add, Nat.add_assoc]
  · rw [hperm.nodup_iff, List.nodup_cons, hlive]
    exact ⟨hfresh, hlive ▸ h₁.nodup⟩
  · intro x hx
    rcases List.mem_append.mp hx with hx | hx
    · exact h₁.accepted x hx
    · rw [List.mem_singleton.mp hx, hsockfd]
      exact hsock
  · rfl
  · rfl

theorem InOrder.removeClient (h : InOrder s) {i : ℕ} (hi : i < s.clientCount)
    (hlive : (s.clients.cells i).aioFildes ≠ removedClient) :
    ∃ s', Server.removeClient s i = some s' ∧ InOrder s' ∧ s'.clientCount = s.clientCount := by
  have hlt : i < max.size := hi.trans_le h.count_le
  simp only [Server.removeClient, if_neg (not_le.mpr hi), CArray.load_of_lt s.clients hlt,
    CArray.store_of_lt s.clients _ hlt, if_neg hlive, Option.bind_eq_bind, Option.bind_some]
  refine ⟨s.withSlot i ⟨removedClient, (s.clients.cells i).aioBuf⟩
    (s.close (s.clients.cells i).aioFildes).log, rfl, ?_, rfl⟩
  have hperm := perm_liveFds_remove (c := ⟨removedClient, (s.clients.cells i).aioBuf⟩) hi hlive rfl
    (s.close (s.clients.cells i).aioFildes).log
  apply h.withSlot (c := ⟨removedClient, (s.clients.cells i).aioBuf⟩) hi rfl
  · intro x
    have hcount := hperm.count_eq x
    rw [List.count_cons] at hcount
    show s.log.accepted.count x = (s.log.closed ++ [(s.clients.cells i).aioFildes]).count x + _
    rw [h.once x, ← hcount, List.count_append, List.count_cons, List.count_nil, Nat.zero_add]
    exact (Nat.add_assoc _ _ _).trans (congrArg _ (Nat.add_comm _ _)) |>.symm
  · exact (List.nodup_cons.mp (hperm.nodup_iff.mpr h.nodup)).2
  · exact h.accepted
  · rfl
  · rfl

/-! ### Closing -/

def closing (s : Server max) (fds : List ℤ) (bufs : List (Option ℕ)) : Server max :=
  { s with log := { s.log with closed := s.log.closed ++ fds, freed := s.log.freed ++ bufs } }

theorem closing_closing (s : Server max) (fds fds' : List ℤ) (bufs bufs' : List (Option ℕ)) :
    (s.closing fds bufs).closing fds' bufs' = s.closing (fds ++ fds') (bufs ++ bufs') := by
  simp only [closing, List.append_assoc]

theorem close_eq (s : Server max) (fd : ℤ) : s.close fd = s.closing [fd] [] := by
  simp only [close, closing, List.append_nil]

def clientFd (c : Aiocb) : List ℤ := if c.aioFildes = removedClient then [] else [c.aioFildes]

/-- A loop over the slots that closes their clients, and frees something for each. -/
theorem run_closing {f : Server max → ℕ → Option (Server max)} {g : Aiocb → List (Option ℕ)}
    (hf : ∀ s i, i < max.size →
      f s i = some (s.closing (clientFd (s.clients.cells i)) (g (s.clients.cells i))))
    {n : ℕ} (hn : n ≤ max.size) :
    run f s (List.range n) = some (s.closing ((firstCells s.clients.cells n).flatMap clientFd)
      ((firstCells s.clients.cells n).flatMap g)) := by
  induction n with
  | zero =>
      rw [List.range_zero, run_nil, firstCells_zero, List.flatMap_nil, List.flatMap_nil, closing,
        List.append_nil, List.append_nil]
  | succ n ih =>
      rw [List.range_succ, run_append, ih (by omega), Option.bind_some, run_cons, hf _ _ (by omega),
        Option.bind_some, run_nil, closing_closing, firstCells_succ, List.flatMap_append,
        List.flatMap_append, List.flatMap_singleton, List.flatMap_singleton]
      rfl

theorem flatMap_clientFd (s : Server max) :
    (firstCells s.clients.cells s.clientCount).flatMap clientFd = s.liveFds := by
  rw [liveFds, slotFds, firstCells, firstCells]
  induction List.range s.clientCount with
  | nil => rfl
  | cons i is ih =>
      rw [List.map_cons, List.flatMap_cons, ih, List.map_cons, clientFd]
      split_ifs with hremoved
      · rw [List.filter_cons_of_neg (by simpa using hremoved), List.nil_append]
      · rw [List.filter_cons_of_pos (by simpa using hremoved), List.singleton_append]

theorem closeSlot_eq (s : Server max) {i : ℕ} (hi : i < max.size) :
    closeSlot s i = some (s.closing (clientFd (s.clients.cells i)) []) := by
  simp only [closeSlot, CArray.load_of_lt s.clients hi, Option.bind_eq_bind, Option.bind_some,
    clientFd]
  split_ifs
  · rw [closing, List.append_nil, List.append_nil]
  · rw [close_eq]

theorem freeSlot_eq (s : Server max) {i : ℕ} (hi : i < max.size) :
    freeSlot s i =
      some (s.closing (clientFd (s.clients.cells i)) [(s.clients.cells i).aioBuf]) := by
  simp only [freeSlot, CArray.load_of_lt s.clients hi, Option.bind_eq_bind, Option.bind_some,
    clientFd]
  split_ifs
  · simp only [closing, List.append_nil]
  · rfl

/-- `safe_cleanup` closes the socket and all clients. -/
theorem safeCleanup_eq (hcount : s.clientCount ≤ max.size) :
    safeCleanup s = some (s.closing (s.sockfd :: s.liveFds) []) := by
  have hrun := run_closing (s := s.close s.sockfd) (g := fun _ => [])
    (fun s i hi => closeSlot_eq s hi) hcount
  rw [safeCleanup]
  refine hrun.trans ?_
  show some ((s.close s.sockfd).closing
    ((firstCells s.clients.cells s.clientCount).flatMap clientFd)
    ((firstCells s.clients.cells s.clientCount).flatMap fun _ => [])) = _
  rw [flatMap_clientFd, close_eq, closing_closing, List.flatMap_eq_nil_iff.mpr fun _ _ => rfl]
  rfl

/-- `cleanup_server` closes all clients once more, and frees the buffers. -/
theorem cleanupServer_eq (hcount : s.clientCount ≤ max.size) :
    cleanupServer s = some (s.closing (s.sockfd :: (s.liveFds ++ s.liveFds))
      ((firstCells s.clients.cells s.clientCount).map Aiocb.aioBuf)) := by
  have hrun := run_closing (s := s.closing (s.sockfd :: s.liveFds) [])
    (g := fun c => [c.aioBuf]) (fun s i hi => freeSlot_eq s hi) hcount
  simp only [cleanupServer, safeCleanup_eq hcount, Option.bind_eq_bind, Option.bind_some]
  refine hrun.trans ?_
  show some ((s.closing (s.sockfd :: s.liveFds) []).closing
    ((firstCells s.clients.cells s.clientCount).flatMap clientFd)
    ((firstCells s.clients.cells s.clientCount).flatMap fun c => [c.aioBuf])) = _
  rw [flatMap_clientFd, closing_closing, List.nil_append, List.cons_append,
    ← List.map_eq_flatMap]

/-! ### Runs -/

def Running (s : Server max) : Prop := s.log.exited = true ∨ InOrder s

theorem InOrder.print (h : InOrder s) (printed : List CChar) :
    InOrder { s with log := { s.log with printed } } :=
  ⟨h.count_le, h.beyond, h.once, h.nodup, h.accepted, h.buffers, h.allocated, h.freed⟩

theorem InOrder.exitSafely (h : InOrder s) :
    ∃ s', Server.exitSafely s = some s' ∧ s'.clientCount = s.clientCount ∧
      s'.log.exited = true := by
  rw [Server.exitSafely, safeCleanup_eq h.count_le]
  exact ⟨_, rfl, rfl, rfl⟩

theorem Running.handleSlot (h : Running s) (completions : ℕ → Completion) {i : ℕ}
    (hi : i < s.clientCount) :
    ∃ s', Server.handleSlot completions s i = some s' ∧ s'.clientCount = s.clientCount ∧
      Running s' := by
  unfold Server.handleSlot
  by_cases hexited : s.log.exited = true
  · rw [if_pos hexited]
    exact ⟨s, rfl, rfl, h⟩
  · have hs := h.resolve_left hexited
    simp only [if_neg hexited, CArray.load_of_lt s.clients (hi.trans_le hs.count_le),
      Option.bind_eq_bind, Option.bind_some]
    by_cases hlive : (s.clients.cells i).aioFildes = removedClient
    · rw [if_pos hlive]
      exact ⟨s, rfl, rfl, h⟩
    · rw [if_neg hlive]
      cases completions i with
      | pending => exact ⟨s, rfl, rfl, h⟩
      | failed =>
          obtain ⟨s', hexit, hcount, hexited'⟩ := hs.exitSafely
          exact ⟨s', hexit, hcount, .inl hexited'⟩
      | bytes data =>
          cases data with
          | nil =>
              obtain ⟨s', hremove, hs', hcount⟩ := hs.removeClient hi hlive
              exact ⟨s', hremove, hcount, .inr hs'⟩
          | cons c data => exact ⟨_, rfl, rfl, .inr (hs.print _)⟩

theorem Running.aioHandler (h : Running s) (completions : ℕ → Completion) :
    ∃ s', Server.aioHandler completions s = some s' ∧ Running s' := by
  obtain ⟨s', hrun, -, hs'⟩ := run_total_of_mem
    (I := fun t : Server max => t.clientCount = s.clientCount ∧ Running t)
    (fun t i hi ht => by
      have hlt : i < t.clientCount := ht.1.symm ▸ List.mem_range.mp hi
      obtain ⟨t', hstep, hcount, ht'⟩ := ht.2.handleSlot completions hlt
      exact ⟨t', hstep, hcount.trans ht.1, ht'⟩) ⟨rfl, h⟩
  exact ⟨s', hrun, hs'⟩

theorem Running.step (h : Running s) {event : Event} (hallowed : Allowed s event) :
    ∃ s', Server.step s event = some s' ∧ Running s' := by
  unfold Server.step
  by_cases hexited : s.log.exited = true
  · rw [if_pos hexited]
    exact ⟨s, rfl, h⟩
  · rw [if_neg hexited]
    have hs := h.resolve_left hexited
    cases event with
    | accept fd =>
        obtain ⟨s', hadd, hs'⟩ := hs.addClient hallowed
        exact ⟨s', hadd, .inr hs'⟩
    | aio completions => exact h.aioHandler completions
    | interrupt =>
        obtain ⟨s', hexit, -, hexited'⟩ := hs.exitSafely
        exact ⟨s', hexit, .inl hexited'⟩

theorem InOrder.freed_once (h : InOrder s) {id : ℕ} (hid : id < s.log.allocated.length) :
    (s.log.freed ++
      (firstCells s.clients.cells s.clientCount).map Aiocb.aioBuf).count (some id) = 1 := by
  have hbufs : (firstCells s.clients.cells s.clientCount).map Aiocb.aioBuf =
      (List.range s.clientCount).map some := by
    rw [firstCells, List.map_map]
    apply List.map_congr_left
    intro i hi
    exact h.buffers i (List.mem_range.mp hi)
  rw [h.allocated, List.length_range] at hid
  rw [h.freed, List.nil_append, hbufs]
  apply List.count_eq_one_of_mem
  · exact List.nodup_range.map (Option.some_injective ℕ)
  · exact List.mem_map_of_mem (List.mem_range.mpr hid)

/-- Clients are closed twice at the end, so all is well exactly when there are none. -/
theorem InOrder.cleanedUp_iff (h : InOrder s) :
    ∃ s', cleanupServer s = some s' ∧ (CleanedUp s' ↔ s.liveFds = []) := by
  refine ⟨_, cleanupServer_eq h.count_le, ?_⟩
  have hclosed : ∀ fd ∈ s.log.accepted,
      (s.log.closed ++ s.sockfd :: (s.liveFds ++ s.liveFds)).count fd =
        s.log.accepted.count fd + s.liveFds.count fd := by
    intro fd hfd
    have hsock : (s.sockfd == fd) = false := beq_eq_false_iff_ne.mpr (h.accepted fd hfd).symm
    rw [List.count_append, List.count_cons, hsock, List.count_append, h.once fd,
      if_neg Bool.false_ne_true]
    omega
  constructor
  · intro hclean
    apply List.eq_nil_iff_forall_not_mem.mpr
    intro fd hlive
    -- a client was accepted, and is counted once more than that among the closed ones
    have hpos := List.count_pos_iff.mpr hlive
    have hmem : fd ∈ s.log.accepted := by
      apply List.count_pos_iff.mp
      have honce := h.once fd
      omega
    have hsame : (s.log.closed ++ s.sockfd :: (s.liveFds ++ s.liveFds)).count fd =
        s.log.accepted.count fd := hclean.closed fd hmem
    rw [hclosed fd hmem] at hsame
    omega
  · intro hnone
    refine ⟨fun fd hfd => ?_, fun id hid => h.freed_once hid⟩
    have hcount := hclosed fd hfd
    rw [hnone, List.count_nil, Nat.add_zero] at hcount
    show (s.log.closed ++ s.sockfd :: (s.liveFds ++ s.liveFds)).count fd = _
    rw [hnone]
    exact hcount

/-- In every run the slots are right as long as the server has not exited, and when
`cleanup_server` ends it, every descriptor is closed once and every buffer freed once
exactly when no client is left. -/
theorem cleanup_run_iff {sockfd : ℤ} {events : List Event}
    (hallowed : RunMeets Allowed step (initServer max sockfd) events) :
    RunKeeps (fun s => s.log.exited = false → SlotsRight s) step (initServer max sockfd) events ∧
      ∃ s, run step (initServer max sockfd) events = some s ∧ (s.log.exited = false →
        ∃ s', cleanupServer s = some s' ∧ (CleanedUp s' ↔ s.liveFds = [])) := by
  have hstart : Running (initServer max sockfd) := .inr (inOrder_initServer max sockfd)
  have hinOrder : ∀ s : Server max, Running s → s.log.exited = false → InOrder s := by
    intro s hs hexited
    exact hs.resolve_left (by rw [hexited]; exact Bool.false_ne_true)
  refine ⟨runKeeps_of_meets (fun s hs hexited => (hinOrder s hs hexited).slotsRight)
    (fun s event hs hevent => hs.step hevent) hstart hallowed, ?_⟩
  obtain ⟨s, hrun, hs⟩ := (runKeeps_of_meets (fun s hs => hs)
    (fun s event hs hevent => Running.step hs hevent) hstart hallowed).last
  exact ⟨s, hrun, fun hexited => (hinOrder s hs hexited).cleanedUp_iff⟩

instance decidableAllowed (s : Server max) : ∀ event, Decidable (Allowed s event)
  | .accept fd => inferInstanceAs
      (Decidable (0 ≤ fd ∧ fd ≠ s.sockfd ∧ fd ∉ s.liveFds ∧ s.liveFds.length < max.size))
  | .aio _ => .isTrue trivial
  | .interrupt => .isTrue trivial

theorem cleanup_run_iff_two :
    RunMeets Allowed step (initServer Somaxconn.linux 3)
      [.accept 4, .aio fun _ => .bytes [0x61], .aio fun _ => .bytes [], .accept 4] ∧
    RunKeeps (fun s => s.log.exited = false → SlotsRight s) step (initServer Somaxconn.linux 3)
      [.accept 4, .aio fun _ => .bytes [0x61], .aio fun _ => .bytes [], .accept 4] ∧
    ∃ s, run step (initServer Somaxconn.linux 3)
        [.accept 4, .aio fun _ => .bytes [0x61], .aio fun _ => .bytes [], .accept 4] = some s ∧
      (s.log.exited = false →
        ∃ s', cleanupServer s = some s' ∧ (CleanedUp s' ↔ s.liveFds = [])) :=
  have hallowed : RunMeets Allowed step (initServer Somaxconn.linux 3)
      [.accept 4, .aio fun _ => .bytes [0x61], .aio fun _ => .bytes [], .accept 4] := by
    decide +kernel
  ⟨hallowed, cleanup_run_iff hallowed⟩

/-- A client that is there when the server ends is closed twice. -/
theorem cleanup_closes_twice :
    RunMeets Allowed step (initServer Somaxconn.linux 3) [.accept 4] ∧
      ((run step (initServer Somaxconn.linux 3) [.accept 4]).bind cleanupServer).map
        (fun s => s.log.closed) = some [3, 4, 4] ∧
      ¬∃ s', (run step (initServer Somaxconn.linux 3) [.accept 4]).bind cleanupServer = some s' ∧
        CleanedUp s' := by
  refine ⟨by decide +kernel, by decide +kernel, ?_⟩
  rintro ⟨s', hrun, hclean⟩
  have hclosed : (((run step (initServer Somaxconn.linux 3) [.accept 4]).bind cleanupServer).all
      fun s => s.log.accepted == [4] && s.log.closed.count 4 == 2) = true := by decide +kernel
  rw [hrun, Option.all_some, Bool.and_eq_true, beq_iff_eq, beq_iff_eq] at hclosed
  have hcount := hclean.closed 4 (by rw [hclosed.1]; exact List.mem_cons_self)
  rw [hclosed.1, hclosed.2] at hcount
  exact absurd hcount (by decide)

end UnixLabs.Lab32.Server
