import UnixLabs.Lab32.Cleanup
import UnixLabs.Library.Schedule

/-!
The reads and the signal of `lab32/lab32-server.c`, with everything that can come between.

A read completes at any time, in any slot, and makes `SIGUSR1` pending. The signal is
delivered while `main` is around `accept`, and blocked during `add_client` and the handler
itself; several completions may make one signal. Then the handler looks at one slot after
the other, while other reads complete.
-/

namespace UnixLabs.Lab32

open Library
open Lab31 (Somaxconn removedClient)

/-- The read of an `aiocb`: there is none, or it goes on, or it has ended with an error or
with some bytes, and nobody has asked for them. -/
inductive Read
  | idle
  | inProgress
  | completed (result : Option (List CChar))
  deriving DecidableEq

def Read.completion : Read → Server.Completion
  | .completed none => .failed
  | .completed (some data) => .bytes data
  | _ => .pending

def Read.waiting : Read → List CChar
  | .completed (some data) => data
  | _ => []

/-- Where `main` is: around `accept`, before and after the signal is blocked, before and
after `aio_read`. -/
inductive MainAt
  | accepts
  | accepted (fd : ℤ)
  | blocked (fd : ℤ)
  | listed (index : ℕ)
  | started
  deriving DecidableEq

def MainAt.unblocked : MainAt → Bool
  | .accepts | .accepted _ => true
  | _ => false

/-- The process, its reads and its signal. `handler` is the next slot of a handler that
runs. What reads have delivered and what was printed is kept by slots. -/
structure System (max : Somaxconn) where
  server : Server max
  main : MainAt
  handler : Option ℕ
  reads : ℕ → Read
  pending : Bool
  arrived : List (ℕ × List CChar)
  output : List (ℕ × List CChar)

namespace System

variable {max : Somaxconn}

inductive Event
  | accept (fd : ℤ)
  | block
  | lists
  | starts
  | unblocks
  | completes (i : ℕ) (result : Option (List CChar))
  | delivers
  | round
  | interrupt
  deriving DecidableEq

def start (max : Somaxconn) (sockfd : ℤ) : System max :=
  ⟨Server.initServer max sockfd, .accepts, none, fun _ => .idle, false, [], []⟩

/-- One round of the loop of `aio_handler`. Nothing can be said of a read that was not
started. -/
def visit (s : System max) (i : ℕ) : Option (System max) := do
  let client ← s.server.clients.load i
  if client.aioFildes ≠ removedClient ∧ s.reads i = .idle then none
  else do
    let server ← Server.handleSlot (fun k => (s.reads k).completion) s.server i
    let s' := { s with server, handler := some (i + 1) }
    if client.aioFildes = removedClient then some s'
    else
      match s.reads i with
      | .completed (some []) => some { s' with reads := Function.update s.reads i .idle }
      | .completed (some data) =>
          some { s' with
            reads := Function.update s.reads i .inProgress
            output := s.output ++ [(i, data.map Lab25.upper)] }
      | _ => some s'

def step (s : System max) (event : Event) : Option (System max) :=
  if s.server.log.exited then none
  else
    match event with
    | .accept fd =>
        if s.main = .accepts ∧ s.handler = none then some { s with main := .accepted fd }
        else none
    | .block =>
        match s.main, s.handler with
        | .accepted fd, none => some { s with main := .blocked fd }
        | _, _ => none
    | .lists =>
        match s.main with
        | .blocked fd => do
            let index ← s.server.getFirstSuitableIndex
            let server ← s.server.addClient fd
            some { s with server, main := .listed index }
        | _ => none
    | .starts =>
        match s.main with
        | .listed index =>
            some { s with reads := Function.update s.reads index .inProgress, main := .started }
        | _ => none
    | .unblocks => if s.main = .started then some { s with main := .accepts } else none
    | .completes i result =>
        if s.reads i = .inProgress then
          some { s with
            reads := Function.update s.reads i (.completed result)
            pending := true
            arrived := s.arrived ++ [(i, result.getD [])] }
        else none
    | .delivers =>
        if s.pending = true ∧ s.handler = none ∧ s.main.unblocked = true then
          some { s with pending := false, handler := some 0 }
        else none
    | .round =>
        match s.handler with
        | none => none
        | some i =>
            if i < s.server.clientCount then s.visit i else some { s with handler := none }
    | .interrupt => s.server.exitSafely.map fun server => { s with server, handler := none }

def Allowed (s : System max) : Event → Prop
  | .accept fd => s.server.Allowed (.accept fd)
  | _ => True

def bytesOf (i : ℕ) (log : List (ℕ × List CChar)) : List CChar :=
  (log.filter (·.1 = i)).flatMap Prod.snd

end System

namespace Server

variable {max : Somaxconn} {s s' : Server max}

def Live (s : Server max) (i : ℕ) : Prop :=
  i < s.clientCount ∧ (s.clients.cells i).aioFildes ≠ removedClient

/-- `add_client` fills the free slot that comes first, and no other. -/
theorem InOrder.addClient_live (h : InOrder s) {fd : ℤ} (hallowed : Allowed s (.accept fd)) :
    ∃ index s', getFirstSuitableIndex s = some index ∧ Server.addClient s fd = some s' ∧
      InOrder s' ∧ s'.log.exited = s.log.exited ∧ ¬Live s index ∧
      ∀ i, Live s' i ↔ i = index ∨ Live s i := by
  obtain ⟨s', hadd, hs'⟩ := h.addClient hallowed
  obtain ⟨hpos, -, -, hroom⟩ := hallowed
  obtain ⟨index, hindex, hle, hlt, hfree⟩ := h.exists_index hroom
  have hfd : fd ≠ removedClient := by
    rw [removedClient]
    omega
  -- the slot below `client_count`, still without its client
  obtain ⟨s₁, hensure, hcount, hfildes, hexited⟩ : ∃ s₁, Server.ensureBuffer s index = some s₁ ∧
      (∀ i, i < s₁.clientCount ↔ i = index ∨ i < s.clientCount) ∧
      (∀ i, (s₁.clients.cells i).aioFildes = (s.clients.cells i).aioFildes) ∧
      s₁.log.exited = s.log.exited := by
    rcases hle.lt_or_eq with hused | rfl
    · refine ⟨s, if_neg (not_le.mpr hused), fun i => ?_, fun _ => rfl, rfl⟩
      omega
    · obtain ⟨s₁, hensure, hcount, hfildes, -, hlog, -⟩ := ensureBuffer_new hlt
      refine ⟨s₁, hensure, fun i => ?_, hfildes, by rw [hlog]⟩
      omega
  refine ⟨index, s', hindex, hadd, hs', ?_⟩
  simp only [Server.addClient, hindex, hensure, CArray.load_of_lt s₁.clients hlt,
    CArray.store_of_lt s₁.clients _ hlt, Option.bind_eq_bind, Option.bind_some] at hadd
  cases hadd
  refine ⟨hexited, fun hlive => hlive.2 hfree, fun i => ?_⟩
  show (i < s₁.clientCount ∧ (Function.update s₁.clients.cells index _ i).aioFildes ≠ _) ↔ _
  rw [hcount, Function.update_apply]
  split_ifs with hi
  · simp [hi, hfd]
  · rw [hfildes]
    simp [hi, Live]

theorem InOrder.removeClient_live (h : InOrder s) {i : ℕ} (hi : Live s i) :
    ∃ s', Server.removeClient s i = some s' ∧ InOrder s' ∧ s'.log.exited = s.log.exited ∧
      s'.clientCount = s.clientCount ∧ s'.sockfd = s.sockfd ∧
      ((s.clients.cells i).aioFildes :: s'.liveFds).Perm s.liveFds ∧
      ∀ k, Live s' k ↔ k ≠ i ∧ Live s k := by
  obtain ⟨s', hremove, hs', hcount⟩ := h.removeClient hi.1 hi.2
  have hlt : i < max.size := hi.1.trans_le h.count_le
  refine ⟨s', hremove, hs', ?_⟩
  simp only [Server.removeClient, if_neg (not_le.mpr hi.1), CArray.load_of_lt s.clients hlt,
    CArray.store_of_lt s.clients _ hlt, if_neg hi.2, Option.bind_eq_bind, Option.bind_some]
    at hremove
  cases hremove
  refine ⟨rfl, rfl, rfl, ?_, fun k => ?_⟩
  · exact perm_liveFds_remove (c := ⟨removedClient, (s.clients.cells i).aioBuf⟩) hi.1 hi.2 rfl
      (s.close (s.clients.cells i).aioFildes).log
  · show (k < s.clientCount ∧ (Function.update s.clients.cells i _ k).aioFildes ≠ _) ↔ _
    rw [Function.update_apply]
    split_ifs with hk
    · simp [hk]
    · simp [hk, Live]

theorem Allowed.of_perm {fd x : ℤ} (h : Allowed s (.accept fd)) (hsockfd : s'.sockfd = s.sockfd)
    (hperm : (x :: s'.liveFds).Perm s.liveFds) : Allowed s' (.accept fd) := by
  obtain ⟨hpos, hsock, hfresh, hroom⟩ := h
  refine ⟨hpos, by rwa [hsockfd], fun hmem => ?_, ?_⟩
  · exact hfresh (hperm.mem_iff.mp (List.mem_cons_of_mem x hmem))
  · have hlength := hperm.length_eq
    rw [List.length_cons] at hlength
    omega

end Server

namespace System

open Server (InOrder)

variable {max : Somaxconn} {s s' : System max}

/-! ### One read for each client -/

structure Inv (s : System max) : Prop where
  inOrder : InOrder s.server
  coming : ∀ fd, s.main = .accepted fd ∨ s.main = .blocked fd → s.server.Allowed (.accept fd)
  handles : s.handler ≠ none → s.main.unblocked = true
  listed : ∀ index, s.main = .listed index → s.server.Live index
  reads : ∀ i, s.reads i ≠ .idle ↔ s.server.Live i ∧ s.main ≠ .listed i
  kept : ∀ i result, s.reads i = .completed result →
    s.pending = true ∨ ∃ j, s.handler = some j ∧ j ≤ i
  books : ∀ i, (bytesOf i s.arrived).map Lab25.upper =
    bytesOf i s.output ++ (s.reads i).waiting.map Lab25.upper

theorem inv_start (max : Somaxconn) (sockfd : ℤ) : Inv (start max sockfd) where
  inOrder := Server.inOrder_initServer max sockfd
  coming fd h := by rcases h with h | h <;> cases h
  handles h := absurd rfl h
  listed index h := by cases h
  reads i := iff_of_false (fun h => h rfl) fun h => Nat.not_lt_zero i h.1.1
  kept _ _ h := by cases h
  books _ := rfl

theorem bytesOf_append (i j : ℕ) (log : List (ℕ × List CChar)) (data : List CChar) :
    bytesOf i (log ++ [(j, data)]) = bytesOf i log ++ if j = i then data else [] := by
  rw [bytesOf, List.filter_append, List.flatMap_append]
  split_ifs with h
  · rw [List.filter_cons_of_pos (by simpa using h)]
    simp [bytesOf]
  · rw [List.filter_cons_of_neg (by simpa using h)]
    simp [bytesOf]

/-- While the handler runs, no slot waits for its read to be started. -/
theorem Inv.ne_listed (h : Inv s) (hhandler : s.handler ≠ none) (i : ℕ) : s.main ≠ .listed i := by
  intro hmain
  have hopen := h.handles hhandler
  rw [hmain] at hopen
  exact Bool.noConfusion hopen

theorem inv_accept (h : Inv s) {fd : ℤ} (hmain : s.main = .accepts) (hhandler : s.handler = none)
    (hallowed : s.server.Allowed (.accept fd)) : Inv { s with main := .accepted fd } where
  inOrder := h.inOrder
  coming fd' hfd' := by
    rcases hfd' with hfd' | hfd'
    · cases hfd'
      exact hallowed
    · cases hfd'
  handles hne := absurd hhandler hne
  listed index hindex := by cases hindex
  reads i := by simpa [hmain] using h.reads i
  kept := h.kept
  books := h.books

theorem inv_block (h : Inv s) {fd : ℤ} (hmain : s.main = .accepted fd)
    (hhandler : s.handler = none) : Inv { s with main := .blocked fd } where
  inOrder := h.inOrder
  coming fd' hfd' := by
    rcases hfd' with hfd' | hfd'
    · cases hfd'
    · cases hfd'
      exact h.coming fd (.inl hmain)
  handles hne := absurd hhandler hne
  listed index hindex := by cases hindex
  reads i := by simpa [hmain] using h.reads i
  kept := h.kept
  books := h.books

theorem inv_lists (h : Inv s) {fd : ℤ} (hmain : s.main = .blocked fd) :
    ∃ index server, s.server.getFirstSuitableIndex = some index ∧
      s.server.addClient fd = some server ∧ server.log.exited = s.server.log.exited ∧
      Inv { s with server, main := .listed index } := by
  obtain ⟨index, server, hindex, hadd, hserver, hexited, hfree, hlive⟩ :=
    h.inOrder.addClient_live (h.coming fd (.inr hmain))
  refine ⟨index, server, hindex, hadd, hexited, hserver, fun fd' hfd' => ?_, fun hne => ?_,
    fun i hi => ?_, fun i => ?_, h.kept, h.books⟩
  · rcases hfd' with hfd' | hfd' <;> cases hfd'
  · have hopen := h.handles hne
    rw [hmain] at hopen
    exact Bool.noConfusion hopen
  · cases hi
    exact (hlive index).mpr (.inl rfl)
  · show s.reads i ≠ .idle ↔ server.Live i ∧ MainAt.listed index ≠ .listed i
    rw [h.reads i, hlive i, hmain]
    constructor
    · rintro ⟨hi, -⟩
      refine ⟨.inr hi, fun heq => ?_⟩
      cases heq
      exact hfree hi
    · rintro ⟨hi, hne⟩
      refine ⟨hi.resolve_left fun heq => hne ?_, by simp⟩
      rw [heq]

theorem inv_starts (h : Inv s) {index : ℕ} (hmain : s.main = .listed index) :
    Inv { s with reads := Function.update s.reads index .inProgress, main := .started } where
  inOrder := h.inOrder
  coming fd hfd := by rcases hfd with hfd | hfd <;> cases hfd
  handles hne := by
    have hopen := h.handles hne
    rw [hmain] at hopen
    exact Bool.noConfusion hopen
  listed i hi := by cases hi
  reads i := by
    show Function.update s.reads index Read.inProgress i ≠ .idle ↔
      s.server.Live i ∧ MainAt.started ≠ .listed i
    rcases eq_or_ne i index with rfl | hi
    · rw [Function.update_self]
      simpa using h.listed i hmain
    · rw [Function.update_of_ne hi, h.reads i, hmain]
      simp [Ne.symm hi]
  kept i result hi := by
    have hread : Function.update s.reads index .inProgress i = .completed result := hi
    rcases eq_or_ne i index with rfl | hne
    · rw [Function.update_self] at hread
      cases hread
    · rw [Function.update_of_ne hne] at hread
      exact h.kept i result hread
  books i := by
    show _ = bytesOf i s.output ++ (Function.update s.reads index Read.inProgress i).waiting.map _
    rcases eq_or_ne i index with rfl | hne
    · have hidle : s.reads i = .idle := by
        by_contra hbusy
        exact ((h.reads i).mp hbusy).2 hmain
      have hbooks := h.books i
      rw [hidle] at hbooks
      rw [Function.update_self]
      exact hbooks
    · rw [Function.update_of_ne hne]
      exact h.books i

theorem inv_unblocks (h : Inv s) (hmain : s.main = .started) : Inv { s with main := .accepts } where
  inOrder := h.inOrder
  coming fd hfd := by rcases hfd with hfd | hfd <;> cases hfd
  handles _ := rfl
  listed index hindex := by cases hindex
  reads i := by simpa [hmain] using h.reads i
  kept := h.kept
  books := h.books

theorem inv_completes (h : Inv s) {i : ℕ} {result : Option (List CChar)}
    (hi : s.reads i = .inProgress) :
    Inv { s with
      reads := Function.update s.reads i (.completed result)
      pending := true
      arrived := s.arrived ++ [(i, result.getD [])] } where
  inOrder := h.inOrder
  coming := h.coming
  handles := h.handles
  listed := h.listed
  reads k := by
    show Function.update s.reads i (Read.completed result) k ≠ .idle ↔ _
    rcases eq_or_ne k i with rfl | hk
    · rw [Function.update_self, ← h.reads k, hi]
      simp
    · rw [Function.update_of_ne hk]
      exact h.reads k
  kept _ _ _ := .inl rfl
  books k := by
    show (bytesOf k (s.arrived ++ [(i, result.getD [])])).map Lab25.upper = bytesOf k s.output ++
      (Function.update s.reads i (Read.completed result) k).waiting.map Lab25.upper
    have hbooks := h.books k
    rw [bytesOf_append, List.map_append, hbooks]
    rcases eq_or_ne k i with rfl | hk
    · rw [hi, Function.update_self, if_pos rfl]
      cases result <;> simp [Read.waiting]
    · rw [Function.update_of_ne hk, if_neg (Ne.symm hk), List.map_nil, List.append_nil]

theorem inv_delivers (h : Inv s) (hopen : s.main.unblocked = true) :
    Inv { s with pending := false, handler := some 0 } where
  inOrder := h.inOrder
  coming := h.coming
  handles _ := hopen
  listed := h.listed
  reads := h.reads
  kept _ _ _ := .inr ⟨0, rfl, Nat.zero_le _⟩
  books := h.books

theorem inv_returns (h : Inv s) {i : ℕ} (hhandler : s.handler = some i)
    (hi : s.server.clientCount ≤ i) : Inv { s with handler := none } where
  inOrder := h.inOrder
  coming := h.coming
  handles hne := absurd rfl hne
  listed := h.listed
  reads := h.reads
  kept k result hk := by
    refine .inl ((h.kept k result hk).resolve_right ?_)
    rintro ⟨j, hj, hle⟩
    cases hhandler.symm.trans hj
    have hlive := ((h.reads k).mp (by rw [hk]; simp)).1.1
    omega
  books := h.books

/-! ### A round of the handler -/

/-- What a round leaves, apart from the table and the read of its slot. -/
theorem inv_round (h : Inv s) {i : ℕ} (hhandler : s.handler = some i) {server : Server max}
    {read : Read} {output : List (ℕ × List CChar)} (hserver : InOrder server)
    (hcoming : ∀ fd, s.server.Allowed (.accept fd) → server.Allowed (.accept fd))
    (hlive : ∀ k, k ≠ i → (server.Live k ↔ s.server.Live k)) (hread : ∀ r, read ≠ .completed r)
    (hslot : read ≠ .idle ↔ server.Live i)
    (hbooks : ∀ k, (bytesOf k s.arrived).map Lab25.upper = bytesOf k output ++
      (Function.update s.reads i read k).waiting.map Lab25.upper) :
    Inv { s with
      server, handler := some (i + 1), reads := Function.update s.reads i read, output } where
  inOrder := hserver
  coming fd hfd := hcoming fd (h.coming fd hfd)
  handles _ := h.handles (by simp [hhandler])
  listed k hk := absurd hk (h.ne_listed (by simp [hhandler]) k)
  reads k := by
    show Function.update s.reads i read k ≠ .idle ↔ server.Live k ∧ s.main ≠ .listed k
    have hmain := h.ne_listed (by simp [hhandler]) k
    rcases eq_or_ne k i with rfl | hk
    · rw [Function.update_self, hslot]
      simp [hmain]
    · rw [Function.update_of_ne hk, h.reads k, hlive k hk]
  kept k result hk := by
    have hupdate : Function.update s.reads i read k = .completed result := hk
    rcases eq_or_ne k i with rfl | hne
    · rw [Function.update_self] at hupdate
      exact absurd hupdate (hread result)
    · rw [Function.update_of_ne hne] at hupdate
      rcases h.kept k result hupdate with hpending | ⟨j, hj, hle⟩
      · exact .inl hpending
      · cases hhandler.symm.trans hj
        exact .inr ⟨i + 1, rfl, by omega⟩
  books := hbooks

/-- A round is defined. It does to the table what it does in a handler that is not
interrupted, with the answers of this moment. -/
theorem visit_spec (h : Inv s) (hexited : s.server.log.exited = false) {i : ℕ}
    (hhandler : s.handler = some i) (hi : i < s.server.clientCount) :
    ∃ s', s.visit i = some s' ∧ s'.handler = some (i + 1) ∧
      Server.handleSlot (fun k => (s.reads k).completion) s.server i = some s'.server ∧
      s'.server.clientCount = s.server.clientCount ∧ (s'.server.log.exited = true ∨ Inv s') := by
  have hlt : i < max.size := hi.trans_le h.inOrder.count_le
  have hload := CArray.load_of_lt s.server.clients hlt
  have hmain := h.ne_listed (by simp [hhandler]) i
  have hreads := h.reads i
  have hsame : Function.update s.reads i (s.reads i) = s.reads := Function.update_eq_self i s.reads
  -- a round that does nothing
  have hskip : (∀ r, s.reads i ≠ .completed r) →
      Inv { s with server := s.server, handler := some (i + 1) } := by
    intro hread
    have hround := inv_round (i := i) h hhandler h.inOrder
      (fun _ => id) (fun _ _ => Iff.rfl) hread (by rw [hreads]; simp [hmain])
      (by rw [hsame]; exact h.books)
    rw [hsame] at hround
    exact hround
  by_cases hfree : (s.server.clients.cells i).aioFildes = removedClient
  · -- no client
    have hidle : s.reads i = .idle := by
      by_contra hbusy
      exact (hreads.mp hbusy).1.2 hfree
    have hslot : Server.handleSlot (fun k => (s.reads k).completion) s.server i =
        some s.server := by
      simp [Server.handleSlot, hexited, hload, hfree]
    refine ⟨{ s with server := s.server, handler := some (i + 1) }, ?_, rfl, hslot, rfl, .inr ?_⟩
    · simp [visit, hload, hfree, hslot]
    · exact hskip (by simp [hidle])
  have hlive : s.server.Live i := ⟨hi, hfree⟩
  have hbusy : s.reads i ≠ .idle := hreads.mpr ⟨hlive, hmain⟩
  rcases hread : s.reads i with _ | _ | (_ | (_ | ⟨c, data⟩))
  · exact absurd hread hbusy
  · -- the read goes on
    have hslot : Server.handleSlot (fun k => (s.reads k).completion) s.server i =
        some s.server := by
      simp [Server.handleSlot, hexited, hload, hread, Read.completion]
    refine ⟨{ s with server := s.server, handler := some (i + 1) }, ?_, rfl, hslot, rfl, .inr ?_⟩
    · simp [visit, hload, hslot, hread]
    · exact hskip (by simp [hread])
  · -- an error: the process exits
    obtain ⟨server, hexit, hcount, hgone⟩ := h.inOrder.exitSafely
    have hslot : Server.handleSlot (fun k => (s.reads k).completion) s.server i = some server := by
      simp [Server.handleSlot, hexited, hload, hfree, hread, Read.completion, hexit]
    refine ⟨{ s with server, handler := some (i + 1) }, ?_, rfl, hslot, hcount, .inl hgone⟩
    simp [visit, hload, hslot, hread]
  · -- the end of the client's bytes
    obtain ⟨server, hremove, hserver, -, hcount, hsockfd, hperm, hlives⟩ :=
      h.inOrder.removeClient_live hlive
    have hslot : Server.handleSlot (fun k => (s.reads k).completion) s.server i = some server := by
      simp [Server.handleSlot, hexited, hload, hfree, hread, Read.completion, hremove]
    refine ⟨{ s with
      server, handler := some (i + 1), reads := Function.update s.reads i .idle }, ?_, rfl, hslot,
      hcount, .inr ?_⟩
    · simp [visit, hload, hfree, hslot, hread]
    · apply inv_round h hhandler hserver (fun fd hallowed => hallowed.of_perm hsockfd hperm)
      · intro k hk
        rw [hlives k]
        exact and_iff_right hk
      · simp
      · rw [hlives i]
        simp
      · intro k
        rcases eq_or_ne k i with rfl | hk
        · rw [h.books k, hread, Function.update_self]
          rfl
        · rw [Function.update_of_ne hk]
          exact h.books k
  · -- bytes, which are printed before the next read
    have hslot : Server.handleSlot (fun k => (s.reads k).completion) s.server i =
        some { s.server with log := { s.server.log with
          printed := s.server.log.printed ++ (c :: data).map Lab25.upper } } := by
      simp [Server.handleSlot, hexited, hload, hfree, hread, Read.completion]
    refine ⟨{ s with
      server := { s.server with log := { s.server.log with
        printed := s.server.log.printed ++ (c :: data).map Lab25.upper } }
      handler := some (i + 1)
      reads := Function.update s.reads i .inProgress
      output := s.output ++ [(i, (c :: data).map Lab25.upper)] }, ?_, rfl, hslot, rfl, .inr ?_⟩
    · simp [visit, hload, hfree, hslot, hread]
    · have hprint := h.inOrder.print (s.server.log.printed ++ (c :: data).map Lab25.upper)
      apply inv_round h hhandler hprint (fun _ => id) (fun _ _ => Iff.rfl) (by simp)
      · exact iff_of_true (by simp) hlive
      · intro k
        rw [bytesOf_append]
        rcases eq_or_ne k i with rfl | hk
        · rw [h.books k, hread, Function.update_self, if_pos rfl]
          simp [Read.waiting]
        · rw [Function.update_of_ne hk, if_neg (Ne.symm hk), List.append_nil]
          exact h.books k

/-! ### Whole calls -/

/-- The server is one that has come from whole calls, the last of which may be a handler
that runs. -/
def Served (sockfd : ℤ) (s : System max) : Prop :=
  ∃ events server, RunMeets Server.Allowed Server.step (Server.initServer max sockfd) events ∧
    run Server.step (Server.initServer max sockfd) events = some server ∧
    match s.handler with
    | none => s.server = server
    | some i => server.log.exited = false ∧ i ≤ server.clientCount ∧
        server.clientCount ≤ max.size ∧ s.server.clientCount = server.clientCount ∧
        ∃ completions, run (Server.handleSlot completions) server (List.range i) = some s.server

theorem served_start (max : Somaxconn) (sockfd : ℤ) : Served sockfd (start max sockfd) :=
  ⟨[], _, trivial, rfl, rfl⟩

theorem handleSlot_pending {completions : ℕ → Server.Completion} {i : ℕ}
    (hpending : completions i = .pending) (server : Server max) (hi : i < max.size) :
    Server.handleSlot completions server i = some server := by
  simp only [Server.handleSlot, CArray.load_of_lt server.clients hi, hpending, Option.bind_eq_bind,
    Option.bind_some]
  split_ifs <;> rfl

theorem handleSlot_congr {f g : ℕ → Server.Completion} {i : ℕ} (h : f i = g i)
    (server : Server max) : Server.handleSlot f server i = Server.handleSlot g server i := by
  simp only [Server.handleSlot, h]

/-- A handler that has run so far is one that finds the other reads unfinished. -/
theorem aioHandler_of_rounds {server server' : Server max} {completions : ℕ → Server.Completion}
    {i : ℕ} (hi : i ≤ server.clientCount) (hcount : server.clientCount ≤ max.size)
    (hrun : run (Server.handleSlot completions) server (List.range i) = some server') :
    ∃ completions', server.aioHandler completions' = some server' := by
  refine ⟨fun k => if k < i then completions k else .pending, ?_⟩
  have hfirst : run (Server.handleSlot fun k => if k < i then completions k else .pending) server
      (List.range i) = some server' := by
    rw [← hrun]
    apply run_congr
    intro k hk t
    apply handleSlot_congr
    rw [if_pos (List.mem_range.mp hk)]
  obtain ⟨rest, hrest⟩ := Nat.exists_eq_add_of_le hi
  rw [Server.aioHandler, hrest, List.range_add, run_append, hfirst, Option.bind_some]
  apply run_of_fixed
  intro k hk
  obtain ⟨j, hj, rfl⟩ := List.mem_map.mp hk
  have hlt := List.mem_range.mp hj
  exact handleSlot_pending (if_neg (by omega)) server' (by omega)

theorem Served.whole {sockfd : ℤ} (h : Served sockfd s) :
    ∃ events, RunMeets Server.Allowed Server.step (Server.initServer max sockfd) events ∧
      run Server.step (Server.initServer max sockfd) events = some s.server := by
  obtain ⟨events, server, hmeets, hrun, hlast⟩ := h
  split at hlast
  · rw [hlast]
    exact ⟨events, hmeets, hrun⟩
  · obtain ⟨hexited, hi, hcount, -, completions, hrounds⟩ := hlast
    obtain ⟨completions', haio⟩ := aioHandler_of_rounds hi hcount hrounds
    have hallowed : server.Allowed (.aio completions') := trivial
    refine ⟨events ++ [.aio completions'], hmeets.snoc hrun hallowed, ?_⟩
    rw [run_append, hrun, Option.bind_some, run_cons, Server.step, if_neg (by simp [hexited]), haio]
    rfl

theorem Served.call {sockfd : ℤ} (h : Served sockfd s) (event : Server.Event)
    (hallowed : s.server.Allowed event) (hstep : s.server.step event = some s'.server)
    (hhandler : s'.handler = none) : Served sockfd s' := by
  obtain ⟨events, hmeets, hrun⟩ := h.whole
  refine ⟨events ++ [event], s'.server, hmeets.snoc hrun hallowed, ?_, ?_⟩
  · rw [run_append, hrun, Option.bind_some, run_cons, hstep]
    rfl
  · rw [hhandler]

theorem Served.of_eq {sockfd : ℤ} (h : Served sockfd s) (hserver : s'.server = s.server)
    (hhandler : s'.handler = s.handler) : Served sockfd s' := by
  obtain ⟨events, server, hmeets, hrun, hlast⟩ := h
  refine ⟨events, server, hmeets, hrun, ?_⟩
  rw [hhandler, hserver]
  exact hlast

theorem Served.round {sockfd : ℤ} (h : Served sockfd s) {i : ℕ} (hhandler : s.handler = some i)
    (hi : i < s.server.clientCount) {completions : ℕ → Server.Completion}
    (hround : Server.handleSlot completions s.server i = some s'.server)
    (hcount : s'.server.clientCount = s.server.clientCount)
    (hhandler' : s'.handler = some (i + 1)) : Served sockfd s' := by
  obtain ⟨events, server, hmeets, hrun, hlast⟩ := h
  rw [hhandler] at hlast
  obtain ⟨hexited, hle, hsize, hsame, earlier, hrounds⟩ := hlast
  refine ⟨events, server, hmeets, hrun, ?_⟩
  rw [hhandler']
  refine ⟨hexited, by omega, hsize, hcount.trans hsame,
    fun k => if k < i then earlier k else completions k, ?_⟩
  have hbefore : run (Server.handleSlot fun k => if k < i then earlier k else completions k) server
      (List.range i) = some s.server := by
    rw [← hrounds]
    apply run_congr
    intro k hk t
    apply handleSlot_congr
    rw [if_pos (List.mem_range.mp hk)]
  rw [List.range_succ, run_append, hbefore, Option.bind_some, run_cons, ← hround,
    handleSlot_congr (g := completions) (if_neg (Nat.lt_irrefl i)), hround]
  rfl

/-! ### Runs -/

def Sound (s : System max) : Prop := s.server.log.exited = true ∨ Inv s

/-- Every step leads from whole calls to whole calls, and keeps one read for each
client. -/
theorem sound_step {sockfd : ℤ} {e : Event} (hsound : Sound s) (hserved : Served sockfd s)
    (hallowed : Allowed s e) (hstep : step s e = some s') : Sound s' ∧ Served sockfd s' := by
  have hexited : ¬s.server.log.exited = true := by
    intro hgone
    rw [step.eq_def, if_pos hgone] at hstep
    cases hstep
  rw [step.eq_def, if_neg hexited] at hstep
  have hgoes : s.server.log.exited = false := Bool.eq_false_iff.mpr hexited
  have h := hsound.resolve_left hexited
  cases e with
  | accept fd =>
      obtain ⟨hguard, hs'⟩ := Option.ite_none_right_eq_some.mp hstep
      cases hs'
      exact ⟨.inr (inv_accept h hguard.1 hguard.2 hallowed), hserved.of_eq rfl rfl⟩
  | block =>
      dsimp only at hstep
      split at hstep
      · cases hstep
        exact ⟨.inr (inv_block h ‹_› ‹_›), hserved.of_eq rfl rfl⟩
      · cases hstep
  | lists =>
      dsimp only at hstep
      split at hstep
      · rename_i fd hmain
        obtain ⟨index, server, hindex, hadd, hexited', hinv⟩ := inv_lists h hmain
        simp only [hindex, hadd, Option.bind_eq_bind, Option.bind_some] at hstep
        cases hstep
        refine ⟨.inr hinv, hserved.call (.accept fd) (h.coming fd (.inr hmain)) ?_ ?_⟩
        · rw [Server.step, if_neg hexited]
          exact hadd
        · by_contra hhandler
          have hopen := h.handles hhandler
          rw [hmain] at hopen
          exact Bool.noConfusion hopen
      · cases hstep
  | starts =>
      dsimp only at hstep
      split at hstep
      · cases hstep
        exact ⟨.inr (inv_starts h ‹_›), hserved.of_eq rfl rfl⟩
      · cases hstep
  | unblocks =>
      obtain ⟨hguard, hs'⟩ := Option.ite_none_right_eq_some.mp hstep
      cases hs'
      exact ⟨.inr (inv_unblocks h hguard), hserved.of_eq rfl rfl⟩
  | completes i result =>
      obtain ⟨hguard, hs'⟩ := Option.ite_none_right_eq_some.mp hstep
      cases hs'
      exact ⟨.inr (inv_completes h hguard), hserved.of_eq rfl rfl⟩
  | delivers =>
      obtain ⟨⟨-, hhandler, hopen⟩, hs'⟩ := Option.ite_none_right_eq_some.mp hstep
      cases hs'
      refine ⟨.inr (inv_delivers h hopen), ?_⟩
      obtain ⟨events, hmeets, hrun⟩ := hserved.whole
      exact ⟨events, s.server, hmeets, hrun, hgoes, Nat.zero_le _, h.inOrder.count_le, rfl,
        fun _ => .pending, rfl⟩
  | round =>
      dsimp only at hstep
      split at hstep
      · cases hstep
      · rename_i i hhandler
        split_ifs at hstep with hi
        · obtain ⟨s₁, hvisit, hhandler', hround, hcount, hinv⟩ := visit_spec h hgoes hhandler hi
          cases hvisit.symm.trans hstep
          exact ⟨hinv, hserved.round hhandler hi hround hcount hhandler'⟩
        · cases hstep
          refine ⟨.inr (inv_returns h hhandler (not_lt.mp hi)), ?_⟩
          obtain ⟨events, hmeets, hrun⟩ := hserved.whole
          exact ⟨events, s.server, hmeets, hrun, rfl⟩
  | interrupt =>
      obtain ⟨server, hexit, rfl⟩ := Option.map_eq_some_iff.mp hstep
      obtain ⟨server', hexit', -, hgone⟩ := h.inOrder.exitSafely
      cases hexit.symm.trans hexit'
      refine ⟨.inl hgone, hserved.call .interrupt trivial ?_ rfl⟩
      rw [Server.step, if_neg hexited]
      exact hexit

/-- What a maintainer can rely on while the process runs. -/
structure Attended (s : System max) : Prop where
  reads : ∀ i, s.reads i ≠ .idle ↔ s.server.Live i ∧ s.main ≠ .listed i
  waits : s.handler = none → s.pending = false →
    ∀ i, s.server.Live i → s.main ≠ .listed i → s.reads i = .inProgress
  books : ∀ i, (bytesOf i s.arrived).map Lab25.upper =
    bytesOf i s.output ++ (s.reads i).waiting.map Lab25.upper
  lists : ∀ fd, s.main = .blocked fd → (s.step .lists).isSome
  round : s.handler ≠ none → (s.step .round).isSome

theorem Inv.attended (h : Inv s) (hexited : s.server.log.exited = false) : Attended s where
  reads := h.reads
  waits hhandler hpending i hlive hmain := by
    rcases hread : s.reads i with _ | _ | result
    · exact absurd hread ((h.reads i).mpr ⟨hlive, hmain⟩)
    · rfl
    · rcases h.kept i result hread with hsignal | ⟨j, hj, -⟩
      · rw [hpending] at hsignal
        cases hsignal
      · rw [hhandler] at hj
        cases hj
  books := h.books
  lists fd hmain := by
    obtain ⟨index, server, hindex, hadd, -, -⟩ := inv_lists h hmain
    simp [step, hexited, hmain, hindex, hadd]
  round hhandler := by
    obtain ⟨i, hi⟩ := Option.ne_none_iff_exists'.mp hhandler
    rw [step, if_neg (by simp [hexited])]
    simp only [hi]
    split_ifs with hlt
    · obtain ⟨s', hvisit, -⟩ := visit_spec h hexited hi hlt
      rw [hvisit]
      rfl
    · rfl

/-- Whenever reads complete and the signal is delivered, and whatever comes between: the
table is one that whole calls lead to, each client has one read, none that has completed is
left alone, and what a read delivers is printed once, in its order, before the next read of
the slot is started. -/
theorem signals_attended {sockfd : ℤ} {es : List Event}
    (hallowed : RunMeets Allowed step (start max sockfd) es)
    (hrun : run step (start max sockfd) es = some s) :
    (∃ events, RunMeets Server.Allowed Server.step (Server.initServer max sockfd) events ∧
      run Server.step (Server.initServer max sockfd) events = some s.server) ∧
    (s.server.log.exited = false → Attended s) := by
  have hboth : Sound s ∧ Served sockfd s :=
    hallowed.invariant (I := fun s => Sound s ∧ Served sockfd s)
      (fun s e s' h hmeets hstep => sound_step h.1 h.2 hmeets hstep)
      ⟨.inr (inv_start max sockfd), served_start max sockfd⟩ hrun
  refine ⟨hboth.2.whole, fun hexited => ?_⟩
  exact (hboth.1.resolve_left (by simp [hexited])).attended hexited

instance decidableAllowed (s : System max) : ∀ e, Decidable (Allowed s e)
  | .accept fd => inferInstanceAs (Decidable (s.server.Allowed (.accept fd)))
  | .block | .lists | .starts | .unblocks | .completes _ _ | .delivers | .round | .interrupt =>
      isTrue trivial

theorem signals_attended_two :
    RunMeets Allowed step (start Somaxconn.linux 3)
      [.accept 4, .block, .lists, .starts, .completes 0 (some [0x61]), .unblocks, .delivers,
        .round, .completes 0 (some []), .round] ∧
    ∃ s, run step (start Somaxconn.linux 3)
        [.accept 4, .block, .lists, .starts, .completes 0 (some [0x61]), .unblocks, .delivers,
          .round, .completes 0 (some []), .round] = some s ∧
      (∃ events, RunMeets Server.Allowed Server.step (Server.initServer Somaxconn.linux 3) events ∧
        run Server.step (Server.initServer Somaxconn.linux 3) events = some s.server) ∧
      (s.server.log.exited = false → Attended s) := by
  have hallowed : RunMeets Allowed step (start Somaxconn.linux 3)
      [.accept 4, .block, .lists, .starts, .completes 0 (some [0x61]), .unblocks, .delivers,
        .round, .completes 0 (some []), .round] := by decide +kernel
  refine ⟨hallowed, ?_⟩
  obtain ⟨s, hs⟩ := Option.isSome_iff_exists.mp
    (show (run step (start Somaxconn.linux 3)
      [.accept 4, .block, .lists, .starts, .completes 0 (some [0x61]), .unblocks, .delivers,
        .round, .completes 0 (some []), .round]).isSome by decide +kernel)
  exact ⟨s, hs, signals_attended hallowed hs⟩

end System

end UnixLabs.Lab32
