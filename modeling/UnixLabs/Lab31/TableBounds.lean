import UnixLabs.Library.Run
import UnixLabs.Lab31.Multiplexer
import UnixLabs.Lab31.Server

/-!
The tables of lab31 and the end of their array.

Removing and closing the gaps stay inside the array, in any order of the operations.
Adding does so only while there is a place left, which nobody asks.
-/

namespace UnixLabs.Lab31

open Library

variable {max : Somaxconn} {α : Type}

/-! ### Runs of the operations -/

inductive TableOp (α : Type)
  | add (client : α)
  | remove (index : ℕ)
  | commit

/-- The functions of a program that do it, and the connections that get a place in the
table. -/
structure TableOps (max : Somaxconn) (α : Type) where
  mxAdd : ClientTable max → α → Option (ClientTable max)
  removeClient : ClientTable max → ℕ → Option (ClientTable max)
  commitRemoveClients : ClientTable max → Option (ClientTable max)
  takesPlace : α → Prop

def Server.ops (max : Somaxconn) : TableOps max ℤ :=
  ⟨mxAdd, removeClient, commitRemoveClients, fun _ => True⟩

def Multiplexer.ops (max : Somaxconn) : TableOps max Connection :=
  ⟨mxAdd, removeClient, commitRemoveClients,
    fun client => client.oldFlags ≠ -1 ∧ client.setFlags ≠ -1⟩

namespace TableOps

variable (ops : TableOps max α)

/-- Only clients in use are removed, as the loop of `try_read` has it. -/
def step (t : ClientTable max) : TableOp α → Option (ClientTable max)
  | .add client => ops.mxAdd t client
  | .remove index => if index < t.clientCount then ops.removeClient t index else some t
  | .commit => ops.commitRemoveClients t

def PlaceLeft (t : ClientTable max) : TableOp α → Prop
  | .add client => ops.takesPlace client → t.clientCount < max.size
  | _ => True

end TableOps

def InArray (t : ClientTable max) : Prop := t.clientCount ≤ max.size

/-! ### The steps -/

/-- As many entries in use are marked as are to be removed, at least. -/
structure InOrder (t : ClientTable max) : Prop where
  inArray : InArray t
  marks : t.clientsToRemoveCount ≤ marked removedClient (fds t.clients) t.clientCount

theorem InOrder.toRemove_le {t : ClientTable max} (h : InOrder t) :
    t.clientsToRemoveCount ≤ t.clientCount := by
  have hlength : (live removedClient (fds t.clients) t.clientCount).length +
      marked removedClient (fds t.clients) t.clientCount = t.clientCount := length_live
  have hmarks := h.marks
  omega

theorem inOrder_init (max : Somaxconn) : InOrder (ClientTable.init max) :=
  ⟨Nat.zero_le _, Nat.zero_le _⟩

theorem InOrder.put {t : ClientTable max} (h : InOrder t) (hplace : t.clientCount < max.size)
    (clientFd : ℤ) : ∃ t', t.put clientFd = some t' ∧ InOrder t' := by
  refine ⟨_, t.put_of_lt clientFd hplace, hplace, ?_⟩
  have hmarks := h.marks
  have hsame : ∀ clients : CArray max.size Pollfd,
      (∀ i < t.clientCount, clients.cells i = t.clients.cells i) →
        marked removedClient (fds clients) t.clientCount =
          marked removedClient (fds t.clients) t.clientCount := fun clients hcells => by
    rw [marked, marked]
    exact congrArg _ (firstCells_congr fun i hi => congrArg Pollfd.fd (hcells i hi))
  simp only [marked_succ]
  rw [hsame _ fun i hi => Function.update_of_ne hi.ne _ _]
  omega

theorem InOrder.mark {t : ClientTable max} (h : InOrder t) {index : ℕ}
    (hindex : index < t.clientCount) : ∃ t', t.mark index = some t' ∧ InOrder t' := by
  have hlt : index < max.size := hindex.trans_le h.inArray
  by_cases hmark : (t.clients.cells index).fd = removedClient
  · refine ⟨t, ?_, h⟩
    simp only [ClientTable.mark, CArray.load_of_lt _ hlt, hmark, if_true, Option.bind_eq_bind,
      Option.bind_some]
  · obtain ⟨clients, hstore⟩ : ∃ clients, t.clients.store index
        { t.clients.cells index with fd := removedClient } = some clients :=
      ⟨_, CArray.store_of_lt _ _ hlt⟩
    refine ⟨{ t with
      clients
      clientsToRemoveCount := t.clientsToRemoveCount + 1
      firstClientToRemove :=
        if t.firstClientToRemove = 0 ∨ t.firstClientToRemove > index then index
        else t.firstClientToRemove }, ?_, h.inArray, ?_⟩
    · simp only [ClientTable.mark, CArray.load_of_lt _ hlt, hmark, if_false, hstore,
        Option.bind_eq_bind, Option.bind_some]
    have hmarked : marked removedClient (Function.update (fds t.clients) index removedClient)
        t.clientCount = marked removedClient (fds t.clients) t.clientCount + 1 :=
      marked_mark hindex hmark
    simp only [fds_store hstore, hmarked]
    exact Nat.succ_le_succ h.marks

theorem InOrder.compact {t : ClientTable max} (h : InOrder t) :
    ∃ clients, t.compact = some clients ∧
      fds clients = closeGaps removedClient t.clientsToRemoveCount (t.clientCount + 1)
        t.firstClientToRemove t.clientCount 0 (fds t.clients) ∧
      sizeT ((t.clientCount : ℤ) - t.clientsToRemoveCount) =
        t.clientCount - t.clientsToRemoveCount := by
  have hle := h.toRemove_le
  have hcount := h.inArray
  have hint := max.lt
  unfold InArray at hcount
  obtain ⟨clients, hcompact, hfds⟩ := compactFrom_eq hcount max.lt hle (i := t.firstClientToRemove)
    t.clients (Nat.add_zero _) (by omega : t.clientCount < t.clientCount + 1 + _) (Nat.succ_pos _)
  refine ⟨clients, hcompact, hfds, ?_⟩
  rw [← Nat.cast_sub hle, sizeT_natCast (by omega)]

theorem InOrder.closed {t : ClientTable max} (h : InOrder t) (clients : CArray max.size Pollfd)
    (first : ℕ) :
    InOrder (⟨clients, t.clientCount - t.clientsToRemoveCount, 0, first⟩ : ClientTable max) :=
  ⟨(Nat.sub_le _ _).trans h.inArray, Nat.zero_le _⟩

/-- Both programs leave the entries that the loops of the library leave. -/
theorem InOrder.server_commit_eq {t : ClientTable max} (h : InOrder t)
    (hsome : t.clientsToRemoveCount ≠ 0) (hfirst : t.firstClientToRemove ≠ 0) :
    ∃ clients, Server.commitRemoveClients t =
        some ⟨clients, t.clientCount - t.clientsToRemoveCount, 0, 0⟩ ∧
      fds clients = closeGaps removedClient t.clientsToRemoveCount (t.clientCount + 1)
        t.firstClientToRemove t.clientCount 0 (fds t.clients) := by
  obtain ⟨clients, hcompact, hfds, hcount⟩ := h.compact
  refine ⟨clients, ?_, hfds⟩
  rw [Server.commitRemoveClients, if_neg hsome, if_neg hfirst]
  simp only [hcompact, hcount, Option.bind_eq_bind, Option.bind_some]

theorem InOrder.multiplexer_commit_eq {t : ClientTable max} (h : InOrder t)
    (hsome : t.clientsToRemoveCount ≠ 0) :
    ∃ clients, Multiplexer.commitRemoveClients t =
        some ⟨clients, t.clientCount - t.clientsToRemoveCount, 0, 0⟩ ∧
      fds clients = closeGaps removedClient t.clientsToRemoveCount (t.clientCount + 1)
        t.firstClientToRemove t.clientCount 0 (fds t.clients) := by
  obtain ⟨clients, hcompact, hfds, hcount⟩ := h.compact
  have hle := h.toRemove_le
  have hsize := h.inArray
  have hint := max.lt
  -- the difference is that of the `int`
  have hdelta : (BitVec.ofInt 32 (-(t.clientsToRemoveCount : ℤ))).toInt =
      -(t.clientsToRemoveCount : ℤ) := by
    unfold InArray at hsize
    rw [BitVec.toInt_ofInt]
    apply Int.bmod_eq_of_le
    · omega
    · omega
  have hcompact' : compactFrom t.clientsToRemoveCount (Multiplexer.getClientCount t + 1)
      t.firstClientToRemove (sizeT ((Multiplexer.getClientCount t : ℤ) - 1)) 0 t.clients =
      some clients := hcompact
  refine ⟨clients, ?_, hfds⟩
  rw [Multiplexer.commitRemoveClients, if_neg hsome]
  simp only [hcompact', Multiplexer.incClientCount, hdelta, ← sub_eq_add_neg, hcount,
    Option.bind_eq_bind, Option.bind_some]

theorem InOrder.server_commit {t : ClientTable max} (h : InOrder t) :
    ∃ t', Server.commitRemoveClients t = some t' ∧ InOrder t' := by
  by_cases hnone : t.clientsToRemoveCount = 0
  · exact ⟨t, if_pos hnone, h⟩
  by_cases hunset : t.firstClientToRemove = 0
  · exact ⟨t, by rw [Server.commitRemoveClients, if_neg hnone, if_pos hunset], h⟩
  obtain ⟨clients, hcommit, -⟩ := h.server_commit_eq hnone hunset
  exact ⟨_, hcommit, h.closed clients 0⟩

theorem InOrder.multiplexer_commit {t : ClientTable max} (h : InOrder t) :
    ∃ t', Multiplexer.commitRemoveClients t = some t' ∧ InOrder t' := by
  by_cases hnone : t.clientsToRemoveCount = 0
  · exact ⟨t, if_pos hnone, h⟩
  obtain ⟨clients, hcommit, -⟩ := h.multiplexer_commit_eq hnone
  exact ⟨_, hcommit, h.closed clients 0⟩

/-! ### Runs -/

/-- What the functions of a program are: they put a connection behind the others or do
nothing, and the other two keep the table in order. -/
structure TableOps.Safe (ops : TableOps max α) : Prop where
  put : ∀ t client, ops.takesPlace client → ∃ clientFd, ops.mxAdd t client = t.put clientFd
  skip : ∀ t client, ¬ops.takesPlace client → ops.mxAdd t client = some t
  remove : ∀ t index, InOrder t → index < t.clientCount →
    ∃ t', ops.removeClient t index = some t' ∧ InOrder t'
  commit : ∀ t, InOrder t → ∃ t', ops.commitRemoveClients t = some t' ∧ InOrder t'

theorem Server.safe (max : Somaxconn) : (Server.ops max).Safe where
  put := fun _ client _ => ⟨client, rfl⟩
  skip := fun _ _ hplace => absurd trivial hplace
  remove := fun t index h hindex => by
    show ∃ t', Server.removeClient t index = some t' ∧ InOrder t'
    unfold Server.removeClient
    split_ifs
    · exact ⟨t, rfl, h⟩
    · exact h.mark hindex
  commit := fun _ h => h.server_commit

theorem Multiplexer.safe (max : Somaxconn) : (Multiplexer.ops max).Safe where
  put := fun t client hplace => by
    refine ⟨client.fd, ?_⟩
    show Multiplexer.mxAdd t client = t.put client.fd
    rw [Multiplexer.mxAdd, if_neg hplace.1, if_neg hplace.2]
  skip := fun t client hplace => by
    show Multiplexer.mxAdd t client = some t
    unfold Multiplexer.mxAdd
    split_ifs with hold hset
    · rfl
    · rfl
    · exact absurd ⟨hold, hset⟩ hplace
  remove := fun _ _ h hindex => h.mark hindex
  commit := fun _ h => h.multiplexer_commit

namespace TableOps.Safe

variable {ops : TableOps max α} {t : ClientTable max}

theorem step (h : ops.Safe) (ht : InOrder t) {op : TableOp α} (hplace : ops.PlaceLeft t op) :
    ∃ t', ops.step t op = some t' ∧ InOrder t' := by
  cases op with
  | add client =>
      by_cases htakes : ops.takesPlace client
      · obtain ⟨clientFd, hput⟩ := h.put t client htakes
        rw [TableOps.step, hput]
        exact ht.put (hplace htakes) clientFd
      · exact ⟨t, h.skip t client htakes, ht⟩
  | remove index =>
      rw [TableOps.step]
      split_ifs with hindex
      · exact h.remove t index ht hindex
      · exact ⟨t, rfl, ht⟩
  | commit => exact h.commit t ht

theorem step_eq_none (h : ops.Safe) {op : TableOp α} (hfull : ¬ops.PlaceLeft t op) :
    ops.step t op = none := by
  cases op with
  | add client =>
      obtain ⟨htakes, hcount⟩ := Classical.not_imp.mp hfull
      obtain ⟨clientFd, hput⟩ := h.put t client htakes
      rw [TableOps.step, hput]
      exact ClientTable.put_of_le clientFd (Nat.le_of_not_lt hcount)
  | remove index => exact absurd trivial hfull
  | commit => exact absurd trivial hfull

theorem run_iff (h : ops.Safe) (ht : InOrder t) (is : List (TableOp α)) :
    RunKeeps InArray ops.step t is ↔ RunMeets ops.PlaceLeft ops.step t is := by
  refine runKeeps_iff_of_steps (fun _ ht => ht.inArray) (fun _ _ ht hplace => h.step ht hplace)
    (fun t op t' _ hfull hstep => ?_) ht is
  rw [h.step_eq_none hfull] at hstep
  cases hstep

theorem count_of_adds (h : ops.Safe) {client : α} (htakes : ops.takesPlace client) {k : ℕ}
    {t' : ClientTable max} (hrun : run ops.step t (List.replicate k (.add client)) = some t') :
    t'.clientCount = t.clientCount + k := by
  induction k generalizing t with
  | zero =>
      cases hrun
      rfl
  | succ k ih =>
      rw [List.replicate_succ, run_cons] at hrun
      obtain ⟨t₁, hadd, hrest⟩ := Option.bind_eq_some_iff.mp hrun
      obtain ⟨clientFd, hput⟩ := h.put t client htakes
      rw [TableOps.step, hput] at hadd
      simp only [ClientTable.put, Option.bind_eq_bind, Option.bind_eq_some_iff] at hadd
      obtain ⟨entry, -, clients, -, heq⟩ := hadd
      cases heq
      have := ih hrest
      simp only at this
      omega

theorem not_keeps (h : ops.Safe) {client : α} (htakes : ops.takesPlace client) {k : ℕ}
    (hmany : max.size < t.clientCount + k) :
    ¬RunKeeps InArray ops.step t (List.replicate k (.add client)) := by
  intro hkeeps
  obtain ⟨t', hrun, hcount⟩ := hkeeps.last
  rw [InArray, h.count_of_adds htakes hrun] at hcount
  omega

end TableOps.Safe

/-- In both programs a run of the operations stays inside the array exactly when no
connection is added to a full table. -/
theorem clientTables_run_iff (max : Somaxconn) :
    (∀ sockfd junk, ∃ s, Server.initServer max sockfd junk = some s ∧ ∀ is,
      (RunKeeps InArray (Server.ops max).step s.table is ↔
        RunMeets (Server.ops max).PlaceLeft (Server.ops max).step s.table is)) ∧
    ∀ is, (RunKeeps InArray (Multiplexer.ops max).step (Multiplexer.mxInit max) is ↔
      RunMeets (Multiplexer.ops max).PlaceLeft (Multiplexer.ops max).step
        (Multiplexer.mxInit max) is) := by
  refine ⟨fun sockfd junk => ?_, (Multiplexer.safe max).run_iff (inOrder_init max)⟩
  obtain ⟨t, hput, ht⟩ := (inOrder_init max).put max.pos sockfd
  exact ⟨⟨t, junk, bufsiz⟩, by rw [Server.initServer, hput]; rfl, (Server.safe max).run_iff ht⟩

/-- One connection more than the table has places. -/
theorem clientTables_overrun :
    ¬RunKeeps InArray (Multiplexer.ops .linux).step (Multiplexer.mxInit .linux)
        (List.replicate 4097 (.add ⟨5, 0, 0⟩)) ∧
      ∃ s, Server.initServer .linux 3 (fun _ => 0) = some s ∧
        ¬RunKeeps InArray (Server.ops .linux).step s.table (List.replicate 4096 (.add 5)) := by
  refine ⟨(Multiplexer.safe .linux).not_keeps ⟨by decide, by decide⟩ (by decide), ?_⟩
  obtain ⟨t, hput, -⟩ := (inOrder_init .linux).put Somaxconn.linux.pos 3
  refine ⟨⟨t, fun _ => 0, bufsiz⟩, by rw [Server.initServer, hput]; rfl, ?_⟩
  refine (Server.safe .linux).not_keeps trivial ?_
  have hrun : run (Server.ops .linux).step (ClientTable.init .linux)
      (List.replicate 1 (.add 3)) = some t := by
    rw [List.replicate_one, run_cons]
    exact congrArg (Option.bind · some) hput
  rw [(Server.safe .linux).count_of_adds trivial hrun]
  decide

end UnixLabs.Lab31
