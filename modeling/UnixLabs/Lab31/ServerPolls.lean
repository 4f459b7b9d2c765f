import UnixLabs.Library.Run
import UnixLabs.Lab31.ServerLoop

/-!
On whose flags `try_read` acts.

`poll` rewrites the flags of the entries in use, so that it does not matter whose they
were when `commit_remove_clients` has moved a descriptor. An entry that `mx_add` takes
after the call still has the flags of an earlier client, and `try_read` acts on them.
-/

namespace UnixLabs.Lab31

open Library

variable {max : Somaxconn}

/-! ### What the operations leave alone -/

theorem put_frame {t t' : ClientTable max} {clientFd : ℤ} (h : t.put clientFd = some t') :
    t'.clientCount = t.clientCount + 1 ∧
      t'.clients.cells = Function.update t.clients.cells t.clientCount
        { t.clients.cells t.clientCount with fd := clientFd } := by
  simp only [ClientTable.put, Option.bind_eq_bind, Option.bind_eq_some_iff] at h
  obtain ⟨client, hload, clients, hstore, heq⟩ := h
  cases heq
  rw [CArray.cells_of_load hload]
  exact ⟨rfl, CArray.cells_of_store hstore⟩

structure SameElsewhere (t t' : ClientTable max) (i : ℕ) : Prop where
  count : t'.clientCount = t.clientCount
  cells : ∀ k, k ≠ i → t'.clients.cells k = t.clients.cells k

namespace SameElsewhere

variable {t t' t'' : ClientTable max} {i : ℕ}

theorem refl (t : ClientTable max) (i : ℕ) : SameElsewhere t t i := ⟨rfl, fun _ _ => rfl⟩

theorem trans (h : SameElsewhere t t' i) (h' : SameElsewhere t' t'' i) :
    SameElsewhere t t'' i where
  count := h'.count.trans h.count
  cells := fun k hk => (h'.cells k hk).trans (h.cells k hk)

theorem mark (h : t.mark i = some t') : SameElsewhere t t' i := by
  simp only [ClientTable.mark, Option.bind_eq_bind, Option.bind_eq_some_iff] at h
  obtain ⟨client, -, h⟩ := h
  by_cases hmarked : client.fd = removedClient
  · rw [if_pos hmarked] at h
    cases h
    exact refl t i
  · rw [if_neg hmarked] at h
    obtain ⟨clients, hstore, heq⟩ := Option.bind_eq_some_iff.mp h
    cases heq
    refine ⟨rfl, fun k hk => ?_⟩
    show clients.cells k = t.clients.cells k
    rw [CArray.cells_of_store hstore, Function.update_of_ne hk]

theorem removeClient (h : Server.removeClient t i = some t') : SameElsewhere t t' i := by
  unfold Server.removeClient at h
  split_ifs at h
  · cases h
    exact refl t i
  · exact mark h

theorem removeClient_if {p : Prop} [Decidable p]
    (h : (if p then Server.removeClient t i else some t) = some t') : SameElsewhere t t' i := by
  split_ifs at h
  · exact removeClient h
  · cases h
    exact refl t i

theorem readClient {s s' : Server max} {input : Option (List CChar)} {printed : List CChar}
    (h : Server.readClient s i input = some (printed, s')) :
    SameElsewhere s.table s'.table i := by
  simp only [Server.readClient, Option.bind_eq_bind, Option.bind_eq_some_iff] at h
  obtain ⟨buf, -, t₁, h₁, t₂, h₂, heq⟩ := h
  cases heq
  exact (removeClient_if h₁).trans (removeClient_if h₂)

end SameElsewhere

/-! ### The server and what `poll` has reported -/

def readable (t : ClientTable max) : List ℤ :=
  ((List.range t.clientCount).filter fun k => (t.clients.cells k).revents &&& pollIn ≠ 0).map
    fun k => (t.clients.cells k).fd

/-- The server, and the descriptors for which the last poll call reported input. -/
structure PollWorld (max : Somaxconn) where
  serving : Serving max
  reported : List ℤ

def readsFrom (s : Serving max) : Option ℤ :=
  match s.place with
  | .read readableCount i readFd =>
      if readFd ≤ readableCount ∧ i < s.server.table.clientCount then do
        let client ← s.server.table.clients.load i
        if client.revents &&& pollIn ≠ 0 then some client.fd else none
      else none
  | _ => none

namespace PollWorld

def start (max : Somaxconn) (sockfd : ℤ) (junk : ℕ → CChar) : Option (PollWorld max) :=
  (Serving.start max sockfd junk).map fun serving => ⟨serving, []⟩

def reportedAfter (w : PollWorld max) (answers : Answers) (after : ClientTable max) : List ℤ :=
  match w.serving.place, answers.revents with
  | .poll, some _ => readable after
  | _, _ => w.reported

def step (w : PollWorld max) (answers : Answers) : Option (PollWorld max) :=
  (serverStep w.serving answers).map fun (_, serving) =>
    ⟨serving, w.reportedAfter answers serving.server.table⟩

/-- The next step reads only from a descriptor for which the poll call of the round has
reported input. -/
def Right (w : PollWorld max) : Prop := ∀ fd ∈ readsFrom w.serving, fd ∈ w.reported

end PollWorld

/-- A client that is accepted gets an entry that does not say that there is input. -/
def PlaceClear (s : Serving max) (answers : Answers) : Prop :=
  match s.place with
  | .accept _ => (s.server.table.clients.cells 0).revents &&& pollIn ≠ 0 →
      answers.accepted ≠ -1 →
        ∀ entry ∈ s.server.table.clients.load s.server.table.clientCount,
          entry.revents &&& pollIn = 0
  | _ => True

/-! ### One step -/

/-- From entry `i` on, the flags are those of the poll call. -/
def FromPoll (t : ClientTable max) (reported : List ℤ) (i : ℕ) : Prop :=
  ∀ k, i ≤ k → k < t.clientCount → (t.clients.cells k).revents &&& pollIn ≠ 0 →
    (t.clients.cells k).fd ∈ reported

theorem fromPoll_readable (t : ClientTable max) (i : ℕ) : FromPoll t (readable t) i := by
  intro k _ hk hinput
  refine List.mem_map.mpr ⟨k, List.mem_filter.mpr ⟨List.mem_range.mpr hk, ?_⟩, rfl⟩
  exact decide_eq_true hinput

namespace FromPoll

variable {t t' : ClientTable max} {reported : List ℤ} {i : ℕ}

theorem mono (h : FromPoll t reported i) {j : ℕ} (hij : i ≤ j) : FromPoll t reported j :=
  fun k hjk => h k (hij.trans hjk)

/-- What becomes of the entry that has been read does not matter any more. -/
theorem next (h : FromPoll t reported i) (hsame : SameElsewhere t t' i) :
    FromPoll t' reported (i + 1) := by
  intro k hik hk
  rw [hsame.cells k (by omega)]
  rw [hsame.count] at hk
  exact h k (by omega) hk

theorem put (h : FromPoll t reported i) {clientFd : ℤ} (hput : t.put clientFd = some t')
    (hclear : (t.clients.cells t.clientCount).revents &&& pollIn = 0) :
    FromPoll t' reported i := by
  obtain ⟨hcount, hcells⟩ := put_frame hput
  intro k hik hk hinput
  rw [hcells] at hinput ⊢
  by_cases hnew : k = t.clientCount
  · subst hnew
    rw [Function.update_self] at hinput
    exact absurd hclear hinput
  · rw [Function.update_of_ne hnew] at hinput ⊢
    exact h k hik (by omega) hinput

end FromPoll

namespace PollWorld

/-- Between the poll call and the end of the scan, what is still to be scanned has the
flags of the call. -/
def InOrder (w : PollWorld max) : Prop :=
  match w.serving.place with
  | .accept _ => FromPoll w.serving.server.table w.reported 0
  | .read _ i _ => FromPoll w.serving.server.table w.reported i
  | _ => True

variable {w w' : PollWorld max} {answers : Answers}

theorem InOrder.right (h : w.InOrder) : w.Right := by
  intro fd hreads
  rw [Option.mem_def, readsFrom] at hreads
  split at hreads
  · rename_i readableCount i readFd hplace
    simp only [InOrder, hplace] at h
    split_ifs at hreads with hmore
    obtain ⟨client, hload, hclient⟩ := Option.bind_eq_some_iff.mp hreads
    split_ifs at hclient with hinput
    cases hclient
    rw [← CArray.cells_of_load hload] at hinput ⊢
    exact h i le_rfl hmore.2 hinput
  · cases hreads

theorem InOrder.pollStep (hplace : w.serving.place = .poll) (hstep : step w answers = some w') :
    w'.InOrder := by
  obtain ⟨⟨printed, s'⟩, hs, rfl⟩ := Option.map_eq_some_iff.mp hstep
  simp only [serverStep, hplace] at hs
  cases hrevents : answers.revents with
  | none =>
      rw [hrevents] at hs
      cases hs
      trivial
  | some revents =>
      rw [hrevents] at hs
      cases hs
      show FromPoll _ (w.reportedAfter answers _) 0
      simp only [reportedAfter, hplace, hrevents]
      exact fromPoll_readable _ 0

theorem InOrder.acceptStep (h : w.InOrder) {fdCount : ℕ}
    (hplace : w.serving.place = .accept fdCount) (hclear : PlaceClear w.serving answers)
    (hstep : step w answers = some w') : w'.InOrder := by
  obtain ⟨⟨printed, s'⟩, hs, rfl⟩ := Option.map_eq_some_iff.mp hstep
  simp only [InOrder, hplace] at h
  simp only [PlaceClear, hplace] at hclear
  simp only [serverStep, hplace, Option.map_eq_some_iff] at hs
  obtain ⟨s, hs, heq⟩ := hs
  cases heq
  have hreported : ∀ t, w.reportedAfter answers t = w.reported := fun t => by
    simp only [reportedAfter, hplace]
  simp only [acceptOnce, Option.bind_eq_bind, Option.bind_eq_some_iff] at hs
  obtain ⟨listener, hload, hs⟩ := hs
  rw [← CArray.cells_of_load hload] at hs
  split_ifs at hs with hpending hfailed
  · cases hs
    trivial
  · obtain ⟨table, hput, heq⟩ := Option.bind_eq_some_iff.mp hs
    cases heq
    show FromPoll table (w.reportedAfter answers table) 1
    rw [hreported]
    obtain ⟨entry, hentry, -⟩ := Option.bind_eq_some_iff.mp hput
    refine (h.put hput ?_).mono zero_le_one
    rw [CArray.cells_of_load hentry]
    exact hclear hpending hfailed entry hentry
  · cases hs
    show FromPoll w.serving.server.table (w.reportedAfter answers w.serving.server.table) 1
    rw [hreported]
    exact h.mono zero_le_one

theorem InOrder.readStep (h : w.InOrder) {readableCount i readFd : ℕ}
    (hplace : w.serving.place = .read readableCount i readFd)
    (hstep : step w answers = some w') : w'.InOrder := by
  obtain ⟨⟨printed, s'⟩, hs, rfl⟩ := Option.map_eq_some_iff.mp hstep
  simp only [InOrder, hplace] at h
  have hreported : ∀ t, w.reportedAfter answers t = w.reported := fun t => by
    simp only [reportedAfter, hplace]
  simp only [serverStep, hplace, tryReadAt] at hs
  split_ifs at hs with hmore
  · obtain ⟨client, -, hs⟩ := Option.bind_eq_some_iff.mp hs
    split_ifs at hs
    · obtain ⟨⟨bytes, server⟩, hread, heq⟩ := Option.bind_eq_some_iff.mp hs
      cases heq
      show FromPoll server.table (w.reportedAfter answers server.table) (i + 1)
      rw [hreported]
      exact h.next (.readClient hread)
    · cases hs
      show FromPoll w.serving.server.table (w.reportedAfter answers w.serving.server.table) (i + 1)
      rw [hreported]
      exact h.mono i.le_succ
  · obtain ⟨table, -, heq⟩ := Option.bind_eq_some_iff.mp hs
    cases heq
    trivial

theorem InOrder.step (h : w.InOrder) (hclear : PlaceClear w.serving answers)
    (hstep : PollWorld.step w answers = some w') : w'.InOrder := by
  cases hplace : w.serving.place with
  | poll => exact pollStep hplace hstep
  | accept fdCount => exact h.acceptStep hplace hclear hstep
  | read readableCount i readFd => exact h.readStep hplace hstep
  | stopped =>
      obtain ⟨⟨printed, s'⟩, hs, rfl⟩ := Option.map_eq_some_iff.mp hstep
      simp only [serverStep, hplace] at hs
      cases hs
      simp only [InOrder, hplace]

/-! ### Runs -/

theorem InOrder.start {max : Somaxconn} {sockfd : ℤ} {junk : ℕ → CChar} {w : PollWorld max}
    (h : PollWorld.start max sockfd junk = some w) : w.InOrder := by
  simp only [PollWorld.start, Serving.start, Option.map_eq_some_iff] at h
  obtain ⟨s, ⟨server, -, rfl⟩, rfl⟩ := h
  trivial

end PollWorld

/-- In a run in which every client gets a clear entry, `try_read` reads only from
descriptors for which the poll call of the same round has reported input. -/
theorem polls_before_reads (max : Somaxconn) (sockfd : ℤ) (junk : ℕ → CChar) :
    ∃ w, PollWorld.start max sockfd junk = some w ∧ ∀ is,
      RunMeets (fun w answers => PlaceClear w.serving answers) PollWorld.step w is →
        RunMeets (fun w _ => w.Right) PollWorld.step w is := by
  have hput := (ClientTable.init max).put_of_lt sockfd max.pos
  obtain ⟨w, hstart⟩ : ∃ w, PollWorld.start max sockfd junk = some w :=
    ⟨_, by rw [PollWorld.start, Serving.start, Server.initServer, hput]; rfl⟩
  refine ⟨w, hstart, fun is hclear => ?_⟩
  exact runMeets_of_meets (fun _ _ h => h.right)
    (fun _ _ _ h hclear hstep => h.step hclear hstep) (PollWorld.InOrder.start hstart) hclear

/-! ### A client with flags of an earlier one -/

def inputs (t : ClientTable max) (i : ℕ) : ℕ :=
  (List.range i).countP fun k => k ≠ 0 ∧ (t.clients.cells k).revents &&& pollIn ≠ 0

theorem inputs_succ (t : ClientTable max) {i : ℕ} (hi : i ≠ 0) : inputs t (i + 1) =
    inputs t i + if (t.clients.cells i).revents &&& pollIn ≠ 0 then 1 else 0 := by
  simp [inputs, List.range_succ, hi]

theorem inputs_mono (t : ClientTable max) : Monotone (inputs t) := by
  refine monotone_nat_of_le_succ fun i => ?_
  rw [inputs, inputs, List.range_succ, List.countP_append]
  exact Nat.le_add_right _ _

theorem inputs_lt_pollResult {t : ClientTable max} (hpos : 0 < t.clientCount)
    (hpending : (t.clients.cells 0).revents &&& pollIn ≠ 0) :
    inputs t t.clientCount < pollResult t := by
  have hset : ∀ k, (t.clients.cells k).revents &&& pollIn ≠ 0 → (t.clients.cells k).revents ≠ 0 :=
    fun k hinput hzero => hinput (by rw [hzero]; exact BitVec.zero_and)
  obtain ⟨n, hn⟩ : ∃ n, t.clientCount = n + 1 := ⟨t.clientCount - 1, by omega⟩
  have hlistener := decide_eq_true (hset 0 hpending)
  rw [inputs, pollResult, hn, List.range_succ_eq_map, List.countP_cons_of_neg (by simp),
    List.countP_cons, if_pos hlistener]
  refine Nat.lt_succ_of_le (List.countP_mono_left fun k _ hk => ?_)
  exact decide_eq_true (hset k (of_decide_eq_true hk).2)

structure Scanning (t : ClientTable max) (entry : Pollfd) (s : Serving max) (i : ℕ) : Prop where
  place : ∃ readableCount readFd, s.place = .read readableCount i readFd ∧
    readFd ≤ inputs t i ∧ inputs t t.clientCount ≤ readableCount
  started : i ≠ 0
  count : s.server.table.clientCount = t.clientCount + 1
  ahead : ∀ k, i ≤ k → k < t.clientCount →
    s.server.table.clients.cells k = t.clients.cells k
  last : s.server.table.clients.cells t.clientCount = entry

namespace Scanning

variable {t : ClientTable max} {entry : Pollfd} {i : ℕ}

/-- `mx_add` leaves the entries ahead as they are, and the flags of its own. -/
theorem start {s : Server max} {table : ClientTable max} {clientFd : ℤ}
    (hput : s.table.put clientFd = some table) {readableCount : ℕ}
    (hcount : inputs s.table s.table.clientCount ≤ readableCount) :
    Scanning s.table { s.table.clients.cells s.table.clientCount with fd := clientFd }
      ⟨{ s with table }, .read readableCount 1 0⟩ 1 := by
  obtain ⟨hput, hcells⟩ := put_frame hput
  refine ⟨⟨readableCount, 0, rfl, Nat.zero_le _, hcount⟩, one_ne_zero, hput, fun k _ hk => ?_, ?_⟩
  · rw [hcells, Function.update_of_ne hk.ne]
  · rw [hcells, Function.update_self]

theorem next {s s' : Serving max} (h : Scanning t entry s i) (hi : i < t.clientCount)
    {answers : Answers} {printed : List CChar}
    (hstep : serverStep s answers = some (printed, s')) : Scanning t entry s' (i + 1) := by
  obtain ⟨readableCount, readFd, hplace, hread, hcount⟩ := h.place
  have hmono := inputs_mono t hi.le
  have hsucc := inputs_succ t h.started
  have hmore : readFd ≤ readableCount ∧ i < s.server.table.clientCount := by
    rw [h.count]
    omega
  simp only [serverStep, hplace, tryReadAt, if_pos hmore] at hstep
  obtain ⟨client, hload, hstep⟩ := Option.bind_eq_some_iff.mp hstep
  rw [← CArray.cells_of_load hload, h.ahead i le_rfl hi] at hstep
  split_ifs at hstep with hinput
  · obtain ⟨⟨bytes, server⟩, hserver, heq⟩ := Option.bind_eq_some_iff.mp hstep
    cases heq
    have hsame := SameElsewhere.readClient hserver
    rw [if_pos hinput] at hsucc
    refine ⟨⟨_, _, rfl, by omega, hcount⟩, i.succ_ne_zero, ?_, fun k hik hk => ?_, ?_⟩
    · exact hsame.count.trans h.count
    · exact (hsame.cells k (by omega)).trans (h.ahead k (by omega) hk)
    · exact (hsame.cells _ (by omega)).trans h.last
  · cases hstep
    refine ⟨⟨_, _, rfl, by omega, hcount⟩, i.succ_ne_zero, h.count, fun k hik hk => ?_, h.last⟩
    exact h.ahead k (by omega) hk

/-- The scan gets to that entry, and reads from it if its flags say so. -/
theorem reads {w w' : PollWorld max} (h : Scanning t entry w.serving i)
    (hlt : t.clientCount < max.size) (hinput : entry.revents &&& pollIn ≠ 0)
    {js : List Answers} (hlength : i + js.length = t.clientCount)
    (hrun : run PollWorld.step w js = some w') : readsFrom w'.serving = some entry.fd := by
  induction js generalizing w i with
  | nil =>
      cases hrun
      obtain rfl : i = t.clientCount := hlength
      obtain ⟨readableCount, readFd, hplace, hread, hcount⟩ := h.place
      have hmore : readFd ≤ readableCount ∧ t.clientCount < t.clientCount + 1 := by omega
      simp only [readsFrom, hplace, h.count, if_pos hmore, CArray.load_of_lt _ hlt, h.last,
        Option.bind_eq_bind, Option.bind_some, if_pos hinput]
  | cons answers js ih =>
      obtain ⟨w₁, hstep, hrest⟩ := Option.bind_eq_some_iff.mp hrun
      obtain ⟨⟨printed, s'⟩, hs, rfl⟩ := Option.map_eq_some_iff.mp hstep
      rw [List.length_cons] at hlength
      exact ih (h.next (by omega) hs) (by omega) hrest

end Scanning

/-- When a client gets an entry that says that there is input, it is read from in the
same round, whatever the others send. -/
theorem reads_from_unclear_place {w w' : PollWorld max} {answers : Answers}
    (hplace : w.serving.place = .accept (pollResult w.serving.server.table))
    (hpos : 0 < w.serving.server.table.clientCount) (hunclear : ¬PlaceClear w.serving answers)
    {js : List Answers} (hlength : 1 + js.length = w.serving.server.table.clientCount)
    (hrun : run PollWorld.step w (answers :: js) = some w') :
    readsFrom w'.serving = some answers.accepted := by
  simp only [PlaceClear, hplace, Classical.not_imp, not_forall, Option.mem_def] at hunclear
  obtain ⟨hpending, hfailed, entry, hentry, hinput⟩ := hunclear
  have hlt : w.serving.server.table.clientCount < max.size := by
    by_contra hfull
    rw [CArray.load, if_neg (by omega)] at hentry
    cases hentry
  obtain ⟨table, hput⟩ : ∃ table, w.serving.server.table.put answers.accepted = some table :=
    ⟨_, ClientTable.put_of_lt _ _ hlt⟩
  have hcounted : inputs w.serving.server.table w.serving.server.table.clientCount ≤
      sizeT ((pollResult w.serving.server.table : ℤ) - 1) := by
    have hresult : pollResult w.serving.server.table ≤ w.serving.server.table.clientCount :=
      List.countP_le_length.trans_eq List.length_range
    have hless := inputs_lt_pollResult hpos hpending
    have hint := max.lt
    rw [sizeT, Int.emod_eq_of_lt (by omega) (by omega)]
    omega
  obtain ⟨w₁, hstep, hrest⟩ := Option.bind_eq_some_iff.mp hrun
  obtain ⟨⟨printed, s'⟩, hs, rfl⟩ := Option.map_eq_some_iff.mp hstep
  simp only [serverStep, hplace, acceptOnce, CArray.load_of_lt _ max.pos, if_pos hpending,
    if_neg hfailed, Server.mxAdd, hput, Option.bind_eq_bind, Option.bind_some, Option.map_some,
    Option.some_inj, Prod.mk.injEq] at hs
  obtain ⟨-, rfl⟩ := hs
  have hscan := Scanning.start hput hcounted
  rw [CArray.cells_of_load hentry] at hscan
  exact @Scanning.reads _ _ { entry with fd := answers.accepted } _ ⟨_, _⟩ w' hscan hlt hinput _
    hlength hrest

/-! ### Runs on fixed inputs -/

instance : ∀ (s : Serving max) (answers : Answers), Decidable (PlaceClear s answers)
  | ⟨s, .accept _⟩, answers =>
      inferInstanceAs (Decidable ((s.table.clients.cells 0).revents &&& pollIn ≠ 0 →
        answers.accepted ≠ -1 → ∀ entry ∈ s.table.clients.load s.table.clientCount,
          entry.revents &&& pollIn = 0))
  | ⟨_, .poll⟩, _ | ⟨_, .read _ _ _⟩, _ | ⟨_, .stopped⟩, _ => isTrue trivial

/-- Two clients come, the first leaves, so that the second gets its entry, and a third
comes before both send something. -/
def Answers.visits : List Answers :=
  [polls [0], accepts 10, quiet, quiet,
    polls [0], accepts 11, quiet, quiet, quiet,
    polls [1], quiet, reads [], quiet, quiet,
    polls [0], accepts 12, quiet, quiet, quiet,
    polls [1, 2], quiet, reads [104], reads [105], quiet]

theorem polls_before_reads_visits : ∃ w, PollWorld.start .linux 3 (fun _ => 0) = some w ∧
    RunMeets (fun w answers => PlaceClear w.serving answers) PollWorld.step w Answers.visits ∧
    RunMeets (fun w _ => w.Right) PollWorld.step w Answers.visits := by
  obtain ⟨w, hstart, hruns⟩ := polls_before_reads .linux 3 fun _ => 0
  have hany : (PollWorld.start .linux 3 fun _ => 0).any (fun w =>
      RunMeets (fun w answers => PlaceClear w.serving answers) PollWorld.step w
        Answers.visits) = true := by
    decide +kernel
  rw [hstart, Option.any_some, decide_eq_true_eq] at hany
  exact ⟨w, hstart, hany, hruns _ hany⟩

/-- The client of `visit` has left, with its flags, and another one comes. It is read
from although `poll` has reported input only for the listening socket. -/
theorem reads_from_new_client : ∃ w, PollWorld.start .linux 3 (fun _ => 0) = some w ∧
    ¬RunMeets (fun w _ => w.Right) PollWorld.step w
      (Answers.visit ++ [.polls [0], .accepts 11] ++ [.quiet]) := by
  have hany : ((PollWorld.start .linux 3 fun _ => 0).bind fun w =>
      run PollWorld.step w (Answers.visit ++ [.polls [0], .accepts 11])).any
        (fun w => readsFrom w.serving = some 11 ∧ w.reported = [3]) = true := by
    decide +kernel
  obtain ⟨w', hbind, hread⟩ := (Option.any_eq_true _ _).mp hany
  obtain ⟨w, hstart, hrun⟩ := Option.bind_eq_some_iff.mp hbind
  obtain ⟨hfrom, hreported⟩ := of_decide_eq_true hread
  refine ⟨w, hstart, fun h => ?_⟩
  have hright : w'.Right := h.after hrun
  have hmem := hright 11 hfrom
  rw [hreported] at hmem
  exact absurd hmem (by decide)

end UnixLabs.Lab31
