import UnixLabs.Lab31.ServerPolls

/-!
What `try_read` of `lab31/lab31-server.c` does with the result of `read`.

The loop that puts the buffer into upper case compares its index, a `size_t`, with the
result before the result is looked at. An error is a bound that no buffer reaches.
-/

namespace UnixLabs.Lab31

open Library

variable {max : Somaxconn}

/-! ### The loop -/

/-- The indices that the loop accesses, from `i` on with `left` to go. -/
def upcaseIndices : ℕ → ℕ → List ℕ
  | 0, _ => []
  | left + 1, i => i :: upcaseIndices left (i + 1)

theorem upcaseIndices_eq (left i : ℕ) : upcaseIndices left i = List.range' i left := by
  induction left generalizing i with
  | zero => rfl
  | succ left ih => rw [upcaseIndices, ih, List.range'_succ]

theorem upcaseFrom_isSome_iff (bufSize left i : ℕ) (buf : ℕ → CChar) :
    (Server.upcaseFrom bufSize left i buf).isSome ↔
      ∀ k ∈ upcaseIndices left i, k < bufSize := by
  induction left generalizing i buf with
  | zero => simp [Server.upcaseFrom, upcaseIndices]
  | succ left ih =>
      rw [Server.upcaseFrom, upcaseIndices, List.forall_mem_cons]
      by_cases hi : i < bufSize
      · rw [if_pos hi, ih, and_iff_right hi]
      · rw [if_neg hi]
        exact iff_of_false Bool.false_ne_true fun hall => hi hall.1

theorem upcaseFrom_frame {bufSize left i : ℕ} {buf buf' : ℕ → CChar}
    (h : Server.upcaseFrom bufSize left i buf = some buf') {k : ℕ}
    (hk : k ∉ upcaseIndices left i) : buf' k = buf k := by
  induction left generalizing i buf with
  | zero =>
      cases h
      rfl
  | succ left ih =>
      rw [upcaseIndices, List.mem_cons, not_or] at hk
      rw [Server.upcaseFrom] at h
      split_ifs at h with hi hlower
      · rw [ih h hk.2, Function.update_of_ne hk.1]
      · exact ih h hk.2

/-! ### The results of `read` -/

def readResult (s : Server max) (input : Option (List CChar)) : ℤ :=
  if input = none then -1 else ((input.getD []).take s.bufSize).length

/-- The index of the client that the next step reads from, if it reads. -/
def readAt (s : Serving max) : Option ℕ :=
  match s.place with
  | .read readableCount i readFd =>
      if readFd ≤ readableCount ∧ i < s.server.table.clientCount then do
        let client ← s.server.table.clients.load i
        if client.revents &&& pollIn ≠ 0 then some i else none
      else none
  | _ => none

/-- The loop over `left` indices accesses these: it has a result when they are in the buffer,
and then the rest of the buffer is as it was. -/
structure Accesses (left : ℕ) (indices : List ℕ) : Prop where
  defined : ∀ bufSize buf,
    (Server.upcaseFrom bufSize left 0 buf).isSome ↔ ∀ k ∈ indices, k < bufSize
  frame : ∀ bufSize buf buf', Server.upcaseFrom bufSize left 0 buf = some buf' →
    ∀ k ∉ indices, buf' k = buf k

theorem accesses_upcaseIndices (left : ℕ) : Accesses left (upcaseIndices left 0) :=
  ⟨fun bufSize buf => upcaseFrom_isSome_iff bufSize left 0 buf,
    fun _ _ _ h _ hk => upcaseFrom_frame h hk⟩

/-- The loop takes as many steps as bytes were read, and accesses these. -/
structure LoopRight (result : ℤ) : Prop where
  accesses : Accesses (sizeT result) (upcaseIndices (sizeT result) 0)
  inside : ∀ k ∈ upcaseIndices (sizeT result) 0, (k : ℤ) < Max.max result 0
  steps : ((upcaseIndices (sizeT result) 0).length : ℤ) = Max.max result 0

/-- The step marks the client. It prints nothing and leaves the buffer as it is. -/
def RemovedQuietly (s : Serving max) (answers : Answers) (i : ℕ) : Prop :=
  ∃ s', serverStep s answers = some ([], s') ∧ s'.server.buf = s.server.buf ∧
    fds s'.server.table.clients i = removedClient

def ReadRight (s : Serving max) (answers : Answers) : Prop :=
  ∀ i ∈ readAt s, LoopRight (readResult s.server answers.input) ∧
    (readResult s.server answers.input ≤ 0 → RemovedQuietly s answers i)

def ReadSucceeds (s : Serving max) (answers : Answers) : Prop :=
  ∀ i ∈ readAt s, readResult s.server answers.input ≠ -1

/-- The loop of `try_read` is behind the listener, and the size of the buffer is a
`size_t`. -/
structure BehindListener (s : Serving max) : Prop where
  index : ∀ readableCount i readFd, s.place = .read readableCount i readFd → i ≠ 0
  size : s.server.bufSize < 2 ^ 64

theorem loopRight_iff {result : ℤ} (hlow : -1 ≤ result) (hhigh : result < 2 ^ 64) :
    LoopRight result ↔ result ≠ -1 := by
  constructor
  · rintro ⟨-, hinside, -⟩ rfl
    have hmem : 0 ∈ upcaseIndices (sizeT (-1)) 0 := by
      rw [upcaseIndices_eq, List.mem_range'_1]
      exact ⟨le_rfl, by decide⟩
    exact absurd (hinside 0 hmem) (by decide)
  · intro hne
    obtain ⟨n, rfl⟩ : ∃ n : ℕ, result = n := Int.eq_ofNat_of_zero_le (by omega)
    have hsize : sizeT (n : ℤ) = n := sizeT_natCast (by omega)
    refine ⟨accesses_upcaseIndices _, fun k hk => ?_, ?_⟩
    · rw [hsize, upcaseIndices_eq, List.mem_range'_1] at hk
      omega
    · rw [hsize, upcaseIndices_eq, List.length_range']
      omega

/-! ### One step -/

theorem readAt_eq_some {s : Serving max} {i : ℕ} (h : readAt s = some i) :
    ∃ readableCount readFd, s.place = .read readableCount i readFd ∧ readFd ≤ readableCount ∧
      i < s.server.table.clientCount ∧ ∃ client, s.server.table.clients.load i = some client ∧
        client.revents &&& pollIn ≠ 0 := by
  unfold readAt at h
  split at h
  · rename_i readableCount j readFd hplace
    split_ifs at h with hmore
    obtain ⟨client, hload, hclient⟩ := Option.bind_eq_some_iff.mp h
    split_ifs at hclient with hinput
    cases hclient
    exact ⟨readableCount, readFd, hplace, hmore.1, hmore.2, client, hload, hinput⟩
  · cases h

theorem readResult_bounds (s : Server max) (input : Option (List CChar)) :
    -1 ≤ readResult s input ∧ readResult s input ≤ s.bufSize := by
  unfold readResult
  split_ifs
  · omega
  · have hle : ((input.getD []).take s.bufSize).length ≤ s.bufSize := List.length_take_le _ _
    omega

theorem fds_mark {t : ClientTable max} {i : ℕ} {client : Pollfd}
    (hload : t.clients.load i = some client) :
    ∃ t', t.mark i = some t' ∧ fds t'.clients i = removedClient := by
  have hlt : i < max.size := by
    unfold CArray.load at hload
    split_ifs at hload with hin
    omega
  rw [CArray.load_of_lt _ hlt, Option.some_inj] at hload
  subst hload
  rw [ClientTable.mark, CArray.load_of_lt _ hlt, Option.bind_eq_bind, Option.bind_some]
  by_cases hmark : (t.clients.cells i).fd = removedClient
  · rw [if_pos hmark]
    exact ⟨t, rfl, hmark⟩
  · obtain ⟨clients, hstore⟩ : ∃ clients, t.clients.store i
        { t.clients.cells i with fd := removedClient } = some clients :=
      ⟨_, CArray.store_of_lt _ _ hlt⟩
    rw [if_neg hmark, hstore]
    refine ⟨_, rfl, ?_⟩
    show fds clients i = removedClient
    rw [fds_store hstore, Function.update_self]

theorem BehindListener.removedQuietly {s : Serving max} (h : BehindListener s) {i : ℕ}
    (hread : readAt s = some i) {answers : Answers}
    (hzero : readResult s.server answers.input = 0) : RemovedQuietly s answers i := by
  obtain ⟨readableCount, readFd, hplace, hcount, hi, client, hload, hinput⟩ := readAt_eq_some hread
  obtain ⟨table, hmark, hfd⟩ := fds_mark hload
  have hsome : answers.input ≠ none := fun hnone => by
    rw [readResult, if_pos hnone] at hzero
    cases hzero
  have hnil : (answers.input.getD []).take s.server.bufSize = [] := by
    rw [readResult, if_neg hsome, Nat.cast_eq_zero] at hzero
    exact List.length_eq_zero_iff.mp hzero
  have hremove : Server.removeClient s.server.table i = some table := by
    rw [Server.removeClient, if_neg (h.index _ _ _ hplace), hmark]
  have hclient : Server.readClient s.server i answers.input =
      some ([], { s.server with table }) := by
    simp only [Server.readClient, hnil, if_neg hsome, List.length_nil, Nat.cast_zero,
      show ¬((0 : ℤ) = -1) by decide, if_false, if_true, hremove, Option.bind_eq_bind,
      Option.bind_some, show sizeT 0 = 0 from rfl, Server.upcaseFrom, writeAt_nil]
    rfl
  refine ⟨⟨{ s.server with table }, .read readableCount (i + 1) (readFd + 1)⟩, ?_, rfl, hfd⟩
  simp only [serverStep, hplace, tryReadAt, hcount, hi, and_self, if_true, hload, hinput, ne_eq,
    not_false_eq_true, hclient, Option.bind_eq_bind, Option.bind_some]

theorem BehindListener.readRight_iff {s : Serving max} (h : BehindListener s) (answers : Answers) :
    ReadRight s answers ↔ ReadSucceeds s answers := by
  obtain ⟨hlow, hhigh⟩ := readResult_bounds s.server answers.input
  have hsize := h.size
  have hiff := loopRight_iff hlow (by omega)
  refine forall₂_congr fun i hread => ⟨fun hright => hiff.mp hright.1, fun hne => ?_⟩
  exact ⟨hiff.mpr hne, fun hle => h.removedQuietly hread (by omega)⟩

theorem BehindListener.step {s s' : Serving max} (h : BehindListener s) {answers : Answers}
    {printed : List CChar} (hstep : serverStep s answers = some (printed, s')) :
    BehindListener s' := by
  unfold serverStep at hstep
  split at hstep
  · split at hstep
    · cases hstep
      exact ⟨fun _ _ _ hread => (by cases hread), h.size⟩
    · cases hstep
      exact ⟨fun _ _ _ hread => (by cases hread), h.size⟩
  · rename_i fdCount hplace
    obtain ⟨s₁, haccept, heq⟩ := Option.map_eq_some_iff.mp hstep
    cases heq
    simp only [acceptOnce, Option.bind_eq_bind, Option.bind_eq_some_iff] at haccept
    obtain ⟨listener, -, haccept⟩ := haccept
    split_ifs at haccept
    · cases haccept
      exact ⟨fun _ _ _ hread => (by cases hread), h.size⟩
    · obtain ⟨table, -, heq⟩ := Option.bind_eq_some_iff.mp haccept
      cases heq
      exact ⟨fun _ _ _ hread => by cases hread; decide, h.size⟩
    · cases haccept
      exact ⟨fun _ _ _ hread => by cases hread; decide, h.size⟩
  · rename_i readableCount i readFd hplace
    unfold tryReadAt at hstep
    split_ifs at hstep
    · simp only [Option.bind_eq_bind, Option.bind_eq_some_iff] at hstep
      obtain ⟨client, -, hstep⟩ := hstep
      split_ifs at hstep
      · obtain ⟨⟨bytes, s₁⟩, hclient, heq⟩ := Option.bind_eq_some_iff.mp hstep
        cases heq
        simp only [Server.readClient, Option.bind_eq_bind, Option.bind_eq_some_iff] at hclient
        obtain ⟨buf, -, t₁, -, t₂, -, heq⟩ := hclient
        cases heq
        exact ⟨fun _ _ _ hread => by cases hread; exact Nat.succ_ne_zero i, h.size⟩
      · cases hstep
        exact ⟨fun _ _ _ hread => by cases hread; exact Nat.succ_ne_zero i, h.size⟩
    · obtain ⟨table, -, heq⟩ := Option.bind_eq_some_iff.mp hstep
      cases heq
      exact ⟨fun _ _ _ hread => (by cases hread), h.size⟩
  · cases hstep
    exact h

/-! ### Runs -/

def silentStep (s : Serving max) (answers : Answers) : Option (Serving max) :=
  (serverStep s answers).map Prod.snd

theorem BehindListener.start {sockfd : ℤ} {junk : ℕ → CChar} {s : Serving max}
    (h : Serving.start max sockfd junk = some s) : BehindListener s := by
  obtain ⟨server, hinit, rfl⟩ := Option.map_eq_some_iff.mp h
  obtain ⟨table, -, rfl⟩ := Option.map_eq_some_iff.mp hinit
  exact ⟨nofun, show bufsiz < 2 ^ 64 by decide⟩

/-- Every round of `try_read` is right exactly as long as no `read` fails. -/
theorem reads_right_iff (max : Somaxconn) (sockfd : ℤ) (junk : ℕ → CChar) :
    ∃ s, Serving.start max sockfd junk = some s ∧
      ∀ is, RunMeets ReadRight silentStep s is ↔ RunMeets ReadSucceeds silentStep s is := by
  have hput := (ClientTable.init max).put_of_lt sockfd max.pos
  obtain ⟨s, hstart⟩ : ∃ s, Serving.start max sockfd junk = some s :=
    ⟨_, by rw [Serving.start, Server.initServer, hput]; rfl⟩
  refine ⟨s, hstart, fun is => ?_⟩
  refine runMeets_iff_of_steps (fun _ answers h => h.readRight_iff answers)
    (fun s answers s' h _ hstep => ?_) (BehindListener.start hstart) is
  obtain ⟨⟨printed, _⟩, hserver, rfl⟩ := Option.map_eq_some_iff.mp hstep
  exact h.step hserver

/-- A client comes, and the first `read` from it fails. The index of the loop runs past
the buffer. -/
theorem reads_error_leaves_buffer : ∃ s, Serving.start .linux 3 (fun _ => 0) = some s ∧
    ¬RunMeets ReadRight silentStep s
      ([.polls [0], .accepts 10, .quiet, .quiet, .polls [1], .quiet] ++ [.quiet]) := by
  have hany : ((Serving.start .linux 3 fun _ => 0).bind fun s =>
      run silentStep s [.polls [0], .accepts 10, .quiet, .quiet, .polls [1], .quiet]).any
        (fun s => readAt s = some 1) = true := by
    decide +kernel
  obtain ⟨s', hbind, hread⟩ := (Option.any_eq_true _ _).mp hany
  obtain ⟨s, hstart, hrun⟩ := Option.bind_eq_some_iff.mp hbind
  refine ⟨s, hstart, fun h => ?_⟩
  have hright : ReadRight s' .quiet := h.after hrun
  have hloop : LoopRight (-1) := (hright 1 (of_decide_eq_true hread)).1
  exact (loopRight_iff le_rfl (by decide)).mp hloop rfl

end UnixLabs.Lab31
