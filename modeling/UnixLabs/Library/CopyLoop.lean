import UnixLabs.Library.Memory
import UnixLabs.Library.Run

/-!
Loops that read into a buffer and write from it until there is nothing left.

The number of bytes read is kept in an unsigned counter, which a failed read sets to a
huge number. A loop is given by what it does with that counter: when it gives up, how
it edits the buffer, and which length it passes on. Two rules say what a run over some
chunks has written: for a loop that passes on what it read, and for any other.
-/

namespace UnixLabs.Library

variable {α : Type*}

/-- A call of `write`: the length passed, and the bytes it takes. There is no telling
which these are when the length goes past the buffer. -/
structure WriteCall (α : Type*) where
  length : ℕ
  bytes : Option (List α)

namespace WriteCall

def ofBytes (b : List α) : WriteCall α := ⟨b.length, some b⟩

def ofBuffer (size : ℕ) (buf : ℕ → α) (length : ℕ) : WriteCall α where
  length := length
  bytes := if length ≤ size then some (firstCells buf length) else none

@[simp] theorem length_ofBytes (b : List α) : (ofBytes b).length = b.length := rfl

@[simp] theorem length_ofBuffer (size : ℕ) (buf : ℕ → α) (n : ℕ) :
    (ofBuffer size buf n).length = n := rfl

theorem ofBuffer_of_le {size n : ℕ} (h : n ≤ size) (buf : ℕ → α) :
    ofBuffer size buf n = ofBytes (firstCells buf n) := by
  simp only [ofBuffer, ofBytes, if_pos h, length_firstCells]

end WriteCall

def sent : List (WriteCall α) → Option (List α)
  | [] => some []
  | w :: ws => do
      let b ← w.bytes
      let rest ← sent ws
      some (b ++ rest)

theorem sent_ofBytes (bs : List (List α)) : sent (bs.map WriteCall.ofBytes) = some bs.flatten := by
  induction bs with
  | nil => rfl
  | cons b bs ih =>
      simp only [List.map_cons, sent, WriteCall.ofBytes, Option.bind_eq_bind, Option.bind_some,
        List.flatten_cons]
      rw [ih, Option.bind_some]

/-- `size` is that of the buffer, and `failure` what a failed read leaves in the
counter. -/
structure CopyLoop (α : Type*) where
  size : ℕ
  failure : ℕ
  stops : ℕ → Bool
  edit : ℕ → (ℕ → α) → Option (ℕ → α)
  passed : ℕ → ℕ

/-- The buffer, the calls of `write` so far, and how the loop was left: at the end of
the input, or with an error. -/
structure Copying (α : Type*) where
  buf : ℕ → α
  writes : List (WriteCall α)
  finished : Option Bool

structure Cut (size : ℕ) (bytes : List α) (chunks : List (List α)) : Prop where
  flatten : chunks.flatten = bytes
  ne_nil : ∀ c ∈ chunks, c ≠ []
  fits : ∀ c ∈ chunks, c.length ≤ size

namespace CopyLoop

def start (junk : ℕ → α) : Copying α := ⟨junk, [], none⟩

/-- One pass: a read that delivers some bytes, or nothing at the end, or fails, and
what follows it. -/
def pass (l : CopyLoop α) (s : Copying α) (answer : Option (List α)) : Option (Copying α) :=
  if s.finished.isSome then some s
  else
    let count := (answer.map List.length).getD l.failure
    let buf := writeAt s.buf 0 (answer.getD [])
    if count = 0 then some { s with buf, finished := some true }
    else if l.stops count then some { s with buf, finished := some false }
    else do
      let buf ← l.edit count buf
      some { s with buf, writes := s.writes ++ [WriteCall.ofBuffer l.size buf (l.passed count)] }

def copy (l : CopyLoop α) (junk : ℕ → α) (answers : List (Option (List α))) :
    Option (Copying α) :=
  run l.pass (start junk) answers

variable {l : CopyLoop α}

theorem pass_finished {s : Copying α} (h : s.finished.isSome) (answer : Option (List α)) :
    l.pass s answer = some s := if_pos h

theorem pass_chunk {s : Copying α} (hs : s.finished = none) {c : List α} (hc : c ≠ [])
    (hgoes : l.stops c.length = false) {buf : ℕ → α}
    (hedit : l.edit c.length (writeAt s.buf 0 c) = some buf) :
    l.pass s (some c) = some
      ⟨buf, s.writes ++ [WriteCall.ofBuffer l.size buf (l.passed c.length)], none⟩ := by
  have hlength : c.length ≠ 0 := mt List.length_eq_zero_iff.mp hc
  simp only [pass, hs, Option.isSome_none, Bool.false_eq_true, if_false, Option.map_some,
    Option.getD_some, if_neg hlength, hgoes, hedit, Option.bind_eq_bind, Option.bind_some]

theorem pass_end {s : Copying α} (hs : s.finished = none) :
    l.pass s (some []) = some { s with finished := some true } := by
  simp [pass, hs]

theorem pass_failure_stops {s : Copying α} (hs : s.finished = none) (hpos : l.failure ≠ 0)
    (hstops : l.stops l.failure = true) :
    l.pass s none = some { s with finished := some false } := by
  simp [pass, hs, hpos, hstops]

/-- A loop that does not look at the failure passes it on as a length. -/
theorem pass_failure_goes {s : Copying α} (hs : s.finished = none) (hpos : l.failure ≠ 0)
    (hgoes : l.stops l.failure = false) {buf : ℕ → α} (hedit : l.edit l.failure s.buf = some buf) :
    l.pass s none = some
      ⟨buf, s.writes ++ [WriteCall.ofBuffer l.size buf (l.passed l.failure)], none⟩ := by
  simp [pass, hs, hpos, hgoes, hedit]

/-! ### Chunks -/

/-- A loop that passes on what it read, with each byte changed by `f`, when the reads
are of these lengths. -/
structure Faithful (l : CopyLoop α) (f : α → α) (ok : ℕ → Prop) : Prop where
  fits : ∀ n, ok n → n ≤ l.size
  goes : ∀ n, ok n → l.stops n = false
  passed : ∀ n, ok n → l.passed n = n
  edit : ∀ n, ok n → ∀ buf, ∃ buf', l.edit n buf = some buf' ∧
    firstCells buf' n = (firstCells buf n).map f

theorem Faithful.run_chunks {f : α → α} {ok : ℕ → Prop} (h : l.Faithful f ok)
    {chunks : List (List α)} (hne : ∀ c ∈ chunks, c ≠ []) (hok : ∀ c ∈ chunks, ok c.length)
    {s : Copying α} (hs : s.finished = none) :
    ∃ buf, run l.pass s (chunks.map some) = some
      ⟨buf, s.writes ++ chunks.map fun c => WriteCall.ofBytes (c.map f), none⟩ := by
  induction chunks generalizing s with
  | nil =>
      refine ⟨s.buf, ?_⟩
      rw [List.map_nil, List.map_nil, run_nil, List.append_nil, ← hs]
  | cons c chunks ih =>
      rw [List.forall_mem_cons] at hne hok
      obtain ⟨buf, hedit, hcells⟩ := h.edit c.length hok.1 (writeAt s.buf 0 c)
      have hread : firstCells (writeAt s.buf 0 c) c.length = c := by
        have hwrite := firstCells_writeAt s.buf 0 c
        rwa [Nat.zero_add] at hwrite
      have hwritten : WriteCall.ofBuffer l.size buf (l.passed c.length) =
          WriteCall.ofBytes (c.map f) := by
        rw [h.passed _ hok.1, WriteCall.ofBuffer_of_le (h.fits _ hok.1), hcells, hread]
      have hpass := pass_chunk hs hne.1 (h.goes _ hok.1) hedit
      rw [hwritten] at hpass
      obtain ⟨buf', hrun⟩ := ih hne.2 hok.2
        (s := ⟨buf, s.writes ++ [WriteCall.ofBytes (c.map f)], none⟩) rfl
      refine ⟨buf', ?_⟩
      rw [List.map_cons, run_cons, hpass, Option.bind_some, hrun]
      simp only [List.map_cons, List.append_assoc, List.singleton_append]

theorem Faithful.copy_cut {f : α → α} {ok : ℕ → Prop} (h : l.Faithful f ok) {bytes : List α}
    {chunks : List (List α)} (hcut : Cut l.size bytes chunks) (hok : ∀ c ∈ chunks, ok c.length)
    (junk : ℕ → α) :
    ∃ s, l.copy junk (chunks.map some ++ [some []]) = some s ∧ s.finished = some true ∧
      sent s.writes = some (bytes.map f) := by
  obtain ⟨buf, hrun⟩ := h.run_chunks hcut.ne_nil hok (s := start junk) rfl
  refine ⟨⟨buf, [] ++ chunks.map fun c => WriteCall.ofBytes (c.map f), some true⟩, ?_, rfl, ?_⟩
  · rw [copy, run_append, hrun, Option.bind_some, run_cons, pass_end rfl, Option.bind_some,
      run_nil]
    rfl
  · show sent ([] ++ chunks.map fun c => WriteCall.ofBytes (c.map f)) = _
    have hsent := sent_ofBytes (chunks.map (List.map f))
    rw [List.map_map] at hsent
    rw [List.nil_append, ← hcut.flatten, List.map_flatten, ← hsent]
    rfl

/-- Any loop that stays in the buffer has passed on the lengths it chose. -/
theorem run_lengths (hgoes : ∀ n ≤ l.size, l.stops n = false)
    (hpassed : ∀ n ≤ l.size, l.passed n ≤ l.size)
    (hedit : ∀ n ≤ l.size, ∀ buf, (l.edit n buf).isSome) {chunks : List (List α)}
    (hne : ∀ c ∈ chunks, c ≠ []) (hfits : ∀ c ∈ chunks, c.length ≤ l.size) {s : Copying α}
    (hs : s.finished = none) :
    ∃ (buf : ℕ → α) (bs : List (List α)), run l.pass s (chunks.map some) =
        some ⟨buf, s.writes ++ bs.map WriteCall.ofBytes, none⟩ ∧
      bs.map List.length = chunks.map fun c => l.passed c.length := by
  induction chunks generalizing s with
  | nil =>
      refine ⟨s.buf, [], ?_, rfl⟩
      rw [List.map_nil, List.map_nil, run_nil, List.append_nil, ← hs]
  | cons c chunks ih =>
      rw [List.forall_mem_cons] at hne hfits
      obtain ⟨buf, hbuf⟩ := Option.isSome_iff_exists.mp
        (hedit c.length hfits.1 (writeAt s.buf 0 c))
      have hpass := pass_chunk hs hne.1 (hgoes _ hfits.1) hbuf
      rw [WriteCall.ofBuffer_of_le (hpassed _ hfits.1)] at hpass
      obtain ⟨buf', bs, hrun, hlengths⟩ := ih hne.2 hfits.2 (s := ⟨buf, s.writes ++
        [WriteCall.ofBytes (firstCells buf (l.passed c.length))], none⟩) rfl
      refine ⟨buf', firstCells buf (l.passed c.length) :: bs, ?_, ?_⟩
      · rw [List.map_cons, run_cons, hpass, Option.bind_some, hrun]
        simp only [List.map_cons, List.append_assoc, List.singleton_append]
      · rw [List.map_cons, List.map_cons, hlengths, length_firstCells]

/-! ### After the end -/

theorem run_finished {s : Copying α} (h : s.finished.isSome) (answers : List (Option (List α))) :
    run l.pass s answers = some s := by
  induction answers with
  | nil => rfl
  | cons answer answers ih => rw [run_cons, pass_finished h, Option.bind_some, ih]

end CopyLoop

end UnixLabs.Library
