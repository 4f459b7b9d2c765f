import UnixLabs.Lab25

/-!
`write_file` of the clients of lab30 and lab31: a file sent to a server.

lab30 looks at what `open` and `read` return. lab31 does not: a failed read is a length
of `SIZE_MAX`, and it never ends.
-/

namespace UnixLabs

open Library
open Lab25 (readError)

def clientPipeSize : ℕ := 4096

def Lab30.clientLoop : CopyLoop CChar where
  size := clientPipeSize
  failure := readError
  stops count := count == readError
  edit _ buf := some buf
  passed count := count

def Lab30.writeFile (opened : Bool) (junk : ℕ → CChar) (answers : List (Option (List CChar))) :
    Option (Copying CChar) :=
  if opened then clientLoop.copy junk answers else some ⟨junk, [], some false⟩

def Lab31.clientLoop : CopyLoop CChar where
  size := clientPipeSize
  failure := readError
  stops _ := false
  edit _ buf := some buf
  passed count := count

/-- `write_file` of lab31, given what `read` answers, be it for the descriptor -1. -/
def Lab31.writeFile (junk : ℕ → CChar) (answers : List (Option (List CChar))) :
    Option (Copying CChar) :=
  clientLoop.copy junk answers

/-- What `read` answers the `k`-th time: always an error for a file that is not open,
else the chunks and then the end, or errors from there on. -/
def fileReads (opened : Bool) (chunks : List (List CChar)) (fails : Bool) (k : ℕ) :
    Option (List CChar) :=
  if opened then
    match chunks[k]? with
    | some c => some c
    | none => if fails then none else some []
  else none

/-- A copy, given after each number of reads: it ends, no length goes past the buffer,
and what was sent at the end are these bytes. -/
structure Sends (copying : ℕ → Option (Copying CChar)) (bytes : List CChar) : Prop where
  ends : ∃ n s, copying n = some s ∧ s.finished.isSome
  fits : ∀ n s, copying n = some s → ∀ w ∈ s.writes, w.length ≤ clientPipeSize
  all : ∀ n s, copying n = some s → s.finished.isSome → sent s.writes = some bytes

def sendable (opened : Bool) (chunks : List (List CChar)) : List CChar :=
  if opened then chunks.flatten else []

/-! ### The chunks -/

theorem ne_readError {n : ℕ} (hn : n ≤ clientPipeSize) : (n == readError) = false :=
  Lab25.ne_readError (show clientPipeSize < 2 ^ 63 by decide) hn

theorem Lab30.clientLoop_faithful : clientLoop.Faithful id (· ≤ clientPipeSize) where
  fits _ hn := hn
  goes _ hn := ne_readError hn
  passed _ _ := rfl
  edit _ _ buf := ⟨buf, rfl, (List.map_id _).symm⟩

theorem Lab31.clientLoop_faithful : clientLoop.Faithful id (· ≤ clientPipeSize) where
  fits _ hn := hn
  goes _ _ := rfl
  passed _ _ := rfl
  edit _ _ buf := ⟨buf, rfl, (List.map_id _).symm⟩

variable {chunks : List (List CChar)}

theorem firstCells_fileReads (fails : Bool) {n : ℕ} (hn : n ≤ chunks.length) :
    firstCells (fileReads true chunks fails) n = (chunks.take n).map some := by
  apply List.ext_getElem
  · rw [length_firstCells, List.length_map, List.length_take, Nat.min_eq_left hn]
  · intro k hk _
    rw [length_firstCells] at hk
    rw [getElem_firstCells, List.getElem_map, List.getElem_take]
    simp only [fileReads, if_true, List.getElem?_eq_getElem (show k < chunks.length by omega)]

theorem fileReads_after (fails : Bool) {k : ℕ} (hk : chunks.length ≤ k) :
    fileReads true chunks fails k = if fails then none else some [] := by
  simp only [fileReads, if_true, List.getElem?_eq_none hk]

/-! ### Copies that end -/

section

variable {l : CopyLoop CChar} {bytes : List CChar}

theorem copy_before (hl : l.Faithful id (· ≤ clientPipeSize))
    (hcut : Cut clientPipeSize bytes chunks) (fails : Bool) (junk : ℕ → CChar) {n : ℕ}
    (hn : n ≤ chunks.length) :
    ∃ buf, l.copy junk (firstCells (fileReads true chunks fails) n) =
      some ⟨buf, (chunks.take n).map fun c => WriteCall.ofBytes (c.map id), none⟩ := by
  rw [firstCells_fileReads fails hn]
  apply hl.run_chunks _ _ rfl
  · intro c hc
    exact hcut.ne_nil c (List.mem_of_mem_take hc)
  · intro c hc
    exact hcut.fits c (List.mem_of_mem_take hc)

/-- A loop that leaves at the first answer that is no chunk sends the chunks. -/
theorem sends_chunks (hl : l.Faithful id (· ≤ clientPipeSize))
    (hcut : Cut clientPipeSize bytes chunks) {fails atEnd : Bool}
    (hleaves : ∀ s : Copying CChar, s.finished = none →
      l.pass s (if fails then none else some []) = some { s with finished := some atEnd })
    (junk : ℕ → CChar) :
    Sends (fun n => l.copy junk (firstCells (fileReads true chunks fails) n)) bytes := by
  have hafter : ∀ n, chunks.length < n → ∃ buf,
      l.copy junk (firstCells (fileReads true chunks fails) n) =
        some ⟨buf, chunks.map fun c => WriteCall.ofBytes (c.map id), some atEnd⟩ := by
    intro n hn
    obtain ⟨k, rfl⟩ := Nat.exists_eq_add_of_lt hn
    obtain ⟨buf, hbefore⟩ := copy_before hl hcut fails junk le_rfl
    rw [List.take_length] at hbefore
    refine ⟨buf, ?_⟩
    rw [Nat.add_assoc, firstCells_add, Nat.add_comm k 1, firstCells_add, CopyLoop.copy, run_append]
    rw [CopyLoop.copy] at hbefore
    rw [hbefore, Option.bind_some, run_append]
    show ((run l.pass _ [fileReads true chunks fails (chunks.length + 0)]).bind _) = _
    rw [fileReads_after fails (Nat.le_add_right _ _), run_cons, hleaves _ rfl, Option.bind_some,
      run_nil, Option.bind_some, CopyLoop.run_finished rfl]
  have hsent : sent (chunks.map fun c => WriteCall.ofBytes (c.map id)) = some bytes := by
    simp only [List.map_id]
    rw [sent_ofBytes, hcut.flatten]
  refine ⟨?_, fun n s hs w hw => ?_, fun n s hs hfinished => ?_⟩
  · obtain ⟨buf, hcopy⟩ := hafter (chunks.length + 1) (Nat.lt_succ_self _)
    exact ⟨_, _, hcopy, rfl⟩
  · -- every call is that of a chunk
    obtain ⟨c, hc, rfl⟩ : ∃ c ∈ chunks, WriteCall.ofBytes (c.map id) = w := by
      rcases Nat.lt_or_ge chunks.length n with hn | hn
      · obtain ⟨buf, hcopy⟩ := hafter n hn
        cases hcopy.symm.trans hs
        exact List.mem_map.mp hw
      · obtain ⟨buf, hcopy⟩ := copy_before hl hcut fails junk hn
        cases hcopy.symm.trans hs
        obtain ⟨c, hc, hw⟩ := List.mem_map.mp hw
        exact ⟨c, List.mem_of_mem_take hc, hw⟩
    rw [WriteCall.length_ofBytes, List.length_map]
    exact hcut.fits c hc
  · rcases Nat.lt_or_ge chunks.length n with hn | hn
    · obtain ⟨buf, hcopy⟩ := hafter n hn
      cases hcopy.symm.trans hs
      exact hsent
    · obtain ⟨buf, hcopy⟩ := copy_before hl hcut fails junk hn
      cases hcopy.symm.trans hs
      cases hfinished

end

theorem Lab30.writeFile_sends (opened fails : Bool) {bytes : List CChar}
    (hcut : Cut clientPipeSize bytes chunks) (junk : ℕ → CChar) :
    Sends (fun n => writeFile opened junk (firstCells (fileReads opened chunks fails) n))
      (sendable opened chunks) := by
  cases opened with
  | false =>
      refine ⟨⟨0, _, rfl, rfl⟩, fun n s hs w hw => ?_, fun n s hs _ => ?_⟩
      · cases hs
        cases hw
      · cases hs
        rfl
  | true =>
      show Sends _ chunks.flatten
      rw [hcut.flatten]
      cases fails with
      | false => exact sends_chunks clientLoop_faithful hcut (fun _ => CopyLoop.pass_end) junk
      | true =>
          exact sends_chunks clientLoop_faithful hcut
            (fun _ hs => CopyLoop.pass_failure_stops hs (by decide) (by decide)) junk

/-! ### The missing checks -/

theorem Lab31.pass_failure {s : Copying CChar} (hs : s.finished = none) :
    clientLoop.pass s none =
      some { s with
        writes := s.writes ++ [WriteCall.ofBuffer clientPipeSize s.buf readError] } := by
  have hpass := CopyLoop.pass_failure_goes (l := clientLoop) hs (show readError ≠ 0 by decide) rfl
    (show clientLoop.edit _ s.buf = some s.buf from rfl)
  rw [hpass, ← hs]
  rfl

/-- From a failure on every pass writes `SIZE_MAX` bytes, and the loop goes on. -/
theorem Lab31.run_failures (n : ℕ) {s : Copying CChar} (hs : s.finished = none) :
    run clientLoop.pass s (List.replicate n none) = some { s with
      writes := s.writes ++
        List.replicate n (WriteCall.ofBuffer clientPipeSize s.buf readError) } := by
  induction n generalizing s with
  | zero =>
      rw [List.replicate_zero, List.replicate_zero, List.append_nil]
      rfl
  | succ n ih =>
      rw [List.replicate_succ, run_cons, pass_failure hs, Option.bind_some]
      rw [ih (s := { s with
        writes := s.writes ++ [WriteCall.ofBuffer clientPipeSize s.buf readError] }) hs]
      simp only [List.append_assoc, List.singleton_append, List.replicate_succ]

/-- The first failure comes after all chunks of a file that is open, and else at once.
The loop never ends. -/
theorem Lab31.copy_failure {opened fails : Bool} (hfail : opened = false ∨ fails = true)
    {bytes : List CChar} (hcut : Cut clientPipeSize bytes chunks) (junk : ℕ → CChar) :
    ∃ (n : ℕ) (s : Copying CChar), s.finished = none ∧ ∀ k,
      writeFile junk (firstCells (fileReads opened chunks fails) (n + k)) = some { s with
        writes := s.writes ++
          List.replicate k (WriteCall.ofBuffer clientPipeSize s.buf readError) } := by
  obtain ⟨n, s, hcopy, hs, hnone⟩ : ∃ n s,
      clientLoop.copy junk (firstCells (fileReads opened chunks fails) n) = some s ∧
        s.finished = none ∧ ∀ k, fileReads opened chunks fails (n + k) = none := by
    cases opened with
    | false => exact ⟨0, _, rfl, rfl, fun _ => rfl⟩
    | true =>
        obtain rfl := hfail.resolve_left Bool.noConfusion
        obtain ⟨buf, hcopy⟩ := copy_before clientLoop_faithful hcut true junk le_rfl
        exact ⟨chunks.length, _, hcopy, rfl, fun k => fileReads_after true (Nat.le_add_right _ _)⟩
  refine ⟨n, s, hs, fun k => ?_⟩
  have hrest : firstCells (fun i => fileReads opened chunks fails (n + i)) k =
      List.replicate k none := by
    rw [firstCells_congr (fun i _ => hnone i), firstCells, List.map_const', List.length_range]
  rw [CopyLoop.copy] at hcopy
  rw [writeFile, CopyLoop.copy, firstCells_add, run_append, hcopy, Option.bind_some, hrest,
    run_failures k hs]

/-- lab31 sends what lab30 sends exactly when neither `open` nor a `read` fails. -/
theorem Lab31.writeFile_iff (opened fails : Bool) {bytes : List CChar}
    (hcut : Cut clientPipeSize bytes chunks) (junk junk' : ℕ → CChar) :
    Sends (fun n => Lab30.writeFile opened junk' (firstCells (fileReads opened chunks fails) n))
        (sendable opened chunks) ∧
      (Sends (fun n => writeFile junk (firstCells (fileReads opened chunks fails) n))
          (sendable opened chunks) ↔ opened = true ∧ fails = false) := by
  refine ⟨Lab30.writeFile_sends opened fails hcut junk', ?_⟩
  constructor
  · intro h
    by_contra hcond
    have hfail : opened = false ∨ fails = true := by
      revert hcond
      cases opened <;> cases fails <;> decide
    obtain ⟨n, s, -, hcopy⟩ := copy_failure hfail hcut junk
    have hfits := h.fits _ _ (hcopy 1) (WriteCall.ofBuffer clientPipeSize s.buf readError)
      (List.mem_append_right _ (List.mem_replicate.mpr ⟨Nat.one_ne_zero, rfl⟩))
    exact absurd hfits (show ¬readError ≤ clientPipeSize by decide)
  · rintro ⟨rfl, rfl⟩
    show Sends _ chunks.flatten
    rw [hcut.flatten]
    exact sends_chunks clientLoop_faithful hcut (fun _ => CopyLoop.pass_end) junk

theorem Lab31.writeFile_iff_one :
    Cut clientPipeSize ([0x61] : List CChar) [[0x61]] ∧
    Sends (fun n => Lab30.writeFile true (fun _ => 8)
        (firstCells (fileReads true [[0x61]] false) n)) (sendable true [[0x61]]) ∧
      (Sends (fun n => writeFile (fun _ => 7) (firstCells (fileReads true [[0x61]] false) n))
          (sendable true [[0x61]]) ↔ true = true ∧ false = false) :=
  have hcut : Cut clientPipeSize ([0x61] : List CChar) [[0x61]] := ⟨rfl, by decide, by decide⟩
  ⟨hcut, writeFile_iff true false hcut (fun _ => 7) fun _ => 8⟩

/-- A file that cannot be opened: the first length passed on is `SIZE_MAX`, and the
second, and so on. -/
theorem Lab31.writeFile_endless :
    ¬Sends (fun n => writeFile (fun _ => 7) (firstCells (fileReads false [] false) n))
        (sendable false []) ∧
      ((writeFile (fun _ => 7) (firstCells (fileReads false [] false) 2)).map fun s =>
        (s.writes.map WriteCall.length, s.finished)) =
          some ([2 ^ 64 - 1, 2 ^ 64 - 1], none) := by
  constructor
  · intro h
    have hcut : Cut clientPipeSize ([] : List CChar) [] := ⟨rfl, by decide, by decide⟩
    have hfail : false = false ∨ false = true := .inl rfl
    obtain ⟨n, s, -, hcopy⟩ := copy_failure hfail hcut fun _ => 7
    have hfits := h.fits _ _ (hcopy 1) (WriteCall.ofBuffer clientPipeSize s.buf readError)
      (List.mem_append_right _ (List.mem_replicate.mpr ⟨Nat.one_ne_zero, rfl⟩))
    exact absurd hfits (show ¬readError ≤ clientPipeSize by decide)
  · decide +kernel

end UnixLabs
