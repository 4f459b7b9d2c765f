import UnixLabs.Library.CopyLoop
import UnixLabs.Library.Schedule
import Mathlib.Data.List.Forall2

/-!
Two copying loops with a stream of bytes between them.

The source copies its input into the stream, the sink copies the stream to its output.
What the kernel decides is left to the schedule: how many bytes a read delivers, how many
bytes of a write go into the stream at once, and which of the two goes on. A reader waits
while the stream is empty and has a writer, a writer waits while there is no room. Without
a reader a writer is killed.
-/

namespace UnixLabs.Library

variable {α : Type*}

/-- `takes held wanted n` tells whether a stream that holds `held` bytes takes `n` of the
`wanted` bytes that are left of a write. -/
structure Pipeline (α : Type*) where
  source : CopyLoop α
  sink : CopyLoop α
  takes : ℕ → ℕ → ℕ → Bool

namespace Pipeline

/-- `input` is what the source has not read, `pending` what is left of its write, and
`held` the contents of the stream, which hangs up when it has no writer. -/
structure State (α : Type*) where
  input : List α
  source : Copying α
  pending : List α
  held : List α
  hungUp : Bool
  sink : Copying α

inductive Event
  | fetch (n : ℕ)
  | fetchFails
  | put (n : ℕ)
  | refuse
  | hangUp
  | get (n : ℕ)
  | getFails
  deriving DecidableEq

def start (input : List α) (junk junk' : ℕ → α) : State α :=
  ⟨input, CopyLoop.start junk, [], [], false, CopyLoop.start junk'⟩

def sourcePass (l : CopyLoop α) (s : State α) (answer : Option (List α)) : Option (State α) := do
  let source ← l.pass s.source answer
  let pending ← sent (source.writes.drop s.source.writes.length)
  some { s with input := s.input.drop (answer.getD []).length, source, pending }

/-- A read of the sink. Its writes are taken at once. -/
def sinkPass (l : CopyLoop α) (s : State α) (answer : Option (List α)) : Option (State α) := do
  let sink ← l.pass s.sink answer
  some { s with held := s.held.drop (answer.getD []).length, sink }

def step (p : Pipeline α) (s : State α) : Event → Option (State α)
  | .fetch n =>
      if s.source.finished = none ∧ s.pending = [] ∧ n ≤ p.source.size ∧ n ≤ s.input.length ∧
          (n = 0 ↔ s.input = []) then
        sourcePass p.source s (some (s.input.take n))
      else none
  | .fetchFails =>
      if s.source.finished = none ∧ s.pending = [] then sourcePass p.source s none else none
  | .put n =>
      if 0 < n ∧ n ≤ s.pending.length ∧ p.takes s.held.length s.pending.length n then
        some { s with pending := s.pending.drop n, held := s.held ++ s.pending.take n }
      else none
  | .refuse =>
      if s.sink.finished.isSome ∧ s.pending ≠ [] then
        some { s with source := { s.source with finished := some false }, pending := [] }
      else none
  | .hangUp =>
      if s.source.finished.isSome ∧ s.hungUp = false then some { s with hungUp := true } else none
  | .get n =>
      if s.sink.finished = none ∧ n ≤ p.sink.size ∧ n ≤ s.held.length ∧ (n = 0 ↔ s.held = []) ∧
          (n = 0 → s.hungUp = true) then
        sinkPass p.sink s (some (s.held.take n))
      else none
  | .getFails => if s.sink.finished = none then sinkPass p.sink s none else none

structure Over (s : State α) : Prop where
  source : s.source.finished.isSome
  pending : s.pending = []
  hungUp : s.hungUp = true
  sink : s.sink.finished.isSome

end Pipeline

/-- A loop that stays in its buffer, whatever is read, and leaves at a failure. -/
structure CopyLoop.Contained (l : CopyLoop α) : Prop where
  size_pos : 0 < l.size
  failure_ne : l.failure ≠ 0
  stops : l.stops l.failure = true
  goes : ∀ n ≤ l.size, l.stops n = false
  passed : ∀ n ≤ l.size, l.passed n ≤ l.size
  edit : ∀ n ≤ l.size, ∀ buf, (l.edit n buf).isSome

theorem CopyLoop.Faithful.contained {l : CopyLoop α} {f : α → α}
    (h : l.Faithful f (· ≤ l.size)) (hsize : 0 < l.size) (hfailure : l.failure ≠ 0)
    (hstops : l.stops l.failure = true) : l.Contained where
  size_pos := hsize
  failure_ne := hfailure
  stops := hstops
  goes := h.goes
  passed n hn := Nat.le_trans (Nat.le_of_eq (h.passed n hn)) hn
  edit n hn buf := by
    obtain ⟨buf', hedit, -⟩ := h.edit n hn buf
    rw [hedit]
    rfl

/-- A pass that reads `c` leaves `buf` in the buffer and writes `b`. -/
structure CopyLoop.Passes (l : CopyLoop α) (before : ℕ → α) (c : List α) (buf : ℕ → α)
    (b : List α) : Prop where
  fits : c.length ≤ l.size
  edit : l.edit c.length (writeAt before 0 c) = some buf
  block : b = firstCells buf (l.passed c.length)

theorem CopyLoop.Passes.map_eq {l : CopyLoop α} {before buf : ℕ → α} {b c : List α} {f : α → α}
    (h : l.Passes before c buf b) (hf : l.Faithful f (· ≤ l.size)) : c.map f = b := by
  obtain ⟨buf', hedit, hcells⟩ := hf.edit c.length h.fits (writeAt before 0 c)
  cases h.edit.symm.trans hedit
  have hread := firstCells_writeAt before 0 c
  rw [Nat.zero_add] at hread
  rw [h.block, hf.passed _ h.fits, hcells, hread]
  rfl

theorem sent_append_ofBytes {ws : List (WriteCall α)} {bytes : List α} (h : sent ws = some bytes)
    (b : List α) : sent (ws ++ [WriteCall.ofBytes b]) = some (bytes ++ b) := by
  induction ws generalizing bytes with
  | nil =>
      cases h
      simp [sent, WriteCall.ofBytes]
  | cons w ws ih =>
      simp only [sent, Option.bind_eq_bind, Option.bind_eq_some_iff, Option.some_inj] at h
      obtain ⟨first, hfirst, rest, hrest, rfl⟩ := h
      rw [List.cons_append, sent, hfirst, ih hrest]
      simp

namespace Pipeline

/-! ### Passes -/

section Passes

variable {l : CopyLoop α} {s : State α}

theorem sourcePass_chunk (hl : l.Contained) (hs : s.source.finished = none) {c : List α}
    (hne : c ≠ []) (hfits : c.length ≤ l.size) :
    ∃ (buf : ℕ → α) (b : List α), b.length ≤ l.size ∧ l.Passes s.source.buf c buf b ∧
      sourcePass l s (some c) = some
        { s with
          input := s.input.drop c.length
          source := ⟨buf, s.source.writes ++ [WriteCall.ofBytes b], none⟩
          pending := b } := by
  obtain ⟨buf, hbuf⟩ := Option.isSome_iff_exists.mp
    (hl.edit c.length hfits (writeAt s.source.buf 0 c))
  have hpass := CopyLoop.pass_chunk hs hne (hl.goes _ hfits) hbuf
  rw [WriteCall.ofBuffer_of_le (hl.passed _ hfits)] at hpass
  refine ⟨buf, firstCells buf (l.passed c.length), ?_, ⟨hfits, hbuf, rfl⟩, ?_⟩
  · rw [length_firstCells]
    exact hl.passed _ hfits
  · simp [sourcePass, hpass, sent, WriteCall.ofBytes]

theorem sourcePass_end (hs : s.source.finished = none) (hpending : s.pending = []) :
    sourcePass l s (some []) =
      some { s with source := { s.source with finished := some true } } := by
  rw [sourcePass, CopyLoop.pass_end hs]
  simp [sent, hpending]

theorem sourcePass_failure (hl : l.Contained) (hs : s.source.finished = none)
    (hpending : s.pending = []) :
    sourcePass l s none = some { s with source := { s.source with finished := some false } } := by
  rw [sourcePass, CopyLoop.pass_failure_stops hs hl.failure_ne hl.stops]
  simp [sent, hpending]

theorem sinkPass_chunk {g : α → α} (hl : l.Faithful g (· ≤ l.size)) (hs : s.sink.finished = none)
    {c : List α} (hne : c ≠ []) (hfits : c.length ≤ l.size) :
    ∃ buf : ℕ → α, sinkPass l s (some c) = some
      { s with
        held := s.held.drop c.length
        sink := ⟨buf, s.sink.writes ++ [WriteCall.ofBytes (c.map g)], none⟩ } := by
  obtain ⟨buf, hpass⟩ := hl.run_chunks (List.forall_mem_singleton.mpr hne)
    (List.forall_mem_singleton.mpr hfits) hs
  rw [List.map_singleton, run_cons] at hpass
  obtain ⟨sink, hsink, hrun⟩ := Option.bind_eq_some_iff.mp hpass
  cases hrun
  exact ⟨buf, by rw [sinkPass, hsink]; rfl⟩

theorem sinkPass_end (hs : s.sink.finished = none) :
    sinkPass l s (some []) = some { s with sink := { s.sink with finished := some true } } := by
  rw [sinkPass, CopyLoop.pass_end hs]
  rfl

theorem sinkPass_failure (hl : l.Contained) (hs : s.sink.finished = none) :
    sinkPass l s none = some { s with sink := { s.sink with finished := some false } } := by
  rw [sinkPass, CopyLoop.pass_failure_stops hs hl.failure_ne hl.stops]
  rfl

end Passes

/-! ### What can happen -/

inductive Move (p : Pipeline α) (g : α → α) (s : State α) : Event → State α → Prop
  | fetched (c rest b : List α) (buf : ℕ → α) (hs : s.source.finished = none)
      (hpending : s.pending = []) (hinput : s.input = c ++ rest) (hne : c ≠ [])
      (hfits : b.length ≤ p.source.size) (hcopy : p.source.Passes s.source.buf c buf b) :
      Move p g s (.fetch c.length) { s with
        input := rest
        source := ⟨buf, s.source.writes ++ [WriteCall.ofBytes b], none⟩
        pending := b }
  | ended (hs : s.source.finished = none) (hpending : s.pending = []) (hinput : s.input = []) :
      Move p g s (.fetch 0) { s with source := { s.source with finished := some true } }
  | failed (hs : s.source.finished = none) (hpending : s.pending = []) :
      Move p g s .fetchFails { s with source := { s.source with finished := some false } }
  | put (b rest : List α) (hne : b ≠ []) (hpending : s.pending = b ++ rest) :
      Move p g s (.put b.length) { s with pending := rest, held := s.held ++ b }
  | refused (hsink : s.sink.finished.isSome) (hpending : s.pending ≠ []) :
      Move p g s .refuse
        { s with source := { s.source with finished := some false }, pending := [] }
  | hungUp (hs : s.source.finished.isSome) (hup : s.hungUp = false) :
      Move p g s .hangUp { s with hungUp := true }
  | got (c rest : List α) (buf : ℕ → α) (hs : s.sink.finished = none) (hheld : s.held = c ++ rest)
      (hne : c ≠ []) :
      Move p g s (.get c.length) { s with
        held := rest
        sink := ⟨buf, s.sink.writes ++ [WriteCall.ofBytes (c.map g)], none⟩ }
  | sinkEnded (hs : s.sink.finished = none) (hheld : s.held = []) (hup : s.hungUp = true) :
      Move p g s (.get 0) { s with sink := { s.sink with finished := some true } }
  | sinkFailed (hs : s.sink.finished = none) :
      Move p g s .getFails { s with sink := { s.sink with finished := some false } }

section Moves

variable {p : Pipeline α} {g : α → α} {s s' : State α}

theorem take_eq_nil_of_iff {bytes : List α} {n : ℕ} (h : n = 0 ↔ bytes = []) :
    bytes.take n = [] ↔ n = 0 := by
  rw [List.take_eq_nil_iff, ← h, or_self]

theorem move_of_step (hsource : p.source.Contained) (hsink : p.sink.Faithful g (· ≤ p.sink.size))
    (hsink' : p.sink.Contained) {e : Event} (h : step p s e = some s') : Move p g s e s' := by
  cases e with
  | fetch n =>
      rw [step] at h
      split_ifs at h with hguard
      obtain ⟨hs, hpending, hsize, hle, hzero⟩ := hguard
      have hlength : (s.input.take n).length = n := List.length_take_of_le hle
      rcases Nat.eq_zero_or_pos n with rfl | hpos
      · rw [List.take_zero, sourcePass_end hs hpending] at h
        cases h
        exact .ended hs hpending (hzero.mp rfl)
      · have hne : s.input.take n ≠ [] :=
          mt (take_eq_nil_of_iff hzero).mp (Nat.pos_iff_ne_zero.mp hpos)
        obtain ⟨buf, b, hb, hcopy, hpass⟩ :=
          sourcePass_chunk hsource hs hne (by rw [hlength]; exact hsize)
        cases hpass.symm.trans h
        have hmove := Move.fetched (p := p) (g := g) (s.input.take n) (s.input.drop n) b buf hs
          hpending (List.take_append_drop n s.input).symm hne hb hcopy
        rw [hlength] at hmove ⊢
        exact hmove
  | fetchFails =>
      rw [step] at h
      split_ifs at h with hguard
      rw [sourcePass_failure hsource hguard.1 hguard.2] at h
      cases h
      exact .failed hguard.1 hguard.2
  | put n =>
      rw [step] at h
      split_ifs at h with hguard
      cases h
      have hlength : (s.pending.take n).length = n := List.length_take_of_le hguard.2.1
      have hne : s.pending.take n ≠ [] := by
        rw [← List.length_pos_iff, hlength]
        exact hguard.1
      have hmove := Move.put (p := p) (g := g) (s := s) (s.pending.take n) (s.pending.drop n) hne
        (List.take_append_drop n s.pending).symm
      rwa [hlength] at hmove
  | refuse =>
      rw [step] at h
      split_ifs at h with hguard
      cases h
      exact .refused hguard.1 hguard.2
  | hangUp =>
      rw [step] at h
      split_ifs at h with hguard
      cases h
      exact .hungUp hguard.1 hguard.2
  | get n =>
      rw [step] at h
      split_ifs at h with hguard
      obtain ⟨hs, hsize, hle, hzero, hup⟩ := hguard
      have hlength : (s.held.take n).length = n := List.length_take_of_le hle
      rcases Nat.eq_zero_or_pos n with rfl | hpos
      · rw [List.take_zero, sinkPass_end hs] at h
        cases h
        exact .sinkEnded hs (hzero.mp rfl) (hup rfl)
      · have hne : s.held.take n ≠ [] :=
          mt (take_eq_nil_of_iff hzero).mp (Nat.pos_iff_ne_zero.mp hpos)
        obtain ⟨buf, hpass⟩ := sinkPass_chunk hsink hs hne (by rw [hlength]; exact hsize)
        cases hpass.symm.trans h
        have hmove := Move.got (p := p) (g := g) (s.held.take n) (s.held.drop n) buf hs
          (List.take_append_drop n s.held).symm hne
        rw [hlength] at hmove ⊢
        exact hmove
  | getFails =>
      rw [step] at h
      split_ifs at h with hguard
      rw [sinkPass_failure hsink' hguard] at h
      cases h
      exact .sinkFailed hguard

theorem Move.hungUp_eq {e : Event} (hmove : Move p g s e s') (he : e ≠ .hangUp) :
    s'.hungUp = s.hungUp := by
  cases hmove with
  | hungUp hs hup => exact absurd rfl he
  | _ => rfl

theorem Move.unfinished {e : Event} (hmove : Move p g s e s') :
    (s'.source.finished = none → s.source.finished = none) ∧
      (s'.sink.finished = none → s.sink.finished = none) := by
  cases hmove with
  | fetched c rest b buf hs hpending hinput hne hfits hcopy => exact ⟨fun _ => hs, id⟩
  | ended hs hpending hinput => exact ⟨fun h => (by cases h), id⟩
  | failed hs hpending => exact ⟨fun h => (by cases h), id⟩
  | put b rest hne hpending => exact ⟨id, id⟩
  | refused hsink hpending => exact ⟨fun h => (by cases h), id⟩
  | hungUp hs hup => exact ⟨id, id⟩
  | got c rest buf hs hheld hne => exact ⟨id, fun _ => hs⟩
  | sinkEnded hs hheld hup => exact ⟨id, fun h => by cases h⟩
  | sinkFailed hs => exact ⟨id, fun h => by cases h⟩

/-! ### The books -/

/-- What was sent is printed, in the stream, under way or lost. It is lost only where
the source is left with an error. -/
structure Books (p : Pipeline α) (g : α → α) (s : State α) : Prop where
  kept : ∃ printed lost, sent s.sink.writes = some (printed.map g) ∧
    sent s.source.writes = some (printed ++ (s.held ++ (s.pending ++ lost))) ∧
    (s.source.finished ≠ some false → lost = [])
  pending_le : s.pending.length ≤ p.source.size
  waits : s.pending ≠ [] → s.source.finished = none
  hungUp : s.hungUp = true → s.source.finished.isSome
  sourceEnd : s.source.finished = some true → s.input = []
  sinkEnd : s.sink.finished = some true → s.hungUp = true ∧ s.held = []

theorem books_start (p : Pipeline α) (g : α → α) (input : List α) (junk junk' : ℕ → α) :
    Books p g (start input junk junk') where
  kept := ⟨[], [], rfl, rfl, fun _ => rfl⟩
  pending_le := Nat.zero_le _
  waits h := absurd rfl h
  hungUp h := absurd h Bool.noConfusion
  sourceEnd h := by cases h
  sinkEnd h := by cases h

/-- While there is something left to write, and until the source is left, nothing is
lost. -/
theorem Books.nothing_lost (h : Books p g s) (hs : s.source.finished ≠ some false) :
    ∃ printed, sent s.sink.writes = some (printed.map g) ∧
      sent s.source.writes = some (printed ++ (s.held ++ s.pending)) := by
  obtain ⟨printed, lost, hprinted, hsent, hlost⟩ := h.kept
  rw [hlost hs, List.append_nil] at hsent
  exact ⟨printed, hprinted, hsent⟩

theorem ne_hungUp (h : Books p g s) (hs : s.source.finished = none) : s.hungUp = false := by
  rw [← Bool.not_eq_true]
  intro hup
  have hleft := h.hungUp hup
  rw [hs] at hleft
  exact Bool.noConfusion hleft

theorem books_move {e : Event} (h : Books p g s) (hmove : Move p g s e s') : Books p g s' := by
  cases hmove with
  | fetched c rest b buf hs hpending hinput hne hfits hcopy =>
      obtain ⟨printed, hprinted, hsent⟩ := h.nothing_lost (by rw [hs]; simp)
      rw [hpending, List.append_nil] at hsent
      refine ⟨⟨printed, [], hprinted, ?_, fun _ => rfl⟩, hfits, fun _ => rfl, fun hup => ?_,
        fun hend => ?_, h.sinkEnd⟩
      · show sent (s.source.writes ++ [WriteCall.ofBytes b]) = _
        rw [sent_append_ofBytes hsent, List.append_nil, List.append_assoc]
      · exact absurd hup (by rw [ne_hungUp h hs]; exact Bool.noConfusion)
      · cases hend
  | ended hs hpending hinput =>
      obtain ⟨printed, hprinted, hsent⟩ := h.nothing_lost (by rw [hs]; simp)
      refine ⟨⟨printed, [], hprinted, ?_, fun _ => rfl⟩, h.pending_le, fun hne => ?_, fun _ => rfl,
        fun _ => hinput, h.sinkEnd⟩
      · rw [List.append_nil]
        exact hsent
      · exact absurd hpending hne
  | failed hs hpending =>
      obtain ⟨printed, hprinted, hsent⟩ := h.nothing_lost (by rw [hs]; simp)
      refine ⟨⟨printed, [], hprinted, ?_, fun _ => rfl⟩, h.pending_le, fun hne => ?_, fun _ => rfl,
        fun hend => ?_, h.sinkEnd⟩
      · rw [List.append_nil]
        exact hsent
      · exact absurd hpending hne
      · cases hend
  | put b rest hne hpending =>
      have hwaiting : s.pending ≠ [] := by
        rw [hpending]
        exact List.append_ne_nil_of_left_ne_nil hne rest
      have hs := h.waits hwaiting
      obtain ⟨printed, lost, hprinted, hsent, hlost⟩ := h.kept
      refine ⟨⟨printed, lost, hprinted, ?_, hlost⟩, ?_, fun _ => hs, h.hungUp, h.sourceEnd,
        fun hend => ?_⟩
      · rw [hsent, hpending]
        simp only [List.append_assoc]
      · have hle := h.pending_le
        rw [hpending, List.length_append] at hle
        exact Nat.le_trans (Nat.le_add_left _ _) hle
      · have hup := (h.sinkEnd hend).1
        rw [ne_hungUp h hs] at hup
        exact absurd hup Bool.noConfusion
  | refused hsink hpending =>
      obtain ⟨printed, lost, hprinted, hsent, -⟩ := h.kept
      refine ⟨⟨printed, s.pending ++ lost, hprinted, hsent, fun hne => absurd rfl hne⟩,
        Nat.zero_le _, fun hne => absurd rfl hne, fun _ => rfl, fun hend => ?_, h.sinkEnd⟩
      cases hend
  | hungUp hs hup =>
      exact ⟨h.kept, h.pending_le, h.waits, fun _ => hs, h.sourceEnd,
        fun hend => ⟨rfl, (h.sinkEnd hend).2⟩⟩
  | got c rest buf hs hheld hne =>
      obtain ⟨printed, lost, hprinted, hsent, hlost⟩ := h.kept
      refine ⟨⟨printed ++ c, lost, ?_, ?_, hlost⟩, h.pending_le, h.waits, h.hungUp, h.sourceEnd,
        fun hend => ?_⟩
      · show sent (s.sink.writes ++ [WriteCall.ofBytes (c.map g)]) = _
        rw [sent_append_ofBytes hprinted, List.map_append]
      · rw [hsent, hheld]
        simp only [List.append_assoc]
      · cases hend
  | sinkEnded hs hheld hup =>
      exact ⟨h.kept, h.pending_le, h.waits, h.hungUp, h.sourceEnd, fun _ => ⟨hup, hheld⟩⟩
  | sinkFailed hs =>
      refine ⟨h.kept, h.pending_le, h.waits, h.hungUp, h.sourceEnd, fun hend => ?_⟩
      cases hend

/-! ### Every schedule ends -/

/-- What is left to do: a byte of the input may become a whole write, and a byte of a
write goes into the stream and out of it. -/
def left (p : Pipeline α) (s : State α) : ℕ :=
  (2 * p.source.size + 1) * s.input.length + 2 * s.pending.length + s.held.length +
    (s.source.finished.isNone.toNat + (!s.hungUp).toNat + s.sink.finished.isNone.toNat)

theorem left_move {e : Event} (h : Books p g s) (hmove : Move p g s e s') :
    left p s' < left p s := by
  cases hmove with
  | fetched c rest b buf hs hpending hinput hne hfits hcopy =>
      have hc : 1 ≤ c.length := List.length_pos_iff.mpr hne
      have hbyte : 2 * p.source.size + 1 ≤ (2 * p.source.size + 1) * c.length :=
        Nat.le_mul_of_pos_right _ hc
      simp only [left, hs, hpending, hinput, List.length_append, Nat.mul_add, List.length_nil]
      omega
  | ended hs hpending hinput => simp [left, hs]
  | failed hs hpending => simp [left, hs]
  | put b rest hne hpending =>
      have hb : 1 ≤ b.length := List.length_pos_iff.mpr hne
      simp only [left, hpending, List.length_append]
      omega
  | refused hsink hpending =>
      have hb : 1 ≤ s.pending.length := List.length_pos_iff.mpr hpending
      simp only [left, h.waits hpending, List.length_nil, Option.isNone_none, Option.isNone_some,
        Bool.toNat_true, Bool.toNat_false]
      omega
  | hungUp hs hup => simp [left, hup]
  | got c rest buf hs hheld hne =>
      have hc : 1 ≤ c.length := List.length_pos_iff.mpr hne
      simp only [left, hs, hheld, List.length_append]
      omega
  | sinkEnded hs hheld hup => simp [left, hs]
  | sinkFailed hs => simp [left, hs]

theorem lowers (hsource : p.source.Contained) (hsink : p.sink.Faithful g (· ≤ p.sink.size))
    (hsink' : p.sink.Contained) : Lowers (Books p g) (step p) (left p) where
  keeps _ _ _ h hstep := books_move h (move_of_step hsource hsink hsink' hstep)
  lt _ _ _ h hstep := left_move h (move_of_step hsource hsink hsink' hstep)

/-- The stream takes some part of every write when it is empty. -/
def Drains (p : Pipeline α) : Prop :=
  ∀ wanted, 0 < wanted → wanted ≤ p.source.size →
    ∃ n, 0 < n ∧ n ≤ wanted ∧ p.takes 0 wanted n = true

theorem exists_fetch (hsource : p.source.Contained) (hs : s.source.finished = none)
    (hpending : s.pending = []) : ∃ n, (step p s (.fetch n)).isSome := by
  rcases hinput : s.input with _ | ⟨x, rest⟩
  · refine ⟨0, ?_⟩
    rw [step, if_pos ⟨hs, hpending, Nat.zero_le _, Nat.zero_le _, iff_of_true rfl hinput⟩,
      List.take_zero, sourcePass_end hs hpending]
    rfl
  · obtain ⟨buf, b, -, -, hpass⟩ := sourcePass_chunk (s := s) (c := [x]) hsource hs
      (List.cons_ne_nil _ _) hsource.size_pos
    refine ⟨1, ?_⟩
    rw [step, if_pos ⟨hs, hpending, hsource.size_pos, by simp [hinput], by simp [hinput]⟩, hinput]
    exact Option.isSome_iff_exists.mpr ⟨_, hpass⟩

/-- The sink can read what is in the stream, or that there is no writer. -/
theorem exists_get (hsink : p.sink.Faithful g (· ≤ p.sink.size)) (hsink' : p.sink.Contained)
    (hs : s.sink.finished = none) (hready : s.held ≠ [] ∨ s.hungUp = true) :
    ∃ n, (step p s (.get n)).isSome := by
  rcases hheld : s.held with _ | ⟨x, rest⟩
  · refine ⟨0, ?_⟩
    rw [step, if_pos ⟨hs, Nat.zero_le _, Nat.zero_le _, iff_of_true rfl hheld,
      fun _ => hready.resolve_left (not_not_intro hheld)⟩, List.take_zero, sinkPass_end hs]
    rfl
  · obtain ⟨buf, hpass⟩ := sinkPass_chunk (s := s) (c := [x]) hsink hs (List.cons_ne_nil _ _)
      hsink'.size_pos
    refine ⟨1, ?_⟩
    rw [step, if_pos ⟨hs, hsink'.size_pos, by simp [hheld], by simp [hheld], by simp⟩, hheld]
    exact Option.isSome_iff_exists.mpr ⟨_, hpass⟩

/-- A write ends: there is room once the stream is empty, or no reader. -/
theorem exists_put (hdrains : Drains p) (h : Books p g s) (hpending : s.pending ≠ [])
    (hheld : s.held = []) : ∃ n, (step p s (.put n)).isSome := by
  obtain ⟨n, hpos, hle, htakes⟩ := hdrains s.pending.length (List.length_pos_iff.mpr hpending)
    h.pending_le
  refine ⟨n, ?_⟩
  rw [step, if_pos ⟨hpos, hle, by rw [hheld]; exact htakes⟩]
  rfl

/-- While something is left to do, something can happen. -/
theorem over_of_stuck (hsource : p.source.Contained) (hsink : p.sink.Faithful g (· ≤ p.sink.size))
    (hsink' : p.sink.Contained) (hdrains : Drains p) (h : Books p g s)
    (hstuck : Stuck (step p) s) : Over s := by
  have hnever : ∀ {e}, ¬(step p s e).isSome := by
    intro e hstep
    rw [hstuck e] at hstep
    exact Bool.noConfusion hstep
  -- a sink that was not left waits for the stream to be filled or hung up
  have hwait : s.sink.finished = none → s.held = [] ∧ s.hungUp = false := by
    intro hs
    refine ⟨by_contra fun hheld => ?_, by_contra fun hup => ?_⟩
    · obtain ⟨n, hget⟩ := exists_get hsink hsink' hs (.inl hheld)
      exact hnever hget
    · obtain ⟨n, hget⟩ := exists_get hsink hsink' hs (.inr (Bool.not_eq_false _ ▸ hup))
      exact hnever hget
  have hpending : s.pending = [] := by
    by_contra hne
    rcases hs : s.sink.finished with _ | atEnd
    · obtain ⟨n, hput⟩ := exists_put hdrains h hne (hwait hs).1
      exact hnever hput
    · have hrefuse := hstuck .refuse
      rw [step, if_pos ⟨by rw [hs]; rfl, hne⟩] at hrefuse
      cases hrefuse
  have hleft : s.source.finished.isSome := by
    rw [← Option.ne_none_iff_isSome]
    intro hs
    obtain ⟨n, hfetch⟩ := exists_fetch hsource hs hpending
    exact hnever hfetch
  have hup : s.hungUp = true := by
    rw [← Bool.not_eq_false]
    intro hup
    have hhang := hstuck .hangUp
    rw [step, if_pos ⟨hleft, hup⟩] at hhang
    cases hhang
  refine ⟨hleft, hpending, hup, Option.ne_none_iff_isSome.mp fun hs => ?_⟩
  rw [(hwait hs).2] at hup
  exact Bool.noConfusion hup

/-! ### What arrives -/

/-- The output is a first part of what was sent, and all of it when both loops came to
their ends. -/
theorem Books.arrives (h : Books p g s) :
    ∃ out bytes, sent s.sink.writes = some out ∧ sent s.source.writes = some bytes ∧
      out <+: bytes.map g ∧
      (s.source.finished = some true → s.sink.finished = some true → out = bytes.map g) := by
  obtain ⟨printed, lost, hprinted, hsent, hlost⟩ := h.kept
  refine ⟨printed.map g, _, hprinted, hsent, ?_, fun hsource hsink => ?_⟩
  · rw [List.map_append]
    exact List.prefix_append _ _
  · have hpending : s.pending = [] := by
      by_contra hne
      rw [h.waits hne] at hsource
      cases hsource
    rw [hlost (by rw [hsource]; decide), hpending, (h.sinkEnd hsink).2, List.append_nil,
      List.append_nil, List.append_nil]

/-- The source has read pieces of the input, and has written a block for each of them. -/
def Written (R : List α → List α → Prop) (input : List α) (s : State α) : Prop :=
  ∃ chunks blocks, sent s.source.writes = some blocks.flatten ∧
    input = chunks.flatten ++ s.input ∧ List.Forall₂ R chunks blocks

theorem written_start (R : List α → List α → Prop) (input : List α) (junk junk' : ℕ → α) :
    Written R input (start input junk junk') :=
  ⟨[], [], rfl, rfl, .nil⟩

theorem written_move {R : List α → List α → Prop} {input : List α}
    (hR : ∀ before c buf b, c ≠ [] → p.source.Passes before c buf b → R c b) {e : Event}
    (h : Written R input s) (hmove : Move p g s e s') : Written R input s' := by
  cases hmove with
  | fetched c rest b buf hs hpending hinput hne hfits hcopy =>
      obtain ⟨chunks, blocks, hsent, hread, hblocks⟩ := h
      have hblock : List.Forall₂ R [c] [b] := .cons (hR _ c buf b hne hcopy) .nil
      refine ⟨chunks ++ [c], blocks ++ [b], ?_, ?_, List.rel_append hblocks hblock⟩
      · show sent (s.source.writes ++ [WriteCall.ofBytes b]) = _
        rw [sent_append_ofBytes hsent, List.flatten_append, List.flatten_singleton]
      · rw [hread, hinput, List.flatten_append, List.flatten_singleton, List.append_assoc]
  | _ => exact h

theorem Written.map {f : α → α} {input : List α}
    (h : Written (fun c b => c.map f = b) input s) :
    ∃ bytes, sent s.source.writes = some (bytes.map f) ∧ input = bytes ++ s.input := by
  obtain ⟨chunks, blocks, hsent, hread, hblocks⟩ := h
  rw [← List.forall₂_map_left_iff (R := (· = ·)), List.forall₂_eq_eq_eq] at hblocks
  refine ⟨chunks.flatten, ?_, hread⟩
  rw [hsent, ← hblocks, List.map_flatten]

def Event.fails (e : Event) : Prop := e = .fetchFails ∨ e = .getFails

def Unfailing (s : State α) : Prop :=
  s.source.finished ≠ some false ∧ s.sink.finished ≠ some false

theorem unfailing_move {e : Event} (he : ¬e.fails) (h : Books p g s) (hs : Unfailing s)
    (hmove : Move p g s e s') : Unfailing s' := by
  cases hmove with
  | fetched c rest b buf hs' hpending hinput hne hfits hcopy => exact ⟨by simp, hs.2⟩
  | ended hs' hpending hinput => exact ⟨by simp, hs.2⟩
  | failed hs' hpending => exact absurd (.inl rfl) he
  | refused hsink hpending =>
      -- the sink came to its end, so that the source was left before
      obtain ⟨atEnd, hend⟩ := Option.isSome_iff_exists.mp hsink
      have htrue : atEnd = true := by
        cases atEnd with
        | false => exact absurd hend hs.2
        | true => rfl
      have hup := (h.sinkEnd (hend.trans (congrArg some htrue))).1
      rw [ne_hungUp h (h.waits hpending)] at hup
      exact absurd hup Bool.noConfusion
  | put b rest hne hpending => exact hs
  | hungUp hs' hup => exact hs
  | got c rest buf hs' hheld hne => exact ⟨hs.1, by simp⟩
  | sinkEnded hs' hheld hup => exact ⟨hs.1, by simp⟩
  | sinkFailed hs' => exact absurd (.inr rfl) he

/-- A schedule for this input: it is no longer than this, what is printed is a first part
of the input changed by `h`, it goes on until both loops are left, and then all is
printed when no read failed. -/
structure Transfers (p : Pipeline α) (h : α → α) (input : List α) (es : List Event) (s : State α) :
    Prop where
  bounded : es.length ≤ (2 * p.source.size + 1) * input.length + 3
  output : ∃ out, sent s.sink.writes = some out ∧ out <+: input.map h
  ends : Stuck (step p) s → Over s
  all : Stuck (step p) s → (∀ e ∈ es, ¬e.fails) → sent s.sink.writes = some (input.map h)

theorem transfers {f : α → α} (hsource : p.source.Contained) (hsink' : p.sink.Contained)
    (hf : p.source.Faithful f (· ≤ p.source.size)) (hsink : p.sink.Faithful g (· ≤ p.sink.size))
    (hdrains : Drains p) {input : List α} {junk junk' : ℕ → α} {es : List Event}
    (hrun : run (step p) (start input junk junk') es = some s) :
    Transfers p (g ∘ f) input es s := by
  have hmove := fun {s s' : State α} {e : Event} (h : step p s e = some s') =>
    move_of_step hsource hsink hsink' h
  have hblock := fun before c buf b (_ : c ≠ []) (h : p.source.Passes before c buf b) => h.map_eq hf
  have hstart : Books p g (start input junk junk') ∧
      Written (fun c b => c.map f = b) input (start input junk junk') :=
    ⟨books_start p g input junk junk', written_start _ input junk junk'⟩
  obtain ⟨hbooks, hwritten⟩ := run_invariant
    (I := fun s => Books p g s ∧ Written (fun c b => c.map f = b) input s)
    (fun s e s' h hstep => ⟨books_move h.1 (hmove hstep), written_move hblock h.2 (hmove hstep)⟩)
    hstart hrun
  obtain ⟨out, bytes, hout, hbytes, hprefix, hall⟩ := hbooks.arrives
  obtain ⟨read, hread, hinput⟩ := hwritten.map
  cases hbytes.symm.trans hread
  rw [List.map_map] at hprefix hall
  refine ⟨?_, ⟨out, hout, ?_⟩, over_of_stuck hsource hsink hsink' hdrains hbooks,
    fun hstuck hes => ?_⟩
  · exact (lowers hsource hsink hsink').length_le hstart.1 hrun
  · rw [hinput, List.map_append]
    exact hprefix.trans (List.prefix_append _ _)
  · -- without failures both loops come to their ends
    have hover := over_of_stuck hsource hsink hsink' hdrains hbooks hstuck
    have hgood : Books p g s ∧ Unfailing s :=
      run_invariant_of_mem (I := fun s => Books p g s ∧ Unfailing s)
        (fun s e he s' h hstep =>
          ⟨books_move h.1 (hmove hstep), unfailing_move (hes e he) h.1 h.2 (hmove hstep)⟩)
        ⟨hstart.1, by simp [Unfailing, start, CopyLoop.start]⟩ hrun
    have hend : ∀ {c : Copying α}, c.finished ≠ some false → c.finished.isSome →
        c.finished = some true := by
      intro c hne hleft
      obtain ⟨atEnd, hc⟩ := Option.isSome_iff_exists.mp hleft
      cases atEnd with
      | false => exact absurd hc hne
      | true => exact hc
    have hsource := hend hgood.2.1 hover.source
    rw [hout, hall hsource (hend hgood.2.2 hover.sink), hinput, hbooks.sourceEnd hsource,
      List.append_nil]

end Moves

end Pipeline

end UnixLabs.Library
