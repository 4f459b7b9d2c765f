import UnixLabs.Lab25.ProcessEnds

/-!
What becomes of a run of `lab25/lab25.c`: no process waits forever, and what is printed.

A piece of the file that does not fill the buffer is written with what the buffer holds
behind it. The pipe and `print_upper` lose nothing and add nothing.
-/

namespace UnixLabs.Lab25

open Library

variable {p : Pipeline CChar} {s s' : System} {e : Event}

/-! ### Every schedule ends -/

structure Inv (p : Pipeline CChar) (s : System) : Prop where
  seated : s.Seated
  due : s.Due
  books : Pipeline.Books p upper s.stream

theorem inv_start (file : List CChar) (junk junk' : ℕ → CChar) :
    Inv p (System.start file junk junk') where
  seated := seated_start file junk junk'
  due := ⟨fun _ => .inl rfl, fun _ => .inl rfl⟩
  books := Pipeline.books_start p upper file junk junk'

def System.work (p : Pipeline CChar) (s : System) : ℕ := Pipeline.left p s.stream + s.left

structure Processes.Ended (q : Processes) : Prop where
  parent : ∃ success, q.parent = .exited success
  writer : q.writer.phase = .unborn ∨ q.writer.phase = .zombie ∨ q.writer.phase = .reaped
  reader : q.reader.phase = .unborn ∨ q.reader.phase = .zombie ∨ q.reader.phase = .reaped

theorem goes_isSome {e : Pipeline.Event} (h : (p.step s.stream e).isSome) :
    (s.goes p [e]).isSome := by
  obtain ⟨data, hstep⟩ := Option.isSome_iff_exists.mp h
  rw [System.goes, run_cons, hstep]
  rfl

theorem parent_of_stuck (hstuck : Stuck (step p) s) :
    s.parent = .waits ∨ ∃ success, s.parent = .exited success := by
  rcases hp : s.parent with child | child | _ | success | success
  · have hfork := hstuck .fork
    cases child <;> simp [step, hp] at hfork
  · have hclose := hstuck .parentCloses
    cases child <;> simp [step, hp] at hclose
  · exact .inl rfl
  · have hexit := hstuck .parentExits
    simp [step, hp] at hexit
  · exact .inr ⟨success, rfl⟩

theorem parent_ends (h : s.Seated)
    (hparent : s.parent = .waits ∨ ∃ success, s.parent = .exited success) :
    s.ends = ⟨false, false⟩ := by
  have hkeeps := h.parent
  rcases hparent with hp | ⟨success, hp⟩
  · rw [hp] at hkeeps
    exact hkeeps
  · rw [hp] at hkeeps
    exact hkeeps

theorem writer_of_stuck (hstuck : Stuck (step p) s) :
    s.writer.phase = .copies ∨
      s.writer.phase = .unborn ∨ s.writer.phase = .zombie ∨ s.writer.phase = .reaped := by
  rcases hw : s.writer.phase
  case closes => simpa [step, hw] using hstuck .writerCloses
  case opens => simpa [step, hw] using hstuck (.opens true)
  case exits => simpa [step, hw] using hstuck .writerExits
  all_goals simp

theorem reader_of_stuck (h : s.Seated) (hstuck : Stuck (step p) s) :
    s.reader.phase = .copies ∨
      s.reader.phase = .unborn ∨ s.reader.phase = .zombie ∨ s.reader.phase = .reaped := by
  have hkeeps := h.reader
  rcases hr : s.reader.phase
  case closes => simpa [step, hr] using hstuck .readerCloses
  case opens =>
      rw [hr] at hkeeps
      exact hkeeps.elim
  case exits => simpa [step, hr] using hstuck .readerExits
  all_goals simp

section Runs

variable (hsource : p.source.Contained) (hsink : p.sink.Faithful upper (· ≤ p.sink.size))
  (hsink' : p.sink.Contained)

include hsource hsink hsink'

theorem lowers : Lowers (Inv p) (step p) (System.work p) where
  keeps s e s' h hstep := by
    have hmove := moves_of_step hstep
    obtain ⟨es, hrun, -⟩ := follows_move hsource hsink hsink' h.seated h.due hmove
    refine ⟨seated_move h.seated hmove, due_move hsource hsink hsink' h.due hmove, ?_⟩
    exact run_invariant (Pipeline.lowers hsource hsink hsink').keeps h.books hrun
  lt s e s' h hstep := by
    obtain ⟨es, hrun, hless⟩ :=
      follows_move hsource hsink hsink' h.seated h.due (moves_of_step hstep)
    have hloops := (Pipeline.lowers hsource hsink hsink').length_add_le h.books hrun
    show Pipeline.left p s'.stream + s'.left < Pipeline.left p s.stream + s.left
    omega

theorem written_step {R : List CChar → List CChar → Prop} {file : List CChar}
    (hR : ∀ before c buf b, c ≠ [] → p.source.Passes before c buf b → R c b) (h : Inv p s)
    (hwritten : Pipeline.Written R file s.data) (hstep : step p s e = some s') :
    Pipeline.Written R file s'.data := by
  obtain ⟨es, hrun, -⟩ := follows_move hsource hsink hsink' h.seated h.due (moves_of_step hstep)
  have hbefore : Pipeline.Written R file s.stream := hwritten
  have hafter : Pipeline.Written R file s'.stream := run_invariant
    (fun t e t' h hstep =>
      Pipeline.written_move hR h (Pipeline.move_of_step hsource hsink hsink' hstep)) hbefore hrun
  exact hafter

omit hsource in
/-- A reader in its loop waits for bytes that a writer has to send. -/
theorem reader_waits (hstuck : Stuck (step p) s) (hr : s.reader.phase = .copies) :
    s.data.held = [] ∧ s.hasWriter = true := by
  have hs : s.data.sink.finished = none := by
    rw [← Option.not_isSome_iff_eq_none]
    intro hleft
    simpa [step, hr, hleft] using hstuck .readerLeaves
  have hnever : ∀ n, ¬(p.step s.stream (.get n)).isSome := by
    intro n hget
    have hnone := hstuck (.get n)
    rw [step, if_pos hr] at hnone
    simpa [hnone] using goes_isSome hget
  constructor
  · by_contra hheld
    obtain ⟨n, hget⟩ := Pipeline.exists_get (s := s.stream) hsink hsink' hs (.inl hheld)
    exact hnever n hget
  · rw [← Bool.not_eq_false]
    intro hno
    obtain ⟨n, hget⟩ := Pipeline.exists_get (s := s.stream) hsink hsink' hs
      (.inr (by rw [System.stream, hno]; rfl))
    exact hnever n hget

theorem writer_goes_on (hdrains : p.Drains) (h : Inv p s) (hstuck : Stuck (step p) s) :
    s.writer.phase ≠ .copies := by
  intro hw
  have hs : s.data.source.finished = none := by
    rw [← Option.not_isSome_iff_eq_none]
    intro hleft
    simpa [step, hw, hleft] using hstuck .writerLeaves
  by_cases hpending : s.data.pending = []
  · obtain ⟨n, hfetch⟩ := Pipeline.exists_fetch (s := s.stream) hsource hs hpending
    have hnone := hstuck (.fetch n)
    rw [step, if_pos hw] at hnone
    simpa [hnone] using goes_isSome hfetch
  · rcases hreader : s.hasReader with _ | _
    · simpa [step, hw, hpending, hreader] using hstuck .sigpipe
    · -- nobody but a reader in its loop has the read end open, and that has read everything
      have hheld : s.data.held = [] := by
        have hends := parent_ends h.seated (parent_of_stuck hstuck)
        have hwriter := h.seated.writer
        have hkeeps := h.seated.reader
        rw [hw] at hwriter
        have hwends : s.writer.ends = ⟨true, false⟩ := hwriter
        rcases reader_of_stuck h.seated hstuck with hr | hr | hr | hr
        · exact (reader_waits hsink hsink' hstuck hr).1
        all_goals
          rw [hr] at hkeeps
          have hrends : s.reader.ends = ⟨false, false⟩ := hkeeps
          simp [Processes.hasReader, hends, hwends, hrends] at hreader
      obtain ⟨n, hput⟩ := Pipeline.exists_put (s := s.stream) hdrains h.books hpending hheld
      have hnone := hstuck (.put n)
      rw [step, if_pos ⟨hw, hreader⟩] at hnone
      simpa [hnone] using goes_isSome hput

/-- While a process is left, one of them can go on. -/
theorem ended_of_stuck (hdrains : p.Drains) (h : Inv p s) (hstuck : Stuck (step p) s) :
    s.Ended := by
  have hparent := parent_of_stuck hstuck
  have hwriter := (writer_of_stuck hstuck).resolve_left
    (writer_goes_on hsource hsink hsink' hdrains h hstuck)
  have hreader : s.reader.phase = .unborn ∨ s.reader.phase = .zombie ∨
      s.reader.phase = .reaped := by
    refine (reader_of_stuck h.seated hstuck).resolve_left fun hr => ?_
    have hno := (reader_waits hsink hsink' hstuck hr).2
    have hends := parent_ends h.seated hparent
    have hwends : s.writer.ends = ⟨false, false⟩ := by
      have hkeeps := h.seated.writer
      rcases hwriter with hw | hw | hw <;> rw [hw] at hkeeps <;> exact hkeeps
    have hrends : s.reader.ends = ⟨false, true⟩ := by
      have hkeeps := h.seated.reader
      rw [hr] at hkeeps
      exact hkeeps
    simp [Processes.hasWriter, hends, hwends, hrends] at hno
  refine ⟨hparent.resolve_left fun hp => ?_, hwriter, hreader⟩
  -- a parent that waits can wait for a child that has ended, or for none
  have hforked := h.seated.forked
  rw [hp] at hforked
  rcases hwriter with hw | hw | hw
  · exact hforked.1 hw
  · simpa [step, hp, hw] using hstuck (.reap .writeFile)
  rcases hreader with hr | hr | hr
  · exact hforked.2 hr
  · simpa [step, hp, hr] using hstuck (.reap .printUpper)
  simpa [step, hp, hw, hr] using hstuck .noChild

end Runs

/-! ### Runs without failures -/

def Event.fails (e : Event) : Prop :=
  e = .forkFails ∨ e = .opens false ∨ e = .fetchFails ∨ e = .getFails

/-- Nothing has failed so far. -/
structure Good (s : System) : Prop where
  loops : Pipeline.Unfailing s.data
  exits : s.parent ≠ .exits false
  exited : s.parent ≠ .exited false

/-- Then the reader keeps the read end open as long as there is something to write. -/
theorem Good.no_sigpipe (hgood : Good s) (h : Inv p s) : step p s .sigpipe = none := by
  rw [step, if_neg]
  rintro ⟨hw, -, hno⟩
  obtain ⟨atEnd, hend⟩ := Option.isSome_iff_exists.mp (h.due.left_of_no_reader h.seated hno)
  cases atEnd with
  | false => exact hgood.loops.2 hend
  | true =>
      -- the reader came to the end, so that no writer was left
      have hup : (!s.hasWriter) = true := (h.books.sinkEnd hend).1
      rw [h.seated.hasWriter (.inr (.inr (.inr hw)))] at hup
      exact Bool.noConfusion hup

theorem good_move (hsource : p.source.Contained)
    (hsink : p.sink.Faithful upper (· ≤ p.sink.size)) (hsink' : p.sink.Contained)
    (hgood : Good s) (h : Inv p s) (he : ¬e.fails) (hstep : step p s e = some s') :
    Good s' := by
  have hloops := fun {e' data} (he' : ¬e'.fails) (hmove : p.step s.stream e' = some data) =>
    Pipeline.unfailing_move he' h.books hgood.loops
      (Pipeline.move_of_step hsource hsink hsink' hmove)
  cases moves_of_step hstep
  case noWriter => exact absurd (.inl rfl) he
  case noReader => exact absurd (.inl rfl) he
  case notOpened => exact absurd (.inr (.inl rfl)) he
  case writes e' data hw hmove hup hfails =>
    refine ⟨hloops (fun hfail => he ?_) hmove, hgood.exits, hgood.exited⟩
    exact .inr (.inr (.inl (hfails hfail)))
  case reads e' data hr hmove hup hfails =>
    refine ⟨hloops (fun hfail => he ?_) hmove, hgood.exits, hgood.exited⟩
    exact .inr (.inr (.inr (hfails hfail)))
  case sigpipe hw hpending hno =>
    rw [hgood.no_sigpipe h] at hstep
    cases hstep
  case parentExits success hp =>
    refine ⟨hgood.loops, by simp, fun hexited => ?_⟩
    cases hexited
    exact hgood.exits hp
  case forkWriter => exact ⟨hgood.loops, by simp, by simp⟩
  case forkReader => exact ⟨hgood.loops, by simp, by simp⟩
  case closePin => exact ⟨hgood.loops, by simp, by simp⟩
  case closePout => exact ⟨hgood.loops, by simp, by simp⟩
  case noChild => exact ⟨hgood.loops, by simp, by simp⟩
  all_goals exact ⟨hgood.loops, hgood.exits, hgood.exited⟩

/-! ### The program -/

/-- What `write_file` passes to `write` for a piece of the file: all of its buffer, which
begins with the piece. -/
structure Block (pipeSize : ℕ) (chunk block : List CChar) : Prop where
  ne_nil : chunk ≠ []
  length : block.length = pipeSize
  starts : chunk <+: block

theorem fileLoop_block {pipeSize : ℕ} {before buf : ℕ → CChar} {chunk block : List CChar}
    (hne : chunk ≠ []) (h : (fileLoop pipeSize).Passes before chunk buf block) :
    Block pipeSize chunk block := by
  have hbuf : writeAt before 0 chunk = buf := Option.some_inj.mp h.edit
  have hread := firstCells_writeAt before 0 chunk
  rw [Nat.zero_add, hbuf] at hread
  have hblock : block = firstCells buf pipeSize := h.block
  have hfits : chunk.length ≤ pipeSize := h.fits
  refine ⟨hne, ?_, ?_⟩
  · rw [hblock, length_firstCells]
  · rw [List.prefix_iff_eq_take, hblock, take_firstCells buf hfits, hread]
    rfl

/-- What becomes of a run: it is no longer than this, it goes on until no process is left,
`write_file` has called `write` with a block for each piece of the file it has read, and what
is printed is a first part of the blocks, in upper case. When no call fails, then no process
is killed, and at the end the parent has waited for both children, the file is read, and all
the blocks are printed. -/
structure Outcome (pipeSize : ℕ) (takes : ℕ → ℕ → ℕ → Bool) (file : List CChar) (es : List Event)
    (s : System) : Prop where
  bounded : es.length ≤ (2 * pipeSize + 1) * file.length + 21
  ended : Stuck (step (pipe pipeSize takes)) s → s.Ended
  written : Pipeline.Written (Block pipeSize) file s.data
  printed : ∃ out written, sent s.data.sink.writes = some out ∧
    sent s.data.source.writes = some written ∧ out <+: written.map upper
  alive : (∀ e ∈ es, ¬e.fails) → .sigpipe ∉ es
  all : (∀ e ∈ es, ¬e.fails) → Stuck (step (pipe pipeSize takes)) s →
    s.parent = .exited true ∧ s.writer.phase = .reaped ∧ s.reader.phase = .reaped ∧
      s.data.input = [] ∧ ∃ written, sent s.data.source.writes = some written ∧
        sent s.data.sink.writes = some (written.map upper)

theorem fileLoop_contained {pipeSize : ℕ} (hpos : 0 < pipeSize) (hsize : pipeSize < 2 ^ 63) :
    (fileLoop pipeSize).Contained where
  size_pos := hpos
  failure_ne := show readError ≠ 0 by decide
  stops := beq_self_eq_true readError
  goes _ hn := ne_readError hsize hn
  passed _ _ := le_rfl
  edit _ _ _ := rfl

end UnixLabs.Lab25
