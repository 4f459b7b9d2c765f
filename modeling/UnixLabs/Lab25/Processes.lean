import UnixLabs.Lab30

/-!
`main` of `lab25/lab25.c`: the parent, its two children, and the ends of the pipe that
each of them has open.

A read of an empty pipe waits while some process has the write end open, be it the
reader itself, and a write without a reader is a `SIGPIPE`. So it matters who closes
which end, and when.
-/

namespace UnixLabs.Lab25

open Library

inductive Handler
  | writeFile
  | printUpper
  deriving DecidableEq

/-- The ends of the pipe that a process has open: `pin_fd` to write, `pout_fd` to read. -/
structure Ends where
  pin : Bool
  pout : Bool
  deriving DecidableEq

/-- Where the parent is: before a `fork`, before the `close` that follows it, in the loop
around `wait`, or at its end. -/
inductive ParentAt
  | forks (h : Handler)
  | handles (h : Handler)
  | waits
  | exits (success : Bool)
  | exited (success : Bool)
  deriving DecidableEq

/-- Where a child is: not there yet, before the first `close`, before `open`, in its loop,
at its end, not waited for, or gone. -/
inductive ChildAt
  | unborn
  | closes
  | opens
  | copies
  | exits
  | zombie
  | reaped
  deriving DecidableEq

structure Child where
  phase : ChildAt
  ends : Ends
  deriving DecidableEq

structure Processes where
  parent : ParentAt
  ends : Ends
  writer : Child
  reader : Child
  deriving DecidableEq

def Processes.hasWriter (q : Processes) : Bool :=
  q.ends.pin || q.writer.ends.pin || q.reader.ends.pin

def Processes.hasReader (q : Processes) : Bool :=
  q.ends.pout || q.writer.ends.pout || q.reader.ends.pout

structure System extends Processes where
  data : Pipeline.State CChar

namespace System

/-- The pipe has hung up when there is no process left to write. -/
def stream (s : System) : Pipeline.State CChar := { s.data with hungUp := !s.hasWriter }

def start (file : List CChar) (junk junk' : ℕ → CChar) : System where
  parent := .forks .writeFile
  ends := ⟨true, true⟩
  writer := ⟨.unborn, ⟨false, false⟩⟩
  reader := ⟨.unborn, ⟨false, false⟩⟩
  data := Pipeline.start file junk junk'

end System

inductive Event
  | fork
  | forkFails
  | parentCloses
  | reap (h : Handler)
  | noChild
  | parentExits
  | writerCloses
  | opens (opened : Bool)
  | fetch (n : ℕ)
  | fetchFails
  | put (n : ℕ)
  | sigpipe
  | writerLeaves
  | writerExits
  | readerCloses
  | get (n : ℕ)
  | getFails
  | readerLeaves
  | readerExits
  deriving DecidableEq

/-- `write_file` and `print_upper` with a buffer of `PIPE_BUF` bytes, and the pipe. -/
def pipe (pipeSize : ℕ) (takes : ℕ → ℕ → ℕ → Bool) : Pipeline CChar :=
  ⟨fileLoop pipeSize, upperLoop pipeSize, takes⟩

def System.goes (p : Pipeline CChar) (s : System) (es : List Pipeline.Event) : Option System :=
  (run p.step s.stream es).map fun data => { s with data }

/-- One step of one process. The children of a failed `fork` never enter their loops. -/
def step (p : Pipeline CChar) (s : System) : Event → Option System
  | .fork =>
      match s.parent with
      | .forks .writeFile =>
          some { s with parent := .handles .writeFile, writer := ⟨.closes, s.ends⟩ }
      | .forks .printUpper =>
          some { s with parent := .handles .printUpper, reader := ⟨.closes, s.ends⟩ }
      | _ => none
  | .forkFails =>
      match s.parent with
      | .forks .writeFile => { s with parent := .exits false }.goes p [.fetchFails, .getFails]
      | .forks .printUpper => { s with parent := .exits false }.goes p [.getFails]
      | _ => none
  | .parentCloses =>
      match s.parent with
      | .handles .writeFile =>
          some { s with parent := .forks .printUpper, ends := { s.ends with pin := false } }
      | .handles .printUpper =>
          some { s with parent := .waits, ends := { s.ends with pout := false } }
      | _ => none
  | .reap .writeFile =>
      if s.parent = .waits ∧ s.writer.phase = .zombie then
        some { s with writer := { s.writer with phase := .reaped } }
      else none
  | .reap .printUpper =>
      if s.parent = .waits ∧ s.reader.phase = .zombie then
        some { s with reader := { s.reader with phase := .reaped } }
      else none
  | .noChild =>
      if s.parent = .waits ∧ s.writer.phase = .reaped ∧ s.reader.phase = .reaped then
        some { s with parent := .exits true }
      else none
  | .parentExits =>
      match s.parent with
      | .exits success => some { s with parent := .exited success, ends := ⟨false, false⟩ }
      | _ => none
  | .writerCloses =>
      if s.writer.phase = .closes then
        some { s with writer := ⟨.opens, { s.writer.ends with pout := false }⟩ }
      else none
  | .opens opened =>
      if s.writer.phase = .opens then
        if opened then some { s with writer := { s.writer with phase := .copies } }
        else { s with writer := { s.writer with phase := .exits } }.goes p [.fetchFails]
      else none
  | .fetch n => if s.writer.phase = .copies then s.goes p [.fetch n] else none
  | .fetchFails => if s.writer.phase = .copies then s.goes p [.fetchFails] else none
  | .put n =>
      if s.writer.phase = .copies ∧ s.hasReader = true then s.goes p [.put n] else none
  | .sigpipe =>
      if s.writer.phase = .copies ∧ s.data.pending ≠ [] ∧ s.hasReader = false then
        some { s with
          writer := { s.writer with phase := .exits }
          data := { s.data with
            source := { s.data.source with finished := some false }
            pending := [] } }
      else none
  | .writerLeaves =>
      if s.writer.phase = .copies ∧ s.data.source.finished.isSome then
        some { s with writer := ⟨.exits, { s.writer.ends with pin := false }⟩ }
      else none
  | .writerExits =>
      if s.writer.phase = .exits then some { s with writer := ⟨.zombie, ⟨false, false⟩⟩ }
      else none
  | .readerCloses =>
      if s.reader.phase = .closes then
        some { s with reader := ⟨.copies, { s.reader.ends with pin := false }⟩ }
      else none
  | .get n => if s.reader.phase = .copies then s.goes p [.get n] else none
  | .getFails => if s.reader.phase = .copies then s.goes p [.getFails] else none
  | .readerLeaves =>
      if s.reader.phase = .copies ∧ s.data.sink.finished.isSome then
        some { s with reader := ⟨.exits, { s.reader.ends with pout := false }⟩ }
      else none
  | .readerExits =>
      if s.reader.phase = .exits then some { s with reader := ⟨.zombie, ⟨false, false⟩⟩ }
      else none

/-! ### What a step does -/

inductive Moves (p : Pipeline CChar) (s : System) : Event → System → Prop
  | forkWriter (hp : s.parent = .forks .writeFile) :
      Moves p s .fork { s with parent := .handles .writeFile, writer := ⟨.closes, s.ends⟩ }
  | forkReader (hp : s.parent = .forks .printUpper) :
      Moves p s .fork { s with parent := .handles .printUpper, reader := ⟨.closes, s.ends⟩ }
  | noWriter (data : Pipeline.State CChar) (hp : s.parent = .forks .writeFile)
      (hrun : run p.step s.stream [.fetchFails, .getFails] = some data) :
      Moves p s .forkFails { s with parent := .exits false, data }
  | noReader (data : Pipeline.State CChar) (hp : s.parent = .forks .printUpper)
      (hrun : run p.step s.stream [.getFails] = some data) :
      Moves p s .forkFails { s with parent := .exits false, data }
  | closePin (hp : s.parent = .handles .writeFile) :
      Moves p s .parentCloses
        { s with parent := .forks .printUpper, ends := { s.ends with pin := false } }
  | closePout (hp : s.parent = .handles .printUpper) :
      Moves p s .parentCloses { s with parent := .waits, ends := { s.ends with pout := false } }
  | reapWriter (hp : s.parent = .waits) (hw : s.writer.phase = .zombie) :
      Moves p s (.reap .writeFile) { s with writer := { s.writer with phase := .reaped } }
  | reapReader (hp : s.parent = .waits) (hr : s.reader.phase = .zombie) :
      Moves p s (.reap .printUpper) { s with reader := { s.reader with phase := .reaped } }
  | noChild (hp : s.parent = .waits) (hw : s.writer.phase = .reaped)
      (hr : s.reader.phase = .reaped) :
      Moves p s .noChild { s with parent := .exits true }
  | parentExits (success : Bool) (hp : s.parent = .exits success) :
      Moves p s .parentExits { s with parent := .exited success, ends := ⟨false, false⟩ }
  | writerCloses (hw : s.writer.phase = .closes) :
      Moves p s .writerCloses
        { s with writer := ⟨.opens, { s.writer.ends with pout := false }⟩ }
  | opens (hw : s.writer.phase = .opens) :
      Moves p s (.opens true) { s with writer := { s.writer with phase := .copies } }
  | notOpened (data : Pipeline.State CChar) (hw : s.writer.phase = .opens)
      (hrun : run p.step s.stream [.fetchFails] = some data) :
      Moves p s (.opens false) { s with writer := { s.writer with phase := .exits }, data }
  | writes (e : Event) (e' : Pipeline.Event) (data : Pipeline.State CChar)
      (hw : s.writer.phase = .copies) (hstep : p.step s.stream e' = some data)
      (hup : e' ≠ .hangUp) (hfails : e'.fails → e = .fetchFails) : Moves p s e { s with data }
  | reads (e : Event) (e' : Pipeline.Event) (data : Pipeline.State CChar)
      (hr : s.reader.phase = .copies) (hstep : p.step s.stream e' = some data)
      (hup : e' ≠ .hangUp) (hfails : e'.fails → e = .getFails) : Moves p s e { s with data }
  | sigpipe (hw : s.writer.phase = .copies) (hpending : s.data.pending ≠ [])
      (hno : s.hasReader = false) :
      Moves p s .sigpipe { s with
        writer := { s.writer with phase := .exits }
        data := { s.data with
          source := { s.data.source with finished := some false }
          pending := [] } }
  | writerLeaves (hw : s.writer.phase = .copies) (hleft : s.data.source.finished.isSome) :
      Moves p s .writerLeaves { s with writer := ⟨.exits, { s.writer.ends with pin := false }⟩ }
  | writerExits (hw : s.writer.phase = .exits) :
      Moves p s .writerExits { s with writer := ⟨.zombie, ⟨false, false⟩⟩ }
  | readerCloses (hr : s.reader.phase = .closes) :
      Moves p s .readerCloses
        { s with reader := ⟨.copies, { s.reader.ends with pin := false }⟩ }
  | readerLeaves (hr : s.reader.phase = .copies) (hleft : s.data.sink.finished.isSome) :
      Moves p s .readerLeaves { s with reader := ⟨.exits, { s.reader.ends with pout := false }⟩ }
  | readerExits (hr : s.reader.phase = .exits) :
      Moves p s .readerExits { s with reader := ⟨.zombie, ⟨false, false⟩⟩ }

variable {p : Pipeline CChar} {s s' : System} {e : Event}

theorem goes_eq_some {es : List Pipeline.Event} (h : s.goes p es = some s') :
    ∃ data, run p.step s.stream es = some data ∧ s' = { s with data } := by
  obtain ⟨data, hrun, rfl⟩ := Option.map_eq_some_iff.mp h
  exact ⟨data, hrun, rfl⟩

theorem goes_single {e : Pipeline.Event} (h : s.goes p [e] = some s') :
    ∃ data, p.step s.stream e = some data ∧ s' = { s with data } := by
  obtain ⟨data, hrun, rfl⟩ := goes_eq_some h
  rw [run_cons] at hrun
  obtain ⟨data', hstep, hnil⟩ := Option.bind_eq_some_iff.mp hrun
  cases hnil
  exact ⟨data, hstep, rfl⟩

theorem moves_of_step (h : step p s e = some s') : Moves p s e s' := by
  cases e with
  | fork =>
      rw [step] at h
      split at h
      · cases h; exact .forkWriter ‹_›
      · cases h; exact .forkReader ‹_›
      · cases h
  | forkFails =>
      rw [step] at h
      split at h
      · obtain ⟨data, hrun, rfl⟩ := goes_eq_some h
        exact .noWriter data ‹_› hrun
      · obtain ⟨data, hrun, rfl⟩ := goes_eq_some h
        exact .noReader data ‹_› hrun
      · cases h
  | parentCloses =>
      rw [step] at h
      split at h
      · cases h; exact .closePin ‹_›
      · cases h; exact .closePout ‹_›
      · cases h
  | reap child =>
      cases child with
      | writeFile =>
          rw [step] at h
          split_ifs at h with hguard
          cases h
          exact .reapWriter hguard.1 hguard.2
      | printUpper =>
          rw [step] at h
          split_ifs at h with hguard
          cases h
          exact .reapReader hguard.1 hguard.2
  | noChild =>
      rw [step] at h
      split_ifs at h with hguard
      cases h
      exact .noChild hguard.1 hguard.2.1 hguard.2.2
  | parentExits =>
      rw [step] at h
      split at h
      · cases h; exact .parentExits _ ‹_›
      · cases h
  | writerCloses =>
      rw [step] at h
      split_ifs at h with hguard
      cases h
      exact .writerCloses hguard
  | opens opened =>
      rw [step] at h
      split_ifs at h with hguard hopened
      · cases h
        cases hopened
        exact .opens hguard
      · obtain ⟨data, hrun, rfl⟩ := goes_eq_some h
        cases Bool.eq_false_iff.mpr hopened
        exact .notOpened data hguard hrun
  | fetch n =>
      rw [step] at h
      split_ifs at h with hguard
      obtain ⟨data, hstep, rfl⟩ := goes_single h
      exact .writes _ _ data hguard hstep (by simp) fun hfails => by
        simp [Pipeline.Event.fails] at hfails
  | fetchFails =>
      rw [step] at h
      split_ifs at h with hguard
      obtain ⟨data, hstep, rfl⟩ := goes_single h
      exact .writes _ _ data hguard hstep (by simp) fun _ => rfl
  | put n =>
      rw [step] at h
      split_ifs at h with hguard
      obtain ⟨data, hstep, rfl⟩ := goes_single h
      exact .writes _ _ data hguard.1 hstep (by simp) fun hfails => by
        simp [Pipeline.Event.fails] at hfails
  | sigpipe =>
      rw [step] at h
      split_ifs at h with hguard
      cases h
      exact .sigpipe hguard.1 hguard.2.1 hguard.2.2
  | writerLeaves =>
      rw [step] at h
      split_ifs at h with hguard
      cases h
      exact .writerLeaves hguard.1 hguard.2
  | writerExits =>
      rw [step] at h
      split_ifs at h with hguard
      cases h
      exact .writerExits hguard
  | readerCloses =>
      rw [step] at h
      split_ifs at h with hguard
      cases h
      exact .readerCloses hguard
  | get n =>
      rw [step] at h
      split_ifs at h with hguard
      obtain ⟨data, hstep, rfl⟩ := goes_single h
      exact .reads _ _ data hguard hstep (by simp) fun hfails => by
        simp [Pipeline.Event.fails] at hfails
  | getFails =>
      rw [step] at h
      split_ifs at h with hguard
      obtain ⟨data, hstep, rfl⟩ := goes_single h
      exact .reads _ _ data hguard hstep (by simp) fun _ => rfl
  | readerLeaves =>
      rw [step] at h
      split_ifs at h with hguard
      cases h
      exact .readerLeaves hguard.1 hguard.2
  | readerExits =>
      rw [step] at h
      split_ifs at h with hguard
      cases h
      exact .readerExits hguard

end UnixLabs.Lab25
