import UnixLabs.Lab25.Processes

/-!
Which ends of the pipe the processes of `lab25/lab25.c` have open, and how their steps move
the bytes.

Whoever is to write has the write end open, and whoever is to read the read end. So the pipe
hangs up when the writer is gone, and every step is some steps of the two loops and the
stream between them.
-/

namespace UnixLabs.Lab25

open Library

variable {p : Pipeline CChar} {s s' : System} {e : Event}

/-- The parent keeps an end until the child that uses it was forked. -/
def ParentAt.Keeps : ParentAt → Ends → Prop
  | .forks .writeFile, x | .handles .writeFile, x => x = ⟨true, true⟩
  | .forks .printUpper, x | .handles .printUpper, x => x = ⟨false, true⟩
  | .waits, x | .exited _, x => x = ⟨false, false⟩
  | .exits _, _ => True

def ChildAt.WriterKeeps : ChildAt → Ends → Prop
  | .closes, x => x = ⟨true, true⟩
  | .opens, x | .copies, x => x = ⟨true, false⟩
  | .exits, x => x.pout = false
  | .unborn, x | .zombie, x | .reaped, x => x = ⟨false, false⟩

def ChildAt.ReaderKeeps : ChildAt → Ends → Prop
  | .opens, _ => False
  | .closes, x | .copies, x => x = ⟨false, true⟩
  | .unborn, x | .exits, x | .zombie, x | .reaped, x => x = ⟨false, false⟩

/-- Which children there are. -/
def ParentAt.Forked : ParentAt → ChildAt → ChildAt → Prop
  | .forks .writeFile, w, r => w = .unborn ∧ r = .unborn
  | .handles .writeFile, w, r | .forks .printUpper, w, r => w ≠ .unborn ∧ r = .unborn
  | .handles .printUpper, w, r | .waits, w, r => w ≠ .unborn ∧ r ≠ .unborn
  | .exits true, w, r | .exited true, w, r => w = .reaped ∧ r = .reaped
  | .exits false, _, _ | .exited false, _, _ => True

structure Processes.Seated (q : Processes) : Prop where
  parent : q.parent.Keeps q.ends
  writer : q.writer.phase.WriterKeeps q.writer.ends
  reader : q.reader.phase.ReaderKeeps q.reader.ends
  forked : q.parent.Forked q.writer.phase q.reader.phase

theorem seated_start (file : List CChar) (junk junk' : ℕ → CChar) :
    (System.start file junk junk').Seated :=
  ⟨rfl, rfl, rfl, rfl, rfl⟩

theorem ParentAt.Forked.writer {x : ParentAt} {w w' r : ChildAt} (h : x.Forked w r)
    (hw : w ≠ .unborn) (hw' : w' ≠ .unborn) (hreaped : w ≠ .reaped) : x.Forked w' r := by
  rcases x with ⟨⟨⟩⟩ | ⟨⟨⟩⟩ | _ | ⟨⟨⟩⟩ | ⟨⟨⟩⟩ <;> simp_all [ParentAt.Forked]

theorem ParentAt.Forked.reader {x : ParentAt} {w r r' : ChildAt} (h : x.Forked w r)
    (hr : r ≠ .unborn) (hr' : r' ≠ .unborn) (hreaped : r ≠ .reaped) : x.Forked w r' := by
  rcases x with ⟨⟨⟩⟩ | ⟨⟨⟩⟩ | _ | ⟨⟨⟩⟩ | ⟨⟨⟩⟩ <;> simp_all [ParentAt.Forked]

theorem seated_move (h : s.Seated) (hmove : Moves p s e s') : s'.Seated := by
  obtain ⟨hparent, hwriter, hreader, hforked⟩ := h
  cases hmove with
  | forkWriter hp =>
      rw [hp] at hparent hforked
      exact ⟨hparent, hparent, hreader, by simp, hforked.2⟩
  | forkReader hp =>
      rw [hp] at hparent hforked
      exact ⟨hparent, hwriter, hparent, hforked.1, by simp⟩
  | noWriter data hp hrun => exact ⟨trivial, hwriter, hreader, trivial⟩
  | noReader data hp hrun => exact ⟨trivial, hwriter, hreader, trivial⟩
  | closePin hp =>
      rw [hp] at hparent hforked
      have hends : s.ends = ⟨true, true⟩ := hparent
      exact ⟨by rw [hends]; rfl, hwriter, hreader, hforked⟩
  | closePout hp =>
      rw [hp] at hparent hforked
      have hends : s.ends = ⟨false, true⟩ := hparent
      exact ⟨by rw [hends]; rfl, hwriter, hreader, hforked⟩
  | reapWriter hp hw =>
      rw [hw] at hwriter hforked
      exact ⟨hparent, hwriter, hreader, hforked.writer (by simp) (by simp) (by simp)⟩
  | reapReader hp hr =>
      rw [hr] at hreader hforked
      exact ⟨hparent, hwriter, hreader, hforked.reader (by simp) (by simp) (by simp)⟩
  | noChild hp hw hr => exact ⟨trivial, hwriter, hreader, hw, hr⟩
  | parentExits success hp =>
      rw [hp] at hforked
      cases success <;> exact ⟨rfl, hwriter, hreader, hforked⟩
  | writerCloses hw =>
      rw [hw] at hwriter hforked
      have hends : s.writer.ends = ⟨true, true⟩ := hwriter
      exact ⟨hparent, by rw [hends]; rfl, hreader, hforked.writer (by simp) (by simp) (by simp)⟩
  | opens hw =>
      rw [hw] at hwriter hforked
      exact ⟨hparent, hwriter, hreader, hforked.writer (by simp) (by simp) (by simp)⟩
  | notOpened data hw hrun =>
      rw [hw] at hwriter hforked
      have hends : s.writer.ends = ⟨true, false⟩ := hwriter
      exact ⟨hparent, congrArg Ends.pout hends, hreader,
        hforked.writer (by simp) (by simp) (by simp)⟩
  | writes _ e' data hw hstep hup hfails => exact ⟨hparent, hwriter, hreader, hforked⟩
  | reads _ e' data hr hstep hup hfails => exact ⟨hparent, hwriter, hreader, hforked⟩
  | sigpipe hw hpending hno =>
      rw [hw] at hwriter hforked
      have hends : s.writer.ends = ⟨true, false⟩ := hwriter
      exact ⟨hparent, congrArg Ends.pout hends, hreader,
        hforked.writer (by simp) (by simp) (by simp)⟩
  | writerLeaves hw hleft =>
      rw [hw] at hwriter hforked
      have hends : s.writer.ends = ⟨true, false⟩ := hwriter
      exact ⟨hparent, congrArg Ends.pout hends, hreader,
        hforked.writer (by simp) (by simp) (by simp)⟩
  | writerExits hw =>
      rw [hw] at hforked
      exact ⟨hparent, rfl, hreader, hforked.writer (by simp) (by simp) (by simp)⟩
  | readerCloses hr =>
      rw [hr] at hreader hforked
      have hends : s.reader.ends = ⟨false, true⟩ := hreader
      exact ⟨hparent, hwriter, by rw [hends]; rfl, hforked.reader (by simp) (by simp) (by simp)⟩
  | readerLeaves hr hleft =>
      rw [hr] at hreader hforked
      have hends : s.reader.ends = ⟨false, true⟩ := hreader
      exact ⟨hparent, hwriter, by rw [hends]; rfl, hforked.reader (by simp) (by simp) (by simp)⟩
  | readerExits hr =>
      rw [hr] at hforked
      exact ⟨hparent, hwriter, rfl, hforked.reader (by simp) (by simp) (by simp)⟩

/-- The writer is to come, or has the write end open. -/
def Processes.WriterDue (q : Processes) : Prop :=
  q.parent = .forks .writeFile ∨ q.writer.phase = .closes ∨ q.writer.phase = .opens ∨
    q.writer.phase = .copies

def Processes.ReaderDue (q : Processes) : Prop :=
  q.parent = .forks .writeFile ∨ q.parent = .handles .writeFile ∨ q.parent = .forks .printUpper ∨
    q.reader.phase = .closes ∨ q.reader.phase = .copies

theorem Processes.Seated.hasWriter {q : Processes} (h : q.Seated) (hdue : q.WriterDue) :
    q.hasWriter = true := by
  have hparent := h.parent
  have hwriter := h.writer
  rcases hdue with hp | hw | hw | hw
  · rw [hp] at hparent
    have hends : q.ends = ⟨true, true⟩ := hparent
    simp [Processes.hasWriter, hends]
  · rw [hw] at hwriter
    have hends : q.writer.ends = ⟨true, true⟩ := hwriter
    simp [Processes.hasWriter, hends]
  · rw [hw] at hwriter
    have hends : q.writer.ends = ⟨true, false⟩ := hwriter
    simp [Processes.hasWriter, hends]
  · rw [hw] at hwriter
    have hends : q.writer.ends = ⟨true, false⟩ := hwriter
    simp [Processes.hasWriter, hends]

theorem Processes.Seated.hasReader {q : Processes} (h : q.Seated) (hdue : q.ReaderDue) :
    q.hasReader = true := by
  have hparent := h.parent
  have hreader := h.reader
  rcases hdue with hp | hp | hp | hr | hr
  · rw [hp] at hparent
    have hends : q.ends = ⟨true, true⟩ := hparent
    simp [Processes.hasReader, hends]
  · rw [hp] at hparent
    have hends : q.ends = ⟨true, true⟩ := hparent
    simp [Processes.hasReader, hends]
  · rw [hp] at hparent
    have hends : q.ends = ⟨false, true⟩ := hparent
    simp [Processes.hasReader, hends]
  · rw [hr] at hreader
    have hends : q.reader.ends = ⟨false, true⟩ := hreader
    simp [Processes.hasReader, hends]
  · rw [hr] at hreader
    have hends : q.reader.ends = ⟨false, true⟩ := hreader
    simp [Processes.hasReader, hends]

/-- A loop that was not left belongs to a child that is due. -/
structure System.Due (s : System) : Prop where
  source : s.data.source.finished = none → s.WriterDue
  sink : s.data.sink.finished = none → s.ReaderDue

/-! ### The pipeline of a run -/

def ParentAt.left : ParentAt → ℕ
  | .forks .writeFile => 6
  | .handles .writeFile => 5
  | .forks .printUpper => 4
  | .handles .printUpper => 3
  | .waits => 2
  | .exits _ => 1
  | .exited _ => 0

def ChildAt.left : ChildAt → ℕ
  | .unborn => 6
  | .closes => 5
  | .opens => 4
  | .copies => 3
  | .exits => 2
  | .zombie => 1
  | .reaped => 0

def Processes.left (q : Processes) : ℕ :=
  q.parent.left + q.writer.phase.left + q.reader.phase.left

/-- A step that leaves the loops alone is one of the pipeline when the last writer closes
its end, and none else. -/
theorem hangs_up (hdata : s'.data = s.data) (hwriter : s'.hasWriter = true → s.hasWriter = true)
    (hdue : s'.hasWriter = false → s'.data.source.finished.isSome) :
    ∃ es, run p.step s.stream es = some s'.stream := by
  rcases hnow : s'.hasWriter with _ | _
  · rcases hbefore : s.hasWriter with _ | _
    · exact ⟨[], by simp [System.stream, hdata, hnow, hbefore]⟩
    · refine ⟨[.hangUp], ?_⟩
      have hleft := hdue hnow
      rw [hdata] at hleft
      simp [run_cons, Pipeline.step, System.stream, hdata, hnow, hbefore, hleft]
  · exact ⟨[], by simp [System.stream, hdata, hnow, hwriter hnow]⟩

theorem stream_eq_data {q : Processes} {data : Pipeline.State CChar}
    (hsame : q.hasWriter = s.hasWriter) (hup : data.hungUp = s.stream.hungUp) :
    some data = some (System.stream ⟨q, data⟩) := by
  have hpipe : data.hungUp = !q.hasWriter := by rw [hup, hsame]; rfl
  rw [System.stream, ← hpipe]

theorem System.Due.left_of_no_writer (h : s.Due) (hseated : s.Seated)
    (hno : s.hasWriter = false) : s.data.source.finished.isSome := by
  rw [← Option.ne_none_iff_isSome]
  intro hs
  rw [hseated.hasWriter (h.source hs)] at hno
  exact Bool.noConfusion hno

theorem System.Due.left_of_no_reader (h : s.Due) (hseated : s.Seated)
    (hno : s.hasReader = false) : s.data.sink.finished.isSome := by
  rw [← Option.ne_none_iff_isSome]
  intro hs
  rw [hseated.hasReader (h.sink hs)] at hno
  exact Bool.noConfusion hno

section Runs

variable (hsource : p.source.Contained) (hsink : p.sink.Faithful upper (· ≤ p.sink.size))
  (hsink' : p.sink.Contained)

include hsource hsink hsink'

theorem failed_of_fetchFails {t t' : Pipeline.State CChar} (h : p.step t .fetchFails = some t') :
    t'.source.finished = some false ∧ t'.sink = t.sink := by
  cases Pipeline.move_of_step hsource hsink hsink' h with
  | failed hs hpending => exact ⟨rfl, rfl⟩

theorem failed_of_getFails {t t' : Pipeline.State CChar} (h : p.step t .getFails = some t') :
    t'.sink.finished = some false ∧ t'.source = t.source := by
  cases Pipeline.move_of_step hsource hsink hsink' h with
  | sinkFailed hs => exact ⟨rfl, rfl⟩

theorem due_move (h : s.Due) (hmove : Moves p s e s') : s'.Due := by
  have hkeeps := fun {e data} (hstep : p.step s.stream e = some data) =>
    (Pipeline.move_of_step hsource hsink hsink' hstep).unfinished
  cases hmove
  case noWriter data hp hrun =>
    -- both loops are left
    obtain ⟨data₁, hfirst, hrest⟩ := Option.bind_eq_some_iff.mp hrun
    obtain ⟨data₂, hsecond, hnil⟩ := Option.bind_eq_some_iff.mp hrest
    cases hnil
    have hsourceLeft := (failed_of_fetchFails hsource hsink hsink' hfirst).1
    obtain ⟨hsinkLeft, hsame⟩ := failed_of_getFails hsource hsink hsink' hsecond
    rw [← hsame] at hsourceLeft
    exact ⟨fun hs => absurd (hs.symm.trans hsourceLeft) (by simp),
      fun hs => absurd (hs.symm.trans hsinkLeft) (by simp)⟩
  case noReader data hp hrun =>
    obtain ⟨data₁, hfirst, hnil⟩ := Option.bind_eq_some_iff.mp hrun
    cases hnil
    obtain ⟨hleft, hsame⟩ := failed_of_getFails hsource hsink hsink' hfirst
    refine ⟨fun hs => ?_, fun hs => absurd (hs.symm.trans hleft) (by simp)⟩
    have hs' : data.source.finished = none := hs
    rw [hsame] at hs'
    rcases h.source hs' with hp' | hdue
    · cases hp.symm.trans hp'
    · exact .inr hdue
  case notOpened data hw hrun =>
    obtain ⟨data₁, hfirst, hnil⟩ := Option.bind_eq_some_iff.mp hrun
    cases hnil
    obtain ⟨hleft, hsame⟩ := failed_of_fetchFails hsource hsink hsink' hfirst
    refine ⟨fun hs => absurd (hs.symm.trans hleft) (by simp), fun hs => h.sink ?_⟩
    have hs' : data.sink.finished = none := hs
    rwa [hsame] at hs'
  case writes e' data hw hstep hup hfails =>
    exact ⟨fun hs => h.source ((hkeeps hstep).1 hs), fun hs => h.sink ((hkeeps hstep).2 hs)⟩
  case reads e' data hr hstep hup hfails =>
    exact ⟨fun hs => h.source ((hkeeps hstep).1 hs), fun hs => h.sink ((hkeeps hstep).2 hs)⟩
  case sigpipe hw hpending hno =>
    refine ⟨fun hs => ?_, h.sink⟩
    cases hs
  -- the other steps change no loop
  all_goals
    refine ⟨fun hs => ?_, fun hs => ?_⟩
    · have hdue := h.source hs
      simp_all [Processes.WriterDue]
    · have hdue := h.sink hs
      simp_all [Processes.ReaderDue]

/-- Every step is some steps of the pipeline. If it is none, a process has come further. -/
theorem follows_move (hseated : s.Seated) (hdue : s.Due) (hmove : Moves p s e s') :
    ∃ es, run p.step s.stream es = some s'.stream ∧ s'.left < s.left + es.length := by
  have hleft := (due_move hsource hsink hsink' hdue hmove).left_of_no_writer
    (seated_move hseated hmove)
  have hforked := hseated.forked
  have hkeeps := fun {t e data} (hstep : p.step t e = some data) (he : e ≠ .hangUp) =>
    (Pipeline.move_of_step hsource hsink hsink' hstep).hungUp_eq he
  -- a process moves on, and perhaps closes an end
  have hmoves : s'.data = s.data → (s'.hasWriter = true → s.hasWriter = true) → s'.left < s.left →
      ∃ es, run p.step s.stream es = some s'.stream ∧ s'.left < s.left + es.length := by
    intro hdata hwriter hless
    obtain ⟨es, hrun⟩ := hangs_up (p := p) hdata hwriter hleft
    exact ⟨es, hrun, Nat.lt_add_right _ hless⟩
  cases hmove with
  | forkWriter hp =>
      rw [hp] at hforked
      apply hmoves rfl
      · simp only [Processes.hasWriter, Bool.or_eq_true]
        tauto
      · simp [Processes.left, hp, hforked.1, ParentAt.left, ChildAt.left]
  | forkReader hp =>
      rw [hp] at hforked
      apply hmoves rfl
      · simp only [Processes.hasWriter, Bool.or_eq_true]
        tauto
      · simp only [Processes.left, hp, hforked.2, ParentAt.left, ChildAt.left]
        omega
  | noWriter data hp hrun =>
      obtain ⟨data₁, hfirst, hrest⟩ := Option.bind_eq_some_iff.mp hrun
      obtain ⟨data₂, hsecond, hnil⟩ := Option.bind_eq_some_iff.mp hrest
      cases hnil
      refine ⟨[.fetchFails, .getFails], ?_, ?_⟩
      · rw [hrun]
        apply stream_eq_data (s := s)
        · rfl
        · exact (hkeeps hsecond (by simp)).trans (hkeeps hfirst (by simp))
      · simp only [Processes.left, hp, ParentAt.left]
        omega
  | noReader data hp hrun =>
      obtain ⟨data₁, hfirst, hnil⟩ := Option.bind_eq_some_iff.mp hrun
      cases hnil
      refine ⟨[.getFails], ?_, ?_⟩
      · rw [hrun]
        apply stream_eq_data (s := s)
        · rfl
        · exact hkeeps hfirst (by simp)
      · simp only [Processes.left, hp, ParentAt.left]
        omega
  | notOpened data hw hrun =>
      obtain ⟨data₁, hfirst, hnil⟩ := Option.bind_eq_some_iff.mp hrun
      cases hnil
      refine ⟨[.fetchFails], ?_, ?_⟩
      · rw [hrun]
        apply stream_eq_data (s := s)
        · rfl
        · exact hkeeps hfirst (by simp)
      · simp only [Processes.left, hw, ChildAt.left]
        omega
  | writes _ e' data hw hstep hup hfails =>
      refine ⟨[e'], ?_, Nat.lt_succ_self _⟩
      rw [run_cons, hstep]
      apply stream_eq_data (s := s)
      · rfl
      · exact hkeeps hstep hup
  | reads _ e' data hr hstep hup hfails =>
      refine ⟨[e'], ?_, Nat.lt_succ_self _⟩
      rw [run_cons, hstep]
      apply stream_eq_data (s := s)
      · rfl
      · exact hkeeps hstep hup
  | sigpipe hw hpending hno =>
      refine ⟨[.refuse], ?_, ?_⟩
      · have hguard : s.stream.sink.finished.isSome ∧ s.stream.pending ≠ [] :=
          ⟨hdue.left_of_no_reader hseated hno, hpending⟩
        rw [run_cons, Pipeline.step, if_pos hguard]
        rfl
      · simp only [Processes.left, hw, ChildAt.left]
        omega
  | closePin hp =>
      apply hmoves rfl
      · simp only [Processes.hasWriter, Bool.or_eq_true]
        tauto
      · simp only [Processes.left, hp, ParentAt.left]
        omega
  | closePout hp =>
      apply hmoves rfl id
      simp only [Processes.left, hp, ParentAt.left]
      omega
  | reapWriter hp hw =>
      apply hmoves rfl id
      simp only [Processes.left, hw, ChildAt.left]
      omega
  | reapReader hp hr =>
      apply hmoves rfl id
      simp only [Processes.left, hr, ChildAt.left]
      omega
  | noChild hp hw hr =>
      apply hmoves rfl id
      simp only [Processes.left, hp, ParentAt.left]
      omega
  | parentExits success hp =>
      apply hmoves rfl
      · simp only [Processes.hasWriter, Bool.or_eq_true]
        tauto
      · simp only [Processes.left, hp, ParentAt.left]
        omega
  | writerCloses hw =>
      apply hmoves rfl id
      simp only [Processes.left, hw, ChildAt.left]
      omega
  | opens hw =>
      apply hmoves rfl id
      simp only [Processes.left, hw, ChildAt.left]
      omega
  | writerLeaves hw hleft' =>
      apply hmoves rfl
      · simp only [Processes.hasWriter, Bool.or_eq_true]
        tauto
      · simp only [Processes.left, hw, ChildAt.left]
        omega
  | writerExits hw =>
      apply hmoves rfl
      · simp only [Processes.hasWriter, Bool.or_eq_true]
        tauto
      · simp only [Processes.left, hw, ChildAt.left]
        omega
  | readerCloses hr =>
      apply hmoves rfl
      · simp only [Processes.hasWriter, Bool.or_eq_true]
        tauto
      · simp only [Processes.left, hr, ChildAt.left]
        omega
  | readerLeaves hr hleft' =>
      apply hmoves rfl id
      simp only [Processes.left, hr, ChildAt.left]
      omega
  | readerExits hr =>
      apply hmoves rfl
      · simp only [Processes.hasWriter, Bool.or_eq_true]
        tauto
      · simp only [Processes.left, hr, ChildAt.left]
        omega

end Runs

end UnixLabs.Lab25
