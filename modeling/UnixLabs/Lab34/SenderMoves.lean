import UnixLabs.Lab34.SenderFrames

/-!
The steps of `main_loop` in `lab34/lab34-sender.c`, one case for each way on.

`Moves` lists what a step can do from each place, with the call that was made and where
`main_loop` is afterwards, so that what is true of all steps is shown for each case once.
-/

namespace UnixLabs.Lab34

open Library

inductive Moves (ts : TunnelServer) (answers : Answers) :
    Place → Option Happening → Sender → Prop
  | fails (hfails : answers.revents = none) : Moves ts answers .poll none ⟨ts, .stopped⟩
  | polls {revents : ℕ → BitVec 16} (hpolls : answers.revents = some revents) :
      Moves ts answers .poll none ⟨{ ts with server := pollServer ts.server revents },
        .accept (pollResult (pollServer ts.server revents))⟩
  | accepts {fdCount : ℕ} {happening : Option Happening} {s' : Sender}
      (honce : acceptOnce ts fdCount answers = some (happening, s')) :
      Moves ts answers (.accept fdCount) happening s'
  | visits {ioableCount i processed processed' : ℕ} {received : Option (ℤ × List CChar)}
      {ts' : TunnelServer} (hmore : processed < ioableCount ∧ i < ts.clientCount)
      (honce : performClientIoAt ts i processed answers.input =
        some (received, processed', ts')) :
      Moves ts answers (.clientIo ioableCount i processed)
        (received.map fun (id, bytes) => .received id.toNat bytes)
        ⟨ts', .clientIo ioableCount (i + 1) processed'⟩
  | visited {ioableCount i processed : ℕ}
      (hend : ¬(processed < ioableCount ∧ i < ts.clientCount)) :
      Moves ts answers (.clientIo ioableCount i processed) none ⟨ts, .emptyRemoved 0⟩
  | checks {i j : ℕ} {id : ℤ} {ts' : TunnelServer}
      (honce : processEmptyRemovedAt ts i = some (.next j, ts'))
      (hload : ts.idTable.load i = some id) :
      Moves ts answers (.emptyRemoved i) (if j = i then some (.released id.toNat) else none)
        ⟨ts', .emptyRemoved j⟩
  | checked {i : ℕ} {result : Bool} {ts' : TunnelServer}
      (honce : processEmptyRemovedAt ts i = some (.done result, ts')) :
      Moves ts answers (.emptyRemoved i) none ⟨ts', if result then .added else .tunnel⟩
  | announces {ts' : TunnelServer} (honce : processAddedOnce ts = some (.next (), ts')) :
      Moves ts answers .added (ts.addQueue.cbPeek.map .announced) ⟨ts', .added⟩
  | announced {result : Bool} {ts' : TunnelServer}
      (honce : processAddedOnce ts = some (.done result, ts')) :
      Moves ts answers .added none ⟨ts', if result then .send else .tunnel⟩
  | sends {consumed : Option (ℤ × List CChar)} {again : Bool} {ts' : TunnelServer}
      (honce : sendOnce ts answers.messageLength = some (consumed, again, ts')) :
      Moves ts answers .send (consumed.map fun (id, bytes) => .consumed id.toNat bytes)
        ⟨ts', if again then .send else .tunnel⟩
  | writes {ts' : TunnelServer} (honce : tunnelOnce ts answers.written = some ts') :
      Moves ts answers .tunnel none ⟨ts', .poll⟩
  | stays : Moves ts answers .stopped none ⟨ts, .stopped⟩

theorem moves_of_senderStep {ts : TunnelServer} {place : Place} {s' : Sender} {answers : Answers}
    {happening : Option Happening}
    (hstep : senderStep ⟨ts, place⟩ answers = some (happening, s')) :
    Moves ts answers place happening s' := by
  cases place with
  | poll =>
      cases hrevents : answers.revents with
      | none =>
          simp only [senderStep, hrevents] at hstep
          cases hstep
          exact .fails hrevents
      | some revents =>
          simp only [senderStep, hrevents] at hstep
          cases hstep
          exact .polls hrevents
  | accept fdCount => exact .accepts hstep
  | clientIo ioableCount i processed =>
      simp only [senderStep] at hstep
      split_ifs at hstep with hmore
      · simp only [Option.bind_eq_bind, Option.bind_eq_some_iff] at hstep
        obtain ⟨⟨received, processed', ts'⟩, honce, hstep⟩ := hstep
        cases hstep
        exact .visits hmore honce
      · cases hstep
        exact .visited hmore
  | emptyRemoved i =>
      simp only [senderStep, Option.bind_eq_bind, Option.bind_eq_some_iff] at hstep
      obtain ⟨⟨turn, ts'⟩, honce, hstep⟩ := hstep
      cases turn with
      | next j =>
          simp only [Option.bind_eq_some_iff] at hstep
          obtain ⟨id, hload, hstep⟩ := hstep
          cases hstep
          exact .checks honce hload
      | done result =>
          cases result with
          | true | false =>
            cases hstep
            exact .checked honce
  | added =>
      simp only [senderStep, Option.bind_eq_bind, Option.bind_eq_some_iff] at hstep
      obtain ⟨⟨turn, ts'⟩, honce, hstep⟩ := hstep
      cases turn with
      | next =>
          cases hstep
          exact .announces honce
      | done result =>
          cases result with
          | true | false =>
            cases hstep
            exact .announced honce
  | send =>
      simp only [senderStep, Option.bind_eq_bind, Option.bind_eq_some_iff] at hstep
      obtain ⟨⟨consumed, again, ts'⟩, honce, hstep⟩ := hstep
      cases hstep
      exact .sends honce
  | tunnel =>
      obtain ⟨ts', honce, hstep⟩ := Option.map_eq_some_iff.mp hstep
      cases hstep
      exact .writes honce
  | stopped =>
      cases hstep
      exact .stays

end UnixLabs.Lab34
