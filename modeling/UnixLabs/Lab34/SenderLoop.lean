import UnixLabs.Lab34.Sender

/-!
`main_loop` of `lab34/lab34-sender.c`, one loop iteration or call at a time.

The sender is its state and the place where `main_loop` is. A step is given what
the system calls answer that it may make, and tells what happened to the clients,
so that every order of accepts, reads, disconnections and answers of the tunnel is
a list of such answers.
-/

namespace UnixLabs.Lab34

open Library

/-! ### `poll` -/

def pollServer (s : Server) (revents : ℕ → BitVec 16) : Server :=
  { s with clients := ⟨fun k =>
      if k < getPollCount s then polled (s.clients.cells k) (revents k) else s.clients.cells k⟩ }

def pollResult (s : Server) : ℕ :=
  (List.range (getPollCount s)).countP fun k => (s.clients.cells k).revents ≠ 0

/-! ### The sender and its surroundings -/

/-- Where `main_loop` is; the loops carry their variables. -/
inductive Place
  | poll
  | accept (fdCount : ℕ)
  | clientIo (ioableCount i processed : ℕ)
  | emptyRemoved (i : ℕ)
  | added
  | send
  | tunnel
  | stopped
  deriving DecidableEq

structure Sender where
  ts : TunnelServer
  place : Place

def Sender.start (listenFd tunnelFd : ℤ) (tpbJunk queueJunk : ℕ → CChar) : Sender :=
  ⟨builtTserver (builtServer listenFd tunnelFd) tpbJunk queueJunk, .poll⟩

/-- What the system answers during a step; a failure is `none`, for `accept` -1.
`messageLength` is what `message_length`, which has no `return`, happens to yield. -/
structure Answers where
  revents : Option (ℕ → BitVec 16)
  accepted : ℤ
  clientJunk : ℕ → CChar
  tunnelJunk : ℕ → CChar
  input : Option (List CChar)
  messageLength : ℕ → ℕ
  written : Option ℕ

/-- What a step does to a client. The id of an announced client is the byte that
was in `add_queue`. -/
inductive Happening
  | accepted (id : ℕ)
  | received (id : ℕ) (bytes : List CChar)
  | consumed (id : ℕ) (bytes : List CChar)
  | announced (id : CChar)
  | released (id : ℕ)

/-! ### The parts of the loop -/

def acceptOnce (ts : TunnelServer) (fdCount : ℕ) (answers : Answers) :
    Option (Option Happening × Sender) := do
  let listener ← ts.server.clients.load getListener
  let ioable ← tunnelIoable ts.server
  let processed := if ioable then 1 else 0
  -- a pending connection is one of the entries that `poll` counted
  if isPollable listener pollIn then
    if answers.accepted = -1 then some (none, ⟨ts, .poll⟩)
    else if isFull ts.server then some (none, ⟨ts, .clientIo (fdCount - 1) 0 processed⟩)
    else
      let (id, ts) ← tsAddClient ts answers.accepted answers.clientJunk answers.tunnelJunk
      some (if id = noId then none else some (.accepted id.toNat),
        ⟨ts, .clientIo (fdCount - 1) 0 processed⟩)
  else some (none, ⟨ts, .clientIo fdCount 0 processed⟩)

def sendTunnel (ts : TunnelServer) (written : Option ℕ) : Option TPBuffer := do
  let writeable ← tunnelWriteable ts.server
  if writeable then (ts.tunnelTpb.tpbSend written).map Prod.snd else some ts.tunnelTpb

def tunnelOnce (ts : TunnelServer) (written : Option ℕ) : Option TunnelServer := do
  let tunnelTpb ← sendTunnel ts written
  let server ← setTunnelWriteable ts.server (!tunnelTpb.tpbEmpty)
  some { ts with server, tunnelTpb }

def senderStep (s : Sender) (answers : Answers) : Option (Option Happening × Sender) :=
  match s.place with
  | .poll =>
      -- the loop is left when `poll` fails
      match answers.revents with
      | none => some (none, { s with place := .stopped })
      | some revents =>
          let server := pollServer s.ts.server revents
          some (none, ⟨{ s.ts with server }, .accept (pollResult server)⟩)
  | .accept fdCount => acceptOnce s.ts fdCount answers
  | .clientIo ioableCount i processed =>
      if processed < ioableCount ∧ i < s.ts.clientCount then do
        let (received, processed, ts) ← performClientIoAt s.ts i processed answers.input
        some (received.map fun (id, bytes) => .received id.toNat bytes,
          ⟨ts, .clientIo ioableCount (i + 1) processed⟩)
      else some (none, { s with place := .emptyRemoved 0 })
  | .emptyRemoved i => do
      let (turn, ts) ← processEmptyRemovedAt s.ts i
      match turn with
      | .next j =>
          -- the loop stays at a position exactly when it released a client there
          let id ← s.ts.idTable.load i
          some (if j = i then some (.released id.toNat) else none, ⟨ts, .emptyRemoved j⟩)
      | .done true => some (none, ⟨ts, .added⟩)
      | .done false => some (none, ⟨ts, .tunnel⟩)
  | .added => do
      let (turn, ts) ← processAddedOnce s.ts
      match turn with
      | .next () => some (s.ts.addQueue.cbPeek.map .announced, ⟨ts, .added⟩)
      | .done true => some (none, ⟨ts, .send⟩)
      | .done false => some (none, ⟨ts, .tunnel⟩)
  | .send => do
      let (consumed, again, ts) ← sendOnce s.ts answers.messageLength
      some (consumed.map fun (id, bytes) => .consumed id.toNat bytes,
        ⟨ts, if again then .send else .tunnel⟩)
  | .tunnel => (tunnelOnce s.ts answers.written).map fun ts => (none, ⟨ts, .poll⟩)
  | .stopped => some (none, s)

/-! ### Answers for runs on fixed inputs -/

namespace Answers

def quiet : Answers where
  revents := some fun _ => 0
  accepted := -1
  clientJunk := fun _ => 0
  tunnelJunk := fun _ => 0
  input := none
  messageLength := fun call => min (call + 1) 2
  written := none

def polls (entries : List ℕ) : Answers :=
  { quiet with revents := some fun k => if k ∈ entries then pollIn else 0 }

def accepts (fd : ℤ) : Answers := { quiet with accepted := fd }

def reads (bytes : List CChar) : Answers := { quiet with input := some bytes }

/-- Clients 0 and 1 come, client 0 leaves and comes back, and then client 1 leaves
while client 0 sends a byte. The run ends after the first iteration of
`process_empty_removed` that follows. -/
def crossing : List Answers :=
  [polls [pollListenerIndex], accepts 10] ++ List.replicate 7 quiet ++
  [polls [pollListenerIndex, 2], accepts 11, reads []] ++ List.replicate 8 quiet ++
  [polls [pollListenerIndex], accepts 12] ++ List.replicate 8 quiet ++
  [polls [2, 3], quiet, reads [], reads [120], quiet, quiet]

def visit : List Answers :=
  [polls [pollListenerIndex], accepts 10] ++ List.replicate 7 quiet ++
  [polls [2], quiet, reads [104, 105]] ++ List.replicate 7 quiet ++
  [polls [2], quiet, reads []] ++ List.replicate 6 quiet

end Answers

end UnixLabs.Lab34
