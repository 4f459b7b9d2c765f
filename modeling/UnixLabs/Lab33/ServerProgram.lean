import UnixLabs.Lab25
import UnixLabs.Lab33.Relay

/-!
`lab33-server.c`: one thread that prints in upper case what its clients send.

An iteration of `main_loop` is one step. Open descriptors are distinct, so that what
`poll` and `read` answer in an iteration is given by descriptor.
-/

namespace UnixLabs.Lab33.Usual

open Library Lab25
open Lab31.Server (upcaseFrom)

/-- The `ProxyServer` of this program with the buffer of its `Server`, and what it has been
given by `accept`, has printed and has passed to `close`. -/
structure Program where
  proxy : ProxyServer Server
  buf : ℕ → CChar
  accepted : List ℤ
  printed : List CChar
  closed : List ℤ
  stopped : Bool

structure Answers where
  events : Option (ℤ → BitVec 16)
  accepted : ℤ
  input : ℤ → Option (List CChar)

/-! ### Transfers and removals -/

def tryTransfer (sender : Pollfd) (buf : ℕ → CChar) (input : Option (List CChar)) :
    Option (Bool × List CChar × (ℕ → CChar)) :=
  if canReadFrom sender then
    let bytes := (input.getD []).take bufferSize
    let count : ℤ := if input = none then -1 else bytes.length
    let buf := writeAt buf 0 bytes
    if count < 0 then some (false, [], buf)
    else if count = 0 then some (false, [], buf)
    else do
      let buf ← upcaseFrom bufferSize count.toNat 0 buf
      some (true, firstCells buf count.toNat, buf)
  else some (true, [], buf)

def disconnects (s : Server) (id : ℕ) : List ℤ :=
  match (getClient s id).bind s.clients.load with
  | some slot => if slot.fd = removedClient then [] else [slot.fd]
  | none => []

namespace Program

def remove (p : Program) (i : ℕ) : Option Program := do
  let id ← entry p.proxy.idTable p.proxy.clientCount i
  let proxy ← p.proxy.prRemoveClient removeClient i
  some { p with proxy, closed := p.closed ++ disconnects p.proxy.server (sizeT id) }

/-- The body of the loop of `try_read`: whether the entry had events, as a number, and
the program. NULL must not be followed. -/
def visit (p : Program) (i : ℕ) (input : ℤ → Option (List CChar)) : Option (ℕ × Program) := do
  let id ← entry p.proxy.idTable p.proxy.clientCount i
  let client ← getClient p.proxy.server (sizeT id)
  let slot ← p.proxy.server.clients.load client
  let seen := if isIoable slot then 1 else 0
  if hasErrors slot then do
    let p ← p.remove i
    some (seen, p)
  else do
    let (ok, printed, buf) ← tryTransfer slot p.buf (input slot.fd)
    let p := { p with buf, printed := p.printed ++ printed }
    if !ok then do
      let p ← p.remove i
      some (seen, p)
    else some (seen, p)

/-- The loop of `try_read` at a position, with `ioable_processed`. Once enough entries are
processed the loop is over, and nothing is done at the positions that are left. -/
def visitStep (input : ℤ → Option (List CChar)) (ioableCount : ℕ) (s : Program × ℕ) (i : ℕ) :
    Option (Program × ℕ) :=
  if s.2 < ioableCount then (visit s.1 i input).map fun (seen, p) => (p, s.2 + seen) else some s

def tryRead (p : Program) (ioableCount : ℕ) (input : ℤ → Option (List CChar)) :
    Option Program := do
  let (p, _) ← run (visitStep input ioableCount) (p, 0) (List.range p.proxy.clientCount)
  let proxy ← p.proxy.commitRemove
  some { p with proxy }

end Program

/-! ### The main loop -/

def getListener (s : Server) : Option Pollfd := s.clients.load pollListenerIndex

def getPollCount (s : Server) : ℕ := s.clientCount + pollClientOffset

/-- What is reported on a descriptor; there is nothing to report on a negative one. -/
def reported (events : ℤ → BitVec 16) (fd : ℤ) : BitVec 16 := if fd < 0 then 0 else events fd

def poll (s : Server) (events : ℤ → BitVec 16) : Server :=
  { s with clients := ⟨fun k =>
      if k < getPollCount s then
        { s.clients.cells k with revents := reported events (s.clients.cells k).fd }
      else s.clients.cells k⟩ }

def pollResult (s : Server) : ℕ :=
  (List.range (getPollCount s)).countP fun k => (s.clients.cells k).revents ≠ 0

def fdAt (s : Server) (i : ℕ) : Option ℤ := do
  let id ← s.indexToId.load i
  let client ← getClient s (sizeT id)
  let slot ← s.clients.load client
  some slot.fd

def cleanupServer (s : Server) : Option (List ℤ) := do
  let listener ← getListener s
  let clients ← (List.range s.clientCount).mapM (fdAt s)
  some (listener.fd :: clients)

namespace Program

def start (listenFd : ℤ) (junk : ℕ → CChar) : Program :=
  ⟨ProxyServer.prInitServer (builtServer listenFd), junk, [], [], [], false⟩

def serveOnce (p : Program) (fdCount : ℕ) (accepted : ℤ) (input : ℤ → Option (List CChar)) :
    Option Program := do
  let listener ← getListener p.proxy.server
  if canReadFrom listener then
    if accepted = -1 then some p
    else do
      let (id, server) ← addClient p.proxy.server accepted
      let p := { p with
        proxy := { p.proxy with server }
        accepted := p.accepted ++ [accepted] }
      if id = noId then some { p with closed := p.closed ++ [accepted] }
      else do
        let idTable ← p.proxy.idTable.store p.proxy.clientCount id
        let proxy := { p.proxy with idTable, clientCount := p.proxy.clientCount + 1 }
        -- the listener was one of the entries that `poll` counted
        tryRead { p with proxy } (sizeT ((fdCount : ℤ) - 1)) input
  else tryRead p fdCount input

def polled (p : Program) (events : ℤ → BitVec 16) : Program :=
  { p with proxy := { p.proxy with server := poll p.proxy.server events } }

/-- An iteration of `main_loop`, which is left when `poll` fails. -/
def round (p : Program) (a : Answers) : Option Program :=
  if p.stopped then some p
  else
    match a.events with
    | none => (cleanupServer p.proxy.server).map fun fds =>
        { p with closed := p.closed ++ fds, stopped := true }
    | some events =>
        let p := p.polled events
        serveOnce p (pollResult p.proxy.server) a.accepted a.input

end Program

end UnixLabs.Lab33.Usual
