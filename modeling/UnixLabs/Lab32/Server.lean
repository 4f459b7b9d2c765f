import UnixLabs.Lab25
import UnixLabs.Lab31.ClientTable

/-!
`lab32/lab32-server.c`: clients that are read from with asynchronous I/O.

A client has a slot in an array of `aiocb`, which keeps its buffer when the client is
gone. The signal of the I/O is blocked while a client is added, so a run is a sequence
of whole calls. What they accept, close, allocate, free and print is written down in the
order in which it happens.
-/

namespace UnixLabs.Lab32

open Library
open Lab31 (Somaxconn removedClient)

/-- `struct aiocb`: the descriptor, and the buffer by the number of its allocation, with
NULL as `none`. -/
structure Aiocb where
  aioFildes : ℤ
  aioBuf : Option ℕ
  deriving DecidableEq

/-- What has happened so far. A buffer is allocated for a slot; its number is the place in
that list. -/
structure Log where
  accepted : List ℤ
  closed : List ℤ
  allocated : List ℕ
  freed : List (Option ℕ)
  printed : List CChar
  exited : Bool

/-- `struct server`, without the path of its socket and its set of signals. -/
structure Server (max : Somaxconn) where
  sockfd : ℤ
  clientCount : ℕ
  clients : CArray max.size Aiocb
  log : Log

namespace Server

variable {max : Somaxconn}

def initServer (max : Somaxconn) (sockfd : ℤ) : Server max where
  sockfd := sockfd
  clientCount := 0
  clients := CArray.fill max.size ⟨removedClient, none⟩
  log := ⟨[], [], [], [], [], false⟩

/-! ### Adding a client -/

/-- The loop of `get_first_suitable_index` from `i` on, with `left` slots to go. It has no
result when it leaves the array. -/
def firstSuitableFrom (clients : CArray max.size Aiocb) : ℕ → ℕ → Option ℕ
  | 0, _ => none
  | left + 1, i => do
      let client ← clients.load i
      if client.aioFildes ≠ removedClient then firstSuitableFrom clients left (i + 1)
      else some i

def getFirstSuitableIndex (s : Server max) : Option ℕ :=
  firstSuitableFrom s.clients max.size 0

def ensureBuffer (s : Server max) (index : ℕ) : Option (Server max) :=
  if index ≥ s.clientCount then do
    let client ← s.clients.load index
    let clients ← s.clients.store index { client with aioBuf := some s.log.allocated.length }
    some { s with
      clients
      clientCount := s.clientCount + 1
      log := { s.log with allocated := s.log.allocated ++ [index] } }
  else some s

/-- `add_client`. What the read that it starts delivers is an input of the handler. -/
def addClient (s : Server max) (fd : ℤ) : Option (Server max) := do
  let index ← getFirstSuitableIndex s
  let s ← ensureBuffer s index
  let client ← s.clients.load index
  let clients ← s.clients.store index { client with aioFildes := fd }
  some { s with clients, log := { s.log with accepted := s.log.accepted ++ [fd] } }

/-! ### Closing -/

def close (s : Server max) (fd : ℤ) : Server max :=
  { s with log := { s.log with closed := s.log.closed ++ [fd] } }

def removeClient (s : Server max) (index : ℕ) : Option (Server max) :=
  if index ≥ s.clientCount then some s
  else do
    let client ← s.clients.load index
    if client.aioFildes = removedClient then some s
    else do
      let clients ← s.clients.store index { client with aioFildes := removedClient }
      some { s.close client.aioFildes with clients }

def closeSlot (s : Server max) (i : ℕ) : Option (Server max) := do
  let client ← s.clients.load i
  if client.aioFildes = removedClient then some s else some (s.close client.aioFildes)

def safeCleanup (s : Server max) : Option (Server max) :=
  run closeSlot (s.close s.sockfd) (List.range s.clientCount)

def freeSlot (s : Server max) (i : ℕ) : Option (Server max) := do
  let client ← s.clients.load i
  let s := { s with log := { s.log with freed := s.log.freed ++ [client.aioBuf] } }
  if client.aioFildes = removedClient then some s else some (s.close client.aioFildes)

def cleanupServer (s : Server max) : Option (Server max) := do
  let s ← safeCleanup s
  run freeSlot s (List.range s.clientCount)

def exitSafely (s : Server max) : Option (Server max) :=
  (safeCleanup s).map fun s => { s with log := { s.log with exited := true } }

/-! ### The handler -/

/-- What `aio_error` and `aio_return` say of a read: it goes on or was cancelled, it has
failed, or it has delivered some bytes. -/
inductive Completion where
  | pending
  | failed
  | bytes (data : List CChar)

/-- One round of the loop of `aio_handler`. The bytes are put into upper case and
printed. -/
def handleSlot (completions : ℕ → Completion) (s : Server max) (i : ℕ) : Option (Server max) :=
  if s.log.exited then some s
  else do
    let client ← s.clients.load i
    if client.aioFildes = removedClient then some s
    else
      match completions i with
      | .pending => some s
      | .failed => exitSafely s
      | .bytes [] => removeClient s i
      | .bytes data =>
          some { s with log := { s.log with
            printed := s.log.printed ++ data.map Lab25.upper } }

def aioHandler (completions : ℕ → Completion) (s : Server max) : Option (Server max) :=
  run (handleSlot completions) s (List.range s.clientCount)

/-! ### Runs -/

inductive Event where
  | accept (fd : ℤ)
  | aio (completions : ℕ → Completion)
  | interrupt

/-- Nothing happens any more after `_exit`. -/
def step (s : Server max) (event : Event) : Option (Server max) :=
  if s.log.exited then some s
  else
    match event with
    | .accept fd => addClient s fd
    | .aio completions => aioHandler completions s
    | .interrupt => exitSafely s

def slotFds (s : Server max) : List ℤ :=
  firstCells (fun i => (s.clients.cells i).aioFildes) s.clientCount

def liveFds (s : Server max) : List ℤ := s.slotFds.filter (· ≠ removedClient)

/-- `accept` returns a descriptor that is not in use, and there are fewer clients than
slots. -/
def Allowed (s : Server max) : Event → Prop
  | .accept fd => 0 ≤ fd ∧ fd ≠ s.sockfd ∧ fd ∉ s.liveFds ∧ s.liveFds.length < max.size
  | _ => True

/-- A descriptor that was accepted and not closed is in exactly one slot, no other is in
any, and each slot has had one buffer. -/
structure SlotsRight (s : Server max) : Prop where
  once : ∀ fd, s.log.accepted.count fd = s.log.closed.count fd + s.liveFds.count fd
  nodup : s.liveFds.Nodup
  index : ∀ index ∈ getFirstSuitableIndex s, index ≤ s.clientCount
  buffers : ∀ i < s.clientCount, s.log.allocated.count i = 1

/-- What `cleanup_server` leaves: each descriptor was closed as often as it was accepted,
and each buffer was freed once. -/
structure CleanedUp (s : Server max) : Prop where
  closed : ∀ fd ∈ s.log.accepted, s.log.closed.count fd = s.log.accepted.count fd
  freed : ∀ id < s.log.allocated.length, s.log.freed.count (some id) = 1

end Server

end UnixLabs.Lab32
