import UnixLabs.Platform

/-!
`lab34/server_management.c`: the table of poll slots behind the sender.

A client is known by its id. `id_table` sends an id to an index, `index_to_id`
sends the index back, and the poll slot of the client is found at the index plus
the offset of the listener and the tunnel. Pointers into `clients` are indices
of that array and NULL is `none`; a dereference of NULL, like any access outside
an array, leaves a function without a result.
-/

namespace UnixLabs.Lab34

open Library

def removedClient : ℤ := -1

def noId : ℤ := -1

def noOrder : ℤ := -1

def maxClients : ℕ := 255

def pollListenerIndex : ℕ := 0

def pollTunnelIndex : ℕ := 1

def pollClientOffset : ℕ := 2

structure Server where
  clients : CArray (maxClients + 2) Pollfd
  clientCount : ℕ
  idTable : CArray maxClients ℤ
  indexToId : CArray maxClients ℤ

/-! ### Reading the poll slots -/

def isPollable (pollfd : Pollfd) (mask : BitVec 16) : Bool := pollfd.revents &&& mask ≠ 0

/-- NULL for an id without a slot, else the position of its slot in `clients`. -/
def getClient (s : Server) (id : ℕ) : Option ℤ :=
  if id ≥ maxClients ∨ s.idTable.cells id = removedClient then none
  else some (s.idTable.cells id + pollClientOffset)

def getTunnel : ℤ := pollTunnelIndex

def getListener : ℤ := pollListenerIndex

def slot (s : Server) (id : ℕ) : Option Pollfd :=
  (getClient s id).bind s.clients.load

def clientFd (s : Server) (id : ℕ) : Option ℤ :=
  match getClient s id with
  | none => some (-1)
  | some client => (s.clients.load client).map Pollfd.fd

def clientPollable (s : Server) (id : ℕ) (mask : BitVec 16) : Option Bool :=
  match getClient s id with
  | none => some false
  | some client => (s.clients.load client).map fun pollfd => isPollable pollfd mask

def clientIoable (s : Server) (id : ℕ) : Option Bool :=
  clientPollable s id (pollIn ||| pollOut ||| pollErr)

def clientReadable (s : Server) (id : ℕ) : Option Bool := clientPollable s id pollIn

def clientHasErrors (s : Server) (id : ℕ) : Option Bool := clientPollable s id pollErr

def tunnelPollable (s : Server) (mask : BitVec 16) : Option Bool :=
  (s.clients.load getTunnel).map fun pollfd => isPollable pollfd mask

def tunnelIoable (s : Server) : Option Bool :=
  tunnelPollable s (pollIn ||| pollOut ||| pollErr)

def tunnelWriteable (s : Server) : Option Bool := tunnelPollable s pollOut

def isFull (s : Server) : Bool := s.clientCount == maxClients

def getClientCount (s : Server) : ℕ := s.clientCount

def getPollCount (s : Server) : ℕ := getClientCount s + pollClientOffset

/-! ### Starting up -/

def freeSlot : Pollfd := ⟨removedClient, pollIn ||| pollOut, 0⟩

/-- The server of `init_server`, when `server_setup` and `client_setup` return sockets. -/
def builtServer (listenFd tunnelFd : ℤ) : Server where
  clients := ⟨fun k =>
    if k = pollListenerIndex then ⟨listenFd, pollIn, 0⟩
    else if k = pollTunnelIndex then ⟨tunnelFd, pollIn ||| pollOut, 0⟩
    else freeSlot⟩
  clientCount := 0
  idTable := CArray.fill maxClients removedClient
  indexToId := CArray.fill maxClients noId

/-! ### Adding and removing clients -/

def swapPoll (clients : CArray (maxClients + 2) Pollfd) (lhs rhs : ℤ) :
    Option (CArray (maxClients + 2) Pollfd) := do
  let left ← clients.load lhs
  let right ← clients.load rhs
  let clients ← clients.store lhs right
  clients.store rhs left

def disconnectClient (s : Server) (id : ℕ) : Option Server :=
  match getClient s id with
  | none => some s
  | some client => do
      let pollfd ← s.clients.load client
      if pollfd.fd = removedClient then some s
      else
        let clients ← s.clients.store client { pollfd with fd := removedClient }
        some { s with clients }

def removeClient (s : Server) (id : ℕ) : Option Server :=
  match getClient s id with
  | none => some s
  | some _ => do
      let s ← disconnectClient s id
      let s := { s with clientCount := s.clientCount - 1 }
      let s ←
        if s.clientCount ≠ 0 then do
          let lastId ← s.indexToId.load s.clientCount
          let lhs ← getClient s id
          let rhs ← getClient s (sizeT lastId)
          let clients ← swapPoll s.clients lhs rhs
          let index ← s.idTable.load id
          let indexToId ← s.indexToId.store index lastId
          let idTable ← s.idTable.store lastId index
          some { s with clients, idTable, indexToId }
        else some s
      let indexToId ← s.indexToId.store s.clientCount noId
      let idTable ← s.idTable.store id removedClient
      some { s with idTable, indexToId }

def nextId (s : Server) : ℤ :=
  match (List.range maxClients).find? fun i => s.idTable.cells i = removedClient with
  | some i => i
  | none => noId

/-- The id the descriptor got, or `NO_ID`, and the server. -/
def addClient (s : Server) (fd : ℤ) : Option (ℤ × Server) :=
  let id := nextId s
  if id = noId then some (noId, s)
  else do
    let idTable ← s.idTable.store id s.clientCount
    let indexToId ← s.indexToId.store s.clientCount id
    let s := { s with idTable, indexToId }
    let client ← getClient s (sizeT id)
    let pollfd ← s.clients.load client
    -- `revents` is still that of the slot's last client
    let clients ← s.clients.store client { pollfd with fd }
    some (id, { s with clients, clientCount := s.clientCount + 1 })

/-! ### The events asked of `poll` -/

def setPollableOn (pollfd : Pollfd) (flags : BitVec 16) (pollable : Bool) : Pollfd :=
  if pollable then { pollfd with events := pollfd.events ||| flags }
  else { pollfd with events := pollfd.events &&& ~~~flags }

def setTunnelWriteable (s : Server) (writeable : Bool) : Option Server := do
  let tunnel ← s.clients.load getTunnel
  let clients ← s.clients.store getTunnel (setPollableOn tunnel pollOut writeable)
  some { s with clients }

end UnixLabs.Lab34
