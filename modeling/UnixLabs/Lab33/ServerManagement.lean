import UnixLabs.IOBuffer

/-!
`lab33/server_management.c`: the sessions of the proxy.

A session has one id and two descriptors, its client and the server it is
connected to, in two neighbouring poll slots; `id_table` and `index_to_id` go
between ids and indices. As in lab34, pointers into `clients` are indices and a
function that leaves its arrays or follows NULL has no result.
-/

namespace UnixLabs.Lab33

open Library

def removedClient : ℤ := -1

def noId : ℤ := -1

def maxClients : ℕ := 1024

def bufferSize : ℕ := 1024

def pollListenerIndex : ℕ := 0

def pollClientOffset : ℕ := 1

def clientIndex (i : ℤ) : ℤ := i * 2

def serverIndex (i : ℤ) : ℤ := i * 2 + 1

def pollClientIndex (i : ℤ) : ℤ := clientIndex i + pollClientOffset

def pollServerIndex (i : ℤ) : ℤ := serverIndex i + pollClientOffset

/-- `closed` is no field of the source: it records the descriptors the server has
passed to `close`, in order. -/
structure Server where
  clients : CArray (2 * maxClients + pollClientOffset) Pollfd
  stocBuffers : CArray maxClients IOBuffer
  ctosBuffers : CArray maxClients IOBuffer
  clientCount : ℕ
  idTable : CArray maxClients ℤ
  indexToId : CArray maxClients ℤ
  closed : List ℤ

def isValidId (s : Server) (id : ℕ) : Bool :=
  id < maxClients && s.idTable.cells id ≠ removedClient

def getClient (s : Server) (id : ℕ) : Option ℤ :=
  if !isValidId s id then none else some (pollClientIndex (s.idTable.cells id))

def getServer (s : Server) (id : ℕ) : Option ℤ :=
  if !isValidId s id then none else some (pollServerIndex (s.idTable.cells id))

def isFull (s : Server) : Bool := s.clientCount == maxClients

def getClientCount (s : Server) : ℕ := s.clientCount

def getPollCount (s : Server) : ℕ := 2 * getClientCount s + pollClientOffset

/-! ### Starting up -/

def freeSlot : Pollfd := ⟨removedClient, pollIn ||| pollOut, 0⟩

/-- An `IOBuffer` after `memset` with zeros, which is one of size zero. -/
def noBuffer : IOBuffer := IOBuffer.initIobuf (fun _ => 0) 0

/-- The server of `init_server`, when `server_setup` returns a socket. -/
def builtServer (listenFd : ℤ) : Server where
  clients := ⟨fun k => if k = pollListenerIndex then ⟨listenFd, pollIn, 0⟩ else freeSlot⟩
  stocBuffers := CArray.fill maxClients noBuffer
  ctosBuffers := CArray.fill maxClients noBuffer
  clientCount := 0
  idTable := CArray.fill maxClients removedClient
  indexToId := CArray.fill maxClients noId
  closed := []

/-! ### Adding and removing sessions -/

def swapPoll (clients : CArray (2 * maxClients + pollClientOffset) Pollfd) (lhs rhs : ℤ) :
    Option (CArray (2 * maxClients + pollClientOffset) Pollfd) := do
  let left ← clients.load lhs
  let right ← clients.load rhs
  let clients ← clients.store lhs right
  clients.store rhs left

def disconnectClient (s : Server) (id : ℕ) : Option Server :=
  if !isValidId s id then some s
  else do
    let client ← getClient s id
    let server ← getServer s id
    let clientSlot ← s.clients.load client
    if clientSlot.fd = removedClient then some s
    else do
      let serverSlot ← s.clients.load server
      let closed := s.closed ++ [clientSlot.fd, serverSlot.fd]
      let clients ← s.clients.store client { clientSlot with fd := removedClient }
      let clients ← clients.store server { serverSlot with fd := removedClient }
      some { s with clients, closed }

/-- Only the client slots of the two sessions change places here. -/
def removeClient (s : Server) (id : ℕ) : Option Server :=
  if !isValidId s id then some s
  else do
    let s ← disconnectClient s id
    let ctos ← s.ctosBuffers.load id
    let ctosBuffers ← s.ctosBuffers.store id ctos.freeIobuf
    let stoc ← s.stocBuffers.load id
    let stocBuffers ← s.stocBuffers.store id stoc.freeIobuf
    let s := { s with ctosBuffers, stocBuffers, clientCount := s.clientCount - 1 }
    let s ←
      if s.clientCount ≠ 0 then do
        let lastId ← s.indexToId.load s.clientCount
        let lhs ← getClient s id
        let rhs ← getClient s (sizeT lastId)
        -- the server slots stay where they are
        let clients ← swapPoll s.clients lhs rhs
        let index ← s.idTable.load id
        let indexToId ← s.indexToId.store index lastId
        let idTable ← s.idTable.store lastId index
        some { s with clients, idTable, indexToId }
      else some s
    let indexToId ← s.indexToId.store s.clientCount noId
    let idTable ← s.idTable.store id removedClient
    some { s with idTable, indexToId }

def nextId (s : Server) : ℤ :=
  match (List.range maxClients).find? fun i => s.idTable.cells i = removedClient with
  | some i => i
  | none => noId

/-- The id the session got, or `NO_ID`, and the server. `stocJunk` and `ctosJunk`
are what `malloc` leaves in the two new buffers. -/
def addClient (s : Server) (clientFd serverFd : ℤ) (stocJunk ctosJunk : ℕ → CChar) :
    Option (ℤ × Server) :=
  if clientFd < 0 ∨ serverFd < 0 then some (noId, s)
  else
    let id := nextId s
    if id = noId then some (noId, s)
    else do
      let idTable ← s.idTable.store id s.clientCount
      let indexToId ← s.indexToId.store s.clientCount id
      let s := { s with idTable, indexToId }
      let client ← getClient s (sizeT id)
      let clientSlot ← s.clients.load client
      let clients ← s.clients.store client { clientSlot with fd := clientFd }
      let server ← getServer s (sizeT id)
      let serverSlot ← clients.load server
      let clients ← clients.store server { serverSlot with fd := serverFd }
      let stocBuffers ← s.stocBuffers.store id (IOBuffer.initIobuf stocJunk bufferSize)
      let ctosBuffers ← s.ctosBuffers.store id (IOBuffer.initIobuf ctosJunk bufferSize)
      some (id, { s with clients, stocBuffers, ctosBuffers, clientCount := s.clientCount + 1 })

end UnixLabs.Lab33
