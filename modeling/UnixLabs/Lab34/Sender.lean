import UnixLabs.Lab34.ServerManagement
import UnixLabs.Lab34.TransportProtocolBuffer

/-!
`lab34/lab34-sender.c`: the sender's state and functions.

`id_table` of the tunnel server goes from positions to ids; it is not the table
of that name inside its server, which goes from ids to indices. The bodies of the
loops are functions of their own, so that a step of the sender is one iteration;
`SenderLoop` strings them together as `main_loop` does.

What the system calls answer is an argument of the function that makes the call.
-/

namespace UnixLabs.Lab34

open Library

def bufferSize : ℕ := 1024

def messageSize : ℕ := 2 * bufferSize + 3

structure TunnelServer where
  server : Server
  sendOrder : ℤ
  sendCount : ℕ
  idTable : CArray maxClients ℤ
  removeFlag : CArray maxClients Bool
  clientCount : ℕ
  addQueue : CyclicBuffer
  tunnelBuffers : CArray maxClients CyclicBuffer
  tunnelTpb : TPBuffer
  clientBuffers : CArray maxClients CyclicBuffer

/-- The sender that `init_tserver` builds around a server; `malloc` leaves junk in the two
new buffers. -/
def builtTserver (server : Server) (tpbJunk queueJunk : ℕ → CChar) : TunnelServer where
  server := server
  sendOrder := 0
  sendCount := 0
  idTable := CArray.fill maxClients 0
  removeFlag := CArray.fill maxClients false
  clientCount := 0
  addQueue := CyclicBuffer.cbInit queueJunk maxClients
  tunnelBuffers := CArray.fill maxClients CyclicBuffer.cbFree
  tunnelTpb := TPBuffer.tpbInit tpbJunk messageSize
  clientBuffers := CArray.fill maxClients CyclicBuffer.cbFree

/-! ### Clients -/

def tsRemoveClient (ts : TunnelServer) (i : ℤ) : Option TunnelServer := do
  let id ← ts.idTable.load i
  let server ← disconnectClient ts.server (sizeT id)
  let removeFlag ← ts.removeFlag.store id true
  some { ts with server, removeFlag }

/-- `ts_add_client`, with the new client's id, or `NO_ID` where the source answers
`EXIT_FAILURE`. -/
def tsAddClient (ts : TunnelServer) (fd : ℤ) (clientJunk tunnelJunk : ℕ → CChar) :
    Option (ℤ × TunnelServer) := do
  let (id, server) ← addClient ts.server fd
  if id = noId then some (noId, { ts with server })
  else
    let clientBuffers ← ts.clientBuffers.store id (CyclicBuffer.cbInit clientJunk bufferSize)
    let tunnelBuffers ← ts.tunnelBuffers.store id (CyclicBuffer.cbInit tunnelJunk bufferSize)
    let addQueue := (ts.addQueue.cbPutc (BitVec.ofInt 8 id)).2
    let idTable ← ts.idTable.store ts.clientCount id
    some (id, { ts with
      server
      clientBuffers
      tunnelBuffers
      addQueue
      idTable
      clientCount := ts.clientCount + 1 })

def tsActualRemove (ts : TunnelServer) (i : ℤ) : Option TunnelServer := do
  let id ← ts.idTable.load i
  let server ← removeClient ts.server (sizeT id)
  let clientBuffers ← ts.clientBuffers.store id CyclicBuffer.cbFree
  let tunnelBuffers ← ts.tunnelBuffers.store id CyclicBuffer.cbFree
  -- the last client takes over the position
  let last ← ts.idTable.load (ts.clientCount - 1)
  let idTable ← ts.idTable.store i last
  some { ts with
    server
    clientBuffers
    tunnelBuffers
    idTable
    clientCount := ts.clientCount - 1 }

/-! ### Reading from the clients -/

/-- One iteration of `perform_client_io`, for the client at position `i`, given
what `read` delivers if it is called: the id and the bytes that were received, the
number of entries processed so far and the sender. -/
def performClientIoAt (ts : TunnelServer) (i processed : ℕ) (input : Option (List CChar)) :
    Option (Option (ℤ × List CChar) × ℕ × TunnelServer) := do
  let id ← ts.idTable.load i
  let ioable ← clientIoable ts.server (sizeT id)
  let processed := if ioable then processed + 1 else processed
  let failed ← clientHasErrors ts.server (sizeT id)
  if failed then
    let ts ← tsRemoveClient ts i
    some (none, processed, ts)
  else
    let buffer ← ts.clientBuffers.load id
    let readable ← clientReadable ts.server (sizeT id)
    if !buffer.cbFull && readable then
      let (count, buffer) := buffer.cbRecv input
      let clientBuffers ← ts.clientBuffers.store id buffer
      let ts := { ts with clientBuffers }
      -- the end of the input is an error here too
      if count = -1 then
        let ts ← tsRemoveClient ts i
        some (none, processed, ts)
      else some (input.map fun bytes => (id, bytes.take count.toNat), processed, ts)
    else some (none, processed, ts)

/-! ### Filling the tunnel -/

/-- The loop of `next_message_client` from position `i` on: the position of the
first client with bytes to send, or `stop`. -/
def searchFrom (ts : TunnelServer) (stop : ℕ) : ℕ → ℕ → Option ℕ
  | 0, _ => none
  | fuel + 1, i =>
      if i = stop then some i
      else do
        let id ← ts.idTable.load i
        let buffer ← ts.clientBuffers.load id
        if !buffer.cbEmpty then some i else searchFrom ts stop fuel ((i + 1) % ts.clientCount)

def nextMessageClient (ts : TunnelServer) (previous : ℤ) : Option ℤ :=
  if ts.clientCount = 0 then some noOrder
  else do
    let start :=
      if previous = noOrder then 0 else sizeT (intOf (previous + 1)) % ts.clientCount
    -- the position before `start`, where the search would be once around
    let stop := if start ≥ 1 then (start - 1) % ts.clientCount else ts.clientCount - 1
    let i ← searchFrom ts stop ts.clientCount start
    let id ← ts.idTable.load i
    let buffer ← ts.clientBuffers.load id
    if i = stop ∧ buffer.cbEmpty then some noOrder else some i

inductive Turn (α : Type)
  | next (a : α)
  | done (result : Bool)

/-- One iteration of `process_empty_removed` at position `i`. The client that is
released is the one at the position that is the id. -/
def processEmptyRemovedAt (ts : TunnelServer) (i : ℕ) : Option (Turn ℕ × TunnelServer) :=
  if i ≥ ts.clientCount then some (.done true, ts)
  else do
    let id ← ts.idTable.load i
    let flag ← ts.removeFlag.load id
    let buffer ← ts.clientBuffers.load id
    if !flag || !buffer.cbEmpty then some (.next (i + 1), ts)
    else
      let (put, tunnelTpb) := ts.tunnelTpb.tpbContolMessage clientRemove id
      let ts := { ts with tunnelTpb }
      if !put then some (.done false, ts)
      else
        let removeFlag ← ts.removeFlag.store id false
        let ts ← tsActualRemove { ts with removeFlag } id
        some (.next i, ts)

def processAddedOnce (ts : TunnelServer) : Option (Turn Unit × TunnelServer) :=
  match ts.addQueue.cbPeek with
  | none => some (.done true, ts)
  | some id =>
      let (put, tunnelTpb) := ts.tunnelTpb.tpbContolMessage clientAdd id.toInt
      let ts := { ts with tunnelTpb }
      if !put then some (.done false, ts)
      else do
        let addQueue ← ts.addQueue.cbSkip 1
        some (.next (), { ts with addQueue })

/-- The part of an iteration of the loop of `fill_message` that follows the choice
of `send_order`: the id and the bytes that `tpb_encapsulate` consumed, whether there
is a next iteration, and the sender. -/
def sendChunk (ts : TunnelServer) (messageLength : ℕ → ℕ) :
    Option (Option (ℤ × List CChar) × Bool × TunnelServer) := do
  let id ← ts.idTable.load ts.sendOrder
  let dataBuf ← ts.clientBuffers.load id
  -- a chunk that was begun goes on, from whatever buffer the position leads to now
  let sendCount := if ts.sendCount = 0 then dataBuf.count else ts.sendCount
  if sendCount = 0 then some (none, false, { ts with sendCount })
  else
    let dataBuf := dataBuf.cbShift
    let data ← dataBuf.cbData sendCount
    let (count, tunnelTpb) ← ts.tunnelTpb.tpbEncapsulate data id messageLength
    let dataBuf ← dataBuf.cbSkip count
    let clientBuffers ← ts.clientBuffers.store id dataBuf
    some (some (id, data.take count), sendCount - count = 0,
      { ts with tunnelTpb, clientBuffers, sendCount := sendCount - count })

def sendOnce (ts : TunnelServer) (messageLength : ℕ → ℕ) :
    Option (Option (ℤ × List CChar) × Bool × TunnelServer) :=
  if ts.sendOrder = noOrder ∨ ts.sendCount = 0 then do
    let sendOrder ← nextMessageClient ts ts.sendOrder
    let ts := { ts with sendOrder }
    if sendOrder = noOrder then some (none, false, ts) else sendChunk ts messageLength
  else sendChunk ts messageLength

end UnixLabs.Lab34
