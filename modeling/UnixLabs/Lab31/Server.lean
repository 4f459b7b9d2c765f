import UnixLabs.Lab31.ClientTable
import UnixLabs.Library.Memory

/-!
`lab31/lab31-server.c`: one thread that accepts, polls and reads.

The listening socket is the first entry of the table. What a client sends is read into
one buffer, put into upper case and printed.
-/

namespace UnixLabs.Lab31

open Library

/-- `struct server`, without the path of its socket. -/
structure Server (max : Somaxconn) where
  table : ClientTable max
  buf : ℕ → CChar
  bufSize : ℕ

namespace Server

variable {max : Somaxconn}

/-! ### The table -/

/-- `init_server` lists the listening socket. `malloc` leaves `junk` in the buffer. -/
def initServer (max : Somaxconn) (sockfd : ℤ) (junk : ℕ → CChar) : Option (Server max) :=
  ((ClientTable.init max).put sockfd).map fun table => ⟨table, junk, bufsiz⟩

/-- The listening socket is never removed. -/
def removeClient (t : ClientTable max) (index : ℕ) : Option (ClientTable max) :=
  if index = 0 then some t else t.mark index

def commitRemoveClients (t : ClientTable max) : Option (ClientTable max) :=
  if t.clientsToRemoveCount = 0 then some t
  else if t.firstClientToRemove = 0 then some t
  else do
    let clients ← t.compact
    some { t with
      clients
      clientCount := sizeT ((t.clientCount : ℤ) - t.clientsToRemoveCount)
      clientsToRemoveCount := 0
      firstClientToRemove := 0 }

def mxAdd (t : ClientTable max) (clientFd : ℤ) : Option (ClientTable max) := t.put clientFd

/-! ### Reading from a client -/

def isLower (c : CChar) : Bool := 0x61 ≤ c.toNat && c.toNat ≤ 0x7A

def toUpper (c : CChar) : CChar := c - 0x20

/-- The loop that puts the buffer into upper case, from index `i` on with `left` indices
to go. It has no result when it leaves the buffer. -/
def upcaseFrom (bufSize : ℕ) : ℕ → ℕ → (ℕ → CChar) → Option (ℕ → CChar)
  | 0, _, buf => some buf
  | left + 1, i, buf =>
      if i < bufSize then
        upcaseFrom bufSize left (i + 1)
          (if isLower (buf i) then Function.update buf i (toUpper (buf i)) else buf)
      else none

/-- What `try_read` does with a client that is ready, given what `read` delivers: nothing
at all on an error, and never more than the buffer takes. The bytes are those that are
printed. -/
def readClient (s : Server max) (i : ℕ) (input : Option (List CChar)) :
    Option (List CChar × Server max) := do
  let bytes := (input.getD []).take s.bufSize
  let count : ℤ := if input = none then -1 else bytes.length
  -- the index is a `size_t`, so an error is a very large bound
  let buf ← upcaseFrom s.bufSize (sizeT count) 0 (writeAt s.buf 0 bytes)
  let table ← (if count = -1 then removeClient s.table i else some s.table)
  let table ← (if count = 0 then removeClient table i else some table)
  some (firstCells buf count.toNat, { s with table, buf })

end Server

end UnixLabs.Lab31
