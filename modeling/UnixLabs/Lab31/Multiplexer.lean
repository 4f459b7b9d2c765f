import UnixLabs.Lab31.ClientTable

/-!
`lab31/multithreading/multiplexer.c`: the table of a thread that reads from the clients
another thread accepts.

Here the table has clients only, from index 0 on. The operations are taken one at a
time, as the locks around the count do not order anything else.
-/

namespace UnixLabs.Lab31

open Library

namespace Multiplexer

variable {max : Somaxconn}

def mxInit (max : Somaxconn) : ClientTable max := ClientTable.init max

def removeClient (t : ClientTable max) (index : ℕ) : Option (ClientTable max) := t.mark index

def getClientCount (t : ClientTable max) : ℕ := t.clientCount

/-- `delta` is an `int`. -/
def incClientCount (t : ClientTable max) (delta : BitVec 32) : ClientTable max :=
  { t with clientCount := sizeT (t.clientCount + delta.toInt) }

def commitRemoveClients (t : ClientTable max) : Option (ClientTable max) :=
  if t.clientsToRemoveCount = 0 then some t
  else do
    let clients ← compactFrom t.clientsToRemoveCount (getClientCount t + 1)
      t.firstClientToRemove (sizeT ((getClientCount t : ℤ) - 1)) 0 t.clients
    let t := incClientCount { t with clients } (BitVec.ofInt 32 (-t.clientsToRemoveCount))
    some { t with clientsToRemoveCount := 0, firstClientToRemove := 0 }

/-- A connection, and what `fcntl` answers for it, first the flags and then whether they
were set. -/
structure Connection where
  fd : ℤ
  oldFlags : ℤ
  setFlags : ℤ

/-- `mx_add`, as far as the table goes: without the flags nothing is added. -/
def mxAdd (t : ClientTable max) (client : Connection) : Option (ClientTable max) :=
  if client.oldFlags = -1 then some t
  else if client.setFlags = -1 then some t
  else t.put client.fd

end Multiplexer

end UnixLabs.Lab31
