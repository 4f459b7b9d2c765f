import UnixLabs.Lab31.Server

/-!
`main` of `lab31/lab31-server.c`, one call or loop iteration at a time.

A step is given what the system calls answer that it may make, so that every order of
connections, messages and disconnections is a list of such answers.
-/

namespace UnixLabs.Lab31

open Library

/-- Where `main` is; `read` is an iteration of the loop of `try_read`, with its
variables. -/
inductive Place
  | poll
  | accept (fdCount : ℕ)
  | read (readableCount i readFd : ℕ)
  | stopped
  deriving DecidableEq

structure Serving (max : Somaxconn) where
  server : Server max
  place : Place

/-- What the system answers during a step; a failure is `none`, for `accept` -1. -/
structure Answers where
  revents : Option (ℕ → BitVec 16)
  accepted : ℤ
  input : Option (List CChar)

variable {max : Somaxconn}

/-- `poll` rewrites the flags of the entries in use, and of no others. -/
def pollTable (t : ClientTable max) (revents : ℕ → BitVec 16) : ClientTable max :=
  { t with clients := ⟨fun k =>
      if k < t.clientCount then polled (t.clients.cells k) (revents k) else t.clients.cells k⟩ }

/-- What `poll` returns: the number of entries with something to report. -/
def pollResult (t : ClientTable max) : ℕ :=
  (List.range t.clientCount).countP fun k => (t.clients.cells k).revents ≠ 0

def acceptOnce (s : Server max) (fdCount : ℕ) (accepted : ℤ) : Option (Serving max) := do
  let listener ← s.table.clients.load (0 : ℕ)
  if listener.revents &&& pollIn ≠ 0 then
    if accepted = -1 then some ⟨s, .stopped⟩
    else do
      let table ← Server.mxAdd s.table accepted
      -- the connection was one of the entries that `poll` counted
      some ⟨{ s with table }, .read (sizeT ((fdCount : ℤ) - 1)) 1 0⟩
  else some ⟨s, .read fdCount 1 0⟩

/-- One iteration of the loop of `try_read`, or what follows the loop. With the state
come the bytes that are printed. -/
def tryReadAt (s : Server max) (readableCount i readFd : ℕ) (input : Option (List CChar)) :
    Option (List CChar × Serving max) :=
  if readFd ≤ readableCount ∧ i < s.table.clientCount then do
    let client ← s.table.clients.load i
    if client.revents &&& pollIn ≠ 0 then do
      let (printed, s) ← Server.readClient s i input
      some (printed, ⟨s, .read readableCount (i + 1) (readFd + 1)⟩)
    else some ([], ⟨s, .read readableCount (i + 1) readFd⟩)
  else do
    let table ← Server.commitRemoveClients s.table
    some ([], ⟨{ s with table }, .poll⟩)

def serverStep (s : Serving max) (answers : Answers) : Option (List CChar × Serving max) :=
  match s.place with
  | .poll =>
      -- the loop is left when `poll` fails
      match answers.revents with
      | none => some ([], { s with place := .stopped })
      | some revents =>
          let table := pollTable s.server.table revents
          some ([], ⟨{ s.server with table }, .accept (pollResult table)⟩)
  | .accept fdCount => (acceptOnce s.server fdCount answers.accepted).map fun s => ([], s)
  | .read readableCount i readFd => tryReadAt s.server readableCount i readFd answers.input
  | .stopped => some ([], s)

def Serving.start (max : Somaxconn) (sockfd : ℤ) (junk : ℕ → CChar) : Option (Serving max) :=
  (Server.initServer max sockfd junk).map fun server => ⟨server, .poll⟩

/-! ### Answers for runs on fixed inputs -/

namespace Answers

def polls (entries : List ℕ) : Answers :=
  ⟨some fun k => if k ∈ entries then pollIn else 0, -1, none⟩

def accepts (fd : ℤ) : Answers := ⟨none, fd, none⟩

def reads (bytes : List CChar) : Answers := ⟨none, -1, some bytes⟩

def quiet : Answers := ⟨none, -1, none⟩

def visit : List Answers :=
  [polls [0], accepts 10, quiet, quiet,
    polls [1], quiet, reads [104, 105], quiet,
    polls [1], quiet, reads [], quiet]

end Answers

end UnixLabs.Lab31
