import UnixLabs.Library.CArray
import Mathlib.Data.BitVec

/-!
The platform the labs are compiled for: `char` is a signed byte, `int` has 32 bits
and `size_t` 64, `BUFSIZ` is that of its C library, and `poll` works on
`struct pollfd`.
-/

namespace UnixLabs

/-- Plain `char`. Its promotion to `int` is `BitVec.toInt`, since `char` is
signed. -/
abbrev CChar := BitVec 8

def newline : CChar := 0x0A

def isNewline (b : CChar) : Bool := b == newline

/-- Conversion of an `int` to `size_t`. -/
def sizeT (i : ℤ) : ℕ := (i % 2 ^ 64).toNat

theorem sizeT_natCast {k : ℕ} (h : k < 2 ^ 64) : sizeT k = k := by
  unfold sizeT
  omega

/-- What an `int` holds after a computation with this exact result; it has 32 bits and
wraps around. -/
def intOf (i : ℤ) : ℤ := i.bmod (2 ^ 32)

def intMax : ℤ := 2 ^ 31 - 1

theorem intOf_of_le {i : ℤ} (hlow : -2 ^ 31 ≤ i) (hhigh : i ≤ intMax) : intOf i = i :=
  Int.bmod_eq_of_le (by omega) (by unfold intMax at hhigh; omega)

/-- A difference in `size_t`. It leaves no result where it would wrap around. -/
def checkedSub (a b : ℕ) : Option ℕ := if b ≤ a then some (a - b) else none

theorem checkedSub_of_le {a b : ℕ} (h : b ≤ a) : checkedSub a b = some (a - b) := if_pos h

def bufsiz : ℕ := 8192

structure Pollfd where
  fd : ℤ
  events : BitVec 16
  revents : BitVec 16
  deriving DecidableEq

def pollIn : BitVec 16 := 0x001

def pollOut : BitVec 16 := 0x004

def pollErr : BitVec 16 := 0x008

def Pollfd.zero : Pollfd := ⟨0, 0, 0⟩

/-- `POLLERR`, `POLLHUP` and `POLLNVAL`, which are reported unasked. -/
def pollAlways : BitVec 16 := 0x038

/-- An entry after `poll`, which can report what was asked for, and nothing for a
negative descriptor. -/
def polled (pollfd : Pollfd) (revents : BitVec 16) : Pollfd :=
  { pollfd with
    revents := if pollfd.fd < 0 then 0 else revents &&& (pollfd.events ||| pollAlways) }

end UnixLabs
