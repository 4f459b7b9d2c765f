import UnixLabs.Platform
import UnixLabs.Library.Framing

/-!
`lab34/protocol.h` and `protocol.c`: the two reserved bytes of the tunnel and the
quoting of payload.

`message_length` counts and has no `return`, so what its callers get is not
determined by the source; it is a parameter of the functions that call it.
-/

namespace UnixLabs.Lab34

open Library

def messageEdge : CChar := 0x7E

def messageEscape : CChar := 0b01111101

theorem messageEdge_ne_messageEscape : messageEdge ≠ messageEscape := by decide

def messageLengthFrom : List CChar → ℕ → ℕ
  | [], length => length
  | c :: data, length =>
      let length := length + 1
      let length := if c = messageEdge ∨ c = messageEscape then length + 1 else length
      messageLengthFrom data length

/-- `message_length`: what it has counted in the end, and the value it hands back,
which is none. -/
def messageLength (data : List CChar) : ℕ × Option ℕ := (messageLengthFrom data 0, none)

def prEncapsulateFrom (message : ℕ) (messageLen : ℕ) :
    List CChar → ℕ → (ℕ → CChar) → ℕ × (ℕ → CChar)
  | [], _, m => (0, m)
  | c :: data, messageIndex, m =>
      if messageIndex < messageLen then
        if c = messageEdge ∨ c = messageEscape then
          if messageIndex + 1 ≥ messageLen then (0, m)
          else
            let m := Function.update m (message + messageIndex) messageEscape
            let m := Function.update m (message + messageIndex + 1) c
            let (n, m) := prEncapsulateFrom message messageLen data (messageIndex + 2) m
            (n + 1, m)
        else
          let m := Function.update m (message + messageIndex) c
          let (n, m) := prEncapsulateFrom message messageLen data (messageIndex + 1) m
          (n + 1, m)
      else (0, m)

/-- `pr_encapsulate` into the memory `m`, from the offset `message` on: how many
bytes of the data are put, and the memory. -/
def prEncapsulate (data : List CChar) (m : ℕ → CChar) (message messageLen : ℕ) :
    ℕ × (ℕ → CChar) :=
  prEncapsulateFrom message messageLen data 0 m

theorem prEncapsulate_no_room (data : List CChar) (m : ℕ → CChar) (message : ℕ) :
    prEncapsulate data m message 0 = (0, m) := by
  cases data with
  | nil => rfl
  | cons c data => rfl

theorem prEncapsulateFrom_le (message messageLen : ℕ) (data : List CChar) (i : ℕ)
    (m : ℕ → CChar) :
    (prEncapsulateFrom message messageLen data i m).1 ≤ data.length ∧
      i + (prEncapsulateFrom message messageLen data i m).1 ≤ max i messageLen := by
  induction data generalizing i m with
  | nil => exact ⟨le_rfl, le_max_left _ _⟩
  | cons c data ih =>
      rw [prEncapsulateFrom]
      split_ifs with hi hquote hfit
      · exact ⟨Nat.zero_le _, le_max_left _ _⟩
      · obtain ⟨hlen, hroom⟩ := ih (i + 2) _
        refine ⟨Nat.succ_le_succ hlen, ?_⟩
        dsimp only
        omega
      · obtain ⟨hlen, hroom⟩ := ih (i + 1) _
        refine ⟨Nat.succ_le_succ hlen, ?_⟩
        dsimp only
        omega
      · exact ⟨Nat.zero_le _, le_max_left _ _⟩

/-- No more bytes are put than there are, and no more than have room unquoted. -/
theorem prEncapsulate_le (data : List CChar) (m : ℕ → CChar) (message messageLen : ℕ) :
    (prEncapsulate data m message messageLen).1 ≤ data.length ∧
      (prEncapsulate data m message messageLen).1 ≤ messageLen := by
  have := prEncapsulateFrom_le message messageLen data 0 m
  unfold prEncapsulate
  omega

end UnixLabs.Lab34
