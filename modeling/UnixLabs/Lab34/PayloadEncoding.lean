import UnixLabs.Lab34.TunnelFraming
import UnixLabs.Lab34.TunnelWrites

/-!
What `pr_encapsulate` writes and what `message_length` counts.

Both loops go over the payload of a tunnel frame. The first writes the longest prefix
that has room with its reserved bytes quoted, and the second counts the length of the
whole, which it does not hand back.
-/

namespace UnixLabs.Lab34

open Library Library.Framing

theorem quote_reserved {c : CChar} (hc : Reserved c) :
    tunnelFormat.quote c = [messageEscape, c] := if_pos hc

theorem quote_plain {c : CChar} (hc : ¬Reserved c) : tunnelFormat.quote c = [c] := if_neg hc

/-- The source names the reserved bytes the other way round. -/
theorem reserved_iff {c : CChar} : c = messageEdge ∨ c = messageEscape ↔ Reserved c := or_comm

theorem encode_reserved {c : CChar} (hc : Reserved c) (data : List CChar) :
    tunnelFormat.encode (c :: data) = messageEscape :: c :: tunnelFormat.encode data := by
  rw [Format.encode_cons, quote_reserved hc]
  rfl

theorem encode_plain {c : CChar} (hc : ¬Reserved c) (data : List CChar) :
    tunnelFormat.encode (c :: data) = c :: tunnelFormat.encode data := by
  rw [Format.encode_cons, quote_plain hc]
  rfl

theorem fitting_reserved {c : CChar} (hc : Reserved c) (room : ℕ) (data : List CChar) :
    tunnelFormat.fitting (room + 2) (c :: data) = tunnelFormat.fitting room data + 1 := by
  rw [Format.fitting_of_le] <;> simp [quote_reserved hc]

theorem fitting_reserved_full {c : CChar} (hc : Reserved c) {room : ℕ} (h : room < 2)
    (data : List CChar) : tunnelFormat.fitting room (c :: data) = 0 :=
  tunnelFormat.fitting_of_lt (by rw [quote_reserved hc]; exact h) data

theorem fitting_plain {c : CChar} (hc : ¬Reserved c) (room : ℕ) (data : List CChar) :
    tunnelFormat.fitting (room + 1) (c :: data) = tunnelFormat.fitting room data + 1 := by
  rw [Format.fitting_of_le] <;> simp [quote_plain hc]

theorem fitting_plain_full {c : CChar} (hc : ¬Reserved c) (data : List CChar) :
    tunnelFormat.fitting 0 (c :: data) = 0 :=
  tunnelFormat.fitting_of_lt (by rw [quote_plain hc]; exact Nat.one_pos) data

/-! ### The bytes of `pr_encapsulate` -/

/-- The loop of `pr_encapsulate` puts the bytes that fit into the room that is left,
quoted. -/
theorem prEncapsulateFrom_eq (message : ℕ) (data : List CChar) (room i : ℕ) (m : ℕ → CChar) :
    prEncapsulateFrom message (i + room) data i m =
      (tunnelFormat.fitting room data, writeAt m (message + i)
        (tunnelFormat.encode (data.take (tunnelFormat.fitting room data)))) := by
  induction data generalizing room i m with
  | nil => rw [prEncapsulateFrom, Format.fitting, List.take_nil, Format.encode_nil, writeAt_nil]
  | cons c data ih =>
      rw [prEncapsulateFrom]
      by_cases hc : Reserved c
      · rw [if_pos (reserved_iff.mpr hc)]
        rcases room with _ | _ | room
        · rw [fitting_reserved_full hc (by decide), List.take_zero, Format.encode_nil,
            writeAt_nil, if_neg (by omega)]
        · rw [fitting_reserved_full hc (by decide), List.take_zero, Format.encode_nil,
            writeAt_nil, if_pos (by omega), if_pos (by omega)]
        · have hlen : i + (room + 2) = i + 2 + room := by omega
          simp only [hlen, ih]
          rw [if_pos (by omega), if_neg (by omega), fitting_reserved hc, List.take_succ_cons,
            encode_reserved hc, writeAt_cons, writeAt_cons]
          rfl
      · rw [if_neg (mt reserved_iff.mp hc)]
        cases room with
        | succ room =>
            have hlen : i + (room + 1) = i + 1 + room := by omega
            simp only [hlen, ih]
            rw [if_pos (by omega), fitting_plain hc, List.take_succ_cons, encode_plain hc,
              writeAt_cons]
            rfl
        | zero =>
            rw [fitting_plain_full hc, List.take_zero, Format.encode_nil, writeAt_nil,
              if_neg (by omega)]

theorem prEncapsulate_eq (data : List CChar) (m : ℕ → CChar) (message messageLen : ℕ) :
    prEncapsulate data m message messageLen =
      (tunnelFormat.fitting messageLen data, writeAt m message
        (tunnelFormat.encode (data.take (tunnelFormat.fitting messageLen data)))) := by
  have h := prEncapsulateFrom_eq message data messageLen 0 m
  rwa [Nat.zero_add] at h

theorem prWrites_eq (b : CyclicBuffer) (message : ℕ) (data : List CChar) (room i : ℕ) :
    TPBuffer.prWrites b message (i + room) data i =
      (tunnelFormat.encode (data.take (tunnelFormat.fitting room data))).mapIdx
        fun j c => b.writeOf (message + (i + j)) c := by
  induction data generalizing room i with
  | nil => rfl
  | cons c data ih =>
      rw [TPBuffer.prWrites]
      by_cases hc : Reserved c
      · rw [if_pos (reserved_iff.mpr hc)]
        rcases room with _ | _ | room
        · rw [fitting_reserved_full hc (by decide), List.take_zero, if_neg (by omega)]
          rfl
        · rw [fitting_reserved_full hc (by decide), List.take_zero, if_pos (by omega),
            if_pos (by omega)]
          rfl
        · have hlen : i + (room + 2) = i + 2 + room := by omega
          rw [hlen, ih, if_pos (by omega), if_neg (by omega), fitting_reserved hc,
            List.take_succ_cons, encode_reserved hc, List.mapIdx_cons, List.mapIdx_cons]
          simp only [Nat.add_assoc, Nat.add_comm, Nat.add_left_comm, Nat.add_zero,
            Nat.zero_add, Nat.reduceAdd]
      · rw [if_neg (mt reserved_iff.mp hc)]
        cases room with
        | succ room =>
            have hlen : i + (room + 1) = i + 1 + room := by omega
            rw [hlen, ih, if_pos (by omega), fitting_plain hc, List.take_succ_cons,
              encode_plain hc, List.mapIdx_cons]
            simp only [Nat.add_comm, Nat.add_left_comm, Nat.add_zero]
        | zero =>
            rw [fitting_plain_full hc, List.take_zero, if_neg (by omega)]
            rfl

/-- `pr_encapsulate` takes the longest prefix of the data whose quoted bytes have room,
writes these bytes one after the other and nothing else, and they can be read back. -/
theorem prEncapsulate_longest (b : CyclicBuffer) (m : ℕ → CChar) (data : List CChar)
    (message messageLen : ℕ) :
    ∃ k bytes, prEncapsulate data m message messageLen = (k, writeAt m message bytes) ∧
      TPBuffer.prWrites b message messageLen data 0 =
        bytes.mapIdx (fun j c => b.writeOf (message + j) c) ∧
      bytes = tunnelFormat.encode (data.take k) ∧ bytes.length ≤ messageLen ∧
      k ≤ data.length ∧
      (∀ k' ≤ data.length,
        (tunnelFormat.encode (data.take k')).length ≤ messageLen → k' ≤ k) ∧
      tunnelFormat.unquote bytes = some (data.take k) := by
  have hle := tunnelFormat.fitting_le messageLen data
  have hwrites := prWrites_eq b message data messageLen 0
  simp only [Nat.zero_add] at hwrites
  refine ⟨tunnelFormat.fitting messageLen data, _, prEncapsulate_eq data m message messageLen,
    hwrites, rfl, ?_, hle, ?_, tunnelFormat.unquote_encode _⟩
  · exact (tunnelFormat.le_fitting_iff hle).mp le_rfl
  · exact fun k' hk' hfits => (tunnelFormat.le_fitting_iff hk').mpr hfits

/-- An escape that has no room for the byte behind it is not written. -/
example : (prEncapsulate [0x61, 0x7E] (fun _ => 0) 0 2).1 = 1 ∧
    TPBuffer.prWrites (CyclicBuffer.cbInit (fun _ => 0) 4) 0 2 [0x61, 0x7E] 0 =
      [⟨4, 0, 0, 0, 0x61⟩] := ⟨rfl, rfl⟩

/-! ### The count of `message_length` -/

theorem messageLengthFrom_eq (data : List CChar) (length : ℕ) :
    messageLengthFrom data length = length + (tunnelFormat.encode data).length := by
  induction data generalizing length with
  | nil => rfl
  | cons c data ih =>
      rw [messageLengthFrom, ih]
      by_cases hc : Reserved c
      · rw [if_pos (reserved_iff.mpr hc), encode_reserved hc, List.length_cons, List.length_cons]
        omega
      · rw [if_neg (mt reserved_iff.mp hc), encode_plain hc, List.length_cons]
        omega

theorem messageLength_eq (data : List CChar) :
    (messageLength data).1 = (tunnelFormat.encode data).length :=
  (messageLengthFrom_eq data 0).trans (Nat.zero_add _)

theorem length_encode_reserved (data : List CChar) :
    (tunnelFormat.encode data).length = data.length + data.countP (Reserved ·) :=
  tunnelFormat.length_encode data

theorem length_prWrites (b : CyclicBuffer) (message : ℕ) {messageLen : ℕ} {data : List CChar}
    (hroom : 2 * data.length ≤ messageLen) :
    (TPBuffer.prWrites b message messageLen data 0).length =
      (tunnelFormat.encode data).length := by
  have hfits : (tunnelFormat.encode data).length ≤ messageLen := by
    have := data.countP_le_length (p := (Reserved ·))
    rw [length_encode_reserved]
    omega
  have hall : tunnelFormat.fitting messageLen data = data.length := by
    refine Nat.le_antisymm (tunnelFormat.fitting_le _ _) ?_
    rwa [tunnelFormat.le_fitting_iff le_rfl, List.take_length]
  have hwrites := prWrites_eq b message data messageLen 0
  rw [Nat.zero_add] at hwrites
  rw [hwrites, hall, List.length_mapIdx, List.take_length]

/-- What `message_length` hands back is a number, the number of bytes that
`pr_encapsulate` writes of the same data when there is room for them all. -/
def LengthRight (data : List CChar) : Prop :=
  ∃ length, (messageLength data).2 = some length ∧
    length = data.length + data.countP (Reserved ·) ∧
    ∀ b message messageLen, 2 * data.length ≤ messageLen →
      (TPBuffer.prWrites b message messageLen data 0).length = length

/-- `message_length` has counted that number at its end, and hands back nothing. -/
theorem messageLength_lost (data : List CChar) :
    (messageLength data).1 = data.length + data.countP (Reserved ·) ∧
      (∀ b message messageLen, 2 * data.length ≤ messageLen →
        (TPBuffer.prWrites b message messageLen data 0).length = (messageLength data).1) ∧
      ¬LengthRight data := by
  refine ⟨?_, ?_, ?_⟩
  · rw [messageLength_eq, length_encode_reserved]
  · intro b message messageLen hroom
    rw [messageLength_eq, length_prWrites b message hroom]
  · rintro ⟨length, hreturned, -⟩
    cases hreturned

/-- Not even of a single byte is the length handed back. -/
theorem messageLength_lost_byte : ¬LengthRight [0x61] := by
  rintro ⟨length, hreturned, -⟩
  cases hreturned

end UnixLabs.Lab34
