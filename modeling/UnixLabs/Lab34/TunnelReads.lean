import UnixLabs.Lab34.TunnelPayload

/-!
Where `tpb_encapsulate` reads its data.

`message_length` and `pr_encapsulate` are given the whole length of the data in both
rounds, but in the second one `message_length` starts behind what the first round has
consumed.
-/

namespace UnixLabs.Lab34

open Library Library.Framing

namespace TPBuffer

/-- The indices of the data that `message_length` reads in a call on `length` bytes
from `offset` on. -/
def lengthReads (offset length : ℕ) : List ℕ := (List.range length).map (offset + ·)

def prReads (messageLen : ℕ) : List CChar → ℕ → ℕ → List ℕ
  | [], _, _ => []
  | c :: data, dataIndex, messageIndex =>
      if messageIndex < messageLen then
        dataIndex ::
          if c = messageEdge ∨ c = messageEscape then
            if messageIndex + 1 ≥ messageLen then []
            else prReads messageLen data (dataIndex + 1) (messageIndex + 2)
          else prReads messageLen data (dataIndex + 1) (messageIndex + 1)
      else []

def roundsReads (data : List CChar) (messageLength : ℕ → ℕ) : ℕ → ℕ → TPBuffer → List ℕ
  | 0, _, _ => []
  | rounds + 1, encapsed, tpb =>
      let contiguousSpace := tpb.buffer.cbFreeContiguousSpace
      let message := (tpb.buffer.start + tpb.buffer.count) % tpb.buffer.size
      let messageLen := min (messageLength (2 - rounds)) contiguousSpace
      let (count, buf) := prEncapsulate data tpb.buffer.buf message messageLen
      lengthReads encapsed data.length ++ prReads messageLen data 0 0 ++
        if count < contiguousSpace then []
        else roundsReads data messageLength rounds (encapsed + count) (tpb.afterRound buf count)

def encapsulateReads (tpb : TPBuffer) (data : List CChar) (order : ℤ)
    (messageLength : ℕ → ℕ) : List ℕ :=
  if order > tpbMaxOrder ∨ order < 0 then []
  else if order ≠ tpb.order then
    lengthReads 0 1 ++
      if (messageLength 0 + tpb.controlLength) % 2 ^ 64 > tpb.buffer.cbFreeSpace then []
      else roundsReads data messageLength 2 0 (tpbPutOrder tpb order)
  else roundsReads data messageLength 2 0 tpb

theorem mem_prReads {messageLen : ℕ} {data : List CChar} {dataIndex messageIndex i : ℕ}
    (h : i ∈ prReads messageLen data dataIndex messageIndex) :
    i < dataIndex + data.length := by
  induction data generalizing dataIndex messageIndex with
  | nil => simp [prReads] at h
  | cons c data ih =>
      rw [prReads] at h
      rw [List.length_cons]
      split_ifs at h with hi hquote hfit
      · rw [List.mem_singleton] at h
        omega
      · rcases List.mem_cons.mp h with rfl | h
        · omega
        · have := ih h
          omega
      · rcases List.mem_cons.mp h with rfl | h
        · omega
        · have := ih h
          omega
      · simp at h

/-- A call of `message_length` on the whole length stays inside the data exactly when it
starts at its front. -/
theorem lengthReads_iff {offset length : ℕ} (h : 0 < length) :
    (∀ i ∈ lengthReads offset length, i < length) ↔ offset = 0 := by
  simp only [lengthReads, List.forall_mem_map, List.mem_range]
  constructor
  · intro hall
    have := hall (length - 1) (by omega)
    omega
  · rintro rfl i hi
    omega

/-- The contiguous space is filled up exactly by so many plain bytes. -/
theorem fitting_eq_iff (room : ℕ) (data : List CChar) :
    tunnelFormat.fitting room data = room ↔
      room ≤ data.length ∧ ∀ c ∈ data.take room, ¬Reserved c := by
  have hlong : ∀ k ≤ data.length, k ≤ (tunnelFormat.encode (data.take k)).length := by
    intro k hk
    rw [length_encode_reserved, List.length_take_of_le hk]
    exact Nat.le_add_right _ _
  have hfits : tunnelFormat.fitting room data ≤ room :=
    (hlong _ (tunnelFormat.fitting_le _ _)).trans
      ((tunnelFormat.le_fitting_iff (tunnelFormat.fitting_le _ _)).mp le_rfl)
  rw [← hfits.ge_iff_eq]
  constructor
  · intro hall
    have hroom : room ≤ data.length := hall.trans (tunnelFormat.fitting_le _ _)
    rw [tunnelFormat.le_fitting_iff hroom] at hall
    refine ⟨hroom, (take_encode_iff _).mp (List.take_of_length_le ?_)⟩
    rwa [List.length_take_of_le hroom]
  · rintro ⟨hroom, hplain⟩
    have hall := (List.take_eq_self_iff _).mp ((take_encode_iff _).mpr hplain)
    rw [List.length_take_of_le hroom] at hall
    exact (tunnelFormat.le_fitting_iff hroom).mpr hall

/-- The rounds read inside the data unless the first of them consumes something and
fills the contiguous space with it. -/
theorem roundsReads_iff (tpb : TPBuffer) {data : List CChar} (hdata : 0 < data.length)
    (third : ℕ) :
    (∀ i ∈ roundsReads data (counted data third) 2 0 tpb, i < data.length) ↔
      (tunnelFormat.fitting tpb.buffer.cbFreeContiguousSpace data =
          tpb.buffer.cbFreeContiguousSpace →
        tpb.buffer.cbFreeContiguousSpace = 0) := by
  have hpr : ∀ messageLen, ∀ i ∈ prReads messageLen data 0 0, i < data.length := by
    intro messageLen i hi
    have := mem_prReads hi
    omega
  have hlast : ∀ encapsed tpb, (∀ i ∈ roundsReads data (counted data third) 1 encapsed tpb,
      i < data.length) ↔ encapsed = 0 := by
    intro encapsed tpb
    rw [roundsReads]
    simp only [roundsReads, ite_self, List.append_nil]
    rw [List.forall_mem_append, lengthReads_iff hdata]
    exact and_iff_left (hpr _)
  have hfits : tunnelFormat.fitting tpb.buffer.cbFreeContiguousSpace data ≤
      tpb.buffer.cbFreeContiguousSpace := by
    have := (prEncapsulate_le data tpb.buffer.buf 0 tpb.buffer.cbFreeContiguousSpace).2
    rwa [prEncapsulate_eq] at this
  rw [roundsReads]
  simp only [Nat.reduceSub, counted_one, prEncapsulate_eq, tunnelFormat.fitting_min,
    List.forall_mem_append, Nat.zero_add]
  by_cases hless : tunnelFormat.fitting tpb.buffer.cbFreeContiguousSpace data <
      tpb.buffer.cbFreeContiguousSpace
  · rw [if_pos hless]
    simp only [List.not_mem_nil, false_imp_iff, implies_true, and_true]
    exact ⟨fun _ he => absurd he hless.ne, fun _ => ⟨(lengthReads_iff hdata).mpr rfl, hpr _⟩⟩
  · have hall := Nat.le_antisymm hfits (Nat.le_of_not_lt hless)
    rw [if_neg hless, hlast, hall]
    exact ⟨fun h _ => h.2, fun h => ⟨⟨(lengthReads_iff hdata).mpr rfl, hpr _⟩, h rfl⟩⟩

/-- The space behind the header is none, or more than the data has bytes, or is not
filled by plain bytes. -/
def SpaceLeft (tpb : TPBuffer) (data : List CChar) (order : ℤ) : Prop :=
  Accepted tpb data order →
    tpb.payloadSpace order = 0 ∨ data.length < tpb.payloadSpace order ∨
      ∃ c ∈ data.take (tpb.payloadSpace order), Reserved c

/-- A call reads inside its data exactly when plain bytes of the data do not fill the
contiguous space. -/
theorem encapsulateReads_iff (tpb : TPBuffer) (c : CChar) (rest : List CChar) (order : ℤ)
    (third : ℕ) :
    (∀ i ∈ encapsulateReads tpb (c :: rest) order (counted (c :: rest) third),
        i < (c :: rest).length) ↔
      SpaceLeft tpb (c :: rest) order := by
  have hdata : 0 < (c :: rest).length := Nat.succ_pos _
  have hcheck : ∀ i ∈ lengthReads 0 1, i < (c :: rest).length := by
    simp [lengthReads]
  by_cases hacc : Accepted tpb (c :: rest) order
  · have hreads : (∀ i ∈ encapsulateReads tpb (c :: rest) order (counted (c :: rest) third),
        i < (c :: rest).length) ↔
        ∀ i ∈ roundsReads (c :: rest) (counted (c :: rest) third) 2 0 (tpb.opened order),
          i < (c :: rest).length := by
      have hrange : ¬(order > tpbMaxOrder ∨ order < 0) := by
        have := hacc.1
        have := hacc.2.1
        omega
      rw [encapsulateReads, if_neg hrange, opened]
      by_cases horder : order ≠ tpb.order
      · rw [if_pos horder, if_pos horder, counted_zero_add,
          if_neg (Nat.not_lt.mpr (hacc.2.2 horder)), List.forall_mem_append]
        exact and_iff_right hcheck
      · rw [if_neg horder, if_neg horder]
    rw [hreads, roundsReads_iff _ hdata, (opened_spec hacc).2.2, fitting_eq_iff, SpaceLeft]
    simp only [hacc, true_imp_iff]
    rw [imp_iff_not_or, not_and_or, Nat.not_le, or_comm]
    simp only [not_forall, not_not, exists_prop]
  · refine iff_of_true (fun i hi => ?_) fun h => absurd h hacc
    rw [encapsulateReads] at hi
    split_ifs at hi with hrange horder hfull
    · simp at hi
    · rw [List.append_nil] at hi
      exact hcheck i hi
    · rw [counted_zero_add] at hfull
      exact absurd ⟨by omega, by omega, fun _ => Nat.le_of_not_lt hfull⟩ hacc
    · exact absurd ⟨by omega, by omega, fun h => absurd h horder⟩ hacc

/-- Two plain bytes that fill the new buffer: the second round starts behind them. -/
theorem encapsulate_reads_behind :
    Reachable (tpbInit (fun _ => 0) 4) ∧
      ¬∀ i ∈ encapsulateReads (tpbInit (fun _ => 0) 4) [1, 2] 0 (counted [1, 2] 0),
        i < [(1 : CChar), 2].length :=
  ⟨⟨_, _, [], rfl⟩, by decide⟩

end TPBuffer

end UnixLabs.Lab34
