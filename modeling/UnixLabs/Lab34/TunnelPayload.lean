import UnixLabs.Lab34.PayloadEncoding

/-!
What `tpb_encapsulate` puts of its data, were the count of `message_length` handed
back.

A call puts the header, if the order changes, and then fills the contiguous space
behind it. The number of bytes taken from the data and the number of bytes written
differ by the escapes; the source counts the first in where it needs the second. Its
second round finds no contiguous space whatever the first has done, and looks at the
data from a place that the first has moved.
-/

namespace UnixLabs.Lab34

open Library Library.Framing

namespace TPBuffer

/-- The lengths that `message_length` counts in a call: of the first byte for the space
check, of the whole data for the first round, and in the second round of bytes that lie
partly behind the data, which may count to anything. -/
def counted (data : List CChar) (third : ℕ) : ℕ → ℕ
  | 0 => (messageLength (data.take 1)).1
  | 1 => (messageLength data).1
  | _ => third

def opened (tpb : TPBuffer) (order : ℤ) : TPBuffer :=
  if order ≠ tpb.order then tpbPutOrder tpb order else tpb

def headerLength (tpb : TPBuffer) (order : ℤ) : ℕ :=
  if order ≠ tpb.order then tpb.controlLength else 0

/-- The bytes from the end of the header to the end of the storage, or to the queue if
they have gone around. -/
def payloadSpace (tpb : TPBuffer) (order : ℤ) : ℕ :=
  let count := tpb.buffer.count + tpb.headerLength order
  if tpb.buffer.start + count ≤ tpb.buffer.size then tpb.buffer.size - (tpb.buffer.start + count)
  else tpb.buffer.size - count

/-- The order is in range, and the space check lets the call through. -/
def Accepted (tpb : TPBuffer) (data : List CChar) (order : ℤ) : Prop :=
  0 ≤ order ∧ order ≤ tpbMaxOrder ∧
    (order ≠ tpb.order →
      (tunnelFormat.encode (data.take 1)).length + tpb.controlLength ≤ tpb.buffer.cbFreeSpace)

instance (tpb : TPBuffer) (data : List CChar) (order : ℤ) :
    Decidable (Accepted tpb data order) := inferInstanceAs (Decidable (_ ∧ _ ∧ _))

/-! ### The space check -/

theorem counted_one (data : List CChar) (third : ℕ) :
    counted data third 1 = (tunnelFormat.encode data).length := messageLength_eq data

theorem counted_zero_add (tpb : TPBuffer) (data : List CChar) (third : ℕ) :
    (counted data third 0 + tpb.controlLength) % 2 ^ 64 =
      (tunnelFormat.encode (data.take 1)).length + tpb.controlLength := by
  have hcounted : counted data third 0 = (tunnelFormat.encode (data.take 1)).length :=
    messageLength_eq (data.take 1)
  have hbyte : (tunnelFormat.encode (data.take 1)).length ≤ 2 := by
    have htake : (data.take 1).length ≤ 1 := List.length_take_le 1 data
    have hreserved := (data.take 1).countP_le_length (p := (Reserved ·))
    rw [length_encode_reserved]
    omega
  have hheader : tpb.controlLength ≤ 3 := by
    unfold controlLength
    split_ifs <;> omega
  rw [hcounted]
  exact Nat.mod_eq_of_lt (by omega)

theorem tpbEncapsulate_accepted {tpb : TPBuffer} {data : List CChar} {order : ℤ}
    (h : Accepted tpb data order) (third : ℕ) :
    tpbEncapsulate tpb data order (counted data third) =
      encapsulateRounds data (counted data third) 2 0 (tpb.opened order) := by
  obtain ⟨hlow, hhigh, hroom⟩ := h
  rw [tpbEncapsulate, if_neg (by omega), counted_zero_add, if_neg]
  · rfl
  · rintro ⟨horder, hfull⟩
    exact absurd (hroom horder) (Nat.not_le.mpr hfull)

/-- The header of an accepted call has room, and the contiguous space behind it is
`payloadSpace`. -/
theorem opened_spec {tpb : TPBuffer} {data : List CChar} {order : ℤ}
    (h : Accepted tpb data order) :
    (tpb.opened order).buffer.contents = tpb.buffer.contents ++
        (if order = tpb.order then [] else header tpb.order order) ∧
      (tpb.opened order).buffer.size = tpb.buffer.size ∧
      (tpb.opened order).buffer.cbFreeContiguousSpace = tpb.payloadSpace order := by
  by_cases horder : order = tpb.order
  · have hopened : tpb.opened order = tpb := if_neg (not_not.mpr horder)
    rw [hopened, if_pos horder, List.append_nil, payloadSpace, headerLength,
      if_neg (not_not.mpr horder)]
    exact ⟨rfl, rfl, rfl⟩
  · have hopened : tpb.opened order = tpbPutOrder tpb order := if_pos horder
    have hheader : tpb.controlLength ≤ tpb.buffer.cbFreeSpace :=
      Nat.le_trans (Nat.le_add_left _ _) (h.2.2 horder)
    obtain ⟨hcontents, hsize⟩ := contents_tpbPutOrder order hheader
    have hcount : (tpbPutOrder tpb order).buffer.count =
        tpb.buffer.count + tpb.controlLength := by
      rw [← CyclicBuffer.length_contents, hcontents, List.length_append, length_header,
        CyclicBuffer.length_contents]
    rw [hopened, if_neg horder, payloadSpace, headerLength, if_pos horder]
    refine ⟨hcontents, hsize, ?_⟩
    rw [CyclicBuffer.cbFreeContiguousSpace, CyclicBuffer.cbFreeSpace, hcount, hsize,
      start_tpbPutOrder]

/-! ### The rounds -/

/-- The first round takes what fits into the contiguous space and counts in as many
bytes as it has taken from the data; the second finds no space. -/
theorem encapsulateRounds_counted {tpb : TPBuffer} (hsize : 0 < tpb.buffer.size)
    (data : List CChar) (third : ℕ) :
    let k := tunnelFormat.fitting tpb.buffer.cbFreeContiguousSpace data
    ∃ tpb', encapsulateRounds data (counted data third) 2 0 tpb = some (k, tpb') ∧
      tpb'.buffer.contents =
        tpb.buffer.contents ++ (tunnelFormat.encode (data.take k)).take k := by
  intro k
  have hk : k ≤ data.length := tunnelFormat.fitting_le _ _
  have hfits : (tunnelFormat.encode (data.take k)).length ≤ tpb.buffer.cbFreeContiguousSpace :=
    (tunnelFormat.le_fitting_iff hk).mp le_rfl
  have hlong : k ≤ (tunnelFormat.encode (data.take k)).length := by
    rw [length_encode_reserved, List.length_take_of_le hk]
    exact Nat.le_add_right _ _
  have hround := CyclicBuffer.contents_writeEnd_take hsize hfits hlong
  have hpr := prEncapsulate_eq data tpb.buffer.buf
    ((tpb.buffer.start + tpb.buffer.count) % tpb.buffer.size)
    (min (counted data third 1) tpb.buffer.cbFreeContiguousSpace)
  rw [counted_one, tunnelFormat.fitting_min] at hpr
  rw [encapsulateRounds, CyclicBuffer.cbDataEnd_of_pos hsize]
  simp only [Option.bind_eq_bind, Option.bind_some, Nat.reduceSub, counted_one, hpr, Nat.zero_add]
  change ∃ tpb', (if k < _ then _ else _) = _ ∧ _
  by_cases hless : k < tpb.buffer.cbFreeContiguousSpace
  · rw [if_pos hless]
    exact ⟨_, rfl, hround⟩
  · have hall : k = tpb.buffer.cbFreeContiguousSpace :=
      Nat.le_antisymm (hlong.trans hfits) (Nat.le_of_not_lt hless)
    rw [if_neg hless]
    have hzero := cbFreeContiguousSpace_afterRound tpb (writeAt tpb.buffer.buf
      ((tpb.buffer.start + tpb.buffer.count) % tpb.buffer.size)
      (tunnelFormat.encode (data.take k)))
    rw [← hall] at hzero
    exact ⟨_, @encapsulateRounds_full (tpb.afterRound _ k) hsize hzero data _ 1 k, hround⟩

/-! ### Reachable buffers -/

def Reachable (tpb : TPBuffer) : Prop :=
  ∃ junk size ops, run tunnelStep (tpbInit junk size) ops = some tpb

theorem Reachable.order_eq {tpb : TPBuffer} (h : Reachable tpb) (hsize : tpb.buffer.size = 0) :
    tpb.order = tpbNoOrder := by
  obtain ⟨junk, size, ops, hrun⟩ := h
  refine run_invariant (I := fun tpb => tpb.buffer.size = 0 → tpb.order = tpbNoOrder)
    (fun tpb op tpb' hinv hstep hsize => ?_) (fun _ => rfl) hrun hsize
  rcases Nat.eq_zero_or_pos tpb.buffer.size with hempty | hpos
  · have hnone := hinv hempty
    cases op with
    | encapsulate data order messageLength =>
        obtain ⟨⟨n, tpb₁⟩, hcall, rfl⟩ := Option.map_eq_some_iff.mp hstep
        -- the rounds would have no place to write to
        have hrounds : ∀ tpb : TPBuffer, tpb.buffer.size = 0 →
            encapsulateRounds data messageLength 2 0 tpb = none := by
          intro tpb h
          rw [encapsulateRounds, show tpb.buffer.cbDataEnd = none from if_pos h]
          rfl
        rw [tpbEncapsulate] at hcall
        split_ifs at hcall
        · cases hcall
          exact hnone
        · cases hcall
          exact hnone
        · rw [hrounds _ ((size_tpbPutOrder tpb order).trans hempty)] at hcall
          cases hcall
        · rw [hrounds _ hempty] at hcall
          cases hcall
    | contolMessage op order =>
        cases hstep
        have hrejected : tpbContolMessage tpb op order = (false, tpb) := by
          refine if_pos ⟨?_, ?_⟩
          · rw [hnone]
            decide
          · rw [CyclicBuffer.cbFreeSpace, hempty, eventMessageLength]
            omega
        rw [hrejected]
        exact hnone
    | send written =>
        obtain ⟨⟨ret, tpb₁⟩, hcall, rfl⟩ := Option.map_eq_some_iff.mp hstep
        obtain ⟨⟨ret', buffer⟩, -, heq⟩ := Option.map_eq_some_iff.mp hcall
        cases heq
        exact hnone
  · obtain ⟨tpb₁, hstep₁, hsize₁⟩ := tunnelStep_defined hpos op
    cases hstep.symm.trans hstep₁
    omega

/-- Without storage no call is accepted, so an accepted one has some. -/
theorem Reachable.size_pos {tpb : TPBuffer} (h : Reachable tpb) {data : List CChar} {order : ℤ}
    (hacc : Accepted tpb data order) : 0 < tpb.buffer.size := by
  rcases Nat.eq_zero_or_pos tpb.buffer.size with hempty | hpos
  · have horder : order ≠ tpb.order := by
      have hlow := hacc.1
      rw [h.order_eq hempty, tpbNoOrder]
      omega
    have hheader : 2 ≤ tpb.controlLength := by
      unfold controlLength
      split_ifs <;> omega
    have hroom := hacc.2.2 horder
    rw [CyclicBuffer.cbFreeSpace, hempty] at hroom
    omega
  · exact hpos

theorem Reachable.encapsulate {tpb : TPBuffer} (h : Reachable tpb) {data : List CChar}
    {order : ℤ} (hacc : Accepted tpb data order) (third : ℕ) :
    let k := tunnelFormat.fitting (tpb.payloadSpace order) data
    ∃ tpb', tpbEncapsulate tpb data order (counted data third) = some (k, tpb') ∧
      tpb'.buffer.contents = tpb.buffer.contents ++
        (if order = tpb.order then [] else header tpb.order order) ++
        (tunnelFormat.encode (data.take k)).take k := by
  obtain ⟨hcontents, hsize, hspace⟩ := opened_spec hacc
  have hpos : 0 < (tpb.opened order).buffer.size := hsize ▸ h.size_pos hacc
  rw [tpbEncapsulate_accepted hacc, ← hspace, ← hcontents]
  exact encapsulateRounds_counted hpos data third

/-! ### The payload that is put -/

/-- A call that is accepted appends the header and the quoted bytes of as much of the
data as it returns. -/
def PayloadRight (tpb : TPBuffer) (data : List CChar) (order : ℤ) (third : ℕ) : Prop :=
  Accepted tpb data order →
    ∃ k tpb', tpbEncapsulate tpb data order (counted data third) = some (k, tpb') ∧
      tpb'.buffer.contents = tpb.buffer.contents ++
        (if order = tpb.order then [] else header tpb.order order) ++
        tunnelFormat.encode (data.take k)

/-- No reserved byte is so far ahead in the data that its escape and the byte itself
have room in the contiguous space. -/
def PlainAhead (tpb : TPBuffer) (data : List CChar) (order : ℤ) : Prop :=
  Accepted tpb data order → ∀ c ∈ data.take (tpb.payloadSpace order - 1), ¬Reserved c

/-- A reserved byte among those that fit is one with room for both of its bytes. -/
theorem plain_fitting_iff (room : ℕ) (data : List CChar) :
    (∀ c ∈ data.take (tunnelFormat.fitting room data), ¬Reserved c) ↔
      ∀ c ∈ data.take (room - 1), ¬Reserved c := by
  induction data generalizing room with
  | nil => simp
  | cons c data ih =>
      by_cases hc : Reserved c
      · rcases room with _ | _ | room
        · simp [fitting_reserved_full hc]
        · simp [fitting_reserved_full hc]
        · simp [fitting_reserved hc, hc]
      · rcases room with _ | _ | room
        · simp [fitting_plain_full hc]
        · have hrest := ih 0
          simp only [Nat.zero_sub, List.take_zero, List.not_mem_nil, false_imp_iff,
            implies_true, iff_true] at hrest
          simpa [fitting_plain hc] using ⟨hc, hrest⟩
        · have hrest := ih (room + 1)
          rw [Nat.add_sub_cancel] at hrest
          rw [fitting_plain hc, Nat.add_sub_assoc (by omega), List.take_succ_cons,
            List.take_succ_cons, List.forall_mem_cons, List.forall_mem_cons, hrest]

/-- As many bytes are written as are taken exactly when all of them are plain. -/
theorem take_encode_iff (data : List CChar) :
    (tunnelFormat.encode data).take data.length = tunnelFormat.encode data ↔
      ∀ c ∈ data, ¬Reserved c := by
  rw [List.take_eq_self_iff, length_encode_reserved]
  rw [show data.length + data.countP (Reserved ·) ≤ data.length ↔
    data.countP (Reserved ·) = 0 by omega, List.countP_eq_zero]
  simp

/-- The payload of an accepted call is put as it should be exactly when the escapes of
its reserved bytes find no room. -/
theorem payloadRight_iff {tpb : TPBuffer} (h : Reachable tpb) (c : CChar) (rest : List CChar)
    (order : ℤ) (third : ℕ) :
    PayloadRight tpb (c :: rest) order third ↔ PlainAhead tpb (c :: rest) order := by
  refine imp_congr_right fun hacc => ?_
  obtain ⟨tpb', hcall, hcontents⟩ := h.encapsulate hacc third
  rw [← plain_fitting_iff, ← take_encode_iff,
    List.length_take_of_le (tunnelFormat.fitting_le _ _)]
  constructor
  · rintro ⟨k, tpb₁, hcall₁, hright⟩
    cases hcall.symm.trans hcall₁
    exact List.append_cancel_left (hcontents.symm.trans hright)
  · intro hplain
    exact ⟨_, tpb', hcall, by rw [hcontents, hplain]⟩

theorem payloadRight_iff_plain :
    Reachable (tpbInit (fun _ => 0) 8) ∧
      (PayloadRight (tpbInit (fun _ => 0) 8) [1, 2] 0 0 ↔
        PlainAhead (tpbInit (fun _ => 0) 8) [1, 2] 0) :=
  have h : Reachable (tpbInit (fun _ => 0) 8) := ⟨_, _, [], rfl⟩
  ⟨h, payloadRight_iff h 1 [2] 0 0⟩

/-- Of a reserved byte only the escape is put. -/
theorem payload_loses_reserved :
    Reachable (tpbInit (fun _ => 0) 8) ∧
      ¬PayloadRight (tpbInit (fun _ => 0) 8) [0x7E] 0 0 := by
  refine ⟨⟨_, _, [], rfl⟩, fun h => ?_⟩
  obtain ⟨k, tpb', hcall, hright⟩ := h (by decide)
  have hresult : (tpbEncapsulate (tpbInit (fun _ => 0) 8) [0x7E] 0 (counted [0x7E] 0)).map
      (fun r => (r.1, r.2.buffer.contents)) = some (1, [0x7E, 0, 0x7D]) := by
    decide
  rw [hcall, Option.map_some, Option.some.injEq, Prod.mk.injEq] at hresult
  obtain ⟨rfl, hbytes⟩ := hresult
  exact absurd (hbytes.symm.trans hright) (by decide)

/-! ### Progress -/

/-- With room for the header and the first byte, a call consumes something. -/
def Progress (tpb : TPBuffer) (data : List CChar) (order : ℤ) (third : ℕ) : Prop :=
  0 ≤ order → order ≤ tpbMaxOrder →
    tpb.headerLength order + (tunnelFormat.encode (data.take 1)).length ≤ tpb.buffer.cbFreeSpace →
    ∃ k tpb', tpbEncapsulate tpb data order (counted data third) = some (k, tpb') ∧ 0 < k

/-- The first byte finds this room in one piece. -/
def RoomInOnePiece (tpb : TPBuffer) (data : List CChar) (order : ℤ) : Prop :=
  0 ≤ order → order ≤ tpbMaxOrder →
    tpb.headerLength order + (tunnelFormat.encode (data.take 1)).length ≤ tpb.buffer.cbFreeSpace →
    (tunnelFormat.encode (data.take 1)).length ≤ tpb.payloadSpace order

/-- A call with enough room gets on exactly when the room for the first byte does not
lie at the front of the storage, or around its end. -/
theorem progress_iff {tpb : TPBuffer} (h : Reachable tpb) (c : CChar) (rest : List CChar)
    (order : ℤ) (third : ℕ) :
    Progress tpb (c :: rest) order third ↔ RoomInOnePiece tpb (c :: rest) order := by
  refine imp_congr_right fun hlow => imp_congr_right fun hhigh => imp_congr_right fun hroom => ?_
  have hacc : Accepted tpb (c :: rest) order := by
    refine ⟨hlow, hhigh, fun horder => ?_⟩
    rwa [headerLength, if_pos horder, Nat.add_comm] at hroom
  obtain ⟨tpb', hcall, -⟩ := h.encapsulate hacc third
  have hone : 1 ≤ (c :: rest).length := Nat.succ_le_succ (Nat.zero_le _)
  rw [← tunnelFormat.le_fitting_iff hone]
  constructor
  · rintro ⟨k, tpb₁, hcall₁, hpos⟩
    cases hcall.symm.trans hcall₁
    exact hpos
  · exact fun hpos => ⟨_, tpb', hcall, hpos⟩

theorem progress_iff_behind :
    Reachable (tpbInit (fun _ => 0) 8) ∧
      (Progress (tpbInit (fun _ => 0) 8) [1, 2] 0 0 ↔
        RoomInOnePiece (tpbInit (fun _ => 0) 8) [1, 2] 0) :=
  have h : Reachable (tpbInit (fun _ => 0) 8) := ⟨_, _, [], rfl⟩
  ⟨h, progress_iff h 1 [2] 0 0⟩

/-- The header ends where the storage ends: the whole of the room is at its front, and
the call puts nothing. -/
theorem no_progress_at_end :
    ∃ tpb, Reachable tpb ∧ ¬Progress tpb [1] 0 0 := by
  obtain ⟨tpb, hrun⟩ : ∃ tpb, run tunnelStep (tpbInit (fun _ => 0) 7)
      [.contolMessage clientAdd 0, .send (some 4)] = some tpb := ⟨_, rfl⟩
  have hroom : (run tunnelStep (tpbInit (fun _ => 0) 7)
      [.contolMessage clientAdd 0, .send (some 4)]).map (fun tpb => decide
        (tpb.headerLength 0 + (tunnelFormat.encode [1]).length ≤ tpb.buffer.cbFreeSpace)) =
      some true := by
    decide
  have hzero : ((run tunnelStep (tpbInit (fun _ => 0) 7)
      [.contolMessage clientAdd 0, .send (some 4)]).bind fun tpb =>
        tpbEncapsulate tpb [1] 0 (counted [1] 0)).map Prod.fst = some 0 := by
    decide
  rw [hrun] at hroom hzero
  refine ⟨tpb, ⟨_, _, _, hrun⟩, fun h => ?_⟩
  obtain ⟨k, tpb', hcall, hpos⟩ :=
    h (by decide) (by decide) (of_decide_eq_true (Option.some.inj hroom))
  rw [Option.bind_some, hcall] at hzero
  cases hzero
  exact absurd hpos (by decide)

end TPBuffer

end UnixLabs.Lab34
