import UnixLabs.Lab34.Sender
import Mathlib.Data.Nat.ModEq

/-!
`next_message_client` of `lab34/lab34-sender.c`: whose turn it is.

The positions take turns in their cyclic order from a first one on. The loop asks all
but the last of them and a test behind the loop asks the last, so that the answer is
the first position in that order with bytes to send.
-/

namespace UnixLabs.Lab34

open Library

/-- The position that has turn `d` when `start` has the first one. -/
def turnFrom (count start d : ℕ) : ℕ := (start + d) % count

theorem turnFrom_lt {count : ℕ} (hcount : 0 < count) (start d : ℕ) :
    turnFrom count start d < count := Nat.mod_lt _ hcount

theorem turnFrom_zero {count start : ℕ} (h : start < count) : turnFrom count start 0 = start :=
  Nat.mod_eq_of_lt h

theorem turnFrom_inj {count start d e : ℕ} (hd : d < count) (he : e < count)
    (h : turnFrom count start d = turnFrom count start e) : d = e := by
  have hmod : d ≡ e [MOD count] := Nat.ModEq.add_left_cancel' start h
  rwa [Nat.ModEq, Nat.mod_eq_of_lt hd, Nat.mod_eq_of_lt he] at hmod

theorem turnFrom_succ (count start d : ℕ) :
    (turnFrom count start d + 1) % count = turnFrom count start (d + 1) := by
  rw [turnFrom, turnFrom, Nat.mod_add_mod, Nat.add_assoc]

theorem exists_turnFrom {count start k : ℕ} (hstart : start < count) (hk : k < count) :
    ∃ d < count, turnFrom count start d = k := by
  by_cases hle : start ≤ k
  · refine ⟨k - start, by omega, ?_⟩
    rw [turnFrom, Nat.add_sub_cancel' hle, Nat.mod_eq_of_lt hk]
  · refine ⟨count - start + k, by omega, ?_⟩
    rw [turnFrom, show start + (count - start + k) = k + count by omega, Nat.add_mod_right,
      Nat.mod_eq_of_lt hk]

theorem turnFrom_last {count start : ℕ} (h : start < count) :
    (if start ≥ 1 then (start - 1) % count else count - 1) = turnFrom count start (count - 1) := by
  unfold turnFrom
  split_ifs with hone
  · rw [show start + (count - 1) = start - 1 + count by omega, Nat.add_mod_right]
  · rw [show start + (count - 1) = count - 1 by omega, Nat.mod_eq_of_lt (by omega)]

/-! ### The search -/

structure Searchable (ts : TunnelServer) : Prop where
  count_le : ts.clientCount ≤ maxClients
  position : ∀ k < ts.clientCount, ∃ id : ℕ, id < maxClients ∧ ts.idTable.cells k = id

def emptyAt (ts : TunnelServer) (k : ℕ) : Bool :=
  (ts.clientBuffers.cells (ts.idTable.cells k).toNat).cbEmpty

namespace Searchable

variable {ts : TunnelServer}

theorem load_emptyAt (h : Searchable ts) {k : ℕ} (hk : k < ts.clientCount) :
    ∃ id buffer, ts.idTable.load k = some id ∧ ts.clientBuffers.load id = some buffer ∧
      buffer.cbEmpty = emptyAt ts k := by
  obtain ⟨id, hlt, hcell⟩ := h.position k hk
  refine ⟨id, ts.clientBuffers.cells id, ?_, ts.clientBuffers.load_of_lt hlt, ?_⟩
  · rw [ts.idTable.load_of_lt (hk.trans_le h.count_le), hcell]
  · rw [emptyAt, hcell, Int.toNat_natCast]

/-- The loop stops at the first turn with bytes to send, and at the last turn. -/
theorem searchFrom_turns (h : Searchable ts) (start fuel : ℕ) {d : ℕ} (hd : d < ts.clientCount)
    (hfuel : ts.clientCount ≤ d + fuel) :
    ∃ e, d ≤ e ∧ e < ts.clientCount ∧
      searchFrom ts (turnFrom ts.clientCount start (ts.clientCount - 1)) fuel
        (turnFrom ts.clientCount start d) = some (turnFrom ts.clientCount start e) ∧
      (∀ j, d ≤ j → j < e → emptyAt ts (turnFrom ts.clientCount start j) = true) ∧
      (e ≠ ts.clientCount - 1 → emptyAt ts (turnFrom ts.clientCount start e) = false) := by
  induction fuel generalizing d with
  | zero => omega
  | succ fuel ih =>
      obtain ⟨id, buffer, hid, hbuffer, hempty⟩ :=
        h.load_emptyAt (turnFrom_lt (by omega) start d : _ < ts.clientCount)
      simp only [searchFrom, hid, hbuffer, hempty, Option.bind_eq_bind, Option.bind_some,
        turnFrom_succ]
      by_cases hlast : d = ts.clientCount - 1
      · subst hlast
        exact ⟨_, le_rfl, hd, if_pos rfl, by omega, fun hne => absurd rfl hne⟩
      have hne : turnFrom ts.clientCount start d ≠
          turnFrom ts.clientCount start (ts.clientCount - 1) :=
        fun heq => hlast (turnFrom_inj hd (by omega) heq)
      rw [if_neg hne]
      cases hbytes : emptyAt ts (turnFrom ts.clientCount start d) with
      | false => exact ⟨d, le_rfl, hd, rfl, by omega, fun _ => hbytes⟩
      | true =>
          obtain ⟨e, hle, he, hsearch, hbefore, hstop⟩ := ih (d := d + 1) (by omega) (by omega)
          refine ⟨e, by omega, he, by simpa using hsearch, fun j hj hje => ?_, hstop⟩
          rcases Nat.eq_or_lt_of_le hj with rfl | hlt
          · exact hbytes
          · exact hbefore j hlt hje

end Searchable

/-! ### The answer -/

/-- There is no answer when nobody has bytes to send. Otherwise it is the first
position with bytes to send, when `start` has the first turn. -/
structure FirstReady (ts : TunnelServer) (start : ℕ) (order : ℤ) : Prop where
  none_iff : order = noOrder ↔ ∀ k < ts.clientCount, emptyAt ts k = true
  first : order ≠ noOrder → ∃ d < ts.clientCount,
    order = (turnFrom ts.clientCount start d : ℕ) ∧
    emptyAt ts (turnFrom ts.clientCount start d) = false ∧
    ∀ e < d, emptyAt ts (turnFrom ts.clientCount start e) = true

theorem natCast_ne_noOrder (k : ℕ) : (k : ℤ) ≠ noOrder := by
  unfold noOrder
  omega

/-- Whatever position the code starts from, it answers with the first one ready. -/
theorem Searchable.nextMessageClient {ts : TunnelServer} (h : Searchable ts)
    (hcount : 0 < ts.clientCount) {previous : ℤ} {start : ℕ} (hlt : start < ts.clientCount)
    (hstart : (if previous = noOrder then 0
      else sizeT (intOf (previous + 1)) % ts.clientCount) = start) :
    ∃ order, Lab34.nextMessageClient ts previous = some order ∧ FirstReady ts start order := by
  obtain ⟨e, -, he, hsearch, hbefore, hstop⟩ :=
    h.searchFrom_turns start ts.clientCount hcount (by omega)
  rw [turnFrom_zero hlt] at hsearch
  obtain ⟨id, buffer, hid, hbuffer, hempty⟩ := h.load_emptyAt (turnFrom_lt hcount start e)
  simp only [Lab34.nextMessageClient, hcount.ne', if_false, hstart, turnFrom_last hlt, hsearch,
    hid, hbuffer, hempty, Option.bind_eq_bind, Option.bind_some]
  by_cases hnone : emptyAt ts (turnFrom ts.clientCount start e) = true
  · -- only the last turn is answered without bytes
    have hlast : e = ts.clientCount - 1 := by
      by_contra hne
      rw [hstop hne] at hnone
      cases hnone
    refine ⟨noOrder, if_pos ⟨by rw [hlast], hnone⟩, ⟨fun _ k hk => ?_, fun _ => rfl⟩,
      fun hne => absurd rfl hne⟩
    obtain ⟨d, hd, rfl⟩ := exists_turnFrom hlt hk
    by_cases hde : d = e
    · rwa [hde]
    · exact hbefore d (Nat.zero_le d) (by omega)
  · refine ⟨_, if_neg fun hboth => hnone hboth.2, ⟨fun heq => ?_, fun hall => ?_⟩, fun _ => ?_⟩
    · exact absurd heq (natCast_ne_noOrder _)
    · exact absurd (hall _ (turnFrom_lt hcount start e)) hnone
    · exact ⟨e, he, rfl, by simpa using hnone, fun j hj => hbefore j (Nat.zero_le j) hj⟩

theorem Searchable.nextMessageClient_any {ts : TunnelServer} (h : Searchable ts)
    (hcount : 0 < ts.clientCount) (previous : ℤ) :
    ∃ order, Lab34.nextMessageClient ts previous = some order ∧
      (order = noOrder ↔ ∀ k < ts.clientCount, emptyAt ts k = true) ∧
      (order ≠ noOrder → ∃ k < ts.clientCount, order = (k : ℕ) ∧ emptyAt ts k = false) := by
  have hstart : (if previous = noOrder then 0
      else sizeT (intOf (previous + 1)) % ts.clientCount) < ts.clientCount := by
    split_ifs
    · exact hcount
    · exact Nat.mod_lt _ hcount
  obtain ⟨order, hnext, hfirst⟩ := h.nextMessageClient hcount hstart rfl
  refine ⟨order, hnext, hfirst.none_iff, fun hne => ?_⟩
  obtain ⟨d, -, horder, hready, -⟩ := hfirst.first hne
  exact ⟨_, turnFrom_lt hcount _ d, horder, hready⟩

def firstTurn (count : ℕ) (previous : ℤ) : ℕ :=
  if previous = noOrder then 0 else (previous + 1).toNat % count

/-- The clients take turns from the one after `previous` on: every position has a
turn, the last is that of `previous`, and the first client that is ready is chosen. -/
structure RoundRobin (ts : TunnelServer) (previous : ℤ) : Prop where
  chosen : ∃ order, nextMessageClient ts previous = some order ∧
    FirstReady ts (firstTurn ts.clientCount previous) order
  every : ∀ k < ts.clientCount, ∃ d < ts.clientCount,
    turnFrom ts.clientCount (firstTurn ts.clientCount previous) d = k
  last : previous ≠ noOrder → turnFrom ts.clientCount (firstTurn ts.clientCount previous)
    (ts.clientCount - 1) = previous.toNat % ts.clientCount

/-- `next_message_client` is round-robin, as long as `previous + 1` is an `int`. -/
theorem nextMessageClient_roundRobin {ts : TunnelServer} (h : Searchable ts)
    (hcount : 0 < ts.clientCount) {previous : ℤ}
    (hprevious : previous = noOrder ∨ 0 ≤ previous ∧ previous < intMax) :
    RoundRobin ts previous := by
  have hlt : firstTurn ts.clientCount previous < ts.clientCount := by
    unfold firstTurn
    split_ifs
    · exact hcount
    · exact Nat.mod_lt _ hcount
  refine ⟨h.nextMessageClient hcount hlt ?_, fun k hk => exists_turnFrom hlt hk, fun hne => ?_⟩
  · unfold firstTurn
    split_ifs with hnone
    · rfl
    · obtain ⟨hzero, hmax⟩ := hprevious.resolve_left hnone
      obtain ⟨p, rfl⟩ := Int.eq_ofNat_of_zero_le hzero
      rw [intOf_of_le (by omega) (by omega), ← Nat.cast_succ, Int.toNat_natCast,
        sizeT_natCast (by unfold intMax at hmax; omega)]
  · obtain ⟨hzero, -⟩ := hprevious.resolve_left hne
    obtain ⟨p, rfl⟩ := Int.eq_ofNat_of_zero_le hzero
    rw [firstTurn, if_neg hne, turnFrom, Nat.mod_add_mod, ← Nat.cast_succ, Int.toNat_natCast,
      Int.toNat_natCast, show p.succ + (ts.clientCount - 1) = p + ts.clientCount by omega,
      Nat.add_mod_right]

def crowded : TunnelServer :=
  { builtTserver (builtServer 3 4) (fun _ => 0) (fun _ => 0) with
    clientCount := 7
    idTable := ⟨fun k => k⟩
    clientBuffers := CArray.fill maxClients
      ((CyclicBuffer.cbInit (fun _ => 0) bufferSize).cbPutc 1).2 }

theorem searchable_crowded : Searchable crowded where
  count_le := by decide
  position := fun k hk => ⟨k, hk.trans (by decide), rfl⟩

theorem nextMessageClient_roundRobin_crowded :
    Searchable crowded ∧ 0 < crowded.clientCount ∧ RoundRobin crowded 6 :=
  ⟨searchable_crowded, by decide,
    nextMessageClient_roundRobin searchable_crowded (by decide) (.inr (by decide))⟩

/-- The sum wraps around to a negative number, which is another residue as a
`size_t`. -/
theorem nextMessageClient_overflow : Searchable crowded ∧ 0 < crowded.clientCount ∧
    0 ≤ intMax ∧ ¬RoundRobin crowded intMax := by
  refine ⟨searchable_crowded, by decide, by decide, fun h => ?_⟩
  obtain ⟨order, hnext, hfirst⟩ := h.chosen
  have hzero : nextMessageClient crowded intMax = some 0 := by decide +kernel
  cases hnext.symm.trans hzero
  obtain ⟨d, hd, horder, -, hbefore⟩ := hfirst.first (by decide)
  -- the position after `INT_MAX` is 2, and it is ready
  have hready : emptyAt crowded (turnFrom 7 (firstTurn 7 intMax) 0) = false := by decide
  cases d with
  | zero => exact absurd horder (by decide)
  | succ d =>
      have hempty := hbefore 0 d.succ_pos
      exact absurd (hready.symm.trans hempty) Bool.false_ne_true

end UnixLabs.Lab34
