import UnixLabs.Lab34.SenderMoves
import UnixLabs.Lab34.SenderSteps

/-!
The turns that `fill_message` of `lab34/lab34-sender.c` gives over all rounds.

`next_message_client` looks for the next client behind the last one, and a client with
bytes to send keeps them until its turn comes. So every turn of another client brings it
nearer, and while nobody comes or goes it waits for fewer turns than there are clients.
-/

namespace UnixLabs.Lab34

open Library

/-! ### The turns before a position -/

/-- How many turns come before that of position `k`, when `start` has the first one. -/
def turnsBefore (count start k : ℕ) : ℕ := (k + count - start) % count

section Turns

variable {count start k d : ℕ}

theorem turnsBefore_lt (hcount : 0 < count) : turnsBefore count start k < count :=
  Nat.mod_lt _ hcount

theorem turnFrom_turnsBefore (hstart : start < count) (hk : k < count) :
    turnFrom count start (turnsBefore count start k) = k := by
  rw [turnFrom, turnsBefore, Nat.add_mod_mod, Nat.add_sub_cancel' (by omega), Nat.add_mod_right,
    Nat.mod_eq_of_lt hk]

theorem turnsBefore_turnFrom (hstart : start < count) (hd : d < count) :
    turnsBefore count start (turnFrom count start d) = d := by
  have hlt := turnFrom_lt (show 0 < count by omega) start d
  apply turnFrom_inj (turnsBefore_lt (show 0 < count by omega)) hd
  exact turnFrom_turnsBefore hstart hlt

/-- When a position in front of `k` has had its turn, the next one has the first turn. -/
theorem turnsBefore_next (hstart : start < count) (hk : k < count)
    (hd : d < turnsBefore count start k) :
    turnsBefore count ((turnFrom count start d + 1) % count) k + d + 1 =
      turnsBefore count start k := by
  obtain ⟨e, he⟩ := Nat.exists_eq_add_of_lt hd
  have hlt : turnsBefore count start k < count := turnsBefore_lt (by omega)
  have hsame : turnFrom count ((turnFrom count start d + 1) % count) e = k := by
    calc turnFrom count ((turnFrom count start d + 1) % count) e
        = turnFrom count start (d + 1 + e) := by
          rw [turnFrom_succ, turnFrom, turnFrom, Nat.mod_add_mod, turnFrom, Nat.add_assoc]
      _ = turnFrom count start (turnsBefore count start k) := by
          rw [he]
          congr 1
          omega
      _ = k := turnFrom_turnsBefore hstart hk
  have hback : turnsBefore count ((turnFrom count start d + 1) % count) _ = e :=
    turnsBefore_turnFrom (Nat.mod_lt _ (by omega)) (show e < count by omega)
  rw [hsame] at hback
  omega

end Turns

/-! ### The steps that give turns -/

def turnOf (s : Sender) : Option ℕ :=
  match s.place with
  | .send =>
      if s.ts.sendOrder = noOrder ∨ s.ts.sendCount = 0 then do
        let order ← nextMessageClient s.ts s.ts.sendOrder
        if order = noOrder then none else (s.ts.idTable.load order).map Int.toNat
      else none
  | _ => none

section Step

variable {ts ts' : TunnelServer} {messageLength : ℕ → ℕ} {consumed : Option (ℤ × List CChar)}
  {again : Bool}

theorem sendChunk_others {id : ℤ} (hload : ts.idTable.load ts.sendOrder = some id)
    (h : sendChunk ts messageLength = some (consumed, again, ts')) {j : ℕ} (hj : j ≠ id.toNat) :
    ts'.clientBuffers.cells j = ts.clientBuffers.cells j := by
  simp only [sendChunk, hload, Option.bind_eq_bind, Option.bind_some, Option.bind_eq_some_iff] at h
  obtain ⟨dataBuf, -, h⟩ := h
  generalize (if ts.sendCount = 0 then dataBuf.count else ts.sendCount) = c at h
  split_ifs at h with hzero
  · cases h
    rfl
  · simp only [Option.bind_eq_some_iff] at h
    obtain ⟨data, -, ⟨count, tunnelTpb⟩, -, dataBuf', -, clientBuffers, hstore, h⟩ := h
    cases h
    obtain ⟨hzero, -⟩ := CArray.lt_of_store hstore
    lift id to ℕ using hzero
    show clientBuffers.cells j = ts.clientBuffers.cells j
    rw [CArray.cells_of_store hstore]
    exact Function.update_of_ne hj _ _

/-- An iteration goes on with the chunk that is under way, or finds nobody, or begins the chunk
of the client it finds. -/
theorem sendOnce_turn (h : sendOnce ts messageLength = some (consumed, again, ts')) :
    (turnOf ⟨ts, .send⟩ = none ∧ ts'.sendOrder = ts.sendOrder) ∨
    (turnOf ⟨ts, .send⟩ = none ∧ nextMessageClient ts ts.sendOrder = some noOrder ∧
      ts' = { ts with sendOrder := noOrder }) ∨
    ∃ order id, turnOf ⟨ts, .send⟩ = some id.toNat ∧ order ≠ noOrder ∧
      nextMessageClient ts ts.sendOrder = some order ∧ ts.idTable.load order = some id ∧
      ts'.sendOrder = order ∧
      ∀ j, j ≠ id.toNat → ts'.clientBuffers.cells j = ts.clientBuffers.cells j := by
  unfold sendOnce at h
  split_ifs at h with hchoose
  · simp only [Option.bind_eq_bind, Option.bind_eq_some_iff] at h
    obtain ⟨order, hnext, h⟩ := h
    have hturn : turnOf ⟨ts, .send⟩ =
        if order = noOrder then none else (ts.idTable.load order).map Int.toNat := by
      simp only [turnOf, if_pos hchoose, hnext, Option.bind_eq_bind, Option.bind_some]
    split_ifs at h with hnone
    · cases h
      subst hnone
      exact .inr (.inl ⟨hturn.trans (if_pos rfl), hnext, rfl⟩)
    · rw [if_neg hnone] at hturn
      obtain ⟨id, hload⟩ : ∃ id, ts.idTable.load order = some id := by
        simp only [sendChunk, Option.bind_eq_bind, Option.bind_eq_some_iff] at h
        obtain ⟨id, hload, -⟩ := h
        exact ⟨id, hload⟩
      obtain ⟨_, _, _, hfields⟩ := sendChunk_cases h
      refine .inr (.inr ⟨order, id, by rw [hturn, hload]; rfl, hnone, hnext, hload, ?_, ?_⟩)
      · rw [hfields]
      · exact fun j hj => sendChunk_others (by exact hload) h hj
  · obtain ⟨_, _, _, hfields⟩ := sendChunk_cases h
    refine .inl ⟨if_neg hchoose, ?_⟩
    rw [hfields]

end Step

theorem sendOrder_senderStep {s s' : Sender} {answers : Answers} {happening : Option Happening}
    (hstep : senderStep s answers = some (happening, s')) (hplace : s.place ≠ .send) :
    s'.ts.sendOrder = s.ts.sendOrder := by
  apply senderStep_rel (R := fun ts ts' => ts'.sendOrder = ts.sendOrder) hstep
  · exact fun _ => rfl
  · exact fun _ _ => rfl
  · intro ts ts' fd clientJunk tunnelJunk id hadd
    obtain ⟨_, -, ⟨-, rfl⟩ | ⟨-, _, _, _, _, -, rfl⟩⟩ := tsAddClient_cases hadd
    · rfl
    · rfl
  · intro ts ts' i processed input received processed' hio
    obtain ⟨_, _, -, -, -, ⟨-, -, rfl⟩ | ⟨-, _, rfl | hremove⟩⟩ := performClientIoAt_cases hio
    · rfl
    · rfl
    · obtain ⟨_, _, _, -, rfl⟩ := tsRemoveClient_cases hremove
      rfl
  · intro ts ts' i turn hiter
    obtain ⟨_, rfl | ⟨_, _, hremove⟩⟩ := processEmptyRemovedAt_cases hiter
    · rfl
    · obtain ⟨_, _, _, _, _, -, rfl⟩ := tsActualRemove_cases hremove
      rfl
  · intro ts ts' turn honce
    obtain ⟨_, _, rfl⟩ := processAddedOnce_cases honce
    rfl
  · exact fun ts ts' messageLength consumed again hsend _ => absurd hsend hplace
  · intro ts ts' written honce
    obtain ⟨_, _, _, -, rfl⟩ := tunnelOnce_cases honce
    rfl

/-! ### The turns of others -/

/-- How often each client was passed over. A client that has nothing to send does not wait, and
one that gets its turn has waited. -/
def passedAfter (passed : ℕ → ℕ) (waits : ℕ → Bool) (turn : Option ℕ) (id : ℕ) : ℕ :=
  if waits id = false then 0
  else match turn with
    | none => passed id
    | some j => if j = id then 0 else passed id + 1

def Happening.changesClients : Happening → Bool
  | .accepted _ | .released _ => true
  | _ => false

/-- The sender, and for each client how many turns others were given since it has bytes to send,
since its own last turn, and since a client came or went. -/
structure TurnWorld where
  sender : Sender
  passed : ℕ → ℕ

namespace TurnWorld

def start (listenFd tunnelFd : ℤ) (tpbJunk queueJunk : ℕ → CChar) : TurnWorld :=
  ⟨Sender.start listenFd tunnelFd tpbJunk queueJunk, fun _ => 0⟩

def step (w : TurnWorld) (answers : Answers) : Option TurnWorld :=
  (senderStep w.sender answers).map fun (happening, sender) =>
    ⟨sender,
      if happening.any Happening.changesClients then fun _ => 0
      else passedAfter w.passed (fun id => !(sender.ts.clientBuffers.cells id).cbEmpty)
        (turnOf w.sender)⟩

/-- No client was passed over as often as there are clients. -/
def Fair (w : TurnWorld) : Prop :=
  ∀ k < w.sender.ts.clientCount, ∀ id : ℕ, w.sender.ts.idTable.cells k = id →
    w.passed id < w.sender.ts.clientCount

/-- The turns that a client has waited for and those it waits for are fewer than the clients. -/
def Waits (w : TurnWorld) (ids : List ℕ) : Prop :=
  ∀ k (hk : k < ids.length), w.passed ids[k] +
    turnsBefore ids.length (firstTurn ids.length w.sender.ts.sendOrder) k < ids.length

structure InOrder (w : TurnWorld) (ids : List ℕ) : Prop where
  steady : Steady w.sender.ts ids
  order : w.sender.ts.sendOrder = noOrder ∨ ∃ k < maxClients, w.sender.ts.sendOrder = (k : ℕ)
  waits : w.Waits ids

theorem InOrder.start (listenFd tunnelFd : ℤ) (tpbJunk queueJunk : ℕ → CChar) :
    (TurnWorld.start listenFd tunnelFd tpbJunk queueJunk).InOrder [] :=
  ⟨Steady.built listenFd tunnelFd tpbJunk queueJunk, .inr ⟨0, by decide, rfl⟩, nofun⟩

theorem InOrder.fair {w : TurnWorld} {ids : List ℕ} (h : w.InOrder ids) : w.Fair := by
  intro k hk id hid
  rw [h.steady.positions.count] at hk ⊢
  have hcell := (h.steady.positions.position k hk).symm.trans hid
  have hsum := h.waits k hk
  rw [show ids[k] = id by exact_mod_cast hcell] at hsum
  omega

end TurnWorld

/-- The position that `next_message_client` starts from, as the source computes it. -/
theorem firstTurn_eq {count : ℕ} {previous : ℤ}
    (h : previous = noOrder ∨ ∃ k < maxClients, previous = (k : ℕ)) :
    (if previous = noOrder then 0 else sizeT (intOf (previous + 1)) % count) =
      firstTurn count previous := by
  rcases h with rfl | ⟨k, hk, rfl⟩
  · rfl
  · have hle : ((k : ℤ) + 1) ≤ intMax := by unfold maxClients at hk; unfold intMax; omega
    rw [firstTurn, if_neg (natCast_ne_noOrder k), if_neg (natCast_ne_noOrder k),
      intOf_of_le (by omega) hle, ← Nat.cast_succ, Int.toNat_natCast,
      sizeT_natCast (by unfold maxClients at hk; omega)]

theorem firstTurn_lt {count : ℕ} (hcount : 0 < count) (previous : ℤ) :
    firstTurn count previous < count := by
  unfold firstTurn
  split_ifs
  · exact hcount
  · exact Nat.mod_lt _ hcount

/-! ### One step -/

theorem passedAfter_le (passed : ℕ → ℕ) (waits : ℕ → Bool) (id : ℕ) :
    passedAfter passed waits none id ≤ passed id := by
  unfold passedAfter
  split_ifs
  · exact Nat.zero_le _
  · exact le_rfl

namespace TurnWorld

variable {w : TurnWorld} {ids : List ℕ}

theorem InOrder.idle (h : w.InOrder ids) {s' : Sender} (hsteady : Steady s'.ts ids)
    (horder : s'.ts.sendOrder = w.sender.ts.sendOrder) (waits : ℕ → Bool) :
    InOrder ⟨s', passedAfter w.passed waits none⟩ ids := by
  refine ⟨hsteady, horder ▸ h.order, fun k hk => ?_⟩
  have hle := passedAfter_le w.passed waits ids[k]
  have hsum := h.waits k hk
  show passedAfter w.passed waits none ids[k] +
    turnsBefore ids.length (firstTurn ids.length s'.ts.sendOrder) k < ids.length
  rw [horder]
  omega

/-- Nobody waits when a client comes or goes, or when all buffers are empty. -/
theorem inOrder_of_zero {s' : Sender} {passed : ℕ → ℕ} (hsteady : Steady s'.ts ids)
    (horder : s'.ts.sendOrder = noOrder ∨ ∃ k < maxClients, s'.ts.sendOrder = (k : ℕ))
    (hzero : ∀ id ∈ ids, passed id = 0) : InOrder ⟨s', passed⟩ ids := by
  refine ⟨hsteady, horder, fun k hk => ?_⟩
  show passed ids[k] + _ < ids.length
  rw [hzero _ (List.getElem_mem hk), Nat.zero_add]
  exact turnsBefore_lt (Nat.zero_lt_of_lt hk)

theorem InOrder.firstReady (h : w.InOrder ids) (hcount : 0 < w.sender.ts.clientCount) {order : ℤ}
    (hnext : nextMessageClient w.sender.ts w.sender.ts.sendOrder = some order) :
    FirstReady w.sender.ts (firstTurn w.sender.ts.clientCount w.sender.ts.sendOrder) order := by
  obtain ⟨order', hnext', hfirst⟩ := h.steady.searchable.nextMessageClient hcount
    (firstTurn_lt hcount w.sender.ts.sendOrder) (firstTurn_eq h.order)
  obtain rfl := Option.some_inj.mp (hnext'.symm.trans hnext)
  exact hfirst

/-- A client in front of whom no other is ready gets the turn; every other one that has bytes to
send is brought nearer. -/
theorem InOrder.turn (h : w.InOrder ids) {s' : Sender} (hsteady : Steady s'.ts ids) {order id : ℤ}
    (hsome : order ≠ noOrder)
    (hnext : nextMessageClient w.sender.ts w.sender.ts.sendOrder = some order)
    (hload : w.sender.ts.idTable.load order = some id) (horder : s'.ts.sendOrder = order)
    (hothers : ∀ j, j ≠ id.toNat →
      s'.ts.clientBuffers.cells j = w.sender.ts.clientBuffers.cells j) :
    InOrder ⟨s', passedAfter w.passed (fun id => !(s'.ts.clientBuffers.cells id).cbEmpty)
      (some id.toNat)⟩ ids := by
  have hpos := h.steady.positions
  have hcount : 0 < w.sender.ts.clientCount := by
    apply Nat.pos_of_ne_zero
    intro hzero
    rw [Lab34.nextMessageClient, if_pos hzero] at hnext
    exact hsome (Option.some_inj.mp hnext).symm
  obtain ⟨d, hd, horder', -, hbefore⟩ := (h.firstReady hcount hnext).first hsome
  rw [hpos.count] at hcount hd horder' hbefore
  have hstart := firstTurn_lt hcount w.sender.ts.sendOrder
  generalize hk : turnFrom ids.length (firstTurn ids.length w.sender.ts.sendOrder) d = chosen
    at horder'
  have hchosen : chosen < ids.length := hk ▸ turnFrom_lt hcount _ _
  obtain rfl : id = (ids[chosen] : ℤ) := by
    rw [horder', hpos.load_idTable hchosen] at hload
    exact (Option.some_inj.mp hload).symm
  rw [Int.toNat_natCast] at hothers ⊢
  refine ⟨hsteady, .inr ⟨chosen, hchosen.trans_le hpos.length_le, horder.trans horder'⟩,
    fun k hklt => ?_⟩
  show passedAfter w.passed (fun id => !(s'.ts.clientBuffers.cells id).cbEmpty)
      (some ids[chosen]) ids[k] +
    turnsBefore ids.length (firstTurn ids.length s'.ts.sendOrder) k < ids.length
  have hfirst' : firstTurn ids.length s'.ts.sendOrder = (chosen + 1) % ids.length := by
    rw [horder, horder', firstTurn, if_neg (natCast_ne_noOrder _), ← Nat.cast_succ,
      Int.toNat_natCast]
  have hlt : turnsBefore ids.length ((chosen + 1) % ids.length) k < ids.length :=
    turnsBefore_lt hcount
  rw [hfirst', passedAfter]
  split_ifs with hempty hself
  · rwa [Nat.zero_add]
  · rwa [Nat.zero_add]
  · -- the client had bytes to send before the step, too
    rw [hothers _ (Ne.symm hself)] at hempty
    have hmine := turnFrom_turnsBefore hstart hklt
    have hd' : d < turnsBefore ids.length (firstTurn ids.length w.sender.ts.sendOrder) k := by
      by_contra hle
      rcases Nat.lt_or_eq_of_le (Nat.le_of_not_lt hle) with hfront | rfl
      · have hnone := hbefore _ hfront
        rw [hmine, emptyAt, hpos.position k hklt, Int.toNat_natCast] at hnone
        rw [hnone] at hempty
        exact hempty rfl
      · rw [hmine] at hk
        subst hk
        exact hself rfl
    have hnearer := turnsBefore_next hstart hklt hd'
    have hsum := h.waits k hklt
    rw [hk] at hnearer
    omega

theorem InOrder.stay (h : w.InOrder ids) {s' : Sender} {answers : Answers}
    {happening : Option Happening}
    (hstep : senderStep w.sender answers = some (happening, s')) (hsteady : Steady s'.ts ids) :
    InOrder ⟨s', passedAfter w.passed (fun id => !(s'.ts.clientBuffers.cells id).cbEmpty)
      (turnOf w.sender)⟩ ids := by
  rcases ne_or_eq w.sender.place .send with hplace | hplace
  · have hturn : turnOf w.sender = none := by
      unfold turnOf
      split
      · rename_i hsend
        exact absurd hsend hplace
      · rfl
    rw [hturn]
    exact h.idle hsteady (sendOrder_senderStep hstep hplace) _
  obtain ⟨⟨ts, place⟩, passed⟩ := w
  obtain rfl : place = .send := hplace
  cases moves_of_senderStep hstep with
  | @sends consumed again ts' honce =>
      show InOrder ⟨_, passedAfter passed _ (turnOf ⟨ts, .send⟩)⟩ ids
      obtain ⟨hturn, horder⟩ | ⟨hturn, hnext, rfl⟩ |
        ⟨order, id, hturn, hsome, hnext, hload, horder, hothers⟩ := sendOnce_turn honce
      · rw [hturn]
        exact h.idle hsteady horder _
      · -- all buffers are empty
        rw [hturn]
        refine inOrder_of_zero hsteady (.inl rfl) fun id hid => ?_
        obtain ⟨k, hk, rfl⟩ := List.getElem_of_mem hid
        have hempty : (ts.clientBuffers.cells ids[k]).cbEmpty = true := by
          have hpos := h.steady.positions
          have hcount : 0 < ts.clientCount := hpos.count ▸ Nat.zero_lt_of_lt hk
          have hall := (h.firstReady hcount hnext).none_iff.mp rfl k (hpos.count ▸ hk)
          rwa [emptyAt, hpos.position k hk, Int.toNat_natCast] at hall
        rw [passedAfter, if_pos]
        show (!(ts.clientBuffers.cells ids[k]).cbEmpty) = false
        rw [hempty]
        rfl
      · rw [hturn]
        exact h.turn hsteady hsome hnext hload horder hothers

theorem InOrder.change (h : w.InOrder ids) {s' : Sender} {answers : Answers} {ids' : List ℕ}
    {happening : Option Happening}
    (hstep : senderStep w.sender answers = some (happening, s')) (hsteady : Steady s'.ts ids')
    (hchange : happening.any Happening.changesClients = true) :
    InOrder ⟨s', fun _ => 0⟩ ids' := by
  have hplace : w.sender.place ≠ .send := by
    intro hsend
    have hmove := moves_of_senderStep hstep
    rw [hsend] at hmove
    cases hmove with
    | @sends consumed =>
      cases consumed with
      | none | some => cases hchange
  exact inOrder_of_zero hsteady (sendOrder_senderStep hstep hplace ▸ h.order) fun _ _ => rfl

theorem InOrder.step (h : w.InOrder ids) {answers : Answers} (hsafe : StepSafe w.sender answers) :
    ∃ w' ids', TurnWorld.step w answers = some w' ∧ w'.InOrder ids' := by
  obtain ⟨happening, s', ids', hstep, hsteady, heffect⟩ := h.steady.step hsafe
  refine ⟨_, ids', by rw [TurnWorld.step, hstep]; rfl, ?_⟩
  cases heffect with
  | quiet | received | consumed | announced => exact h.stay hstep hsteady
  | accepted => exact h.change hstep hsteady rfl
  | released => exact h.change hstep hsteady rfl

end TurnWorld

namespace Answers

def twoSend : List Answers :=
  [polls [pollListenerIndex], accepts 10] ++ List.replicate 7 quiet ++
  [polls [pollListenerIndex], accepts 11] ++ List.replicate 8 quiet ++
  [polls [2, 3], quiet, reads [120], reads [121]] ++ List.replicate 9 quiet

end Answers

namespace TurnWorld

/-- In every safe run, while nobody comes or goes, others are given fewer turns than there are
clients before a client that has bytes to send is given one. -/
theorem turns_fair (listenFd tunnelFd : ℤ) (tpbJunk queueJunk : ℕ → CChar)
    (answers : List Answers)
    (hsafe : RunMeets (fun w answers => StepSafe w.sender answers) TurnWorld.step
      (TurnWorld.start listenFd tunnelFd tpbJunk queueJunk) answers) :
    RunKeeps TurnWorld.Fair TurnWorld.step
      (TurnWorld.start listenFd tunnelFd tpbJunk queueJunk) answers :=
  runKeeps_of_meets (I := fun w : TurnWorld => ∃ ids, w.InOrder ids)
    (fun _ ⟨_, h⟩ => h.fair)
    (fun _ _ ⟨_, h⟩ hsafe => by
      obtain ⟨w', ids', hstep, h'⟩ := h.step hsafe
      exact ⟨w', hstep, ids', h'⟩)
    ⟨[], InOrder.start listenFd tunnelFd tpbJunk queueJunk⟩ hsafe

theorem turns_fair_two :
    RunMeets (fun w answers => StepSafe w.sender answers) TurnWorld.step
        (TurnWorld.start 3 4 (fun _ => 0) (fun _ => 0)) Answers.twoSend ∧
      RunKeeps TurnWorld.Fair TurnWorld.step
        (TurnWorld.start 3 4 (fun _ => 0) (fun _ => 0)) Answers.twoSend := by
  have hsafe : RunMeets (fun w answers => StepSafe w.sender answers) TurnWorld.step
      (TurnWorld.start 3 4 (fun _ => 0) (fun _ => 0)) Answers.twoSend := by
    decide +kernel
  exact ⟨hsafe, turns_fair 3 4 (fun _ => 0) (fun _ => 0) Answers.twoSend hsafe⟩

end TurnWorld

end UnixLabs.Lab34
