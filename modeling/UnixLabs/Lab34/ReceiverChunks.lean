import UnixLabs.Lab34.MessageReceiver

/-!
The decoder and the cuts of its input.

A caller appends a chunk to the receiver's buffer, drains the buffer and goes on
with the next chunk. What it is delivered, and the state it leaves the receiver
in, is what the mode makes of all the bytes in a row.
-/

namespace UnixLabs.Lab34

open Library

namespace MessageReceiver

def Mode.OrderKnown (m : Mode) : Prop := m.orderGot = true → m.order.toInt ≠ mrNoOrder

theorem Mode.OrderKnown.feed {m : Mode} (h : m.OrderKnown) (c : CChar) :
    (m.feed c).1.OrderKnown := by
  have htake : ∀ m' : Mode, m'.orderGot = false → (m'.takeOrder c).OrderKnown := by
    intro m' hgot
    unfold Mode.takeOrder
    split_ifs with hc
    · exact fun h' => absurd h' (by rw [hgot]; decide)
    · exact fun _ he => hc (.inr he)
  unfold Mode.feed
  cases hgot : m.orderGot with
  | true =>
      have horder : m.order.toInt ≠ mrNoOrder := h hgot
      simp only [Bool.not_true, Bool.false_and, Bool.false_eq_true, if_false, if_true]
      split_ifs <;> simp_all [Mode.OrderKnown]
  | false =>
      simp only [Bool.not_false, Bool.true_and, Bool.false_eq_true, if_false]
      split_ifs
      · simp [Mode.OrderKnown]
      · exact htake _ rfl
      · simp [Mode.OrderKnown]
      · simp [Mode.OrderKnown]
      · simp [Mode.OrderKnown, hgot]
      · exact htake _ hgot

theorem Mode.OrderKnown.feeds {m : Mode} (h : m.OrderKnown) (cs : List CChar) :
    (m.feeds cs).1.OrderKnown := by
  induction cs generalizing m with
  | nil => exact h
  | cons c cs ih => exact ih (h.feed c)

theorem Consumes.orderKnown {mr mr' : MessageReceiver} {bytes : List CChar}
    {ds : List (ℤ × CChar)} (h : Consumes mr bytes ds mr') (hmr : mr.mode.OrderKnown) :
    mr'.mode.OrderKnown := by
  have := hmr.feeds bytes
  rwa [h.feeds] at this

/-! ### Draining -/

/-- Passes over the buffer until it is empty. Each takes a byte at least, so the
number of bytes in the buffer is fuel enough. -/
def drain (passes : ℕ → Pass) : ℕ → MessageReceiver → List (ℤ × CChar) × MessageReceiver
  | 0, mr => ([], mr)
  | fuel + 1, mr =>
      if mrEmpty mr then ([], mr)
      else
        let (ds, mr) := pass mr (passes 0)
        let (ds', mr) := drain (fun i => passes (i + 1)) fuel mr
        (ds ++ ds', mr)

structure Chunk where
  bytes : List CChar
  passes : ℕ → Pass
  count_pos : ∀ i, 0 < (passes i).count

def receive (mr : MessageReceiver) : List Chunk → List (ℤ × CChar) × MessageReceiver
  | [] => ([], mr)
  | c :: cs =>
      let mr := { mr with message := (mr.message.iobPuts c.bytes).2 }
      let (ds, mr) := drain c.passes mr.message.count mr
      let (ds', mr) := receive mr cs
      (ds ++ ds', mr)

theorem drain_spec {passes : ℕ → Pass} (hpos : ∀ i, 0 < (passes i).count) (fuel : ℕ)
    (mr : MessageReceiver) (hknown : mr.mode.OrderKnown)
    (hfuel : mr.message.contents.length ≤ fuel) :
    Consumes mr mr.message.contents (drain passes fuel mr).1 (drain passes fuel mr).2 ∧
      (drain passes fuel mr).2.message.contents = [] := by
  induction fuel generalizing passes mr with
  | zero =>
      have hnil : mr.message.contents = [] := List.length_eq_zero_iff.mp (by omega)
      rw [hnil]
      exact ⟨Consumes.refl mr, hnil⟩
  | succ fuel ih =>
      by_cases hempty : mrEmpty mr = true
      · have hnil := IOBuffer.iobEmpty_iff.mp hempty
        simp only [drain, hempty, if_true]
        rw [hnil]
        exact ⟨Consumes.refl mr, rfl⟩
      · obtain ⟨bytes, hpass, hprogress⟩ := pass_spec mr (passes 0)
        have hmoved : bytes ≠ [] := hprogress (hpos 0) hknown
          fun hnil => hempty (IOBuffer.iobEmpty_iff.mpr hnil)
        have hlen := congrArg List.length hpass.contents
        have hbytes := List.length_pos_iff.mpr hmoved
        rw [List.length_append] at hlen
        obtain ⟨hrest, hnil⟩ := ih (fun i => hpos (i + 1)) _ (hpass.orderKnown hknown) (by omega)
        simp only [drain, hempty, if_false, Bool.false_eq_true]
        refine ⟨?_, hnil⟩
        have := hpass.trans hrest
        rwa [← hpass.contents] at this

/-- However the bytes are cut, an empty receiver ends empty, in the mode of all
the bytes in a row and with their deliveries. -/
theorem receive_spec (mr : MessageReceiver) (cs : List Chunk) (hknown : mr.mode.OrderKnown)
    (hempty : mr.message.contents = [])
    (hfit : ∀ c ∈ cs, c.bytes.length ≤ mr.message.size) :
    mr.mode.feeds (cs.flatMap Chunk.bytes) = ((receive mr cs).2.mode, (receive mr cs).1) ∧
      (receive mr cs).2.message.contents = [] := by
  induction cs generalizing mr with
  | nil => exact ⟨rfl, hempty⟩
  | cons c cs ih =>
      have hcount : mr.message.count = 0 := by
        rw [← mr.message.length_contents, hempty, List.length_nil]
      have hroom : c.bytes.length ≤ mr.message.iobFreeSpace := by
        have := hfit c List.mem_cons_self
        unfold IOBuffer.iobFreeSpace
        omega
      obtain ⟨hput, hsize⟩ := IOBuffer.contents_iobPuts hroom
      rw [hempty, List.nil_append] at hput
      obtain ⟨hdrain, hnil⟩ := drain_spec c.count_pos (mr.message.iobPuts c.bytes).2.count
        { mr with message := (mr.message.iobPuts c.bytes).2 } hknown (by simp)
      obtain ⟨hrest, hnil'⟩ := ih _ (hdrain.orderKnown hknown) hnil fun c' hc' => by
        rw [hdrain.size, hsize]
        exact hfit c' (List.mem_cons_of_mem c hc')
      refine ⟨?_, hnil'⟩
      have hfeeds := hdrain.feeds
      rw [hput] at hfeeds
      change mr.mode.feeds c.bytes = _ at hfeeds
      rw [List.flatMap_cons, Mode.feeds_append, hfeeds]
      simp only [receive]
      rw [hrest]

/-- Two ways of cutting the same bytes, with whatever sizes of reads. -/
theorem receive_chunks {junk junk' : ℕ → CChar} {size size' : ℕ} {cs cs' : List Chunk}
    (hbytes : cs.flatMap Chunk.bytes = cs'.flatMap Chunk.bytes)
    (hfit : ∀ c ∈ cs, c.bytes.length ≤ size) (hfit' : ∀ c ∈ cs', c.bytes.length ≤ size') :
    mrEmpty (receive (initMr junk size) cs).2 = true ∧
      mrEmpty (receive (initMr junk' size') cs').2 = true ∧
      (receive (initMr junk size) cs).1 = (receive (initMr junk' size') cs').1 ∧
      (receive (initMr junk size) cs).2.mode = (receive (initMr junk' size') cs').2.mode := by
  have hknown : ∀ junk size, (initMr junk size).mode.OrderKnown := fun _ _ h => by
    simp [mode, initMr] at h
  obtain ⟨h, hnil⟩ := receive_spec (initMr junk size) cs (hknown junk size) rfl hfit
  obtain ⟨h', hnil'⟩ := receive_spec (initMr junk' size') cs' (hknown junk' size') rfl hfit'
  have hmode : (initMr junk size).mode = (initMr junk' size').mode := rfl
  rw [hmode, hbytes, h'] at h
  rw [Prod.mk.injEq] at h
  exact ⟨IOBuffer.iobEmpty_iff.mpr hnil, IOBuffer.iobEmpty_iff.mpr hnil', h.2.symm, h.1.symm⟩

def Chunk.read (bytes : List CChar) (count : ℕ) (always : Bool) : Chunk :=
  ⟨bytes, fun _ => ⟨count + 1, always⟩, fun _ => Nat.succ_pos count⟩

theorem receive_chunks_frame :
    mrEmpty (receive (initMr (fun _ => 0) 6)
        [.read [0x7E, 0x7D, 0x7E, 104, 105, 0x7E] 7 false]).2 = true ∧
      mrEmpty (receive (initMr (fun _ => 1) 3)
        [.read [0x7E, 0x7D] 0 true, .read [0x7E, 104, 105] 0 false, .read [0x7E] 2 true]).2 =
        true ∧
      (receive (initMr (fun _ => 0) 6)
        [.read [0x7E, 0x7D, 0x7E, 104, 105, 0x7E] 7 false]).1 =
      (receive (initMr (fun _ => 1) 3)
        [.read [0x7E, 0x7D] 0 true, .read [0x7E, 104, 105] 0 false, .read [0x7E] 2 true]).1 ∧
      (receive (initMr (fun _ => 0) 6)
        [.read [0x7E, 0x7D, 0x7E, 104, 105, 0x7E] 7 false]).2.mode =
      (receive (initMr (fun _ => 1) 3)
        [.read [0x7E, 0x7D] 0 true, .read [0x7E, 104, 105] 0 false, .read [0x7E] 2 true]).2.mode :=
  receive_chunks (by simp [Chunk.read]) (by simp [Chunk.read]) (by simp [Chunk.read])

end MessageReceiver

end UnixLabs.Lab34
