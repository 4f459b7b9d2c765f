import UnixLabs.Lab34.SenderLoop

/-!
What a call can change, whatever state the sender is in.

Each function of the sender is inverted once: from its result, the fields it has
written and the calls on the server that it made.
-/

namespace UnixLabs.Lab34

open Library

/-- An iteration of `perform_client_io` disconnects the client or reads from it. -/
def ActsOn (ts : TunnelServer) (id : ℤ) : Prop :=
  clientHasErrors ts.server (sizeT id) = some true ∨
    ∃ buffer, ts.clientBuffers.load id = some buffer ∧ buffer.cbFull = false ∧
      clientReadable ts.server (sizeT id) = some true

variable {ts ts' : TunnelServer}

theorem tsRemoveClient_cases {i : ℤ} (h : tsRemoveClient ts i = some ts') :
    ∃ id server removeFlag, disconnectClient ts.server id = some server ∧
      ts' = { ts with server, removeFlag } := by
  simp only [tsRemoveClient, Option.bind_eq_bind, Option.bind_eq_some_iff] at h
  obtain ⟨id, -, server, hserver, removeFlag, -, h⟩ := h
  cases h
  exact ⟨_, server, removeFlag, hserver, rfl⟩

theorem tsAddClient_cases {fd id : ℤ} {clientJunk tunnelJunk : ℕ → CChar}
    (h : tsAddClient ts fd clientJunk tunnelJunk = some (id, ts')) :
    ∃ server, addClient ts.server fd = some (id, server) ∧
      (id = noId ∧ ts' = { ts with server } ∨
        id ≠ noId ∧ ∃ clientBuffers tunnelBuffers addQueue idTable,
          ts.idTable.store ts.clientCount id = some idTable ∧
          ts' = { ts with
            server, clientBuffers, tunnelBuffers, addQueue, idTable
            clientCount := ts.clientCount + 1 }) := by
  simp only [tsAddClient, Option.bind_eq_bind, Option.bind_eq_some_iff] at h
  obtain ⟨⟨new, server⟩, hadd, h⟩ := h
  refine ⟨server, ?_⟩
  split_ifs at h with hnone
  · cases h
    exact ⟨hnone ▸ hadd, .inl ⟨rfl, rfl⟩⟩
  · simp only [Option.bind_eq_some_iff] at h
    obtain ⟨clientBuffers, -, tunnelBuffers, -, idTable, htable, h⟩ := h
    cases h
    exact ⟨hadd, .inr ⟨hnone, clientBuffers, tunnelBuffers, _, idTable, htable, rfl⟩⟩

theorem tsActualRemove_cases {i : ℤ} (h : tsActualRemove ts i = some ts') :
    ∃ id server clientBuffers tunnelBuffers idTable, removeClient ts.server id = some server ∧
      ts' = { ts with
        server, clientBuffers, tunnelBuffers, idTable, clientCount := ts.clientCount - 1 } := by
  simp only [tsActualRemove, Option.bind_eq_bind, Option.bind_eq_some_iff] at h
  obtain ⟨id, -, server, hserver, clientBuffers, -, tunnelBuffers, -, last, -, idTable, -, h⟩ := h
  cases h
  exact ⟨_, server, clientBuffers, tunnelBuffers, idTable, hserver, rfl⟩

/-- An iteration that does not act on its client leaves the sender as it is. -/
theorem performClientIoAt_cases {i processed processed' : ℕ} {input : Option (List CChar)}
    {received : Option (ℤ × List CChar)}
    (h : performClientIoAt ts i processed input = some (received, processed', ts')) :
    ∃ id ioable, ts.idTable.load i = some id ∧
      clientIoable ts.server (sizeT id) = some ioable ∧
      processed' = (if ioable then processed + 1 else processed) ∧
      (¬ActsOn ts id ∧ received = none ∧ ts' = ts ∨
        ActsOn ts id ∧ ∃ clientBuffers, ts' = { ts with clientBuffers } ∨
          tsRemoveClient { ts with clientBuffers } i = some ts') := by
  simp only [performClientIoAt, Option.bind_eq_bind, Option.bind_eq_some_iff] at h
  obtain ⟨id, hid, ioable, hioable, failed, hfailed, h⟩ := h
  refine ⟨id, ioable, hid, hioable, ?_⟩
  obtain ⟨p, hp⟩ : ∃ p, (if ioable = true then processed + 1 else processed) = p := ⟨_, rfl⟩
  rw [hp] at h ⊢
  by_cases hfail : failed = true
  · subst hfail
    simp only [if_true, Option.bind_eq_some_iff] at h
    obtain ⟨ts₁, hremove, h⟩ := h
    cases h
    exact ⟨rfl, .inr ⟨.inl hfailed, ts.clientBuffers, .inr hremove⟩⟩
  · simp only [hfail, Bool.false_eq_true, if_false, Option.bind_eq_some_iff] at h
    obtain ⟨buffer, hbuffer, readable, hreadable, h⟩ := h
    by_cases hread : (!buffer.cbFull && readable) = true
    · rw [if_pos hread] at h
      simp only [Bool.and_eq_true, Bool.not_eq_true'] at hread
      have hacts : ActsOn ts id := .inr ⟨buffer, hbuffer, hread.1, hread.2 ▸ hreadable⟩
      simp only [Option.bind_eq_some_iff] at h
      obtain ⟨clientBuffers, -, h⟩ := h
      by_cases hend : (buffer.cbRecv input).1 = -1
      · rw [if_pos hend] at h
        simp only [Option.bind_eq_some_iff] at h
        obtain ⟨ts₁, hremove, h⟩ := h
        cases h
        exact ⟨rfl, .inr ⟨hacts, clientBuffers, .inr hremove⟩⟩
      · rw [if_neg hend] at h
        cases h
        exact ⟨rfl, .inr ⟨hacts, clientBuffers, .inl rfl⟩⟩
    · rw [if_neg hread] at h
      cases h
      refine ⟨rfl, .inl ⟨?_, rfl, rfl⟩⟩
      rintro (herrors | ⟨buffer', hbuffer', hroom, hreadable'⟩)
      · rw [hfailed, Option.some_inj] at herrors
        exact hfail herrors
      · rw [hbuffer, Option.some_inj] at hbuffer'
        rw [hreadable, Option.some_inj] at hreadable'
        subst hbuffer' hreadable'
        exact hread (by simp [hroom])

theorem processEmptyRemovedAt_cases {i : ℕ} {turn : Turn ℕ}
    (h : processEmptyRemovedAt ts i = some (turn, ts')) :
    ∃ tunnelTpb, ts' = { ts with tunnelTpb } ∨
      ∃ removeFlag position,
        tsActualRemove { ts with tunnelTpb, removeFlag } position = some ts' := by
  unfold processEmptyRemovedAt at h
  split_ifs at h with hend
  · cases h
    exact ⟨ts.tunnelTpb, .inl rfl⟩
  · simp only [Option.bind_eq_bind, Option.bind_eq_some_iff] at h
    obtain ⟨id, -, flag, -, buffer, -, h⟩ := h
    split_ifs at h with hskip hput
    · cases h
      exact ⟨ts.tunnelTpb, .inl rfl⟩
    · cases h
      exact ⟨_, .inl rfl⟩
    · simp only [Option.bind_eq_some_iff] at h
      obtain ⟨removeFlag, -, ts₁, hremove, h⟩ := h
      cases h
      exact ⟨_, .inr ⟨removeFlag, id, hremove⟩⟩

theorem processAddedOnce_cases {turn : Turn Unit} (h : processAddedOnce ts = some (turn, ts')) :
    ∃ tunnelTpb addQueue, ts' = { ts with tunnelTpb, addQueue } := by
  unfold processAddedOnce at h
  split at h
  · cases h
    exact ⟨ts.tunnelTpb, ts.addQueue, rfl⟩
  · dsimp only at h
    split_ifs at h with hput
    · cases h
      exact ⟨_, ts.addQueue, rfl⟩
    · simp only [Option.bind_eq_bind, Option.bind_eq_some_iff] at h
      obtain ⟨addQueue, -, h⟩ := h
      cases h
      exact ⟨_, addQueue, rfl⟩

theorem sendChunk_cases {messageLength : ℕ → ℕ} {consumed : Option (ℤ × List CChar)}
    {again : Bool} (h : sendChunk ts messageLength = some (consumed, again, ts')) :
    ∃ sendCount tunnelTpb clientBuffers, ts' = { ts with sendCount, tunnelTpb, clientBuffers } := by
  simp only [sendChunk, Option.bind_eq_bind, Option.bind_eq_some_iff] at h
  obtain ⟨id, -, dataBuf, -, h⟩ := h
  generalize (if ts.sendCount = 0 then dataBuf.count else ts.sendCount) = c at h
  split_ifs at h with hzero
  · cases h
    exact ⟨_, _, _, rfl⟩
  · simp only [Option.bind_eq_some_iff] at h
    obtain ⟨data, -, ⟨count, tunnelTpb⟩, -, dataBuf', -, clientBuffers, -, h⟩ := h
    cases h
    exact ⟨_, _, _, rfl⟩

theorem sendOnce_cases {messageLength : ℕ → ℕ} {consumed : Option (ℤ × List CChar)}
    {again : Bool} (h : sendOnce ts messageLength = some (consumed, again, ts')) :
    ∃ sendOrder sendCount tunnelTpb clientBuffers,
      ts' = { ts with sendOrder, sendCount, tunnelTpb, clientBuffers } := by
  unfold sendOnce at h
  split_ifs at h with hchoose
  · simp only [Option.bind_eq_bind, Option.bind_eq_some_iff] at h
    obtain ⟨sendOrder, -, h⟩ := h
    split_ifs at h with hnone
    · cases h
      exact ⟨_, _, _, _, rfl⟩
    · obtain ⟨sendCount, tunnelTpb, clientBuffers, rfl⟩ := sendChunk_cases h
      exact ⟨_, _, _, _, rfl⟩
  · obtain ⟨sendCount, tunnelTpb, clientBuffers, rfl⟩ := sendChunk_cases h
    exact ⟨_, _, _, _, rfl⟩

theorem tunnelOnce_cases {written : Option ℕ} (h : tunnelOnce ts written = some ts') :
    ∃ tunnelTpb server writeable, setTunnelWriteable ts.server writeable = some server ∧
      ts' = { ts with server, tunnelTpb } := by
  simp only [tunnelOnce, Option.bind_eq_bind, Option.bind_eq_some_iff] at h
  obtain ⟨tunnelTpb, -, server, hserver, h⟩ := h
  cases h
  exact ⟨tunnelTpb, server, _, hserver, rfl⟩

theorem acceptOnce_cases {fdCount : ℕ} {answers : Answers} {happening : Option Happening}
    {s' : Sender} (h : acceptOnce ts fdCount answers = some (happening, s')) :
    ∃ ioable, tunnelIoable ts.server = some ioable ∧
      (happening = none ∧ (s' = ⟨ts, .poll⟩ ∨
          s' = ⟨ts, .clientIo
            (if isPollable (ts.server.clients.cells pollListenerIndex) pollIn then fdCount - 1
              else fdCount) 0 (if ioable then 1 else 0)⟩) ∨
        isPollable (ts.server.clients.cells pollListenerIndex) pollIn = true ∧
          answers.accepted ≠ -1 ∧ ¬isFull ts.server ∧ ∃ id ts',
          tsAddClient ts answers.accepted answers.clientJunk answers.tunnelJunk = some (id, ts') ∧
          s' = ⟨ts', .clientIo (fdCount - 1) 0 (if ioable then 1 else 0)⟩ ∧
          happening = if id = noId then none else some (.accepted id.toNat)) := by
  simp only [acceptOnce, Option.bind_eq_bind, Option.bind_eq_some_iff] at h
  obtain ⟨listener, hlistener, ioable, hioable, h⟩ := h
  obtain rfl := CArray.cells_of_load (i := pollListenerIndex) hlistener
  refine ⟨ioable, hioable, ?_⟩
  generalize (if ioable = true then 1 else 0) = processed at h ⊢
  split_ifs at h with hpending hfailed hfull
  · cases h
    exact .inl ⟨rfl, .inl rfl⟩
  · cases h
    exact .inl ⟨rfl, .inr (by rw [if_pos hpending])⟩
  · simp only [Option.bind_eq_some_iff] at h
    obtain ⟨⟨id, ts₁⟩, hadd, h⟩ := h
    cases h
    exact .inr ⟨hpending, hfailed, hfull, id, _, hadd, rfl, rfl⟩
  · cases h
    exact .inl ⟨rfl, .inr (by rw [if_neg hpending])⟩

/-- A relation between the sender before and after a step holds if it is reflexive and
holds for every call that a step makes. -/
theorem senderStep_rel {s s' : Sender} {answers : Answers} {happening : Option Happening}
    (h : senderStep s answers = some (happening, s')) {R : TunnelServer → TunnelServer → Prop}
    (hrefl : ∀ ts, R ts ts)
    (hpoll : ∀ ts revents, R ts { ts with server := pollServer ts.server revents })
    (hadd : ∀ ts ts' fd clientJunk tunnelJunk id,
      tsAddClient ts fd clientJunk tunnelJunk = some (id, ts') → R ts ts')
    (hio : ∀ ts ts' i processed input received processed',
      performClientIoAt ts i processed input = some (received, processed', ts') → R ts ts')
    (hempty : ∀ ts ts' i turn, processEmptyRemovedAt ts i = some (turn, ts') → R ts ts')
    (hadded : ∀ ts ts' turn, processAddedOnce ts = some (turn, ts') → R ts ts')
    (hsend : ∀ ts ts' messageLength consumed again, s.place = .send →
      sendOnce ts messageLength = some (consumed, again, ts') → R ts ts')
    (htunnel : ∀ ts ts' written, tunnelOnce ts written = some ts' → R ts ts') :
    R s.ts s'.ts := by
  unfold senderStep at h
  split at h
  · split at h
    · cases h
      exact hrefl _
    · cases h
      exact hpoll _ _
  · obtain ⟨ioable, -, ⟨-, rfl | rfl⟩ | ⟨-, -, -, id, ts', hnew, rfl, -⟩⟩ := acceptOnce_cases h
    · exact hrefl _
    · exact hrefl _
    · exact hadd _ _ _ _ _ _ hnew
  · split_ifs at h with hmore
    · simp only [Option.bind_eq_bind, Option.bind_eq_some_iff] at h
      obtain ⟨⟨received, processed, ts⟩, honce, h⟩ := h
      cases h
      exact hio _ _ _ _ _ _ _ honce
    · cases h
      exact hrefl _
  · simp only [Option.bind_eq_bind, Option.bind_eq_some_iff] at h
    obtain ⟨⟨turn, ts⟩, honce, h⟩ := h
    have hrel := hempty _ _ _ _ honce
    split at h
    · simp only [Option.bind_eq_some_iff] at h
      obtain ⟨id, -, h⟩ := h
      cases h
      exact hrel
    · cases h
      exact hrel
    · cases h
      exact hrel
  · simp only [Option.bind_eq_bind, Option.bind_eq_some_iff] at h
    obtain ⟨⟨turn, ts⟩, honce, h⟩ := h
    have hrel := hadded _ _ _ honce
    split at h
    · cases h
      exact hrel
    · cases h
      exact hrel
    · cases h
      exact hrel
  · rename_i hplace
    simp only [Option.bind_eq_bind, Option.bind_eq_some_iff] at h
    obtain ⟨⟨consumed, again, ts⟩, honce, h⟩ := h
    cases h
    exact hsend _ _ _ _ _ hplace honce
  · simp only [Option.map_eq_some_iff] at h
    obtain ⟨ts, honce, h⟩ := h
    cases h
    exact htunnel _ _ _ honce
  · cases h
    exact hrefl _

end UnixLabs.Lab34
