import UnixLabs.Lab31.Threads

/-!
The clients of `lab31/multithreading`, while one thread adds them and the other removes them.

`commit_remove_clients` reads the count, closes the gaps up to there, and then reads the
count again to lower it. The lock of the count does not hold in between, so a client that is
added there is behind the gaps that were to fall off the end.
-/

namespace UnixLabs.Lab31.Multiplexer

open Library

variable {max : Somaxconn}

/-! ### A pass -/

/-- The marks before the loops close the gaps. Index 0 is the first to be marked, and then
forgotten when another one is. -/
structure Front (t : ClientTable max) : Prop where
  first : t.firstClientToRemove ≠ 0 → t.firstClientToRemove < t.clientCount ∧
    fds t.clients t.firstClientToRemove = removedClient
  marks : ∀ k < t.clientCount, fds t.clients k = removedClient →
    k = 0 ∨ t.firstClientToRemove ≠ 0 ∧ t.firstClientToRemove ≤ k

structure Counted (t : ClientTable max) (count : ℕ) : Prop where
  same : marked removedClient (fds t.clients) count = t.clientsToRemoveCount
  some : t.clientsToRemoveCount ≠ 0

def ReaderAt.marks (table : ClientTable max) : ReaderAt → Prop
  | .reads _ _ i => Front table ∧
      ∀ k < table.clientCount, fds table.clients k = removedClient → k < i
  | .commits _ => Front table ∧ table.clientsToRemoveCount ≠ 0
  | .compacts _ count => Front table ∧ Counted table count
  | .shrinks _ count => Counted table count
  | _ => table.clientsToRemoveCount = 0 ∧ table.firstClientToRemove = 0

def ReaderAt.closed (table : ClientTable max) : ReaderAt → Prop
  | .shrinks _ count => ∀ k, count - table.clientsToRemoveCount ≤ k → k < count →
      fds table.clients k = removedClient
  | _ => True

/-- Index 0 is not removed before another one, unless all are; and no client is added while
the gaps are closed. -/
def ReaderAt.undisturbed (table : ClientTable max) : ReaderAt → Prop
  | .compacts _ count => table.firstClientToRemove = 0 ∨
      fds table.clients 0 ≠ removedClient ∨ table.clientsToRemoveCount = count
  | .shrinks _ count => table.clientCount = count
  | _ => True

/-! ### What the operations do to a pass -/

section Table

variable {t : ClientTable max} {clients : CArray max.size Pollfd}

theorem Front.none (hmarked : marked removedClient (fds t.clients) t.clientCount = 0)
    (hfirst : t.firstClientToRemove = 0) : Front t :=
  ⟨fun hne => absurd hfirst hne,
    fun k hk hmark => absurd hmark (marked_eq_zero_iff.mp hmarked k hk)⟩

theorem Front.put (h : Front t) {fd : ℤ} (hfd : fd ≠ removedClient)
    (hfds : fds clients = Function.update (fds t.clients) t.clientCount fd) :
    Front { t with clients, clientCount := t.clientCount + 1 } where
  first hne := by
    obtain ⟨hlt, hmark⟩ := h.first hne
    refine ⟨Nat.lt_succ_of_lt hlt, ?_⟩
    rw [hfds, Function.update_of_ne hlt.ne]
    exact hmark
  marks k hk hmark := by
    rw [hfds] at hmark
    rcases Nat.lt_succ_iff_lt_or_eq.mp hk with hk | rfl
    · rw [Function.update_of_ne hk.ne] at hmark
      exact h.marks k hk hmark
    · rw [Function.update_self] at hmark
      exact absurd hmark hfd

theorem Front.mark (h : Front t) {i : ℕ} (hi : i < t.clientCount)
    (horder : ∀ k < t.clientCount, fds t.clients k = removedClient → k < i)
    (hfds : fds clients = Function.update (fds t.clients) i removedClient) :
    Front { t with
      clients
      clientsToRemoveCount := t.clientsToRemoveCount + 1
      firstClientToRemove := if t.firstClientToRemove = 0 ∨ t.firstClientToRemove > i then i
        else t.firstClientToRemove } where
  first hne := by
    show (if _ then i else _) < t.clientCount ∧ fds clients (if _ then i else _) = removedClient
    rw [hfds]
    split_ifs with hset
    · exact ⟨hi, Function.update_self _ _ _⟩
    · obtain ⟨hlt, hmark⟩ := h.first fun hzero => hset (.inl hzero)
      refine ⟨hlt, ?_⟩
      rw [Function.update_apply]
      split_ifs
      · rfl
      · exact hmark
  marks k hk hmark := by
    show k = 0 ∨ (if _ then i else _) ≠ 0 ∧ (if _ then i else _) ≤ k
    rcases Nat.eq_zero_or_pos i with rfl | hpos
    · -- nothing is marked before
      have hsame : k = 0 := by
        by_contra hne
        rw [hfds, Function.update_of_ne hne] at hmark
        exact absurd (horder k hk hmark) k.not_lt_zero
      exact .inl hsame
    rcases eq_or_ne k i with rfl | hne
    · right
      split_ifs with hset
      · exact ⟨hpos.ne', le_rfl⟩
      · exact ⟨fun hzero => hset (.inl hzero), by omega⟩
    · rw [hfds, Function.update_of_ne hne] at hmark
      refine (h.marks k hk hmark).imp_right fun hfirst => ?_
      rw [if_neg (by have := horder k hk hmark; omega)]
      exact hfirst

theorem Counted.put {count : ℕ} (h : Counted t count) (hcount : count ≤ t.clientCount) {fd : ℤ}
    (hfds : fds clients = Function.update (fds t.clients) t.clientCount fd) :
    Counted { t with clients, clientCount := t.clientCount + 1 } count := by
  refine ⟨?_, h.some⟩
  show marked removedClient (fds clients) count = t.clientsToRemoveCount
  rw [← h.same, hfds, marked, marked]
  exact congrArg _ (firstCells_congr fun k hk => Function.update_of_ne (by omega) _ _)

theorem ReaderAt.marks.put {reader : ReaderAt} (h : reader.marks t) (hwithin : reader.within t)
    {fd : ℤ} (hfd : fd ≠ removedClient)
    (hfds : fds clients = Function.update (fds t.clients) t.clientCount fd) :
    reader.marks { t with clients, clientCount := t.clientCount + 1 } := by
  cases reader with
  | reads n seen i =>
      refine ⟨h.1.put hfd hfds, fun k hk hmark => ?_⟩
      rw [hfds] at hmark
      rcases Nat.lt_succ_iff_lt_or_eq.mp hk with hk | rfl
      · rw [Function.update_of_ne hk.ne] at hmark
        exact h.2 k hk hmark
      · rw [Function.update_self] at hmark
        exact absurd hmark hfd
  | commits n => exact ⟨h.1.put hfd hfds, h.2⟩
  | compacts n count => exact ⟨h.1.put hfd hfds, h.2.put hwithin.2 hfds⟩
  | shrinks n count => exact Counted.put h hwithin.2 hfds
  | _ => exact h

theorem ReaderAt.closed.put {reader : ReaderAt} (h : reader.closed t) (hwithin : reader.within t)
    {fd : ℤ} (hfds : fds clients = Function.update (fds t.clients) t.clientCount fd) :
    reader.closed { t with clients, clientCount := t.clientCount + 1 } := by
  cases reader with
  | shrinks n count =>
      intro k hle hk
      have hcount : count ≤ t.clientCount := hwithin.2
      show fds clients k = removedClient
      rw [hfds, Function.update_of_ne (by omega)]
      exact h k hle hk
  | _ => trivial

end Table

namespace Threads

variable {s s' : Threads max} {e : Event}

/-- The clients that are open are those of the table, each once, and the loops leave them in
front. -/
structure Kept (s : Threads max) : Prop where
  listed : s.opened.Perm (live removedClient (fds s.table.clients) s.table.clientCount)
  closed : s.reader.closed s.table

def Undisturbed (s : Threads max) : Event → Prop
  | .reader => s.reader.undisturbed s.table
  | _ => True

def Keeps (s : Threads max) (e : Event) : Prop := ∀ s', s.step e = some s' → Kept s'

structure Books (s : Threads max) : Prop where
  locks : Locks s
  counts : Counts s
  kept : Kept s
  exact : s.table.clientsToRemoveCount =
    marked removedClient (fds s.table.clients) s.table.clientCount
  adds : ∀ fd, s.main = .adds fd → fd ≠ removedClient
  marks : s.reader.marks s.table ∨ s.reader = .ended ∧ s.main.leaves

theorem books_start (max : Somaxconn) : Books (start max) where
  locks := locks_start max
  counts := counts_start max
  kept := ⟨List.Perm.refl _, trivial⟩
  exact := rfl
  adds fd hmain := by cases hmain
  marks := .inl ⟨rfl, rfl⟩

theorem Books.marks_of_goes (h : Books s) (hgoes : s.reader ≠ .ended) : s.reader.marks s.table :=
  h.marks.resolve_right fun hended => hgoes hended.1

theorem kept_adds (h : Books s) {fd : ℤ} {table : ClientTable max} (hmain : s.main = .adds fd)
    (hput : s.table.put fd = some table) :
    Kept { s with table, main := .tries, opened := fd :: s.opened } := by
  obtain ⟨-, clients, hfds, rfl⟩ := put_cases hput
  refine ⟨?_, h.kept.closed.put h.counts.within hfds⟩
  show (fd :: s.opened).Perm (live removedClient (fds clients) (s.table.clientCount + 1))
  rw [hfds, live_push (h.adds fd hmain)]
  exact (h.kept.listed.cons fd).trans (List.perm_append_singleton fd _).symm

theorem kept_removes (h : Books s) {n seen i : ℕ} {table : ClientTable max}
    (hreader : s.reader = .reads n seen i) (hi : i < seen)
    (hremove : removeClient s.table i = some table) :
    Kept { s with table, reader := .reads n seen (i + 1), opened := s.closes i } := by
  refine ⟨?_, trivial⟩
  show (s.closes i).Perm _
  have hlisted := h.kept.listed
  rcases mark_cases hremove with ⟨hmark, rfl⟩ | ⟨hmark, clients, hfds, rfl⟩
  · rw [closes, if_pos hmark]
    exact hlisted
  · rw [closes, if_neg hmark]
    have hwithin := h.counts.within
    rw [hreader] at hwithin
    have hperm := live_mark (hi.trans_le hwithin) hmark
    rw [← hfds] at hperm
    exact (hlisted.trans hperm.symm).erase _ |>.trans (by rw [List.erase_cons_head])

theorem compacts_spec (h : Counts s) {n count : ℕ} {clients : CArray max.size Pollfd}
    (hreader : s.reader = .compacts n count)
    (hcompact : compactFrom s.table.clientsToRemoveCount (count + 1)
      s.table.firstClientToRemove (sizeT ((count : ℤ) - 1)) 0 s.table.clients = some clients) :
    fds clients = closeGaps removedClient s.table.clientsToRemoveCount (count + 1)
        s.table.firstClientToRemove count 0 (fds s.table.clients) ∧
      ∀ k, count ≤ k → (firstCells (fds clients) k).Perm (firstCells (fds s.table.clients) k) := by
  have hwithin := h.within
  rw [hreader] at hwithin
  obtain ⟨clients', hcompact', hfds⟩ := compactFrom_of_le h.inOrder hwithin.1 hwithin.2
  cases hcompact.symm.trans hcompact'
  refine ⟨hfds, fun k hk => ?_⟩
  rw [hfds]
  exact firstCells_closeGaps hk

/-- The gaps are closed exactly when index 0 was not forgotten. -/
theorem compacts_closed_iff (h : Books s) {n count : ℕ} {clients : CArray max.size Pollfd}
    (hreader : s.reader = .compacts n count)
    (hcompact : compactFrom s.table.clientsToRemoveCount (count + 1)
      s.table.firstClientToRemove (sizeT ((count : ℤ) - 1)) 0 s.table.clients = some clients) :
    (ReaderAt.shrinks n count).closed { s.table with clients } ↔
      s.reader.undisturbed s.table := by
  have hmarks := h.marks_of_goes (by rw [hreader]; exact ReaderAt.noConfusion)
  have hwithin := h.counts.within
  rw [hreader] at hmarks hwithin ⊢
  obtain ⟨hfront, hcounted⟩ := hmarks
  show (∀ k, _ → _ → fds clients k = removedClient) ↔ _
  rw [(compacts_spec h.counts hreader hcompact).1]
  refine closeGaps_tail_iff hcounted.same fun k hk hmark => ?_
  have hne : s.table.firstClientToRemove ≠ 0 := by omega
  have hlt := (hfront.first hne).1
  rcases hfront.marks k (hk.trans hlt) hmark with hzero | ⟨-, hle⟩
  · exact hzero
  · omega

/-- What falls off the end are the marks exactly when no client was added behind them. -/
theorem shrinks_listed_iff (h : Books s) {n count : ℕ} (hreader : s.reader = .shrinks n count) :
    s.opened.Perm (live removedClient (fds s.table.clients)
        (s.table.clientCount - s.table.clientsToRemoveCount)) ↔
      s.reader.undisturbed s.table := by
  have hcounted := h.marks_of_goes (by rw [hreader]; exact ReaderAt.noConfusion)
  have hwithin := h.counts.within
  have hclosed := h.kept.closed
  rw [hreader] at hcounted hwithin hclosed ⊢
  obtain ⟨hsame, hsome⟩ := hcounted
  obtain ⟨hremove, hcount⟩ := hwithin
  have hexact := h.exact
  have hlisted := h.kept.listed
  show _ ↔ s.table.clientCount = count
  constructor
  · intro hperm
    by_contra hne
    -- a mark is left in front, or an entry falls off
    have hlength := hlisted.length_eq.symm.trans hperm.length_eq
    have hall : (live removedClient (fds s.table.clients) s.table.clientCount).length +
      marked removedClient (fds s.table.clients) s.table.clientCount = _ := length_live
    have hleft : (live removedClient (fds s.table.clients)
        (s.table.clientCount - s.table.clientsToRemoveCount)).length +
      marked removedClient (fds s.table.clients) _ = _ := length_live
    rcases Nat.le_total count (s.table.clientCount - s.table.clientsToRemoveCount) with hle | hle
    · have hmarked : marked removedClient (fds s.table.clients) count ≤ _ := marked_le hle
      omega
    · have hfront : (live removedClient (fds s.table.clients) count).length +
        marked removedClient (fds s.table.clients) count = _ := length_live
      have hshort : (live removedClient (fds s.table.clients) _).length ≤ _ := length_live_le hle
      omega
  · rintro rfl
    obtain ⟨hlive, hnone⟩ := live_of_marked_tail (by omega) hclosed
    rw [live_eq_firstCells hnone, ← hlive]
    exact hlisted

theorem shrinks_marked (h : Books s) {n count : ℕ} (hreader : s.reader = .shrinks n count)
    (hundisturbed : s.reader.undisturbed s.table) :
    marked removedClient (fds s.table.clients)
      (s.table.clientCount - s.table.clientsToRemoveCount) = 0 := by
  have hclosed := h.kept.closed
  have hle := h.counts.inOrder.toRemove_le
  rw [hreader] at hundisturbed hclosed
  obtain rfl : s.table.clientCount = count := hundisturbed
  obtain ⟨-, hnone⟩ := live_of_marked_tail (by rw [← h.exact]; omega) hclosed
  exact marked_eq_zero_iff.mpr hnone

theorem kept_move (h : Books s) (hquiet : Undisturbed s e) (hmove : Moves s e s') : Kept s' := by
  have hkept := h.kept
  cases hmove with
  | adds hmain hput => exact kept_adds h hmain hput
  | removes hreader hi hremove => exact kept_removes h hreader hi hremove
  | compacts hreader hcompact =>
      obtain ⟨-, hperm⟩ := compacts_spec h.counts hreader hcompact
      have hwithin := h.counts.within
      rw [hreader] at hwithin
      refine ⟨hkept.listed.trans ((hperm _ hwithin.2).symm.filter _), ?_⟩
      exact (compacts_closed_iff h hreader hcompact).mpr hquiet
  | shrinks hreader htable =>
      rw [incClientCount_eq h.counts.inOrder] at htable
      cases htable
      exact ⟨(shrinks_listed_iff h hreader).mpr hquiet, trivial⟩
  | starts | begins | polls | takes | pauses | sees | passes | commits | counts | releases
  | visits | ends => exact ⟨hkept.listed, trivial⟩
  | _ => exact ⟨hkept.listed, hkept.closed⟩

theorem not_kept_of_disturbed (h : Books s) (hdisturbed : ¬Undisturbed s e) :
    ∃ s', s.step e = some s' ∧ ¬Kept s' := by
  cases e with
  | reader =>
      have hnot : ¬s.reader.undisturbed s.table := hdisturbed
      cases hreader : s.reader with
      | compacts n count =>
          have hwithin := h.counts.within
          rw [hreader] at hwithin
          obtain ⟨clients, hcompact, -⟩ :=
            compactFrom_of_le h.counts.inOrder hwithin.1 hwithin.2
          refine ⟨{ s with table := { s.table with clients }, reader := .shrinks n count }, ?_,
            fun hkept => hnot ?_⟩
          · rw [step, readerStep.eq_def, hreader]
            simp only [hcompact, Option.map_some]
          · exact (compacts_closed_iff h hreader hcompact).mp hkept.closed
      | shrinks n count =>
          refine ⟨{ s with
            table := ⟨s.table.clients, s.table.clientCount - s.table.clientsToRemoveCount, 0, 0⟩
            reader := .unlocks n }, ?_, fun hkept => hnot ?_⟩
          · rw [step, readerStep.eq_def, hreader]
            simp only [incClientCount_eq h.counts.inOrder]
          · exact (shrinks_listed_iff h hreader).mp hkept.listed
      | _ =>
          rw [hreader] at hnot
          exact absurd trivial hnot
  | _ => exact absurd trivial hdisturbed

theorem exact_move (h : Books s) (hquiet : Undisturbed s e) (hmove : Moves s e s') :
    s'.table.clientsToRemoveCount =
      marked removedClient (fds s'.table.clients) s'.table.clientCount := by
  have hexact := h.exact
  cases hmove with
  | adds hmain hput =>
      obtain ⟨-, clients, hfds, rfl⟩ := put_cases hput
      show s.table.clientsToRemoveCount =
        marked removedClient (fds clients) (s.table.clientCount + 1)
      rw [hfds, marked_push (h.adds _ hmain), hexact]
  | removes hreader hi hremove =>
      have hwithin := h.counts.within
      rw [hreader] at hwithin
      rcases mark_cases hremove with ⟨-, rfl⟩ | ⟨hmark, clients, hfds, rfl⟩
      · exact hexact
      · show s.table.clientsToRemoveCount + 1 =
          marked removedClient (fds clients) s.table.clientCount
        rw [hfds, marked_mark (hi.trans_le hwithin) hmark, hexact]
  | compacts hreader hcompact =>
      have hwithin := h.counts.within
      rw [hreader] at hwithin
      obtain ⟨-, hperm⟩ := compacts_spec h.counts hreader hcompact
      exact hexact.trans ((hperm _ hwithin.2).count_eq _).symm
  | shrinks hreader htable =>
      rw [incClientCount_eq h.counts.inOrder] at htable
      cases htable
      exact (shrinks_marked h hreader hquiet).symm
  | _ => exact hexact

theorem marks_of_main (h : Books s) (hleaves : ¬s.main.leaves) : s.reader.marks s.table :=
  h.marks.resolve_right fun hended => hleaves hended.2

theorem marks_move (h : Books s) (hmove : Moves s e s') :
    s'.reader.marks s'.table ∨ s'.reader = .ended ∧ s'.main.leaves := by
  have hgoes := h.marks_of_goes
  have hstays := marks_of_main h
  have hexact := h.exact
  cases hmove with
  | adds hmain hput =>
      rw [hmain] at hstays
      obtain ⟨-, clients, hfds, rfl⟩ := put_cases hput
      exact .inl ((hstays id).put h.counts.within (h.adds _ hmain) hfds)
  | accepts hmain | refuses hmain | quit hmain | locks hmain | busy hmain | cancels hmain
  | joins hmain | unlocks hmain | quits hmain =>
      rw [hmain] at hstays
      exact .inl (hstays id)
  | starts hmain =>
      rw [hmain, h.locks.starts hmain] at hstays
      exact .inl (hstays id)
  | quitJoins hmain => exact h.marks.imp_right fun hended => ⟨hended.1, trivial⟩
  | begins hreader | polls hreader | takes hreader | pauses hreader | releases hreader =>
      rw [hreader] at hgoes
      exact .inl (hgoes ReaderAt.noConfusion)
  | sees hreader =>
      rw [hreader] at hgoes
      obtain ⟨hnone, hfirst⟩ := hgoes ReaderAt.noConfusion
      rw [hnone] at hexact
      exact .inl ⟨.none hexact.symm hfirst, fun k hk hmark =>
        absurd hmark (marked_eq_zero_iff.mp hexact.symm k hk)⟩
  | passes hreader hnone =>
      rw [hreader] at hgoes
      obtain ⟨hfront, -⟩ := hgoes ReaderAt.noConfusion
      refine .inl ⟨hnone, ?_⟩
      by_contra hne
      obtain ⟨hlt, hmark⟩ := hfront.first hne
      exact marked_eq_zero_iff.mp (hexact.symm.trans hnone) _ hlt hmark
  | commits hreader hsome =>
      rw [hreader] at hgoes
      exact .inl ⟨(hgoes ReaderAt.noConfusion).1, hsome⟩
  | counts hreader =>
      rw [hreader] at hgoes
      obtain ⟨hfront, hsome⟩ := hgoes ReaderAt.noConfusion
      exact .inl ⟨hfront, hexact.symm, hsome⟩
  | compacts hreader hcompact =>
      obtain ⟨-, hperm⟩ := compacts_spec h.counts hreader hcompact
      rw [hreader] at hgoes
      obtain ⟨-, hsame, hsome⟩ := hgoes ReaderAt.noConfusion
      exact .inl ⟨((hperm _ le_rfl).count_eq _).trans hsame, hsome⟩
  | shrinks hreader htable => exact .inl ⟨rfl, rfl⟩
  | visits hreader hi =>
      rw [hreader] at hgoes
      obtain ⟨hfront, horder⟩ := hgoes ReaderAt.noConfusion
      exact .inl ⟨hfront, fun k hk hmark => Nat.lt_succ_of_lt (horder k hk hmark)⟩
  | removes hreader hi hremove =>
      have hwithin := h.counts.within
      rw [hreader] at hgoes hwithin
      obtain ⟨hfront, horder⟩ := hgoes ReaderAt.noConfusion
      rcases mark_cases hremove with ⟨-, rfl⟩ | ⟨hmark, clients, hfds, rfl⟩
      · exact .inl ⟨hfront, fun k hk hmark => Nat.lt_succ_of_lt (horder k hk hmark)⟩
      · refine .inl ⟨hfront.mark (hi.trans_le hwithin) horder hfds, fun k hk hmark => ?_⟩
        show k < _ + 1
        rw [hfds, Function.update_apply] at hmark
        split_ifs at hmark with hsame
        · omega
        · exact Nat.lt_succ_of_lt (horder k hk hmark)
  | ends hcancelled hreader =>
      rcases hreader with ⟨n, hreader⟩ | ⟨n, seen, i, hreader⟩ | hreader
      · rw [hreader] at hgoes
        exact .inl (hgoes ReaderAt.noConfusion)
      · have hlock := h.locks.pass (by rw [hreader]; trivial)
        exact .inr ⟨rfl, h.locks.leaves (h.locks.cancelled.mp hcancelled) hlock⟩
      · rw [hreader] at hgoes
        exact .inl (hgoes ReaderAt.noConfusion)

theorem books_move (h : Books s) (hquiet : Undisturbed s e) (hmove : Moves s e s') : Books s' where
  locks := locks_move h.locks hmove
  counts := counts_move h.counts hmove
  kept := kept_move h hquiet hmove
  exact := exact_move h hquiet hmove
  adds fd := by
    have hadds := h.adds fd
    cases hmove with
    | accepts hmain hfd =>
        intro h
        cases h
        exact hfd
    | begins | polls | takes | pauses | sees | passes | commits | counts | releases | visits
    | ends | compacts | shrinks | removes => exact hadds
    | _ => exact fun h => by cases h
  marks := marks_move h hmove

/-- In any order of the steps: after each of them the open clients are those of the table
exactly when in every pass index 0 is not removed before another one, unless all are, and
no client is added between the two times `commit_remove_clients` takes the count. -/
theorem kept_iff (es : List Event) :
    RunMeets Keeps step (start max) es ↔ RunMeets Undisturbed step (start max) es := by
  refine runMeets_iff_of_steps (I := Books) (fun s e h => ?_)
    (fun s e s' h hquiet hstep => books_move h hquiet (moves_of_step hstep)) (books_start max) es
  constructor
  · intro hkeeps
    by_contra hdisturbed
    obtain ⟨s', hstep, hnot⟩ := not_kept_of_disturbed h hdisturbed
    exact hnot (hkeeps s' hstep)
  · exact fun hquiet s' hstep => kept_move h hquiet (moves_of_step hstep)

/-- Client 6 is added while the gap of client 5 is closed, and is not polled again. -/
example : (run step (start Somaxconn.linux) [.accept ⟨5, 0, 0⟩, .main, .main, .main, .reader,
      .cancel, .main, .main, .main, .reader, .reader, .reader, .reader, .visit true, .reader,
      .reader, .accept ⟨6, 0, 0⟩, .main, .reader, .reader]).map
    (fun s => (s.opened, live removedClient (fds s.table.clients) s.table.clientCount)) =
      some ([6], []) := by
  decide +kernel

end Threads

end UnixLabs.Lab31.Multiplexer
