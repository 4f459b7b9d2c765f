import UnixLabs.Lab33.ProxyTable
import UnixLabs.Lab33.SessionPairs
import UnixLabs.Lab33.UsualServerManagement

/-!
The table of ids of the proxy and of the server program.

Both servers manage their ids as the table relies on, so what `ProxyTable` proves
holds of both programs.
-/

namespace UnixLabs.Lab33

open Library

/-- What the proxy's main loop passes to `add_client`, and what `malloc` leaves in the
buffers of the new session. -/
structure Accepted where
  clientFd : ℤ
  serverFd : ℤ
  stocJunk : ℕ → CChar
  ctosJunk : ℕ → CChar

def addSession (s : Server) (a : Accepted) : Option (ℤ × Server) :=
  addClient s a.clientFd a.serverFd a.stocJunk a.ctosJunk

theorem Tables.addSession_cases {s : Server} {ids : List ℕ} (h : Tables s ids) (a : Accepted) :
    addSession s a = some (noId, s) ∨
      ∃ id : ℕ, id < maxClients ∧ id ∉ ids ∧ addSession s a = some ((id : ℤ),
        Tables.added s id a.clientFd a.serverFd a.stocJunk a.ctosJunk) := by
  by_cases hneg : a.clientFd < 0 ∨ a.serverFd < 0
  · exact .inl (by rw [addSession, addClient, if_pos hneg])
  · by_cases hlen : ids.length < maxClients
    · exact .inr (h.addClient_eq hlen (by omega) (by omega) a.stocJunk a.ctosJunk)
    · exact .inl (h.addClient_full (le_antisymm h.length_le (by omega)) _ _ _ _)

theorem manages_proxy : ProxyServer.Manages Tables addSession removeClient where
  nodup := fun _ _ h => h.indexed.nodup
  lt := fun _ _ h => h.indexed.lt
  length_le := fun _ _ h => h.length_le
  add := by
    intro s ids a h
    rcases h.addSession_cases a with hadd | ⟨id, hid, hfresh, hadd⟩
    · exact .inl ⟨s, hadd, h⟩
    · exact .inr ⟨id, _, hadd, h.tables_added _ _ _ _ hid hfresh⟩
  remove := by
    intro s ids id h hid
    obtain ⟨p, hp, rfl⟩ := List.getElem_of_mem hid
    exact ⟨_, _, h.removeClient_eq hp, h.tables_removed hp, swapRemove_perm ids hp⟩

theorem manages_usual :
    ProxyServer.Manages Usual.Tables Usual.addClient Usual.removeClient where
  nodup := fun _ _ h => h.indexed.nodup
  lt := fun _ _ h => h.indexed.lt
  length_le := fun _ _ h => h.indexed.length_le
  add := by
    intro s ids fd h
    by_cases hneg : fd < 0
    · exact .inl ⟨s, by rw [Usual.addClient, if_pos hneg], h⟩
    · by_cases hlen : ids.length < maxClients
      · obtain ⟨id, s', hadd, h', -⟩ := h.addClient_eq hlen (by omega : 0 ≤ fd)
        exact .inr ⟨id, s', hadd, h'⟩
      · have hfull : ids.length = maxClients := le_antisymm h.indexed.length_le (by omega)
        refine .inl ⟨s, ?_, h⟩
        rw [Usual.addClient, if_neg hneg, h.nextId_full hfull]
        exact if_pos rfl
  remove := by
    intro s ids id h hid
    obtain ⟨p, hp, rfl⟩ := List.getElem_of_mem hid
    obtain ⟨s', hremove, h', -⟩ := h.removeClient_eq hp
    exact ⟨s', _, hremove, h', swapRemove_perm ids hp⟩

/-- In both programs every run of accepts and rounds is defined, so `commit_remove`
ends and stays inside the entries in use, and after every step `id_table` lists the
active ids of the server. -/
theorem idTables_list_active :
    (∀ (listenFd : ℤ) (ops : List (ProxyServer.TableOp Accepted)),
      RunKeeps (ProxyServer.ListsActive isValidId)
        (ProxyServer.tableStep addSession removeClient)
        (ProxyServer.prInitServer (builtServer listenFd)) ops) ∧
    ∀ (listenFd : ℤ) (ops : List (ProxyServer.TableOp ℤ)),
      RunKeeps (ProxyServer.ListsActive Usual.isValidId)
        (ProxyServer.tableStep Usual.addClient Usual.removeClient)
        (ProxyServer.prInitServer (Usual.builtServer listenFd)) ops :=
  ⟨fun listenFd => ProxyServer.listsActive_run manages_proxy
      (fun _ _ _ h => h.isValidId_iff) (Tables.built listenFd),
    fun listenFd => ProxyServer.listsActive_run manages_usual
      (fun _ _ _ h => h.isValidId_iff) (Usual.Tables.built listenFd)⟩

end UnixLabs.Lab33
