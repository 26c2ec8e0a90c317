import EasyKeyDB.EventLoop

/-!
# What a step does to the connections

A step of the loop does one of three things to the connections and the database:
some connections go, one comes, or a request on one is handled (`Effect`). These
are the only places from which the entries of `current_connections` change.
-/

namespace EasyKeyDB

open ByteBuffer

namespace Server

section

variable {s s' : Server} {event : Event} {accepted : Option Int} {reads : List ReadResult}
  {append : IoResult} {now : UInt64}

theorem entry_serve_of_some {fd : Int} {c : Connection} (hc : s.entry fd = some c)
    (db : Database) (client : ClientSocket Chunks) (fd' : Int) :
    (s.serve fd db client).entry fd' =
      if fd = fd' then some { c with client } else s.entry fd' := by
  rw [entry_serve]
  by_cases hsame : fd = fd'
  · subst hsame
    rw [if_pos rfl, if_pos rfl, hc]
    rfl
  · rw [if_neg hsame, if_neg hsame]

structure OnlyLeaves (s s' : Server) : Prop where
  entries : ∀ fd c, s'.entry fd = some c → s.entry fd = some c
  database : s'.database = s.database
  accepts : s'.accepts = s.accepts

theorem OnlyLeaves.refl (s : Server) : OnlyLeaves s s := ⟨fun _ _ => id, rfl, rfl⟩

theorem OnlyLeaves.trans (s m t : Server) (h : OnlyLeaves s m) (h' : OnlyLeaves m t) :
    OnlyLeaves s t :=
  ⟨fun fd c hc => h.entries fd c (h'.entries fd c hc), h'.database.trans h.database,
    h'.accepts.trans h.accepts⟩

theorem onlyLeaves_leave (s : Server) (fd : Int) (c : Connection) :
    OnlyLeaves s (s.leave fd c) := by
  refine ⟨?_, rfl, rfl⟩
  intro fd' c' hc'
  rw [entry_leave] at hc'
  split_ifs at hc'
  exact hc'

theorem handleClientDisconnected_onlyLeaves {fd : Int}
    (hok : s.handleClientDisconnected fd = .ok s') : OnlyLeaves s s' := by
  have hgone : ∀ fd' c, (s.currentConnections.erase fd).find? fd' = some c →
      s.currentConnections.find? fd' = some c := by
    intro fd' c hc
    rw [UnorderedMap.find?_erase] at hc
    split_ifs at hc
    exact hc
  unfold handleClientDisconnected at hok
  cases hset : s.clientDisconnectedCallback <;>
    cases hfind : s.currentConnections.find? fd <;>
    simp only [hset, hfind, Bool.false_eq_true, if_false, if_true, pure_bind] at hok <;>
    cases hok
  · exact ⟨fun _ _ => id, rfl, rfl⟩
  · exact ⟨hgone, rfl, rfl⟩
  · exact ⟨hgone, rfl, rfl⟩

theorem checkIdleConnections_onlyLeaves (hok : s.checkIdleConnections now = .ok s') :
    OnlyLeaves s s' :=
  foldlM_relates OnlyLeaves.refl OnlyLeaves.trans
    (fun _ _ _ => handleClientDisconnected_onlyLeaves) hok

theorem wait_onlyLeaves {batch : List EpollEvent} (hok : s.wait batch now = .ok s') :
    OnlyLeaves s s' := by
  cases batch with
  | nil =>
      obtain ⟨t, signalled, hsweep, rfl⟩ := wait_nil hok
      obtain ⟨hentries, hdatabase, haccepts⟩ := checkIdleConnections_onlyLeaves hsweep
      exact ⟨hentries, hdatabase, haccepts⟩
  | cons e batch =>
      cases hok
      exact ⟨fun _ _ => id, rfl, rfl⟩

theorem onlyLeaves_closeIteration (s : Server) : OnlyLeaves s s.closeIteration := by
  obtain ⟨ioNotifier, control, hclose⟩ := s.closeIteration_eq
  rw [hclose]
  exact ⟨fun _ _ => id, rfl, rfl⟩

theorem endOfBatch_onlyLeaves (hok : s.endOfBatch now = .ok s') : OnlyLeaves s s' := by
  by_cases hdue : s.iterations + 1 = 1000
  · obtain ⟨t, hsweep, rfl⟩ := endOfBatch_due hdue hok
    obtain ⟨hentries, hdatabase, haccepts⟩ := checkIdleConnections_onlyLeaves hsweep
    exact OnlyLeaves.trans s { t with iterations := 0 } _ ⟨hentries, hdatabase, haccepts⟩
      (onlyLeaves_closeIteration _)
  · obtain rfl := endOfBatch_not_due hdue hok
    exact OnlyLeaves.trans s { s with iterations := s.iterations + 1 } _
      ⟨fun _ _ => id, rfl, rfl⟩ (onlyLeaves_closeIteration _)

/-- The request that a step handles: the connection, what its reads return, and
the outcome of the append. -/
def handles (s : Server) : Label → Option (Connection × List ReadResult × IoResult)
  | .dispatch _ reads append _ =>
    match s.control with
    | .dispatching (event :: _) =>
      if s.running then (s.requesting event).map fun c => (c, reads, append) else none
    | _ => none
  | _ => none

inductive Effect (s : Server) (x : Label) (s' : Server) : Prop
  | leaves : s.handles x = none → OnlyLeaves s s' → Effect s x s'
  | enters {fd : Int} {now : UInt64} : s.handles x = none → s.entry fd = none →
      (∀ fd', s'.entry fd' =
        if fd = fd' then some ⟨s.accepts, ClientSocket.new fd now []⟩ else s.entry fd') →
      s'.database = s.database → s'.accepts = s.accepts + 1 → Effect s x s'
  | serves {fd : Int} {c : Connection} {reads : List ReadResult} {append : IoResult}
      {client : ClientSocket Chunks} : s.handles x = some (c, reads, append) →
      s.entry fd = some c → AfterRequest s.database c reads client →
      (∀ fd', s'.entry fd' = if fd = fd' then some { c with client } else s.entry fd') →
      s'.database = (parse (c.found reads)).database append s.database →
      s'.accepts = s.accepts → Effect s x s'

theorem effect_of_dispatched {x : Label} {t : Server} (control : Control)
    (hcases : Dispatched s event accepted reads append now (.ok t))
    (hhandles : s.handles x = (s.requesting event).map fun c => (c, reads, append)) :
    Effect s x { t with control } := by
  cases hcases with
  | @entered fd hlistening haccepted hfree =>
      rw [requesting_of_listening hlistening] at hhandles
      exact .enters hhandles hfree (entry_enter hfree now) rfl rfl
  | @left c hnone _ _ =>
      rw [hnone] at hhandles
      obtain ⟨hentries, hdatabase, haccepts⟩ := onlyLeaves_leave s event.fileDescriptor c
      exact .leaves hhandles ⟨hentries, hdatabase, haccepts⟩
  | @served c client hsome hc hafter =>
      rw [hsome] at hhandles
      refine .serves hhandles hc hafter ?_ rfl rfl
      exact entry_serve_of_some hc s.database client
  | ignored hnone _ =>
      rw [hnone] at hhandles
      exact .leaves hhandles ⟨fun _ _ => id, rfl, rfl⟩

/-- **What a step does**, from a state of the loop. -/
theorem step_effect (h : s.Invariant) {x : Label} (hstep : Step s x s') : Effect s x s' := by
  rcases hstep with ⟨hx, hok⟩
  cases x with
  | setUp =>
      cases hok
      exact .leaves rfl ⟨fun _ _ => id, rfl, rfl⟩
  | connect =>
      cases hok
      exact .leaves rfl ⟨fun _ _ => id, rfl, rfl⟩
  | stop =>
      cases hok
      exact .leaves rfl ⟨fun _ _ => id, rfl, rfl⟩
  | wait batch now => exact .leaves rfl (wait_onlyLeaves hok)
  | endOfBatch now => exact .leaves rfl (endOfBatch_onlyLeaves hok)
  | dispatch accepted reads append now =>
      obtain ⟨event, events, hcontrol, ⟨hrunning, rfl⟩ | ⟨hrunning, t, -, hcases, rfl⟩⟩ :=
        dispatch_step h ⟨hx, hok⟩
      · have hnone : s.handles (.dispatch accepted reads append now) = none := by
          simp only [handles, hcontrol, hrunning]
          rfl
        exact .leaves hnone ⟨fun _ _ => id, rfl, rfl⟩
      · have hhandles : s.handles (.dispatch accepted reads append now) =
            (s.requesting event).map fun c => (c, reads, append) := by
          simp only [handles, hcontrol, hrunning]
          rfl
        exact effect_of_dispatched _ hcases hhandles

end

end Server

end EasyKeyDB
