import EasyKeyDB.Dispatch

/-!
# The event loop keeps the table

The table of connections is sound in every state of the loop, in the middle of a
batch too. The events of a batch that are still to come keep their entries: an
entry only goes with its own event or in a sweep, and a batch names a descriptor
once (`Pending`). A descriptor number that is closed and handed out again within
a batch therefore meets no event of its former connection.
-/

namespace EasyKeyDB

open ByteBuffer

namespace Server

open Throwing

/-- The events to come in a batch find their entries. -/
def Pending (s : Server) (events : List Event) : Prop :=
  (events.map Event.fileDescriptor).Nodup ∧
    ∀ e ∈ events, e.fileDescriptor ≠ s.socket → ∃ c, s.entry e.fileDescriptor = some c

/-- The invariant of the loop. -/
structure Invariant (s : Server) : Prop where
  table : s.Table
  batch : ∀ events, s.control = .dispatching events → s.Pending events

section

variable {s s' : Server} {fd : Int} {now : UInt64} {c : Connection} {event : Event}
  {events : List Event} {accepted : Option Int} {reads : List ReadResult} {append : IoResult}

theorem Pending.nil : s.Pending [] :=
  ⟨List.nodup_nil, fun _ he => absurd he List.not_mem_nil⟩

theorem Pending.rest (h : s.Pending (event :: events)) (hsocket : s'.socket = s.socket)
    (hkept : ∀ fd, event.fileDescriptor ≠ fd → (∃ c, s.entry fd = some c) →
      ∃ c, s'.entry fd = some c) : s'.Pending events := by
  obtain ⟨hnodup, hthere⟩ := h
  obtain ⟨hevent, hnodup⟩ := List.nodup_cons.mp hnodup
  refine ⟨hnodup, ?_⟩
  intro e he hne
  rw [hsocket] at hne
  apply hkept
  · intro hsame
    exact hevent (hsame ▸ List.mem_map_of_mem he)
  · exact hthere e (List.mem_cons_of_mem _ he) hne

theorem Table.pending (h : s.Table) {batch : List EpollEvent}
    (hnodup : (batch.map EpollEvent.fileDescriptor).Nodup)
    (hwatched : ∀ e ∈ batch, s.ioNotifier.Watches e.fileDescriptor) :
    s.Pending (batch.map Event.ofEpoll) := by
  have hdescriptors : (batch.map Event.ofEpoll).map Event.fileDescriptor =
      batch.map EpollEvent.fileDescriptor := by
    rw [List.map_map]
    exact List.map_congr_left fun e _ => Event.fileDescriptor_ofEpoll e
  refine ⟨hdescriptors ▸ hnodup, ?_⟩
  intro event hevent hne
  obtain ⟨e, he, rfl⟩ := List.mem_map.mp hevent
  rw [Event.fileDescriptor_ofEpoll] at hne ⊢
  exact h.clients e.fileDescriptor (hwatched e he) hne

/-! ## The steps of the loop -/

theorem Table.outside (h : s.Table) (running signalled : Bool) (iterations : UInt16)
    (backlog : Nat) (control : Control) :
    Table { s with running, signalled, iterations, backlog, control } :=
  ⟨h.clients, h.sockets, h.listening, h.distinct, h.told⟩

theorem Table.unlisten (h : s.Table) :
    Table { s with ioNotifier := (s.ioNotifier.deleteEvent (Event.new s.socket)).2 } := by
  refine ⟨?_, ?_, h.listening, h.distinct, h.told⟩
  · intro fd hfd hne
    exact h.clients fd ((IONotifier.watches_deleteEvent _ _ _).mp hfd).1 hne
  · intro fd c hc
    obtain ⟨hclient, hopen, hwatched⟩ := h.sockets fd c hc
    refine ⟨hclient, hopen, (IONotifier.watches_deleteEvent _ _ _).mpr ⟨hwatched, ?_⟩⟩
    rintro rfl
    cases (show s.entry s.socket = some c from hc).symm.trans h.listening.2

theorem wait_ok (h : s.Table) (batch : List EpollEvent) (now : UInt64) :
    ∃ t, t.Table ∧ SameLoop s t ∧ (batch ≠ [] → t = s) ∧
      s.wait batch now = .ok { t with
        signalled := s.signalled && !batch.any fun e => e.fileDescriptor = s.socket
        control := .dispatching (batch.map Event.ofEpoll) } := by
  cases batch with
  | nil =>
      obtain ⟨t, hsweep, htable, hsame⟩ := checkIdleConnections_ok h now
      refine ⟨t, htable, hsame, fun hne => absurd rfl hne, ?_⟩
      have hwait : s.wait [] now = s.checkIdleConnections now >>= fun t => .ok { t with
          signalled := t.signalled && !false, control := .dispatching [] } := rfl
      rw [hwait, hsweep, ← hsame.signalled]
      rfl
  | cons e batch => exact ⟨s, h, .refl s, fun _ => rfl, rfl⟩

theorem wait_nil (hok : s.wait [] now = .ok s') :
    ∃ t signalled, s.checkIdleConnections now = .ok t ∧
      s' = { t with signalled, control := .dispatching [] } := by
  obtain ⟨t, hsweep, hafter⟩ := except_bind_eq_ok hok
  cases hafter
  exact ⟨t, _, hsweep, rfl⟩

theorem endOfBatch_eq (s : Server) (now : UInt64) :
    s.endOfBatch now = s.countIteration now >>= fun t => .ok t.closeIteration := by
  have hclose : ∀ t : Server, (if t.running then return { t with control := .waiting }
      else
        let notifier := (t.ioNotifier.deleteEvent (Event.new t.socket)).2
        return { t with ioNotifier := notifier, control := .stopped } : Except Fault Server) =
      .ok t.closeIteration := by
    intro t
    unfold closeIteration
    split_ifs <;> rfl
  unfold endOfBatch countIteration
  by_cases hdue : s.iterations + 1 = 1000
  · simp only [hdue, if_true]
    cases checkIdleConnections { s with iterations := 1000 } now with
    | error fault => rfl
    | ok t => exact hclose { t with iterations := 0 }
  · simp only [hdue, if_false]
    exact hclose { s with iterations := s.iterations + 1 }

theorem closeIteration_eq (s : Server) : ∃ ioNotifier control,
    s.closeIteration = { s with ioNotifier, control } := by
  unfold Server.closeIteration
  split_ifs
  · exact ⟨_, _, rfl⟩
  · exact ⟨_, _, rfl⟩

theorem endOfBatch_due (hdue : s.iterations + 1 = 1000) (hok : s.endOfBatch now = .ok s') :
    ∃ t, checkIdleConnections { s with iterations := s.iterations + 1 } now = .ok t ∧
      s' = closeIteration { t with iterations := 0 } := by
  rw [endOfBatch_eq, countIteration] at hok
  simp only [if_pos hdue] at hok
  obtain ⟨m, hm, hclose⟩ := except_bind_eq_ok hok
  obtain ⟨t, hsweep, hreset⟩ := except_bind_eq_ok hm
  cases hreset
  cases hclose
  exact ⟨t, hsweep, rfl⟩

theorem endOfBatch_not_due (hdue : ¬ s.iterations + 1 = 1000)
    (hok : s.endOfBatch now = .ok s') :
    s' = closeIteration { s with iterations := s.iterations + 1 } := by
  rw [endOfBatch_eq, countIteration] at hok
  simp only [if_neg hdue] at hok
  cases hok
  rfl

theorem countIteration_ok (h : s.Table) (now : UInt64) :
    ∃ t, t.Table ∧ SameLoop s t ∧ s.countIteration now = .ok t := by
  unfold countIteration
  by_cases hdue : s.iterations + 1 = 1000
  · have hcounted : Table { s with iterations := s.iterations + 1 } := h.outside _ _ _ _ _
    obtain ⟨t, hok, htable, hsame⟩ := checkIdleConnections_ok hcounted now
    refine ⟨{ t with iterations := 0 }, htable.outside _ _ _ _ _,
      ⟨hsame.notices, hsame.socket, hsame.running, hsame.backlog, hsame.signalled,
        hsame.control⟩, ?_⟩
    simp only [hdue, if_true] at hok ⊢
    rw [hok]
    rfl
  · refine ⟨{ s with iterations := s.iterations + 1 }, h.outside _ _ _ _ _,
      ⟨rfl, rfl, rfl, rfl, rfl, rfl⟩, ?_⟩
    simp only [hdue, if_false]
    rfl

theorem Table.closeIteration (h : s.Table) : s.closeIteration.Table := by
  unfold Server.closeIteration
  split_ifs
  · exact h.outside _ _ _ _ _
  · exact h.unlisten.outside _ _ _ _ _

theorem endOfBatch_ok (h : s.Table) (now : UInt64) :
    ∃ t, t.Table ∧ SameLoop s t ∧ s.endOfBatch now = .ok
      { t with control := if s.running then .waiting else .stopped } := by
  obtain ⟨t, htable, hsame, hcount⟩ := countIteration_ok h now
  have hend : s.endOfBatch now = .ok t.closeIteration := by
    rw [endOfBatch_eq, hcount]
    rfl
  rw [hend, ← hsame.running]
  cases hrunning : t.running with
  | true => exact ⟨t, htable, hsame, congrArg Except.ok (if_pos hrunning)⟩
  | false =>
      refine ⟨_, htable.unlisten, ⟨hsame.notices, hsame.socket, hsame.running,
        hsame.backlog, hsame.signalled, hsame.control⟩, ?_⟩
      exact congrArg Except.ok (if_neg (ne_true_of_eq_false hrunning))

theorem next_break (hcontrol : s.control = .dispatching (event :: events))
    (hrunning : s.running = false)
    (accepted : Option Int) (reads : List ReadResult) (append : IoResult) (now : UInt64) :
    s.next (.dispatch accepted reads append now) =
      .ok { s with control := .dispatching [] } := by
  simp only [next, hcontrol, hrunning]
  rfl

theorem next_dispatch (hcontrol : s.control = .dispatching (event :: events))
    (hrunning : s.running = true)
    (accepted : Option Int) (reads : List ReadResult) (append : IoResult) (now : UInt64) :
    s.next (.dispatch accepted reads append now) =
      s.dispatch event accepted reads append now >>= fun s' =>
        .ok { s' with control := .dispatching events } := by
  simp only [next, hcontrol, hrunning]
  rfl

theorem Invariant.dispatched (h : s.Invariant)
    (hcontrol : s.control = .dispatching (event :: events))
    (hfresh : ∀ fd ∈ accepted, fd ∉ s.descriptors) (reads : List ReadResult)
    (append : IoResult) (now : UInt64) : Dispatched s event accepted reads append now
      (s.dispatch event accepted reads append now) :=
  dispatch_cases h.table ((h.batch _ hcontrol).2 event List.mem_cons_self) hfresh

theorem Invariant.dispatch_ok (h : s.Invariant)
    (hcontrol : s.control = .dispatching (event :: events))
    (hfresh : ∀ fd ∈ accepted, fd ∉ s.descriptors) (reads : List ReadResult)
    (append : IoResult) (now : UInt64) :
    (∃ t, s.dispatch event accepted reads append now = .ok t ∧
        Dispatched s event accepted reads append now (.ok t)) ∨
      accepted = none ∧ s.dispatch event accepted reads append now = .error .couldNotAccept := by
  have hcases := h.dispatched hcontrol hfresh reads append now
  cases hresult : s.dispatch event accepted reads append now with
  | error fault =>
      rw [hresult] at hcases
      cases hcases with
      | refused _ hnone => exact Or.inr ⟨hnone, rfl⟩
  | ok t =>
      rw [hresult] at hcases
      exact Or.inl ⟨t, rfl, hcases⟩

theorem dispatch_step (h : s.Invariant)
    (hstep : Step s (.dispatch accepted reads append now) s') :
    ∃ event events, s.control = .dispatching (event :: events) ∧
      ((s.running = false ∧ s' = { s with control := .dispatching [] }) ∨
        s.running = true ∧ ∃ t, s.dispatch event accepted reads append now = .ok t ∧
          Dispatched s event accepted reads append now (.ok t) ∧
          s' = { t with control := .dispatching events }) := by
  obtain ⟨⟨⟨event, events, hcontrol⟩, hfresh⟩, hok⟩ := hstep
  refine ⟨event, events, hcontrol, ?_⟩
  rcases Bool.eq_false_or_eq_true s.running with hrunning | hrunning
  · right
    rw [next_dispatch hcontrol hrunning] at hok
    obtain ⟨t, ht, hafter⟩ := except_bind_eq_ok hok
    have hcases := h.dispatched hcontrol hfresh reads append now
    rw [ht] at hcases
    cases hafter
    exact ⟨hrunning, t, ht, hcases, rfl⟩
  · left
    rw [next_break hcontrol hrunning] at hok
    exact ⟨hrunning, (Except.ok.inj hok).symm⟩

theorem Dispatched.invariant {t : Server}
    (hd : Dispatched s event accepted reads append now (.ok t))
    (h : s.Invariant) (hcontrol : s.control = .dispatching (event :: events))
    (hfresh : ∀ fd ∈ accepted, fd ∉ s.descriptors) :
    Invariant { t with control := .dispatching events } := by
  refine ⟨(hd.table h.table hfresh).outside _ _ _ _ _, ?_⟩
  intro events' hevents
  obtain rfl := Control.dispatching.inj hevents
  -- Of the events to come only the socket and their entries matter.
  have hrest : t.Pending events := (h.batch _ hcontrol).rest hd.socket fun _ => hd.kept
  exact hrest

theorem next_dispatch_ok (h : s.Invariant) (hcontrol : s.control = .dispatching (event :: events))
    (hrunning : s.running = true)
    (hfresh : ∀ fd ∈ accepted, fd ∉ s.descriptors) (reads : List ReadResult)
    (append : IoResult) (now : UInt64) :
    (∃ s', s.next (.dispatch accepted reads append now) = .ok s' ∧ s'.Invariant ∧
        s'.notices = s.notices) ∨
      s.next (.dispatch accepted reads append now) = .error .couldNotAccept := by
  rw [next_dispatch hcontrol hrunning]
  rcases h.dispatch_ok hcontrol hfresh reads append now with ⟨t, ht, hcases⟩ | ⟨-, hfault⟩
  · left
    rw [ht]
    exact ⟨_, rfl, hcases.invariant h hcontrol hfresh, hcases.notices⟩
  · right
    rw [hfault]
    rfl

/-- No step of the loop ends the process, unless `accept` fails. -/
theorem next_ok (h : s.Invariant) {x : Label} (hx : s.Enabled x) :
    (∃ s', s.next x = .ok s' ∧ s'.Invariant ∧ s'.notices = s.notices) ∨
      s.next x = .error .couldNotAccept := by
  -- Where no events are to come, the table is all there is to it.
  have hidle : ∀ {t : Server} {control : Control}, t.Table →
      (∀ events, control = .dispatching events → events = []) →
      Invariant { t with control } := by
    intro t control ht hcontrol
    refine ⟨ht.outside _ _ _ _ _, ?_⟩
    intro events hevents
    rw [hcontrol events hevents]
    exact .nil
  cases x with
  | setUp =>
      left
      exact ⟨_, rfl, hidle (h.table.outside true s.signalled 0 s.backlog s.control) nofun, rfl⟩
  | wait batch now =>
      left
      obtain ⟨-, hnodup, hwatched⟩ := hx
      obtain ⟨t, htable, hsame, ht, hok⟩ := wait_ok h.table batch now
      refine ⟨_, hok, ⟨htable.outside _ _ _ _ _, ?_⟩, hsame.notices⟩
      rintro events hevents
      obtain rfl := Control.dispatching.inj hevents
      cases batch with
      | nil => exact .nil
      | cons e batch =>
          obtain rfl := ht (List.cons_ne_nil e batch)
          exact h.table.pending hnodup hwatched
  | dispatch accepted reads append now =>
      obtain ⟨⟨event, events, hcontrol⟩, hfresh⟩ := hx
      cases hrunning : s.running with
      | false =>
          left
          refine ⟨_, next_break hcontrol hrunning .., hidle h.table ?_, rfl⟩
          rintro events' hevents'
          exact (Control.dispatching.inj hevents').symm
      | true => exact next_dispatch_ok h hcontrol hrunning hfresh reads append now
  | endOfBatch now =>
      left
      obtain ⟨t, htable, hsame, hok⟩ := endOfBatch_ok h.table now
      refine ⟨_, hok, hidle htable ?_, hsame.notices⟩
      intro events hevents
      split_ifs at hevents
  | connect => exact .inl ⟨_, rfl, ⟨h.table.outside _ _ _ _ _, h.batch⟩, rfl⟩
  | stop => exact .inl ⟨_, rfl, ⟨h.table.outside _ _ _ _ _, h.batch⟩, rfl⟩

end

/-! ## Every run -/

theorem entry_starting (socket : Int) (connected disconnected : Bool)
    (others : Finset Int) (count : UInt32) (db : Database) (fd : Int) :
    (starting socket connected disconnected others count db).entry fd = none :=
  UnorderedMap.find?_empty fd

theorem invariant_starting (socket : Int) (connected disconnected : Bool)
    (others : Finset Int) (count : UInt32) (db : Database) :
    (starting socket connected disconnected others count db).Invariant := by
  have hnone := entry_starting socket connected disconnected others count db
  have hempty : ∀ fd, ¬ (IONotifier.new count).Watches fd := by
    rintro fd ⟨flags, hflags⟩
    rw [IONotifier.new, UnorderedMap.find?_empty] at hflags
    cases hflags
  have hwatches : ∀ fd,
      (starting socket connected disconnected others count db).ioNotifier.Watches fd ↔
        (IONotifier.new count).Watches fd ∨ socket = fd :=
    IONotifier.watches_addEvent (IONotifier.new count) ((Event.new socket).add .read)
  refine ⟨⟨?_, ?_, ⟨Finset.mem_insert_self _ _, hnone socket⟩, ?_, ?_⟩, nofun⟩
  · intro fd hfd hne
    rcases (hwatches fd).mp hfd with hfd | hfd
    · exact absurd hfd (hempty fd)
    · exact absurd hfd.symm hne
  · intro fd c hc
    rw [hnone] at hc
    cases hc
  · intro a b ca cb ha
    rw [hnone] at ha
    cases ha
  · refine Lifecycle.Consistent.congr .nil fun n => ⟨?_, False.elim⟩
    rintro ⟨fd, c, hc, -⟩
    rw [hnone] at hc
    cases hc

theorem run_invariant {s t : Server} {xs : List Label} (hs : s.Invariant)
    (h : Run Step s xs t) : t.Invariant ∧ t.notices = s.notices := by
  have hstep : ∀ m x m', m.Invariant ∧ m.notices = s.notices → Step m x m' →
      m'.Invariant ∧ m'.notices = s.notices := by
    rintro m x m' ⟨hm, hnotices⟩ ⟨hx, hok⟩
    rcases next_ok hm hx with ⟨t, ht, hinvariant, hsame⟩ | hfault
    · obtain rfl := Except.ok.inj (ht.symm.trans hok)
      exact ⟨hinvariant, hsame.trans hnotices⟩
    · cases hfault.symm.trans hok
  exact h.invariant (I := fun m => m.Invariant ∧ m.notices = s.notices) ⟨hs, rfl⟩ hstep

/-- What the table of connections guarantees in a state, with the callbacks that
are set. -/
structure ConnectionTable (s : Server) (connected disconnected : Bool) : Prop where
  /-- A registered client is the key of an open socket with its descriptor. -/
  registered : ∀ fd, s.ioNotifier.Watches fd → fd ≠ s.socket →
    ∃ c, s.currentConnections.find? fd = some c ∧ c.client.fileDescriptor = fd ∧
      fd ∈ s.descriptors
  /-- No step throws or follows a null pointer, except that `accept` may fail. -/
  noFault : ∀ x fault, s.Enabled x → s.next x = .error fault → fault = .couldNotAccept
  /-- A new client gets an entry, and its buffer is empty. -/
  accepted : ∀ event events fd reads append now,
    s.control = .dispatching (event :: events) → event.isFor s.socket = true →
    s.running = true → s.Enabled (.dispatch (some fd) reads append now) →
    ∃ s' c, s.next (.dispatch (some fd) reads append now) = .ok s' ∧
      s.currentConnections.find? fd = none ∧ s'.currentConnections.find? fd = some c ∧
      c.number = s.accepts ∧ s'.accepts = s.accepts + 1 ∧
      c.client.fileDescriptor = fd ∧ c.client.readBuffer.buffer = []
  /-- Each accepted connection is announced once. -/
  connected : ∀ n, s.callbacks.count (.connected n) =
    if n < s.accepts then connected.toNat else 0
  /-- No connection that is there, or yet to come, is taken leave of. -/
  present : ∀ n, s.Live n ∨ s.accepts ≤ n → s.callbacks.count (.disconnected n) = 0
  /-- Each accepted connection that is gone is taken leave of once. -/
  removed : ∀ n, n < s.accepts → ¬ s.Live n →
    s.callbacks.count (.disconnected n) = disconnected.toNat

/-- **Every state of every run of the event loop has a sound table.** -/
theorem connection_table {socket : Int} {connected disconnected : Bool}
    {others : Finset Int} {count : UInt32} {db : Database} {xs : List Label} {s : Server}
    (h : Run Step (starting socket connected disconnected others count db) xs s) :
    s.ConnectionTable connected disconnected := by
  obtain ⟨hs, hnotices⟩ := run_invariant (invariant_starting ..) h
  have htold := hs.table.told
  rw [hnotices] at htold
  refine ⟨?_, ?_, ?_, htold.opened, ?_, htold.ended⟩
  · intro fd hfd hne
    obtain ⟨c, hc⟩ := hs.table.clients fd hfd hne
    obtain ⟨hclient, hopen, -⟩ := hs.table.sockets fd c hc
    exact ⟨c, hc, hclient, hopen⟩
  · intro x fault hx hfault
    rcases next_ok hs hx with ⟨s', hok, -⟩ | hok
    · cases hok.symm.trans hfault
    · exact (Except.error.inj (hok.symm.trans hfault)).symm
  · rintro event events fd reads append now hcontrol hevent hrunning ⟨-, hfresh⟩
    have hfree := hs.table.entry_eq_none (hfresh fd rfl)
    refine ⟨{ s.enter fd now with control := .dispatching events },
      ⟨s.accepts, ClientSocket.new fd now []⟩, ?_, hfree, ?_, rfl, rfl, rfl, rfl⟩
    · rw [next_dispatch hcontrol hrunning, dispatch_listening hevent hfree]
      rfl
    · exact (entry_enter hfree now fd).trans (if_pos rfl)
  · rintro n (hn | hn)
    · exact htold.running n hn
    · exact htold.future n hn

/-- Two connections that get descriptor 5 one after the other: the second is
accepted in the batch in which the first is closed. It is removed when it has
been idle. -/
def reuse : List Label :=
  [.setUp, .connect, .wait [⟨0x001, 3⟩] 0, .dispatch (some 5) [] .complete 0, .endOfBatch 0,
    .connect, .wait [⟨0x2001, 5⟩, ⟨0x001, 3⟩] 1, .dispatch none [] .complete 1,
    .dispatch (some 5) [] .complete 1, .endOfBatch 1,
    .wait [⟨0x005, 5⟩] 2, .dispatch none [.bytes (Request.read keyA).encode] .complete 2,
    .endOfBatch 2, .wait [] 300000000002]

theorem reuse_connection_table :
    ∃ s, Run Step (starting 3 true true {0, 1, 2} 0 Database.new) reuse s ∧
      s.callbacks =
        [.connected 0, .disconnected 0, .connected 1, .disconnected 1] ∧
      s.ConnectionTable true true := by
  have hcall : (reuse.foldlM (attempt Enabled next)
      (starting 3 true true {0, 1, 2} 0 Database.new)).map callbacks =
        some [.connected 0, .disconnected 0, .connected 1, .disconnected 1] := by
    decide +kernel
  obtain ⟨s, hrun, hcallbacks⟩ := Run.of_view hcall
  exact ⟨s, hrun, hcallbacks, connection_table hrun⟩

end Server

end EasyKeyDB
