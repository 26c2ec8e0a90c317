import EasyKeyDB.Library.Lifecycle
import EasyKeyDB.Server

/-!
# The table of connections

What holds between the epoll instance, `current_connections`, the open
descriptors and the callbacks (`Table`), and that the handlers keep it: a new
connection (`enter`), one that goes (`leave`), a request (`serve`), and a sweep,
which is a sequence of connections that go (`leaveAll`).
-/

namespace EasyKeyDB

open ByteBuffer

namespace Server

def entry (s : Server) (fd : Int) : Option Connection := s.currentConnections.find? fd

/-- The connection with this number is in the table. -/
def Live (s : Server) (n : Nat) : Prop := ∃ fd c, s.entry fd = some c ∧ c.number = n

theorem connected_ne_disconnected (m n : Nat) :
    Callback.connected m ≠ Callback.disconnected n := nofun

def notices (s : Server) : Lifecycle.Notices Callback where
  opened := .connected
  closed := .disconnected
  tellsOpened := s.clientConnectedCallback
  tellsClosed := s.clientDisconnectedCallback
  opened_injective := fun _ _ => Callback.connected.inj
  closed_injective := fun _ _ => Callback.disconnected.inj
  opened_ne_closed := connected_ne_disconnected

/-- Registered clients have entries, entries belong to open, registered
descriptors, and the callbacks have been told of each connection what there is
to tell. -/
structure Table (s : Server) : Prop where
  clients : ∀ fd, s.ioNotifier.Watches fd → fd ≠ s.socket → ∃ c, s.entry fd = some c
  sockets : ∀ fd c, s.entry fd = some c →
    c.client.fileDescriptor = fd ∧ fd ∈ s.descriptors ∧ s.ioNotifier.Watches fd
  listening : s.socket ∈ s.descriptors ∧ s.entry s.socket = none
  distinct : ∀ fd fd' c c', s.entry fd = some c → s.entry fd' = some c' →
    c.number = c'.number → fd = fd'
  told : Lifecycle.Consistent s.notices s.accepts s.Live s.callbacks

/-- The loop is where it was, and so is the accept queue. -/
structure SameLoop (s s' : Server) : Prop where
  notices : s'.notices = s.notices
  socket : s'.socket = s.socket
  running : s'.running = s.running
  backlog : s'.backlog = s.backlog
  signalled : s'.signalled = s.signalled
  control : s'.control = s.control

theorem SameLoop.refl (s : Server) : SameLoop s s := ⟨rfl, rfl, rfl, rfl, rfl, rfl⟩

theorem SameLoop.trans {s s' s'' : Server} (h : SameLoop s s') (h' : SameLoop s' s'') :
    SameLoop s s'' :=
  ⟨h'.notices.trans h.notices, h'.socket.trans h.socket, h'.running.trans h.running,
    h'.backlog.trans h.backlog, h'.signalled.trans h.signalled, h'.control.trans h.control⟩

section

variable {s : Server} {fd : Int} {now : UInt64} {c : Connection}

/-! ## A new connection -/

def enter (s : Server) (fd : Int) (now : UInt64) : Server :=
  let event := (((Event.new fd).add .read).add .closeConnection).add .write
  { s with
    descriptors := insert fd s.descriptors
    backlog := s.backlog - 1
    accepts := s.accepts + 1
    ioNotifier := (s.ioNotifier.addEvent event).2
    callbacks := Lifecycle.record s.clientConnectedCallback s.callbacks (.connected s.accepts)
    currentConnections :=
      s.currentConnections.insert fd ⟨s.accepts, ClientSocket.new fd now []⟩ }

theorem Table.entry_eq_none (h : s.Table) (hfd : fd ∉ s.descriptors) :
    s.entry fd = none := by
  by_contra hentry
  obtain ⟨c, hc⟩ := Option.ne_none_iff_exists'.mp hentry
  exact hfd (h.sockets fd c hc).2.1

theorem handleNewConnection_ok (hfree : s.entry fd = none) (now : UInt64) :
    s.handleNewConnection (some fd) now = .ok (s.enter fd now) := if_pos hfree

theorem entry_enter (hfree : s.entry fd = none) (now : UInt64) (fd' : Int) :
    (s.enter fd now).entry fd' =
      if fd = fd' then some ⟨s.accepts, ClientSocket.new fd now []⟩ else s.entry fd' := by
  show (s.currentConnections.insert fd _).find? fd' = _
  by_cases hfd : fd = fd'
  · subst hfd
    rw [if_pos rfl, UnorderedMap.find?_insert_self hfree]
  · rw [if_neg hfd, UnorderedMap.find?_insert_of_ne hfd]
    rfl

theorem entry_enter_of_some (hfree : s.entry fd = none) (now : UInt64) {fd' : Int}
    (hc : s.entry fd' = some c) : (s.enter fd now).entry fd' = some c := by
  have hother : fd ≠ fd' := by
    rintro rfl
    rw [hfree] at hc
    cases hc
  rw [entry_enter hfree, if_neg hother, hc]

theorem live_enter (hfree : s.entry fd = none) (now : UInt64) (n : Nat) :
    (s.enter fd now).Live n ↔ s.Live n ∨ n = s.accepts := by
  unfold Live
  constructor
  · rintro ⟨fd', c, hc, rfl⟩
    rw [entry_enter hfree] at hc
    by_cases hsame : fd = fd'
    · rw [if_pos hsame, Option.some.injEq] at hc
      subst hc
      exact Or.inr rfl
    · rw [if_neg hsame] at hc
      exact Or.inl ⟨fd', c, hc, rfl⟩
  · rintro (⟨fd', c, hc, rfl⟩ | rfl)
    · exact ⟨fd', c, entry_enter_of_some hfree now hc, rfl⟩
    · refine ⟨fd, ⟨s.accepts, ClientSocket.new fd now []⟩, ?_, rfl⟩
      rw [entry_enter hfree, if_pos rfl]

theorem Table.enter (h : s.Table) (hfd : fd ∉ s.descriptors) (now : UInt64) :
    (s.enter fd now).Table := by
  have hfree := h.entry_eq_none hfd
  have hwatches : ∀ fd', (s.enter fd now).ioNotifier.Watches fd' ↔
      s.ioNotifier.Watches fd' ∨ fd = fd' := IONotifier.watches_addEvent _ _
  -- A connection from before has a number below the new one.
  have hnumber : ∀ fd' c, s.entry fd' = some c → c.number < s.accepts := fun fd' c hc =>
    h.told.issued _ ⟨fd', c, hc, rfl⟩
  refine ⟨?_, ?_, ?_, ?_, h.told.opens (live_enter hfree now)⟩
  · intro fd' hfd' hne
    rw [entry_enter hfree]
    by_cases hsame : fd = fd'
    · exact ⟨_, if_pos hsame⟩
    · rw [if_neg hsame]
      exact h.clients fd' (((hwatches fd').mp hfd').resolve_right hsame) hne
  · intro fd' c hc
    rw [entry_enter hfree] at hc
    by_cases hsame : fd = fd'
    · subst hsame
      rw [if_pos rfl, Option.some.injEq] at hc
      subst hc
      exact ⟨rfl, Finset.mem_insert_self _ _, (hwatches fd).mpr (Or.inr rfl)⟩
    · rw [if_neg hsame] at hc
      obtain ⟨hclient, hopen, hwatched⟩ := h.sockets fd' c hc
      exact ⟨hclient, Finset.mem_insert_of_mem hopen, (hwatches fd').mpr (Or.inl hwatched)⟩
  · have hother : fd ≠ s.socket := fun hsame => hfd (hsame ▸ h.listening.1)
    refine ⟨Finset.mem_insert_of_mem h.listening.1, ?_⟩
    rw [entry_enter hfree]
    exact (if_neg hother).trans h.listening.2
  · intro a b ca cb ha hb hsame
    rw [entry_enter hfree] at ha hb
    by_cases hfa : fd = a
    · by_cases hfb : fd = b
      · exact hfa.symm.trans hfb
      · rw [if_pos hfa, Option.some.injEq] at ha
        rw [if_neg hfb] at hb
        subst ha
        exact absurd hsame (hnumber b cb hb).ne'
    · by_cases hfb : fd = b
      · rw [if_neg hfa] at ha
        rw [if_pos hfb, Option.some.injEq] at hb
        subst hb
        exact absurd hsame (hnumber a ca ha).ne
      · rw [if_neg hfa] at ha
        rw [if_neg hfb] at hb
        exact h.distinct a b ca cb ha hb hsame

/-! ## A connection goes -/

def leave (s : Server) (fd : Int) (c : Connection) : Server :=
  { s with
    descriptors := s.descriptors.erase fd
    ioNotifier := (s.ioNotifier.deleteEvent (Event.new fd)).2.closed fd
    callbacks :=
      Lifecycle.record s.clientDisconnectedCallback s.callbacks (.disconnected c.number)
    currentConnections := s.currentConnections.erase fd }

theorem handleClientDisconnected_ok (h : s.Table) (hc : s.entry fd = some c) :
    s.handleClientDisconnected fd = .ok (s.leave fd c) := by
  have hfind : s.currentConnections.find? fd = some c := hc
  have hclient := (h.sockets fd c hc).1
  unfold handleClientDisconnected leave Lifecycle.record
  cases hset : s.clientDisconnectedCallback with
  | true =>
      simp only [hfind, if_true, pure_bind]
      rw [hclient]
      rfl
  | false =>
      simp only [hfind, Bool.false_eq_true, if_false, pure_bind]
      rw [hclient, ← hset]
      rfl

theorem entry_leave (s : Server) (fd : Int) (c : Connection) (fd' : Int) :
    (s.leave fd c).entry fd' = if fd = fd' then none else s.entry fd' :=
  UnorderedMap.find?_erase _ _ _

theorem live_leave (h : s.Table) (hc : s.entry fd = some c) (n : Nat) :
    (s.leave fd c).Live n ↔ s.Live n ∧ n ≠ c.number := by
  unfold Live
  constructor
  · rintro ⟨fd', c', hc', rfl⟩
    rw [entry_leave] at hc'
    by_cases hsame : fd = fd'
    · rw [if_pos hsame] at hc'
      cases hc'
    · rw [if_neg hsame] at hc'
      refine ⟨⟨fd', c', hc', rfl⟩, ?_⟩
      intro hnumber
      exact hsame (h.distinct _ _ _ _ hc hc' hnumber.symm)
  · rintro ⟨⟨fd', c', hc', rfl⟩, hne⟩
    have hother : fd ≠ fd' := by
      rintro rfl
      rw [hc, Option.some.injEq] at hc'
      exact hne (congrArg Connection.number hc'.symm)
    refine ⟨fd', c', ?_, rfl⟩
    rw [entry_leave, if_neg hother, hc']

theorem watches_leave (s : Server) (fd : Int) (c : Connection) (fd' : Int) :
    (s.leave fd c).ioNotifier.Watches fd' ↔ s.ioNotifier.Watches fd' ∧ fd ≠ fd' := by
  show ((s.ioNotifier.deleteEvent (Event.new fd)).2.closed fd).Watches fd' ↔ _
  rw [IONotifier.watches_closed, IONotifier.watches_deleteEvent, and_assoc]
  exact and_congr_right fun _ => and_self_iff

theorem Table.leave (h : s.Table) (hc : s.entry fd = some c) : (s.leave fd c).Table := by
  -- The listening socket has no entry, so it is not the one that is closed.
  have hsocket : fd ≠ s.socket := by
    rintro rfl
    rw [h.listening.2] at hc
    cases hc
  have hkept : ∀ {fd' c'}, (s.leave fd c).entry fd' = some c' →
      fd ≠ fd' ∧ s.entry fd' = some c' := by
    intro fd' c' hc'
    rw [entry_leave] at hc'
    by_cases hsame : fd = fd'
    · rw [if_pos hsame] at hc'
      cases hc'
    · rw [if_neg hsame] at hc'
      exact ⟨hsame, hc'⟩
  refine ⟨?_, ?_, ?_, ?_, ?_⟩
  · intro fd' hfd' hne
    obtain ⟨hwatched, hother⟩ := (watches_leave s fd c fd').mp hfd'
    rw [entry_leave, if_neg hother]
    exact h.clients fd' hwatched hne
  · intro fd' c' hc'
    obtain ⟨hother, hc'⟩ := hkept hc'
    obtain ⟨hclient, hopen, hwatched⟩ := h.sockets fd' c' hc'
    exact ⟨hclient, Finset.mem_erase.mpr ⟨hother.symm, hopen⟩,
      (watches_leave s fd c fd').mpr ⟨hwatched, hother⟩⟩
  · refine ⟨Finset.mem_erase.mpr ⟨hsocket.symm, h.listening.1⟩, ?_⟩
    rw [entry_leave]
    exact (if_neg hsocket).trans h.listening.2
  · intro a b ca cb ha hb hsame
    exact h.distinct a b ca cb (hkept ha).2 (hkept hb).2 hsame
  · exact h.told.closes ⟨fd, c, hc, rfl⟩ (live_leave h hc)

/-! ## A request -/

def serve (s : Server) (fd : Int) (db : Database) (client : ClientSocket Chunks) : Server :=
  { s with
    database := db
    currentConnections := s.currentConnections.modify fd fun c => { c with client } }

theorem entry_serve (s : Server) (fd : Int) (db : Database) (client : ClientSocket Chunks)
    (fd' : Int) :
    (s.serve fd db client).entry fd' =
      if fd = fd' then (s.entry fd').map fun c => { c with client } else s.entry fd' :=
  UnorderedMap.find?_modify _ _ _ _

theorem entry_serve_iff {db : Database} {client : ClientSocket Chunks}
    (hc : s.entry fd = some c) (hclient : client.fileDescriptor = c.client.fileDescriptor)
    (fd' : Int) (n : Nat) (d : Int) :
    (∃ c', (s.serve fd db client).entry fd' = some c' ∧ c'.number = n ∧
        c'.client.fileDescriptor = d) ↔
      ∃ c', s.entry fd' = some c' ∧ c'.number = n ∧ c'.client.fileDescriptor = d := by
  rw [entry_serve]
  by_cases hsame : fd = fd'
  · subst hsame
    rw [if_pos rfl, hc]
    constructor
    · rintro ⟨c', hc', rfl, rfl⟩
      obtain rfl := Option.some.inj hc'
      exact ⟨c, rfl, rfl, hclient.symm⟩
    · rintro ⟨c', hc', rfl, rfl⟩
      obtain rfl := Option.some.inj hc'
      exact ⟨_, rfl, rfl, hclient⟩
  · rw [if_neg hsame]

theorem Table.serve (h : s.Table) {db : Database} {client : ClientSocket Chunks}
    (hc : s.entry fd = some c) (hclient : client.fileDescriptor = c.client.fileDescriptor) :
    (s.serve fd db client).Table := by
  have hback : ∀ {fd' c'}, (s.serve fd db client).entry fd' = some c' →
      ∃ c'', s.entry fd' = some c'' ∧ c''.number = c'.number ∧
        c''.client.fileDescriptor = c'.client.fileDescriptor := fun {fd' c'} hc' =>
    (entry_serve_iff hc hclient fd' _ _).mp ⟨c', hc', rfl, rfl⟩
  have hlive : ∀ n, (s.serve fd db client).Live n ↔ s.Live n := by
    intro n
    constructor
    · rintro ⟨fd', c', hc', rfl⟩
      obtain ⟨c'', hc'', hnumber, -⟩ := hback hc'
      exact ⟨fd', c'', hc'', hnumber⟩
    · rintro ⟨fd', c', hc', rfl⟩
      obtain ⟨c'', hc'', hnumber, -⟩ :=
        (entry_serve_iff hc hclient fd' _ _).mpr ⟨c', hc', rfl, rfl⟩
      exact ⟨fd', c'', hc'', hnumber⟩
  refine ⟨?_, ?_, ?_, ?_, h.told.congr hlive⟩
  · intro fd' hfd' hne
    obtain ⟨c', hc'⟩ := h.clients fd' hfd' hne
    obtain ⟨c'', hc'', -⟩ := (entry_serve_iff hc hclient fd' _ _).mpr ⟨c', hc', rfl, rfl⟩
    exact ⟨c'', hc''⟩
  · intro fd' c' hc'
    obtain ⟨c'', hc'', -, hdescriptor⟩ := hback hc'
    rw [← hdescriptor]
    exact h.sockets fd' c'' hc''
  · refine ⟨h.listening.1, ?_⟩
    by_contra hentry
    obtain ⟨c', hc'⟩ := Option.ne_none_iff_exists'.mp hentry
    obtain ⟨c'', hc'', -⟩ := hback hc'
    cases hc''.symm.trans h.listening.2
  · intro a b ca cb ha hb hsame
    obtain ⟨ca', ha', hna, -⟩ := hback ha
    obtain ⟨cb', hb', hnb, -⟩ := hback hb
    exact h.distinct a b ca' cb' ha' hb' (hna.trans (hsame.trans hnb.symm))

/-! ## A sweep -/

theorem toRemove_spec (s : Server) (now : UInt64) :
    (s.toRemove now).Nodup ∧ ∀ fd ∈ s.toRemove now, ∃ c, s.entry fd = some c := by
  refine ⟨s.currentConnections.nodup_keys.filter _, ?_⟩
  intro fd hfd
  exact UnorderedMap.mem_keys.mp (List.mem_of_mem_filter hfd)

def leaveAll (s : Server) (gone : List Connection) : Server :=
  gone.foldl (fun s c => s.leave c.client.fileDescriptor c) s

theorem leaveAll_cons (s : Server) (c : Connection) (gone : List Connection) :
    s.leaveAll (c :: gone) = (s.leave c.client.fileDescriptor c).leaveAll gone := rfl

theorem sameLoop_leaveAll (s : Server) (gone : List Connection) :
    SameLoop s (s.leaveAll gone) := by
  induction gone generalizing s with
  | nil => exact .refl s
  | cons c gone ih =>
      have hleave : SameLoop s (s.leave c.client.fileDescriptor c) :=
        ⟨rfl, rfl, rfl, rfl, rfl, rfl⟩
      exact hleave.trans (ih _)

/-- The loop over descriptors that have entries: each entry is there when its turn
comes. -/
theorem foldlM_leaveAll (h : s.Table) {fds : List Int} (hnodup : fds.Nodup)
    (hthere : ∀ fd ∈ fds, ∃ c, s.entry fd = some c) :
    ∃ gone : List Connection, (gone.map fun c => c.client.fileDescriptor) = fds ∧
      (∀ c ∈ gone, s.entry c.client.fileDescriptor = some c) ∧
      (s.leaveAll gone).Table ∧
      fds.foldlM handleClientDisconnected s = .ok (s.leaveAll gone) := by
  induction fds generalizing s with
  | nil => exact ⟨[], rfl, nofun, h, rfl⟩
  | cons fd fds ih =>
      obtain ⟨c, hc⟩ := hthere fd List.mem_cons_self
      obtain ⟨hfd, hnodup⟩ := List.nodup_cons.mp hnodup
      have hdescriptor : c.client.fileDescriptor = fd := (h.sockets fd c hc).1
      -- The loop erases from the map, but only the entry whose turn it is.
      have hrest : ∀ fd' ∈ fds, ∃ c', (s.leave fd c).entry fd' = some c' := by
        intro fd' hfd'
        have hother : fd ≠ fd' := fun hsame => hfd (hsame ▸ hfd')
        rw [entry_leave, if_neg hother]
        exact hthere fd' (List.mem_cons_of_mem fd hfd')
      obtain ⟨gone, hmap, hgone, htable, hloop⟩ := ih (h.leave hc) hnodup hrest
      refine ⟨c :: gone, ?_, ?_, ?_, ?_⟩
      · rw [List.map_cons, hdescriptor, hmap]
      · intro c' hc'
        rcases List.mem_cons.mp hc' with rfl | hc'
        · rw [hdescriptor]
          exact hc
        · have hentry := hgone c' hc'
          rw [entry_leave] at hentry
          split_ifs at hentry
          exact hentry
      · rw [leaveAll_cons, hdescriptor]
        exact htable
      · rw [List.foldlM_cons, handleClientDisconnected_ok h hc, leaveAll_cons, hdescriptor]
        exact hloop

theorem checkIdleConnections_leaveAll (h : s.Table) (now : UInt64) :
    ∃ gone : List Connection, (gone.map fun c => c.client.fileDescriptor) = s.toRemove now ∧
      (∀ c ∈ gone, s.entry c.client.fileDescriptor = some c) ∧
      (s.leaveAll gone).Table ∧ s.checkIdleConnections now = .ok (s.leaveAll gone) := by
  obtain ⟨hnodup, hthere⟩ := s.toRemove_spec now
  exact foldlM_leaveAll h hnodup hthere

theorem checkIdleConnections_ok (h : s.Table) (now : UInt64) :
    ∃ s', s.checkIdleConnections now = .ok s' ∧ s'.Table ∧ SameLoop s s' := by
  obtain ⟨gone, -, -, htable, hloop⟩ := checkIdleConnections_leaveAll h now
  exact ⟨s.leaveAll gone, hloop, htable, sameLoop_leaveAll s gone⟩

end

end Server

end EasyKeyDB
