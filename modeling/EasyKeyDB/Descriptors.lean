import EasyKeyDB.EventLoop

/-!
# The open descriptors

Which descriptors the process has open, and which of them the epoll instance watches, in
every state of the loop: what was open before the loop, the listening socket, and one
for each entry of `current_connections` (`descriptors_of_run`). From this follows what is
left when `main` has returned: the destructors close what the process has opened, each
descriptor once and none that is not open (`Process.nothing_left_open`).
-/

namespace EasyKeyDB

open ByteBuffer

namespace Server

/-- The open descriptors are those of the process, the listening socket and those of the
entries, which are apart from each other. -/
structure Accounted (socket : Int) (others : Finset Int) (listening : Prop) (s : Server) :
    Prop where
  listens : s.socket = socket
  apart : socket ∉ others ∧ ∀ fd c, s.entry fd = some c → fd ∉ others
  opened : ∀ fd, fd ∈ s.descriptors ↔ fd ∈ others ∨ fd = socket ∨ ∃ c, s.entry fd = some c
  watched : s.ioNotifier.Watches socket ↔ listening

section

variable {s s' : Server} {socket fd : Int} {others : Finset Int} {listening : Prop}
  {now : UInt64} {c : Connection} {event : Event} {accepted : Option Int}
  {reads : List ReadResult} {append : IoResult}

/-! ## The handlers -/

theorem Accounted.enter (h : Accounted socket others listening s) (hfree : s.entry fd = none)
    (hfresh : fd ∉ s.descriptors) (now : UInt64) :
    Accounted socket others listening (s.enter fd now) := by
  have hnew : fd ∉ others ∧ fd ≠ socket := by
    constructor
    · exact fun hother => hfresh ((h.opened fd).mpr (.inl hother))
    · exact fun hsocket => hfresh ((h.opened fd).mpr (.inr (.inl hsocket)))
  refine ⟨h.listens, ⟨h.apart.1, ?_⟩, ?_, ?_⟩
  · intro fd' c hc
    rw [entry_enter hfree] at hc
    split_ifs at hc with hsame
    · exact hsame ▸ hnew.1
    · exact h.apart.2 fd' c hc
  · intro fd'
    change fd' ∈ insert fd s.descriptors ↔ _
    rw [Finset.mem_insert, h.opened, entry_enter hfree]
    by_cases hsame : fd = fd'
    · simp [hsame]
    · simp [hsame, Ne.symm hsame]
  · have hwatches : (s.enter fd now).ioNotifier.Watches socket ↔
        s.ioNotifier.Watches socket ∨ fd = socket := IONotifier.watches_addEvent _ _ _
    rw [hwatches, or_iff_left hnew.2, h.watched]

theorem Accounted.leave (h : Accounted socket others listening s) (ht : s.Table)
    (hc : s.entry fd = some c) : Accounted socket others listening (s.leave fd c) := by
  have hsocket : fd ≠ socket := by
    rintro rfl
    cases hc.symm.trans (h.listens ▸ ht.listening.2)
  refine ⟨h.listens, ⟨h.apart.1, ?_⟩, ?_, ?_⟩
  · intro fd' c' hc'
    rw [entry_leave] at hc'
    split_ifs at hc'
    exact h.apart.2 fd' c' hc'
  · intro fd'
    change fd' ∈ s.descriptors.erase fd ↔ _
    rw [Finset.mem_erase, h.opened, entry_leave]
    by_cases hsame : fd = fd'
    · subst hsame
      simp [hsocket, h.apart.2 fd c hc]
    · simp [hsame, Ne.symm hsame]
  · rw [watches_leave, and_iff_left hsocket, h.watched]

theorem Accounted.leaveAll (h : Accounted socket others listening s) (ht : s.Table)
    {gone : List Connection} (hnodup : (gone.map fun c => c.client.fileDescriptor).Nodup)
    (hthere : ∀ c ∈ gone, s.entry c.client.fileDescriptor = some c) :
    Accounted socket others listening (s.leaveAll gone) := by
  induction gone generalizing s with
  | nil => exact h
  | cons c gone ih =>
      have hc := hthere c List.mem_cons_self
      obtain ⟨hfd, hnodup⟩ := List.nodup_cons.mp hnodup
      refine ih (h.leave ht hc) (ht.leave hc) hnodup ?_
      intro c' hc'
      have hother : c.client.fileDescriptor ≠ c'.client.fileDescriptor := fun hsame =>
        hfd (List.mem_map.mpr ⟨c', hc', hsame.symm⟩)
      rw [entry_leave, if_neg hother]
      exact hthere c' (List.mem_cons_of_mem c hc')

theorem Accounted.serve (h : Accounted socket others listening s) (hc : s.entry fd = some c)
    (db : Database) (client : ClientSocket Chunks) :
    Accounted socket others listening (s.serve fd db client) := by
  have hkeys : ∀ fd', (∃ c', (s.serve fd db client).entry fd' = some c') ↔
      ∃ c', s.entry fd' = some c' := by
    intro fd'
    rw [entry_serve]
    split_ifs with hsame
    · subst hsame
      simp [hc]
    · rfl
  refine ⟨h.listens, ⟨h.apart.1, ?_⟩, ?_, h.watched⟩
  · intro fd' c' hc'
    obtain ⟨c'', hc''⟩ := (hkeys fd').mp ⟨c', hc'⟩
    exact h.apart.2 fd' c'' hc''
  · intro fd'
    rw [hkeys]
    exact h.opened fd'

theorem Accounted.sweep (h : Accounted socket others listening s) (ht : s.Table)
    (hok : s.checkIdleConnections now = .ok s') : Accounted socket others listening s' := by
  obtain ⟨gone, hmap, hgone, -, hsweep⟩ := checkIdleConnections_leaveAll ht now
  obtain rfl := Except.ok.inj (hsweep.symm.trans hok)
  exact h.leaveAll ht (hmap ▸ (s.toRemove_spec now).1) hgone

theorem Accounted.dispatched (h : Accounted socket others listening s) (ht : s.Table)
    (hfresh : ∀ fd ∈ accepted, fd ∉ s.descriptors)
    (hd : Dispatched s event accepted reads append now (.ok s')) :
    Accounted socket others listening s' := by
  cases hd with
  | entered _ haccepted hfree => exact h.enter hfree (hfresh _ haccepted) now
  | left _ _ hc => exact h.leave ht hc
  | served _ hc _ => exact h.serve hc _ _
  | ignored _ _ => exact h

/-! ## The loop -/

theorem Accounted.outside (h : Accounted socket others listening s) (running signalled : Bool)
    (iterations : UInt16) (backlog : Nat) (control : Control) :
    Accounted socket others listening
      { s with running, signalled, iterations, backlog, control } :=
  ⟨h.listens, h.apart, h.opened, h.watched⟩

theorem Accounted.goesOn (h : Accounted socket others True s) (running signalled : Bool)
    (iterations : UInt16) (backlog : Nat) (control : Control) (hcontrol : control ≠ .stopped) :
    Accounted socket others (control ≠ .stopped)
      { s with running, signalled, iterations, backlog, control } :=
  ⟨h.listens, h.apart, h.opened, h.watched.trans (iff_of_true trivial hcontrol)⟩

theorem Accounted.countIteration (h : Accounted socket others listening s) (ht : s.Table)
    (hok : s.countIteration now = .ok s') : Accounted socket others listening s' := by
  unfold Server.countIteration at hok
  have hcounted := h.outside s.running s.signalled (s.iterations + 1) s.backlog s.control
  have htable := ht.outside s.running s.signalled (s.iterations + 1) s.backlog s.control
  by_cases hdue : s.iterations + 1 = 1000
  · simp only [if_pos hdue] at hok
    obtain ⟨t, hsweep, hreset⟩ := Throwing.except_bind_eq_ok hok
    cases hreset
    exact (hcounted.sweep htable hsweep).outside _ _ _ _ _
  · simp only [if_neg hdue] at hok
    cases hok
    exact hcounted

theorem Accounted.closeIteration (h : Accounted socket others True s) :
    Accounted socket others (s.closeIteration.control ≠ .stopped) s.closeIteration := by
  unfold Server.closeIteration
  split_ifs with hrunning
  · refine ⟨h.listens, h.apart, h.opened, ?_⟩
    simpa using h.watched
  · refine ⟨h.listens, h.apart, h.opened, ?_⟩
    rw [IONotifier.watches_deleteEvent]
    simp [Event.new, h.listens]

theorem accounted_step (hs : s.Invariant)
    (h : Accounted socket others (s.control ≠ .stopped) s) {x : Label} (hstep : Step s x s') :
    Accounted socket others (s'.control ≠ .stopped) s' := by
  have hgoing : ∀ {control : Control}, s.control = control → control ≠ .stopped →
      Accounted socket others True s := fun hcontrol hne =>
    ⟨h.listens, h.apart, h.opened, h.watched.trans (iff_true_intro (hcontrol ▸ hne))⟩
  have hwhole := hstep
  obtain ⟨hx, hok⟩ := hstep
  cases x with
  | setUp =>
      cases hok
      exact (hgoing hx nofun).goesOn true s.signalled 0 s.backlog .waiting nofun
  | wait batch now =>
      have hstart := hgoing hx.1 nofun
      cases batch with
      | nil =>
          obtain ⟨t, signalled, hsweep, rfl⟩ := wait_nil hok
          exact (hstart.sweep hs.table hsweep).goesOn t.running signalled t.iterations t.backlog
            (.dispatching []) nofun
      | cons e batch =>
          cases hok
          exact hstart.goesOn s.running _ s.iterations s.backlog
            (.dispatching ((e :: batch).map Event.ofEpoll)) nofun
  | dispatch accepted reads append now =>
      obtain ⟨event, events, hcontrol, ⟨-, rfl⟩ | ⟨-, t, -, hd, rfl⟩⟩ :=
        dispatch_step hs hwhole
      · exact (hgoing hcontrol nofun).goesOn s.running s.signalled s.iterations s.backlog
          (.dispatching []) nofun
      · exact ((hgoing hcontrol nofun).dispatched hs.table hx.2 hd).goesOn t.running t.signalled
          t.iterations t.backlog (.dispatching events) nofun
  | endOfBatch now =>
      have hend : s.endOfBatch now = .ok s' := hok
      rw [endOfBatch_eq] at hend
      obtain ⟨t, hcount, hclose⟩ := Throwing.except_bind_eq_ok hend
      cases hclose
      exact ((hgoing hx nofun).countIteration hs.table hcount).closeIteration
  | connect =>
      cases hok
      exact h.outside s.running true s.iterations (s.backlog + 1) s.control
  | stop =>
      cases hok
      exact h.outside false s.signalled s.iterations s.backlog s.control

theorem accounted_starting (hsocket : socket ∉ others) (connected disconnected : Bool)
    (count : UInt32) (db : Database) :
    Accounted socket others True
      (starting socket connected disconnected others count db) := by
  have hnone := entry_starting socket connected disconnected others count db
  refine ⟨rfl, ⟨hsocket, ?_⟩, ?_, iff_true_intro ?_⟩
  · intro fd c hc
    cases (hnone fd).symm.trans hc
  · intro fd
    change fd ∈ insert socket others ↔ _
    rw [Finset.mem_insert, hnone]
    simp [or_comm]
  · exact (IONotifier.watches_addEvent (IONotifier.new count) _ socket).mpr (.inr rfl)

theorem accounted_of_run (hsocket : socket ∉ others) {connected disconnected : Bool}
    {count : UInt32} {db : Database} {xs : List Label}
    (h : Run Step (starting socket connected disconnected others count db) xs s) :
    s.Invariant ∧ Accounted socket others (s.control ≠ .stopped) s := by
  apply h.invariant (I := fun s => s.Invariant ∧ Accounted socket others (s.control ≠ .stopped) s)
  · refine ⟨invariant_starting .., ?_⟩
    obtain ⟨hlistens, hapart, hopened, hwatched⟩ :=
      accounted_starting hsocket connected disconnected count db
    exact ⟨hlistens, hapart, hopened, hwatched.trans (iff_of_true trivial nofun)⟩
  · rintro m x m' ⟨hm, haccounted⟩ hstep
    exact ⟨(run_invariant hm (Run.single hstep)).1, accounted_step hm haccounted hstep⟩

/-- **What is open and what is watched**, in every state of the loop. -/
theorem descriptors_of_run (hsocket : socket ∉ others) {connected disconnected : Bool}
    {count : UInt32} {db : Database} {xs : List Label}
    (h : Run Step (starting socket connected disconnected others count db) xs s) :
    s.descriptors = insert socket (others ∪ s.currentConnections.keys.toFinset) ∧
      s.descriptors.card = others.card + s.currentConnections.keys.length + 1 ∧
      ∀ fd, s.ioNotifier.Watches fd ↔
        fd ∈ s.currentConnections.keys ∨ fd = socket ∧ s.control ≠ .stopped := by
  obtain ⟨hs, haccounted⟩ := accounted_of_run hsocket h
  obtain ⟨hlistens, hapart, hopened, hwatched⟩ := haccounted
  have hkeys : ∀ fd, fd ∈ s.currentConnections.keys ↔ ∃ c, s.entry fd = some c := fun fd =>
    UnorderedMap.mem_keys
  have hdescriptors : s.descriptors =
      insert socket (others ∪ s.currentConnections.keys.toFinset) := by
    ext fd
    rw [hopened, Finset.mem_insert, Finset.mem_union, List.mem_toFinset, hkeys, or_left_comm]
  have hsocketkey : socket ∉ s.currentConnections.keys := by
    rw [hkeys, ← hlistens, hs.table.listening.2]
    rintro ⟨c, hc⟩
    cases hc
  have hdisjoint : Disjoint others s.currentConnections.keys.toFinset := by
    rw [Finset.disjoint_right]
    intro fd hfd
    obtain ⟨c, hc⟩ := (hkeys fd).mp (List.mem_toFinset.mp hfd)
    exact hapart.2 fd c hc
  refine ⟨hdescriptors, ?_, ?_⟩
  · have hnew : socket ∉ others ∪ s.currentConnections.keys.toFinset := by
      rw [Finset.mem_union, List.mem_toFinset]
      exact not_or.mpr ⟨hsocket, hsocketkey⟩
    rw [hdescriptors, Finset.card_insert_of_notMem hnew, Finset.card_union_of_disjoint hdisjoint,
      List.toFinset_card_of_nodup s.currentConnections.nodup_keys]
  · intro fd
    rw [hkeys]
    constructor
    · intro hfd
      by_cases hsame : fd = socket
      · exact .inr ⟨hsame, hwatched.mp (hsame ▸ hfd)⟩
      · exact .inl (hs.table.clients fd hfd (hlistens ▸ hsame))
    · rintro (⟨c, hc⟩ | ⟨rfl, hgoing⟩)
      · exact (hs.table.sockets fd c hc).2.2
      · exact hwatched.mpr hgoing

/-- The run in which descriptor 5 is closed and handed out again. -/
theorem reuse_descriptors :
    ∃ s, Run Step (starting 3 true true {0, 1, 2} 0 Database.new) (reuse.take 10) s ∧
      s.descriptors.card = 5 ∧
      s.descriptors = insert 3 ({0, 1, 2} ∪ s.currentConnections.keys.toFinset) := by
  have hcall : ((reuse.take 10).foldlM (attempt Enabled next)
      (starting 3 true true {0, 1, 2} 0 Database.new)).map (fun s => s.descriptors.card) =
        some 5 := by
    decide +kernel
  obtain ⟨s, hrun, hcard⟩ := Run.of_view hcall
  exact ⟨s, hrun, hcard, (descriptors_of_run (by decide) hrun).1⟩

end

end Server

/-! ## From `main` to its end -/

structure OpenedFile where
  fd : Int
  filename : String
deriving DecidableEq, Repr

/-- Code that opens and closes descriptors, and may throw. -/
abbrev DescriptorM := EStateM String (Finset Int)

/-- A system call that opens a descriptor, and what is thrown if it returns −1. -/
def openOrThrow (answer : Option Int) (error : String) : DescriptorM Int :=
  match answer with
  | none => throw error
  | some fd => fun opened => .ok fd (insert fd opened)

def orThrow (succeeded : Bool) (error : String) : DescriptorM Unit :=
  if succeeded then pure () else throw error

def close (fd : Int) : DescriptorM Unit := fun opened =>
  if fd ∈ opened then .ok () (opened.erase fd) else .error "Bad file descriptor" opened

def location (index : Nat) : String := "/tmp/easykey-" ++ toString index ++ ".db"

/-- A round of the loop in `Database::Database`, given what `open` returns. -/
def openFile (answers : Nat → Option Int) (index : Nat) : DescriptorM OpenedFile := do
  let fd ← openOrThrow (answers index) ("Could not open file: " ++ location index)
  return ⟨fd, location index⟩

/-- `Database::Database` -/
def openFiles (answers : Nat → Option Int) : DescriptorM (List OpenedFile) :=
  (List.range numberOfFiles).mapM (openFile answers)

/-- What the kernel answers before the loop: to `open`, `socket`, `epoll_create1`, `bind`
and `listen`. -/
structure StartAnswers where
  file : Nat → Option Int
  socket : Option Int
  epoll : Option Int
  bound : Bool
  listening : Bool

/-- The descriptors it hands out. -/
def StartAnswers.descriptors (a : StartAnswers) : List Int :=
  (List.range numberOfFiles).filterMap a.file ++ a.socket.toList ++ a.epoll.toList

/-- The process with its handler and its server. -/
structure Process where
  files : List OpenedFile
  epoll : Int
  server : Server

namespace Process

/-- The global handler, the constructor of the server, and `start` up to the loop. What is
thrown is caught nowhere. -/
def start (a : StartAnswers) (count : UInt32) : DescriptorM Process := do
  let files ← openFiles a.file
  let socket ← openOrThrow a.socket "Could not open socket!!!"
  let epoll ← openOrThrow a.epoll "Could not create epoll instance!"
  orThrow a.bound "Could not assign address to the socket!"
  orThrow a.listening "Could not set socket to passive mode!"
  let opened ← get
  return { files, epoll
           server := .starting socket true true (opened.erase socket) count Database.new }

/-- What the destructors close behind the end of `start`: the epoll instance, the sockets
of the connections, the listening socket, and at last the files of the handler. -/
def destroyed (p : Process) (s : Server) : List Int :=
  p.epoll :: s.currentConnections.keys.filterMap (fun fd =>
    (s.currentConnections.find? fd).map fun c => c.client.fileDescriptor) ++ [s.socket] ++
    p.files.map OpenedFile.fd

def finish (p : Process) (s : Server) : DescriptorM Unit := forM (p.destroyed s) close

section

open Throwing

variable {a : StartAnswers} {count : UInt32} {opened opened' : Finset Int}

theorem openOrThrow_eq_ok {answer : Option Int} {error : String} {fd : Int}
    (h : openOrThrow answer error opened = .ok fd opened') :
    answer = some fd ∧ opened' = insert fd opened := by
  cases answer with
  | none => cases h
  | some fd' =>
      cases h
      exact ⟨rfl, rfl⟩

theorem mapM_openFile {answers : Nat → Option Int} {indices : List Nat} {files : List OpenedFile}
    (h : indices.mapM (openFile answers) opened = .ok files opened') :
    files.map OpenedFile.fd = indices.filterMap answers ∧
      opened' = opened ∪ (files.map OpenedFile.fd).toFinset := by
  induction indices generalizing opened files with
  | nil =>
      cases h
      exact ⟨rfl, (Finset.union_empty _).symm⟩
  | cons index indices ih =>
      obtain ⟨file, m, files', hfile, hfiles, rfl⟩ := mapM_cons_eq_ok h
      obtain ⟨fd, m', hopen, hpure⟩ := bind_eq_ok hfile
      cases hpure
      obtain ⟨hanswer, rfl⟩ := openOrThrow_eq_ok hopen
      obtain ⟨hmap, rfl⟩ := ih hfiles
      constructor
      · rw [List.filterMap_cons_some hanswer, List.map_cons, hmap]
      · rw [List.map_cons, List.toFinset_cons, Finset.union_insert, Finset.insert_union]

theorem orThrow_eq_ok {succeeded : Bool} {error : String}
    (h : orThrow succeeded error opened = .ok () opened') : opened' = opened := by
  cases succeeded with
  | true =>
      cases h
      rfl
  | false => cases h

theorem start_eq_ok {p : Process} (h : start a count opened = .ok p opened') :
    ∃ socket, a.descriptors = p.files.map OpenedFile.fd ++ [socket] ++ [p.epoll] ∧
      p.server = .starting socket true true
        ((insert p.epoll (insert socket (opened ∪ (p.files.map OpenedFile.fd).toFinset))).erase
          socket) count Database.new := by
  obtain ⟨files, m, hfiles, h⟩ := bind_eq_ok h
  obtain ⟨hmap, rfl⟩ := mapM_openFile hfiles
  obtain ⟨socket, m, hopen, h⟩ := bind_eq_ok h
  obtain ⟨hsocket, rfl⟩ := openOrThrow_eq_ok hopen
  obtain ⟨epoll, m, hcreate, h⟩ := bind_eq_ok h
  obtain ⟨hepoll, rfl⟩ := openOrThrow_eq_ok hcreate
  obtain ⟨⟨⟩, m, hbound, h⟩ := bind_eq_ok h
  obtain rfl := orThrow_eq_ok hbound
  obtain ⟨⟨⟩, m, hlistening, h⟩ := bind_eq_ok h
  obtain rfl := orThrow_eq_ok hlistening
  cases h
  refine ⟨socket, ?_, rfl⟩
  rw [StartAnswers.descriptors, ← hmap, hsocket, hepoll]
  rfl

theorem forM_close {fds : List Int} (hnodup : fds.Nodup) (hopen : ∀ fd ∈ fds, fd ∈ opened) :
    (forM fds close : DescriptorM Unit) opened = .ok () (opened \ fds.toFinset) := by
  induction fds generalizing opened with
  | nil => rw [List.toFinset_nil, Finset.sdiff_empty]; rfl
  | cons fd fds ih =>
      obtain ⟨hfd, hnodup⟩ := List.nodup_cons.mp hnodup
      have hclose : close fd opened = .ok () (opened.erase fd) :=
        if_pos (hopen fd List.mem_cons_self)
      have hrest : ∀ fd' ∈ fds, fd' ∈ opened.erase fd := by
        intro fd' hfd'
        refine Finset.mem_erase.mpr ⟨?_, hopen fd' (List.mem_cons_of_mem fd hfd')⟩
        rintro rfl
        exact hfd hfd'
      rw [List.forM_cons, bind_ok hclose, ih hnodup hrest, List.toFinset_cons,
        Finset.sdiff_insert, Finset.erase_sdiff_comm]

theorem destroyed_eq {p : Process} {s : Server} (h : s.Table) :
    p.destroyed s = p.epoll :: s.currentConnections.keys ++ [s.socket] ++
      p.files.map OpenedFile.fd := by
  have hkeys : s.currentConnections.keys.filterMap (fun fd =>
      (s.currentConnections.find? fd).map fun c => c.client.fileDescriptor) =
      s.currentConnections.keys := by
    have hsome : ∀ fd ∈ s.currentConnections.keys, (s.currentConnections.find? fd).map
        (fun c => c.client.fileDescriptor) = some fd := by
      intro fd hfd
      obtain ⟨c, hc⟩ := UnorderedMap.mem_keys.mp hfd
      rw [hc, Option.map_some, (h.sockets fd c hc).1]
    rw [List.filterMap_congr hsome, List.filterMap_some]
  rw [destroyed, hkeys]

/-- The kernel hands out descriptors that are not open. -/
def Fresh (a : StartAnswers) (opened : Finset Int) : Prop :=
  a.descriptors.Nodup ∧ ∀ fd ∈ a.descriptors, fd ∉ opened

instance (a : StartAnswers) (opened : Finset Int) : Decidable (Fresh a opened) :=
  inferInstanceAs (Decidable (_ ∧ _))

/-- **Nothing is left open.** Whatever the clients have done until the loop is left, the
destructors find each of their descriptors open, and close all that the process has
opened. -/
theorem nothing_left_open {p : Process} {s : Server} {xs : List Label}
    (hfresh : Fresh a opened) (hstart : start a count opened = .ok p opened')
    (hrun : Run Server.Step p.server xs s) :
    p.finish s s.descriptors = .ok () opened := by
  obtain ⟨socket, hdescriptors, hserver⟩ := start_eq_ok hstart
  obtain ⟨hnodup, hnew⟩ := hfresh
  rw [hdescriptors] at hnodup hnew
  rw [hserver] at hrun
  generalize hfds : p.files.map OpenedFile.fd = fds at *
  obtain ⟨hs, hlistens, ⟨hsocket, hapart⟩, hopened, -⟩ :=
    Server.accounted_of_run (Finset.notMem_erase _ _) hrun
  -- The descriptors of the four kinds are apart from each other and from those before.
  have hstarted : fds.Nodup ∧ socket ∉ fds ∧ p.epoll ∉ fds ∧ p.epoll ≠ socket := by
    simp only [List.nodup_append, List.mem_append, List.mem_singleton] at hnodup
    grind
  have hbefore : ∀ fd ∈ opened, fd ∉ fds ∧ fd ≠ socket ∧ fd ≠ p.epoll := by
    intro fd hfd
    simp only [List.mem_append, List.mem_singleton] at hnew
    grind
  have hkeys : ∀ fd ∈ s.currentConnections.keys,
      fd ∉ opened ∧ fd ∉ fds ∧ fd ≠ socket ∧ fd ≠ p.epoll := by
    intro fd hfd
    obtain ⟨c, hc⟩ := UnorderedMap.mem_keys.mp hfd
    have hother := hapart fd c hc
    have hnotsocket : fd ≠ socket := by
      rintro rfl
      cases (hlistens ▸ hs.table.listening.2).symm.trans hc
    simp only [Finset.mem_erase, Finset.mem_insert, Finset.mem_union, List.mem_toFinset] at hother
    grind
  have hentries : ∀ fd, (∃ c, s.entry fd = some c) ↔ fd ∈ s.currentConnections.keys :=
    fun fd => UnorderedMap.mem_keys.symm
  simp only [hentries, Finset.mem_erase, Finset.mem_insert, Finset.mem_union,
    List.mem_toFinset] at hopened
  have hdistinct : (p.epoll :: s.currentConnections.keys ++ [socket] ++ fds).Nodup := by
    have hnodup := s.currentConnections.nodup_keys
    simp only [List.nodup_append, List.nodup_cons, List.mem_append, List.mem_cons]
    grind
  have hopen : ∀ fd ∈ p.epoll :: s.currentConnections.keys ++ [socket] ++ fds,
      fd ∈ s.descriptors := by
    intro fd hfd
    rw [hopened]
    simp only [List.mem_append, List.mem_cons] at hfd
    grind
  rw [finish, destroyed_eq hs.table, hlistens, hfds, forM_close hdistinct hopen]
  congr 1
  ext fd
  rw [Finset.mem_sdiff, hopened]
  simp only [List.mem_toFinset, List.mem_append, List.mem_cons]
  grind

def firstAnswers : StartAnswers where
  file index := some (index + 3)
  socket := some 8
  epoll := some 9
  bound := true
  listening := true

/-- A signal strikes while two clients are connected. -/
theorem stopped_nothing_left_open :
    ∃ p opened' s, start firstAnswers 0 {0, 1, 2} = .ok p opened' ∧
      Run Server.Step p.server
        [.setUp, .connect, .connect, .wait [⟨0x001, 8⟩] 0, .dispatch (some 10) [] .complete 0,
          .endOfBatch 0, .wait [⟨0x001, 8⟩] 1, .dispatch (some 11) [] .complete 1, .stop,
          .endOfBatch 1] s ∧
      s.control = .stopped ∧ p.destroyed s = [9, 11, 10, 8, 3, 4, 5, 6, 7] ∧
      p.finish s s.descriptors = .ok () {0, 1, 2} := by
  let p : Process :=
    { files := [⟨3, location 0⟩, ⟨4, location 1⟩, ⟨5, location 2⟩, ⟨6, location 3⟩,
        ⟨7, location 4⟩]
      epoll := 9
      server := .starting 8 true true
        (Finset.erase {9, 8, 7, 6, 5, 4, 3, 0, 1, 2} 8) 0 Database.new }
  have hstart : ∃ opened', start firstAnswers 0 {0, 1, 2} = .ok p opened' := ⟨_, rfl⟩
  obtain ⟨opened', hstart⟩ := hstart
  have hcall : (([.setUp, .connect, .connect, .wait [⟨0x001, 8⟩] 0,
      .dispatch (some 10) [] .complete 0, .endOfBatch 0, .wait [⟨0x001, 8⟩] 1,
      .dispatch (some 11) [] .complete 1, .stop, .endOfBatch 1] : List Label).foldlM
        (attempt Server.Enabled Server.next) p.server).map
          (fun s => (s.control, p.destroyed s)) =
      some (.stopped, [9, 11, 10, 8, 3, 4, 5, 6, 7]) := by
    decide +kernel
  obtain ⟨s, hrun, hview⟩ := Run.of_view hcall
  obtain ⟨hcontrol, hdestroyed⟩ := Prod.mk.inj hview
  exact ⟨p, opened', s, hstart, hrun, hcontrol, hdestroyed,
    nothing_left_open (by decide) hstart hrun⟩

end

end Process

end EasyKeyDB
