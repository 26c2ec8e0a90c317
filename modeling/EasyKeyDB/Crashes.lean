import EasyKeyDB.ConnectionSteps

/-!
# What ends the process

`main` has SIGTERM and SIGINT handled and leaves SIGPIPE as it is. The two
`write` methods of `ClientSocket` look for −1, log it and go on; but neither
`send` nor `sendfile` is told not to raise SIGPIPE, so on a connection that the
peer has reset its default action comes first. What `accept_connection` throws is
caught nowhere.

Everything else that a client's event may meet is survived (`survives_iff`). A
connection that the epoll instance refuses is one that is never reported.
-/

namespace EasyKeyDB

/-- The signals that `main` registers, and the one that sending may raise. -/
inductive Signal
  | sigterm
  | sigint
  | sigpipe
deriving DecidableEq, Repr

inductive Disposition
  | default
  | handler
deriving DecidableEq, Repr

/-- The dispositions behind the calls of `signal` in `main`. -/
def disposition : Signal → Disposition
  | .sigterm => .handler
  | .sigint => .handler
  | .sigpipe => .default

/-- How the process may end while `start` runs. -/
inductive Crash
  /-- An exception leaves `start`. -/
  | exception (fault : Fault)
  /-- What `signal_handler` throws. -/
  | notHandled (signal : Signal)
  /-- The default action of a signal. -/
  | killed (signal : Signal)
deriving DecidableEq, Repr

/-- What comes of a `send` or a `sendfile`: it returns, −1 perhaps, or the peer
has reset the connection, and it fails with EPIPE and raises SIGPIPE. -/
inductive SendOutcome
  | returned (result : IoResult)
  | reset
deriving DecidableEq, Repr

/-- What the kernel answers while an event is handled: the results of `accept`
and of the reads, the outcome of the append, and what comes of the first and the
second call that sends. -/
structure Answers where
  accepted : Option Int
  reads : List ReadResult
  append : IoResult
  now : UInt64
  sends : Nat → SendOutcome

def Answers.label (a : Answers) : Label := .dispatch a.accepted a.reads a.append a.now

/-- The number of calls that answer a request. -/
def Parsed.callCount (db : Database) : Parsed → Nat
  | read key _ => if (db.read key).isSome then 2 else 1
  | _ => 1

theorem Parsed.length_calls (p : Parsed) (db : Database) :
    (p.calls db).length = p.callCount db := by
  cases p with
  | read key rest =>
      show (readCalls db key).length = if (db.read key).isSome then 2 else 1
      unfold readCalls
      cases db.read key <;> rfl
  | _ => rfl

namespace Server

def signalHandler (s : Server) : Signal → Except Crash Server
  | .sigterm => .ok s.stop
  | .sigint => .ok s.stop
  | .sigpipe => .error (.notHandled .sigpipe)

def raise (s : Server) (signal : Signal) : Except Crash Server :=
  match disposition signal with
  | .default => .error (.killed signal)
  | .handler => s.signalHandler signal

/-- `ClientSocket::write`, once the call has been made: −1 is logged. -/
def afterSend (s : Server) : SendOutcome → Except Crash Server
  | .returned _ => .ok s
  | .reset => s.raise .sigpipe

def callsOn (s : Server) (fd : Int) : List SocketCall :=
  match s.entry fd with
  | none => []
  | some c => c.client.sent

def callsMade (s s' : Server) : Nat :=
  match s.control with
  | .dispatching (event :: _) =>
      (s'.callsOn event.fileDescriptor).length - (s.callsOn event.fileDescriptor).length
  | _ => 0

/-- A step of the process: a step of `start`, with what comes of its calls. -/
def processNext (s : Server) (x : Label) (sends : Nat → SendOutcome) :
    Except Crash Server :=
  match s.next x with
  | .error fault => .error (.exception fault)
  | .ok s' => ((List.range (s.callsMade s')).map sends).foldlM afterSend s'

def ProcessStep (s : Server) (x : Label × (Nat → SendOutcome)) (s' : Server) : Prop :=
  s.Enabled x.1 ∧ s.processNext x.1 x.2 = .ok s'

def own (s : Server) (event : Event) (accepted : Option Int) : Option Int :=
  if event.isFor s.socket then accepted else some event.fileDescriptor

/-- The database behind an event: as the request makes it, if the event is
one. -/
def databaseAfter (s : Server) (event : Event) (reads : List ReadResult)
    (append : IoResult) : Database :=
  match s.requesting event with
  | none => s.database
  | some c => (parse (c.found reads)).database append s.database

/-- The process goes on behind the event, with the other connections as they
were, the database as the client's own request makes it, and the other events of
the batch to come. -/
def Survives (s : Server) (event : Event) (events : List Event) (a : Answers) : Prop :=
  ∃ s', s.processNext a.label a.sends = .ok s' ∧
    (∀ fd, s.own event a.accepted ≠ some fd → s'.entry fd = s.entry fd) ∧
    s'.database = s.databaseAfter event a.reads a.append ∧
    s'.running = true ∧ s'.control = .dispatching events

/-- `accept` does not fail, and no call of the reply meets a connection that has
been reset. -/
def Spared (s : Server) (event : Event) (a : Answers) : Prop :=
  (event.isFor s.socket = true → a.accepted ≠ none) ∧
  ∀ c, s.requesting event = some c →
    ∀ i < (parse (c.found a.reads)).callCount s.database, a.sends i ≠ .reset

/-- Each event of a batch is spared when its turn comes. -/
inductive SparedInTurn : Server → List Event → List Answers → Prop
  | nil {s : Server} : SparedInTurn s [] []
  | cons {s : Server} {event : Event} {events : List Event} {a : Answers}
      {as : List Answers} : s.Enabled a.label → s.Spared event a →
      (∀ s', s.processNext a.label a.sends = .ok s' → SparedInTurn s' events as) →
      SparedInTurn s (event :: events) (a :: as)

section

variable {s s' : Server} {event : Event} {events : List Event} {a : Answers}

theorem raise_stop {signal : Signal} (h : signal ≠ .sigpipe) : s.raise signal = .ok s.stop := by
  cases signal with
  | sigterm => rfl
  | sigint => rfl
  | sigpipe => exact absurd rfl h

theorem foldlM_afterSend (outcomes : List SendOutcome) : outcomes.foldlM afterSend s =
    if .reset ∈ outcomes then .error (.killed .sigpipe) else .ok s := by
  induction outcomes with
  | nil => rfl
  | cons outcome outcomes ih =>
      cases outcome with
      | returned result =>
          rw [List.foldlM_cons]
          change outcomes.foldlM afterSend s = _
          rw [ih]
          simp
      | reset =>
          rw [if_pos List.mem_cons_self]
          rfl

theorem foldlM_afterSend_range (n : Nat) (sends : Nat → SendOutcome) :
    ((List.range n).map sends).foldlM afterSend s =
      if ∃ i < n, sends i = .reset then .error (.killed .sigpipe) else .ok s := by
  rw [foldlM_afterSend]
  apply if_congr _ rfl rfl
  simp only [List.mem_map, List.mem_range]

theorem step_of_processStep {x : Label × (Nat → SendOutcome)} (h : ProcessStep s x s') :
    Step s x.1 s' := by
  rcases h with ⟨hx, hok⟩
  refine ⟨hx, ?_⟩
  unfold processNext at hok
  cases hnext : s.next x.1 with
  | error fault =>
      rw [hnext] at hok
      cases hok
  | ok t =>
      rw [hnext] at hok
      simp only [foldlM_afterSend] at hok
      split_ifs at hok
      exact congrArg Except.ok (Except.ok.inj hok)

theorem process_invariant {socket : Int} {connected disconnected : Bool}
    {others : Finset Int} {count : UInt32} {db : Database}
    {xs : List (Label × (Nat → SendOutcome))}
    (h : Run ProcessStep (starting socket connected disconnected others count db) xs s) :
    s.Invariant := by
  apply h.invariant (invariant_starting ..)
  intro m x m' hm hstep
  exact (run_invariant hm (Run.single (step_of_processStep hstep))).1

/-! ## The dispatch of an event -/

theorem processNext_error (hcontrol : s.control = .dispatching (event :: events))
    (hrunning : s.running = true) {fault : Fault}
    (h : s.dispatch event a.accepted a.reads a.append a.now = .error fault) :
    s.processNext a.label a.sends = .error (.exception fault) := by
  unfold processNext
  rw [Answers.label, next_dispatch hcontrol hrunning, h]
  rfl

theorem processNext_ok (hcontrol : s.control = .dispatching (event :: events))
    (hrunning : s.running = true)
    (h : s.dispatch event a.accepted a.reads a.append a.now = .ok s') :
    s.processNext a.label a.sends =
      if ∃ i < (s'.callsOn event.fileDescriptor).length -
          (s.callsOn event.fileDescriptor).length, a.sends i = .reset
      then .error (.killed .sigpipe)
      else .ok { s' with control := .dispatching events } := by
  have hmade : s.callsMade { s' with control := .dispatching events } =
      (s'.callsOn event.fileDescriptor).length -
        (s.callsOn event.fileDescriptor).length := by
    rw [callsMade, hcontrol]
    rfl
  unfold processNext
  rw [Answers.label, next_dispatch hcontrol hrunning, h]
  change ((List.range (s.callsMade { s' with control := .dispatching events })).map
    a.sends).foldlM afterSend { s' with control := .dispatching events } = _
  rw [foldlM_afterSend_range, hmade]

theorem survives_of_silent (hcontrol : s.control = .dispatching (event :: events))
    (hrunning : s.running = true) (hnone : s.requesting event = none)
    (hok : s.dispatch event a.accepted a.reads a.append a.now = .ok s')
    (hsilent : (s'.callsOn event.fileDescriptor).length ≤
      (s.callsOn event.fileDescriptor).length)
    (hothers : ∀ fd, s.own event a.accepted ≠ some fd → s'.entry fd = s.entry fd)
    (hdatabase : s'.database = s.database) (hstill : s'.running = s.running) :
    s.Survives event events a := by
  refine ⟨{ s' with control := .dispatching events }, ?_, hothers, ?_,
    hstill.trans hrunning, rfl⟩
  · rw [processNext_ok hcontrol hrunning hok, if_neg]
    rintro ⟨i, hi, -⟩
    omega
  · rw [databaseAfter, hnone]
    exact hdatabase

theorem callsOn_of_some {fd : Int} {c : Connection} (hc : s.entry fd = some c) :
    s.callsOn fd = c.client.sent := by
  rw [callsOn, hc]

theorem callsOn_of_none {fd : Int} (hc : s.entry fd = none) : s.callsOn fd = [] := by
  rw [callsOn, hc]

theorem own_of_client (hclient : event.isFor s.socket = false) (accepted : Option Int) :
    s.own event accepted = some event.fileDescriptor :=
  if_neg (Bool.eq_false_iff.mp hclient)

theorem survives_served_iff (hcontrol : s.control = .dispatching (event :: events))
    (hrunning : s.running = true) {c : Connection} {client : ClientSocket ByteBuffer.Chunks}
    (hsome : s.requesting event = some c) (hc : s.entry event.fileDescriptor = some c)
    (hafter : AfterRequest s.database c a.reads client)
    (hok : s.dispatch event a.accepted a.reads a.append a.now = .ok (s.serve
      event.fileDescriptor ((parse (c.found a.reads)).database a.append s.database) client)) :
    s.Survives event events a ↔
      ∀ i < (parse (c.found a.reads)).callCount s.database, a.sends i ≠ .reset := by
  have hentries := entry_serve_of_some hc
    ((parse (c.found a.reads)).database a.append s.database) client
  have hnow : (s.serve event.fileDescriptor
      ((parse (c.found a.reads)).database a.append s.database) client).entry
        event.fileDescriptor = some { c with client } := (hentries _).trans (if_pos rfl)
  have hresult := processNext_ok hcontrol hrunning hok
  rw [callsOn_of_some hc, callsOn_of_some hnow, hafter.sent, List.length_append,
    Nat.add_sub_cancel_left, Parsed.length_calls] at hresult
  constructor
  · rintro ⟨s', hs', -⟩ i hi hreset
    rw [hresult, if_pos ⟨i, hi, hreset⟩] at hs'
    cases hs'
  · intro hspared
    rw [if_neg (by simpa using hspared)] at hresult
    refine ⟨_, hresult, ?_, ?_, hrunning, rfl⟩
    · intro fd hother
      rw [own_of_client (client_of_requesting hsome), ne_eq, Option.some.injEq] at hother
      exact (hentries fd).trans (if_neg hother)
    · rw [databaseAfter, hsome]
      rfl

theorem survives_entered (hcontrol : s.control = .dispatching (event :: events))
    (hrunning : s.running = true) (hlistening : event.isFor s.socket = true) {fd : Int}
    (hsome : a.accepted = some fd) (hfree : s.entry fd = none)
    (hok : s.dispatch event a.accepted a.reads a.append a.now = .ok (s.enter fd a.now)) :
    s.Survives event events a := by
  apply survives_of_silent hcontrol hrunning (requesting_of_listening hlistening) hok ?_ ?_
    rfl rfl
  · rw [callsOn, entry_enter hfree]
    split_ifs
    · exact Nat.zero_le _
    · exact Nat.le_refl _
  · intro fd' hother
    rw [own, if_pos hlistening, hsome, ne_eq, Option.some.injEq] at hother
    rw [entry_enter hfree, if_neg hother]

theorem survives_left (hcontrol : s.control = .dispatching (event :: events))
    (hrunning : s.running = true) (hclient : event.isFor s.socket = false)
    (hnone : s.requesting event = none) {c : Connection}
    (hok : s.dispatch event a.accepted a.reads a.append a.now =
      .ok (s.leave event.fileDescriptor c)) : s.Survives event events a := by
  have hgone : (s.leave event.fileDescriptor c).entry event.fileDescriptor = none :=
    (entry_leave s _ c _).trans (if_pos rfl)
  apply survives_of_silent hcontrol hrunning hnone hok ?_ ?_ rfl rfl
  · rw [callsOn_of_none hgone]
    exact Nat.zero_le _
  · intro fd hother
    rw [own_of_client hclient, ne_eq, Option.some.injEq] at hother
    rw [entry_leave, if_neg hother]

theorem spared_of_quiet (hnone : s.requesting event = none)
    (haccepted : event.isFor s.socket = true → a.accepted ≠ none) : s.Spared event a := by
  refine ⟨haccepted, ?_⟩
  intro c hsome
  cases hnone.symm.trans hsome

theorem survives_iff_spared (h : s.Invariant)
    (hcontrol : s.control = .dispatching (event :: events)) (hrunning : s.running = true)
    (hx : s.Enabled a.label) : s.Survives event events a ↔ s.Spared event a := by
  -- Only a refused `accept` and the calls of a reply can end the process.
  have hcases := h.dispatched hcontrol hx.2 a.reads a.append a.now
  generalize hresult : s.dispatch event a.accepted a.reads a.append a.now = result at hcases
  cases hcases with
  | refused hlistening hnone =>
      constructor
      · rintro ⟨s', hs', -⟩
        cases (processNext_error hcontrol hrunning hresult).symm.trans hs'
      · rintro ⟨haccepted, -⟩
        exact absurd hnone (haccepted hlistening)
  | entered hlistening hsome hfree =>
      apply iff_of_true
      · exact survives_entered hcontrol hrunning hlistening hsome hfree hresult
      · apply spared_of_quiet (requesting_of_listening hlistening)
        intro _ hrefused
        cases hrefused.symm.trans hsome
  | left hnone hclient hc =>
      apply iff_of_true
      · exact survives_left hcontrol hrunning hclient hnone hresult
      · apply spared_of_quiet hnone
        intro hlistening
        cases hclient.symm.trans hlistening
  | served hsome hc hafter =>
      rw [survives_served_iff hcontrol hrunning hsome hc hafter hresult]
      constructor
      · intro hspared
        refine ⟨?_, ?_⟩
        · intro hlistening
          cases (client_of_requesting hsome).symm.trans hlistening
        · intro c' hsome'
          obtain rfl := Option.some.inj (hsome.symm.trans hsome')
          exact hspared
      · intro hspared
        exact hspared.2 _ hsome
  | ignored hnone hclient =>
      apply iff_of_true
      · exact survives_of_silent hcontrol hrunning hnone hresult (Nat.le_refl _)
          (fun _ _ => rfl) rfl rfl
      · apply spared_of_quiet hnone
        intro hlistening
        cases hclient.symm.trans hlistening

theorem batch_survived (h : s.Invariant) {as : List Answers}
    (hall : SparedInTurn s events as) (hcontrol : s.control = .dispatching events)
    (hrunning : s.running = true) :
    ∃ t, Run ProcessStep s (as.map fun a => (a.label, a.sends)) t ∧
      t.running = true ∧ t.control = .dispatching [] := by
  induction hall with
  | nil => exact ⟨_, .nil, hrunning, hcontrol⟩
  | @cons s event events a as hx hspared _ ih =>
      obtain ⟨m, hm, -, -, hstill, hrest⟩ :=
        (survives_iff_spared h hcontrol hrunning hx).mpr hspared
      have hstep : ProcessStep s (a.label, a.sends) m := ⟨hx, hm⟩
      have hinvariant := (run_invariant h (Run.single (step_of_processStep hstep))).1
      obtain ⟨t, hrun, ht⟩ := ih m hm hinvariant hrest hstill
      exact ⟨t, Run.cons_iff.mpr ⟨m, hstep, hrun⟩, ht⟩

/-- **One client and the process.** In every state of every run, an event is
survived exactly when it is spared; and a batch whose events are spared in turn
is dispatched to its end. -/
theorem survives_iff {socket : Int} {connected disconnected : Bool}
    {others : Finset Int} {count : UInt32} {db : Database}
    {xs : List (Label × (Nat → SendOutcome))}
    (h : Run ProcessStep (starting socket connected disconnected others count db) xs s)
    (hrunning : s.running = true) :
    (∀ event events a, s.control = .dispatching (event :: events) → s.Enabled a.label →
      (s.Survives event events a ↔ s.Spared event a)) ∧
    ∀ events as, s.control = .dispatching events → SparedInTurn s events as →
      ∃ t, Run ProcessStep s (as.map fun a => (a.label, a.sends)) t ∧
        t.running = true ∧ t.control = .dispatching [] := by
  have hinvariant := process_invariant h
  constructor
  · intro event events a hcontrol hx
    exact survives_iff_spared hinvariant hcontrol hrunning hx
  · intro events as hcontrol hall
    exact batch_survived hinvariant hall hcontrol hrunning

end

/-! ## A reset and a failed `accept` -/

def crash (s : Server) (a : Answers) : Option Crash :=
  match s.processNext a.label a.sends with
  | .error crash => some crash
  | .ok _ => none

theorem not_survives_of_crash {s : Server} {event : Event} {events : List Event} {a : Answers}
    (h : (s.crash a).isSome = true) : ¬ s.Survives event events a := by
  rintro ⟨s', hs', -⟩
  rw [crash, hs'] at h
  cases h

def returning (x : Label) : Label × (Nat → SendOutcome) := (x, fun _ => .returned .complete)

def calling : List (Label × (Nat → SendOutcome)) :=
  [returning .setUp, returning .connect, returning (.wait [⟨0x001, 3⟩] 0)]

/-- The client, accepted on descriptor 5, sends a request while another one
waits to be accepted. -/
def asking : List (Label × (Nat → SendOutcome)) :=
  calling ++ [returning (.dispatch (some 5) [] .complete 0), returning (.endOfBatch 0),
    returning .connect, returning (.wait [⟨0x005, 5⟩, ⟨0x001, 3⟩] 1)]

/-- A request that is answered on a connection that has been reset. -/
def onReset : Answers :=
  ⟨none, [.bytes (Request.read keyA).encode], .complete, 1, fun _ => .reset⟩

/-- The same with a `send` that fails and raises no signal. -/
def onFailure : Answers := { onReset with sends := fun _ => .returned .failed }

def refusing : Answers := ⟨none, [], .complete, 0, fun _ => .returned .complete⟩

/-- Where a run leads, and what the next event comes to with these answers. -/
def endsIn (xs : List (Label × (Nat → SendOutcome))) (a : Answers) :
    Option (Control × Bool × Bool × Option Crash) :=
  (xs.foldlM (attempt (fun s x => s.Enabled x.1) fun s x => s.processNext x.1 x.2)
    (starting 3 true true {0, 1, 2} 0 Database.new)).map fun s =>
      (s.control, s.running, decide (s.Enabled a.label), s.crash a)

theorem run_of_endsIn {xs : List (Label × (Nat → SendOutcome))} {a : Answers}
    {control : Control} {found : Option Crash}
    (h : endsIn xs a = some (control, true, true, found)) :
    ∃ s, Run ProcessStep (starting 3 true true {0, 1, 2} 0 Database.new) xs s ∧
      s.running = true ∧ s.control = control ∧ s.Enabled a.label ∧ s.crash a = found := by
  obtain ⟨s, hs, hview⟩ := Option.map_eq_some_iff.mp h
  simp only [Prod.mk.injEq, decide_eq_true_eq] at hview
  rcases hview with ⟨hcontrol, hrunning, hx, hcrash⟩
  exact ⟨s, Run.of_attempts hs, hrunning, hcontrol, hx,
    hcrash⟩

theorem onFailure_survived :
    ∃ s, Run ProcessStep (starting 3 true true {0, 1, 2} 0 Database.new) asking s ∧
      s.control = .dispatching [⟨5, 0x001⟩, ⟨3, 0x001⟩] ∧
      s.Survives ⟨5, 0x001⟩ [⟨3, 0x001⟩] onFailure := by
  have hends : endsIn asking onFailure =
      some (.dispatching [⟨5, 0x001⟩, ⟨3, 0x001⟩], true, true, none) := by
    decide +kernel
  obtain ⟨s, hrun, hrunning, hcontrol, hx, hcrash⟩ := run_of_endsIn hends
  refine ⟨s, hrun, hcontrol, ((survives_iff hrun hrunning).1 _ _ _ hcontrol hx).mpr ⟨?_, ?_⟩⟩
  · -- Were it the listening socket, `accept` would have failed.
    intro hlistening
    have hrefused := processNext_error (a := onFailure) hcontrol hrunning (by
      rw [dispatch, if_pos hlistening]
      rfl)
    rw [crash, hrefused] at hcrash
    cases hcrash
  · intro c _ i _ hreset
    cases hreset

/-- A reply on a connection that has been reset kills the process, and so does
an `accept` that fails. -/
theorem onReset_not_survived :
    (∃ s, Run ProcessStep (starting 3 true true {0, 1, 2} 0 Database.new) asking s ∧
      s.control = .dispatching [⟨5, 0x001⟩, ⟨3, 0x001⟩] ∧ s.Enabled onReset.label ∧
      s.crash onReset = some (.killed .sigpipe) ∧
      ¬ s.Survives ⟨5, 0x001⟩ [⟨3, 0x001⟩] onReset) ∧
    ∃ s, Run ProcessStep (starting 3 true true {0, 1, 2} 0 Database.new) calling s ∧
      s.control = .dispatching [⟨3, 0x001⟩] ∧ s.Enabled refusing.label ∧
      s.crash refusing = some (.exception .couldNotAccept) ∧
      ¬ s.Survives ⟨3, 0x001⟩ [] refusing := by
  have hreset : endsIn asking onReset = some
      (.dispatching [⟨5, 0x001⟩, ⟨3, 0x001⟩], true, true, some (.killed .sigpipe)) := by
    decide +kernel
  have hrefused : endsIn calling refusing = some
      (.dispatching [⟨3, 0x001⟩], true, true, some (.exception .couldNotAccept)) := by
    decide +kernel
  constructor
  · obtain ⟨s, hrun, -, hcontrol, hx, hcrash⟩ := run_of_endsIn hreset
    exact ⟨s, hrun, hcontrol, hx, hcrash, not_survives_of_crash (by rw [hcrash]; rfl)⟩
  · obtain ⟨s, hrun, -, hcontrol, hx, hcrash⟩ := run_of_endsIn hrefused
    exact ⟨s, hrun, hcontrol, hx, hcrash, not_survives_of_crash (by rw [hcrash]; rfl)⟩

end Server

end EasyKeyDB
