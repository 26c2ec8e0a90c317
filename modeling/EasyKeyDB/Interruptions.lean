import EasyKeyDB.ProgramPoints

/-!
# Signals and connections inside the steps of the loop

The loop is modelled in steps between which clients connect and signals strike; the
program lets them do so inside of these steps too. Here it is shown that the loop loses
nothing by that: where the program is not inside of a step, its server is in a state of a
run of the loop (`Program.between_steps_iff`).

A connection that arrives inside of a step might have arrived before the step, and a
signal that strikes inside of a handler might have struck behind it. A signal in front of
the condition of the loop might have struck before the iteration was counted, since the
sweep does not look at `running`.
-/

namespace EasyKeyDB

open ByteBuffer

namespace Server

section

variable {s t : Server}

/-- The state after a change of the flag and the accept queue. -/
def beyond (running signalled : Bool → Bool) (backlog : Nat → Nat) (s : Server) : Server :=
  { s with
    running := running s.running
    signalled := signalled s.signalled
    backlog := backlog s.backlog }

section

variable (running signalled : Bool → Bool) (backlog : Nat → Nat) (s : Server)

theorem handleClientDisconnected_beyond (fd : Int) :
    (s.beyond running signalled backlog).handleClientDisconnected fd =
      (s.handleClientDisconnected fd).map (beyond running signalled backlog) := by
  unfold handleClientDisconnected beyond
  cases hset : s.clientDisconnectedCallback <;>
    cases hfind : s.currentConnections.find? fd <;>
    simp only [hset, hfind, Bool.false_eq_true, if_false, if_true, pure_bind] <;> rfl

theorem checkIdleConnections_beyond (now : UInt64) :
    (s.beyond running signalled backlog).checkIdleConnections now =
      (s.checkIdleConnections now).map (beyond running signalled backlog) :=
  foldlM_commutes (handleClientDisconnected_beyond running signalled backlog) s _

theorem countIteration_beyond (now : UInt64) :
    (s.beyond running signalled backlog).countIteration now =
      (s.countIteration now).map (beyond running signalled backlog) := by
  by_cases hdue : s.iterations + 1 = 1000
  · have hsweep := checkIdleConnections_beyond running signalled backlog
      { s with iterations := s.iterations + 1 } now
    simp only [countIteration, beyond, hdue, if_true] at hsweep ⊢
    rw [hsweep]
    cases checkIdleConnections { s with iterations := 1000 } now with
    | error fault => rfl
    | ok t => rfl
  · simp only [countIteration, beyond, hdue, if_false]
    rfl

end

/-- A signal behind the count of an iteration might have struck in front of it. -/
theorem countIteration_stop {now : UInt64} (hok : s.countIteration now = .ok t) :
    s.stop.countIteration now = .ok t.stop :=
  (countIteration_beyond (fun _ => false) id id s now).trans (congrArg (Except.map stop) hok)

theorem countIteration_connect {now : UInt64} (hok : s.countIteration now = .ok t) :
    s.connect.countIteration now = .ok t.connect :=
  (countIteration_beyond id (fun _ => true) (· + 1) s now).trans
    (congrArg (Except.map connect) hok)

theorem handleNewConnection_stop (s : Server) (accepted : Option Int) (now : UInt64) :
    s.stop.handleNewConnection accepted now =
      (s.handleNewConnection accepted now).map stop := by
  cases accepted with
  | none => rfl
  | some fd =>
      by_cases hfree : s.currentConnections.find? fd = none
      · simp only [handleNewConnection, stop, hfree, if_true]
        rfl
      · simp only [handleNewConnection, stop, hfree, if_false]
        rfl

theorem handleRequest_stop (s : Server) (fd : Int) (reads : List ReadResult) (append : IoResult)
    (now : UInt64) :
    s.stop.handleRequest fd reads append now =
      (s.handleRequest fd reads append now).map stop := by
  have hentry : s.stop.currentConnections = s.currentConnections := rfl
  have hdatabase : s.stop.database = s.database := rfl
  unfold handleRequest
  rw [hentry, hdatabase]
  cases s.currentConnections.find? fd with
  | none => rfl
  | some c =>
      dsimp only
      cases EasyKeyDB.handleRequest now append ⟨s.database, { c.client with readBuffer :=
          { c.client.readBuffer with source := reads.map sourceTrigger } }⟩ <;> rfl

theorem dispatch_stop (s : Server) (event : Event) (accepted : Option Int)
    (reads : List ReadResult) (append : IoResult) (now : UInt64) :
    s.stop.dispatch event accepted reads append now =
      (s.dispatch event accepted reads append now).map stop := by
  have hsocket : s.stop.socket = s.socket := rfl
  unfold dispatch
  rw [hsocket]
  split_ifs
  · exact handleNewConnection_stop s accepted now
  · exact handleClientDisconnected_beyond (fun _ => false) id id s event.fileDescriptor
  · exact handleRequest_stop s event.fileDescriptor reads append now
  · rfl

end

end Server

namespace Program

/-- The state of the loop behind a point of the program: the steps that have begun have
not been made, but for a counted iteration, which changes what the condition of the loop
is about to find. -/
inductive Behind : Server → Program → Prop
  | between (s : Server) : Behind s ⟨s, false⟩
  | waiting {s : Server} : s.control = .waiting → Behind s ⟨s, true⟩
  | handling {s : Server} {event : Event} {events : List Event} :
      s.control = .dispatching (event :: events) → s.running = true → Behind s ⟨s, true⟩
  | stopping {s : Server} {event : Event} {events : List Event} :
      s.control = .dispatching (event :: events) → s.running = true → Behind s ⟨s.stop, true⟩
  | counted {s t : Server} {now : UInt64} : s.control = .dispatching [] →
      s.countIteration now = .ok t → t.control = .dispatching [] → Behind s ⟨t, true⟩

section

variable {s : Server} {p p' : Program}

theorem step_matched (hs : s.Invariant) (hp : Behind s p) {x : ProgramLabel}
    (h : Step p x p') : ∃ ys s', Run Server.Step s ys s' ∧ Behind s' p' := by
  obtain ⟨hx, hok⟩ := h
  cases x with
  | setUp =>
      cases hok
      cases hp with
      | between => exact ⟨[.setUp], _, Run.single ⟨hx, rfl⟩, .between _⟩
      | waiting hcontrol => cases hcontrol.symm.trans hx
      | handling hcontrol _ => cases hcontrol.symm.trans hx
      | stopping hcontrol _ => cases hcontrol.symm.trans hx
      | counted _ _ hcontrol => cases hcontrol.symm.trans hx
  | call =>
      cases hok
      obtain ⟨hbetween, hcontrol⟩ := hx
      cases hp with
      | between => exact ⟨[], s, .nil, .waiting hcontrol⟩
      | waiting | handling | stopping | counted => cases hbetween
  | report batch now =>
      obtain ⟨hinside, hwait⟩ := hx
      obtain ⟨t, ht, hafter⟩ := Throwing.except_bind_eq_ok hok
      cases hafter
      cases hp with
      | between => cases hinside
      | waiting _ => exact ⟨[.wait batch now], t, Run.single ⟨hwait, ht⟩, .between t⟩
      | handling hcontrol _ => cases hcontrol.symm.trans hwait.1
      | stopping hcontrol _ => cases hcontrol.symm.trans hwait.1
      | counted _ _ hcontrol => cases hcontrol.symm.trans hwait.1
  | test =>
      obtain ⟨hbetween, event, events, hcontrol⟩ := hx
      cases hp with
      | between =>
          cases hrunning : s.running with
          | true =>
              cases (if_pos hrunning).symm.trans hok
              exact ⟨[], s, .nil, .handling hcontrol hrunning⟩
          | false =>
              cases (if_neg (ne_true_of_eq_false hrunning)).symm.trans hok
              have hbreak := Server.next_break hcontrol hrunning none [] .complete 0
              exact ⟨[.dispatch none [] .complete 0], _,
                Run.single ⟨⟨⟨event, events, hcontrol⟩, nofun⟩, hbreak⟩, .between _⟩
      | waiting | handling | stopping | counted => cases hbetween
  | handle event accepted reads append now =>
      obtain ⟨hinside, ⟨events, hcontrol⟩, hfresh⟩ := hx
      rw [next_handle hcontrol] at hok
      obtain ⟨t, ht, hafter⟩ := Throwing.except_bind_eq_ok hok
      cases hafter
      cases hp with
      | between => cases hinside
      | waiting hwaiting => cases hwaiting.symm.trans hcontrol
      | counted _ _ hdone => cases hdone.symm.trans hcontrol
      | handling _ hrunning =>
          refine ⟨[.dispatch accepted reads append now], _,
            Run.single ⟨⟨⟨event, events, hcontrol⟩, hfresh⟩, ?_⟩, .between _⟩
          rw [Server.next_dispatch hcontrol hrunning, ht]
          rfl
      | stopping _ hrunning =>
          -- The signal that has struck inside of the handler strikes behind it.
          rw [Server.dispatch_stop] at ht
          obtain ⟨t', ht', rfl⟩ := Throwing.except_map_eq_ok ht
          refine ⟨[.dispatch accepted reads append now, .stop], _, Run.cons_iff.mpr
            ⟨{ t' with control := .dispatching events },
              ⟨⟨⟨event, events, hcontrol⟩, hfresh⟩, ?_⟩, Run.single ⟨trivial, rfl⟩⟩, .between _⟩
          rw [Server.next_dispatch (s := s) hcontrol hrunning, ht']
          rfl
  | count now =>
      obtain ⟨hbetween, hcontrol⟩ := hx
      obtain ⟨t, ht, hafter⟩ := Throwing.except_bind_eq_ok hok
      cases hafter
      cases hp with
      | between =>
          obtain ⟨t', -, hsame, ht'⟩ := Server.countIteration_ok hs.table now
          obtain rfl := Except.ok.inj (ht'.symm.trans ht)
          exact ⟨[], s, .nil, .counted hcontrol ht (hsame.control.trans hcontrol)⟩
      | waiting | handling | stopping | counted => cases hbetween
  | close =>
      cases hok
      obtain ⟨hinside, hcontrol⟩ := hx
      cases hp with
      | between => cases hinside
      | waiting hwaiting => cases hwaiting.symm.trans hcontrol
      | handling hhandling _ => cases hhandling.symm.trans hcontrol
      | stopping hhandling _ => cases hhandling.symm.trans hcontrol
      | @counted t now hdone ht _ =>
          refine ⟨[.endOfBatch now], t.closeIteration, Run.single ⟨hdone, ?_⟩, .between _⟩
          change s.endOfBatch now = _
          rw [Server.endOfBatch_eq, ht]
          rfl
  | connect =>
      cases hok
      refine ⟨[.connect], s.connect, Run.single ⟨trivial, rfl⟩, ?_⟩
      cases hp with
      | between => exact .between _
      | waiting hcontrol => exact .waiting hcontrol
      | handling hcontrol hrunning => exact .handling (s := s.connect) hcontrol hrunning
      | stopping hcontrol hrunning => exact .stopping (s := s.connect) hcontrol hrunning
      | counted hcontrol ht hdone =>
          exact .counted (s := s.connect) hcontrol (Server.countIteration_connect ht) hdone
  | stop =>
      cases hok
      cases hp with
      | between => exact ⟨[.stop], s.stop, Run.single ⟨trivial, rfl⟩, .between _⟩
      | waiting hcontrol =>
          exact ⟨[.stop], s.stop, Run.single ⟨trivial, rfl⟩, .waiting (s := s.stop) hcontrol⟩
      | handling hcontrol hrunning => exact ⟨[], s, .nil, .stopping hcontrol hrunning⟩
      | stopping hcontrol hrunning => exact ⟨[], s, .nil, .stopping hcontrol hrunning⟩
      | counted hcontrol ht hdone =>
          exact ⟨[.stop], s.stop, Run.single ⟨trivial, rfl⟩,
            .counted (s := s.stop) hcontrol (Server.countIteration_stop ht) hdone⟩

/-- **The steps of the loop may be taken for atomic.** Where the program is not inside of a
step, its server is where a run of the loop may have come to, and the loop comes to no
other states. -/
theorem between_steps_iff (socket : Int) (connected disconnected : Bool) (others : Finset Int)
    (count : UInt32) (db : Database) (s : Server) :
    (∃ xs, Run Step (starting socket connected disconnected others count db) xs ⟨s, false⟩) ↔
      ∃ ys, Run Server.Step
        (Server.starting socket connected disconnected others count db) ys s := by
  have hstart := Server.invariant_starting socket connected disconnected others count db
  constructor
  · rintro ⟨xs, hrun⟩
    have hmatched : ∀ p x p' s, s.Invariant ∧ Behind s p → Step p x p' →
        ∃ ys s', Run Server.Step s ys s' ∧ s'.Invariant ∧ Behind s' p' := by
      rintro p x p' s ⟨hs, hp⟩ hstep
      obtain ⟨ys, s', hys, hp'⟩ := step_matched hs hp hstep
      exact ⟨ys, s', hys, (Server.run_invariant hs hys).1, hp'⟩
    obtain ⟨ys, s', hys, -, hbehind⟩ := hrun.simulated ⟨hstart, .between _⟩ hmatched
    cases hbehind
    exact ⟨ys, hys⟩
  · rintro ⟨ys, hrun⟩
    exact run_of_run hstart hrun

end

end Program

end EasyKeyDB
