import EasyKeyDB.EventLoop

/-!
# Points inside the steps of the loop

A signal strikes anywhere, also while the process is in `wait_for_events` or in
the handler of an event, and between the test of `running` and what the test
decides. Here the steps of the loop that read `running` or run for long are cut in
two, and clients and signals may come between the halves.

Every run of the loop is a run of the program (`Program.run_of_run`), and the
invariant of the loop holds at all these points.
-/

namespace EasyKeyDB

/-- The server, and whether it is inside of what `control` says comes next: in
the call of `wait_for_events`, in the handler of the first event, or behind the
count of an iteration and in front of the condition of the loop. -/
structure Program where
  server : Server
  inside : Bool

inductive ProgramLabel
  | setUp
  /-- `wait_for_events` is called. -/
  | call
  /-- It returns, and an empty batch leads to a sweep. -/
  | report (batch : List EpollEvent) (now : UInt64)
  /-- `running` is tested in front of an event. -/
  | test
  /-- The event is passed to its handler, which comes to its end. -/
  | handle (event : Event) (accepted : Option Int) (reads : List ReadResult)
    (append : IoResult) (now : UInt64)
  | count (now : UInt64)
  /-- `running` is tested at the end of an iteration. -/
  | close
  | connect
  | stop
deriving DecidableEq

namespace Program

open Throwing

def stop (p : Program) : Program := { p with server := p.server.stop }

def next (p : Program) : ProgramLabel → Except Fault Program
  | .setUp => .ok
      ⟨{ p.server with running := true, iterations := 0, control := .waiting }, false⟩
  | .call => .ok { p with inside := true }
  | .report batch now => do
      let s ← p.server.wait batch now
      return ⟨s, false⟩
  | .test =>
      if p.server.running then .ok { p with inside := true }
      else .ok ⟨{ p.server with control := .dispatching [] }, false⟩
  | .handle event accepted reads append now =>
    match p.server.control with
    | .dispatching (_ :: events) => do
        let s ← p.server.dispatch event accepted reads append now
        return ⟨{ s with control := .dispatching events }, false⟩
    | _ => .ok p
  | .count now => do
      let s ← p.server.countIteration now
      return ⟨s, true⟩
  | .close => .ok ⟨p.server.closeIteration, false⟩
  | .connect => .ok { p with server := p.server.connect }
  | .stop => .ok p.stop

/-- Which steps are possible, with the same answers of the kernel as in the steps
of the loop. -/
def Enabled (p : Program) : ProgramLabel → Prop
  | .setUp => p.server.control = .settingUp
  | .call => p.inside = false ∧ p.server.control = .waiting
  | .report batch now => p.inside = true ∧ p.server.Enabled (.wait batch now)
  | .test => p.inside = false ∧
      ∃ event events, p.server.control = .dispatching (event :: events)
  | .handle event accepted _ _ _ => p.inside = true ∧
      (∃ events, p.server.control = .dispatching (event :: events)) ∧
      ∀ fd ∈ accepted, fd ∉ p.server.descriptors
  | .count _ => p.inside = false ∧ p.server.control = .dispatching []
  | .close => p.inside = true ∧ p.server.control = .dispatching []
  | .connect => True
  | .stop => True

instance (p : Program) (event : Event) :
    Decidable (∃ events, p.server.control = .dispatching (event :: events)) :=
  match p.server.control with
  | .dispatching (event' :: events) =>
      if h : event' = event then isTrue ⟨events, h ▸ rfl⟩
      else isFalse fun ⟨_, hevents⟩ => h (List.cons.inj (Control.dispatching.inj hevents)).1
  | .settingUp | .waiting | .stopped | .dispatching [] => isFalse nofun

instance (p : Program) (x : ProgramLabel) : Decidable (p.Enabled x) :=
  match x with
  | .setUp => inferInstanceAs (Decidable (_ = _))
  | .call | .count _ | .close => inferInstanceAs (Decidable (_ ∧ _))
  | .report _ _ => inferInstanceAs (Decidable (_ ∧ Server.Enabled _ _))
  | .test => inferInstanceAs (Decidable (_ ∧ ∃ _ _, _))
  | .handle _ _ _ _ _ => inferInstanceAs (Decidable (_ ∧ (∃ _, _) ∧ _))
  | .connect | .stop => isTrue trivial

def Step (p : Program) (x : ProgramLabel) (p' : Program) : Prop :=
  p.Enabled x ∧ p.next x = .ok p'

def starting (socket : Int) (connected disconnected : Bool) (others : Finset Int)
    (count : UInt32) (db : Database) : Program :=
  ⟨Server.starting socket connected disconnected others count db, false⟩

section

variable {p p' : Program} {event : Event} {events : List Event} {accepted : Option Int}
  {reads : List ReadResult} {append : IoResult} {now : UInt64}

theorem next_handle (hcontrol : p.server.control = .dispatching (event :: events))
    (accepted : Option Int) (reads : List ReadResult) (append : IoResult) (now : UInt64) :
    p.next (.handle event accepted reads append now) =
      p.server.dispatch event accepted reads append now >>= fun s =>
        .ok ⟨{ s with control := .dispatching events }, false⟩ := by
  simp only [next, hcontrol]
  rfl

/-! ## The loop and the program -/

theorem step_call {s : Server} (hcontrol : s.control = .waiting) :
    Step ⟨s, false⟩ .call ⟨s, true⟩ :=
  ⟨⟨rfl, hcontrol⟩, rfl⟩

theorem run_of_step {s s' : Server} (hs : s.Invariant) {x : Label}
    (h : Server.Step s x s') : ∃ ys, Run Step ⟨s, false⟩ ys ⟨s', false⟩ := by
  obtain ⟨hx, hok⟩ := h
  cases x with
  | setUp =>
      cases hok
      exact ⟨[.setUp], Run.single ⟨hx, rfl⟩⟩
  | connect =>
      cases hok
      exact ⟨[.connect], Run.single ⟨trivial, rfl⟩⟩
  | stop =>
      cases hok
      exact ⟨[.stop], Run.single ⟨trivial, rfl⟩⟩
  | wait batch now =>
      have hreport : next ⟨s, true⟩ (.report batch now) = .ok ⟨s', false⟩ := by
        have hwait : s.wait batch now = .ok s' := hok
        rw [next, hwait]
        rfl
      exact ⟨[.call, .report batch now], Run.cons_iff.mpr
        ⟨_, step_call hx.1, Run.single ⟨⟨rfl, hx⟩, hreport⟩⟩⟩
  | endOfBatch now =>
      obtain ⟨t, -, hsame, hcount⟩ := Server.countIteration_ok hs.table now
      have hend : s.endOfBatch now = .ok s' := hok
      rw [Server.endOfBatch_eq, hcount] at hend
      cases hend
      have hcounted : next ⟨s, false⟩ (.count now) = .ok ⟨t, true⟩ := by
        rw [next, hcount]
        rfl
      exact ⟨[.count now, .close], Run.cons_iff.mpr ⟨_, ⟨⟨rfl, hx⟩, hcounted⟩,
        Run.single ⟨⟨rfl, hsame.control.trans hx⟩, rfl⟩⟩⟩
  | dispatch accepted reads append now =>
      obtain ⟨event, events, hcontrol, ⟨hrunning, rfl⟩ | ⟨hrunning, t, ht, -, rfl⟩⟩ :=
        Server.dispatch_step hs ⟨hx, hok⟩
      -- The test that fails leaves the loop over the batch in one step.
      · exact ⟨[.test], Run.single ⟨⟨rfl, event, events, hcontrol⟩,
          if_neg (ne_true_of_eq_false hrunning)⟩⟩
      · have hhandle : next ⟨s, true⟩ (.handle event accepted reads append now) =
            .ok ⟨{ t with control := .dispatching events }, false⟩ := by
          rw [next_handle hcontrol, ht]
          rfl
        exact ⟨[.test, .handle event accepted reads append now], Run.cons_iff.mpr
          ⟨_, ⟨⟨rfl, event, events, hcontrol⟩, if_pos hrunning⟩,
            Run.single ⟨⟨rfl, ⟨events, hcontrol⟩, hx.2⟩, hhandle⟩⟩⟩

theorem run_of_run {s s' : Server} (hs : s.Invariant) {xs : List Label}
    (h : Run Server.Step s xs s') : ∃ ys, Run Step ⟨s, false⟩ ys ⟨s', false⟩ := by
  induction h with
  | nil => exact ⟨[], .nil⟩
  | snoc hrun hstep ih =>
      obtain ⟨ys, hys⟩ := ih
      obtain ⟨zs, hzs⟩ := run_of_step (Server.run_invariant hs hrun).1 hstep
      exact ⟨ys ++ zs, hys.append hzs⟩

/-! ## The invariant at all points -/

theorem step_stop (p : Program) : Step p .stop p.stop := ⟨trivial, rfl⟩

theorem step_report {s : Server} (h : s.Invariant) (hcontrol : s.control = .waiting) :
    ∃ t, Step ⟨s, true⟩ (.report [] 0) ⟨t, false⟩ ∧ t.control = .dispatching [] ∧
      t.running = s.running := by
  obtain ⟨t, -, hsame, -, hwait⟩ := Server.wait_ok h.table [] 0
  have hreport : next ⟨s, true⟩ (.report [] 0) = .ok
      ⟨{ t with signalled := s.signalled && !false, control := .dispatching [] }, false⟩ := by
    rw [next, hwait]
    rfl
  exact ⟨_, ⟨⟨rfl, hcontrol, List.nodup_nil, nofun⟩, hreport⟩, rfl, hsame.running⟩

theorem step_count {s : Server} (h : s.Invariant) (hcontrol : s.control = .dispatching []) :
    ∃ t, Step ⟨s, false⟩ (.count 0) ⟨t, true⟩ ∧ t.control = .dispatching [] ∧
      t.running = s.running := by
  obtain ⟨t, -, hsame, hcount⟩ := Server.countIteration_ok h.table 0
  refine ⟨t, ⟨⟨rfl, hcontrol⟩, ?_⟩, hsame.control.trans hcontrol, hsame.running⟩
  rw [next, hcount]
  rfl

/-- At every point each step goes through, unless `accept` fails, and keeps the
invariant of the loop. -/
theorem next_ok (h : p.server.Invariant) {x : ProgramLabel} (hx : p.Enabled x) :
    (∃ p', p.next x = .ok p' ∧ p'.server.Invariant) ∨
      p.next x = .error .couldNotAccept := by
  cases x with
  | setUp =>
      exact .inl ⟨_, rfl, ⟨h.table.outside true p.server.signalled 0 p.server.backlog .waiting,
        nofun⟩⟩
  | call => exact .inl ⟨_, rfl, h⟩
  | report batch now =>
      -- The same step as that of the loop, except for where it starts.
      rcases Server.next_ok h hx.2 with ⟨s', hok, hinvariant, -⟩ | hfault
      · left
        have hwait : p.server.wait batch now = .ok s' := hok
        refine ⟨⟨s', false⟩, ?_, hinvariant⟩
        rw [next, hwait]
        rfl
      · obtain ⟨t, -, -, -, hwait⟩ := Server.wait_ok h.table batch now
        cases hwait.symm.trans hfault
  | test =>
      left
      cases hrunning : p.server.running with
      | true => exact ⟨_, if_pos hrunning, h⟩
      | false =>
          refine ⟨_, if_neg (ne_true_of_eq_false hrunning), h.table.outside _ _ _ _ _, ?_⟩
          intro events hevents
          cases hevents
          exact .nil
  | handle event accepted reads append now =>
      obtain ⟨-, ⟨events, hcontrol⟩, hfresh⟩ := hx
      rw [next_handle hcontrol]
      rcases h.dispatch_ok hcontrol hfresh reads append now with ⟨t, ht, hcases⟩ | ⟨-, hfault⟩
      · left
        rw [ht]
        exact ⟨_, rfl, hcases.invariant h hcontrol hfresh⟩
      · right
        rw [hfault]
        rfl
  | count now =>
      left
      obtain ⟨t, htable, hsame, hcount⟩ := Server.countIteration_ok h.table now
      refine ⟨⟨t, true⟩, ?_, htable, ?_⟩
      · rw [next, hcount]
        rfl
      · intro events hevents
        cases hevents.symm.trans (hsame.control.trans hx.2)
        exact .nil
  | close =>
      left
      refine ⟨_, rfl, h.table.closeIteration, ?_⟩
      intro events hevents
      unfold Server.closeIteration at hevents
      split_ifs at hevents
  | connect => exact .inl ⟨_, rfl, ⟨h.table.outside _ _ _ _ _, h.batch⟩⟩
  | stop => exact .inl ⟨_, rfl, ⟨h.table.outside _ _ _ _ _, h.batch⟩⟩

theorem run_invariant (h : p.server.Invariant) {xs : List ProgramLabel}
    (hrun : Run Step p xs p') : p'.server.Invariant := by
  apply hrun.invariant (I := fun p => p.server.Invariant) h
  rintro m x m' hm ⟨hx, hok⟩
  rcases next_ok hm hx with ⟨t, ht, hinvariant⟩ | hfault
  · obtain rfl := Except.ok.inj (ht.symm.trans hok)
    exact hinvariant
  · cases hfault.symm.trans hok

end

end Program

end EasyKeyDB
