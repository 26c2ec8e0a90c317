import EasyKeyDB.ProgramPoints

/-!
# Stop requests

`stop` sets `running` to false, and the loop reads it in front of every event and
at the end of every iteration. From any point of the loop the program makes five
more steps at most (`Program.rank`): the call of `wait_for_events`, its return, a
test, the count of the iteration, and the condition of the loop.

`start` sets `running` to true when the set-up is done. A request that comes
earlier, with the handlers of `main` already installed, is undone there.
-/

namespace EasyKeyDB

/-- The step is the program's own. -/
def ProgramLabel.isProgram : ProgramLabel → Bool
  | .connect => false
  | .stop => false
  | _ => true

/-- The event that a step passes to a handler. -/
def ProgramLabel.passes : ProgramLabel → Option Event
  | .handle event _ _ _ _ => some event
  | _ => none

def passed (ys : List ProgramLabel) : List Event := ys.filterMap ProgramLabel.passes

def Control.current : Control → Bool → List Event
  | .dispatching (event :: _), true => [event]
  | _, _ => []

/-- How many steps of the program are to come when `running` is false. -/
def Control.rank : Control → Bool → Nat
  | .waiting, false => 5
  | .waiting, true => 4
  | .dispatching (_ :: _), true => 4
  | .dispatching (_ :: _), false => 3
  | .dispatching [], false => 2
  | .dispatching [], true => 1
  | .settingUp, _ => 0
  | .stopped, _ => 0

/-- How many calls of `wait_for_events` are to come then. -/
def Control.callsToCome : Control → Bool → Nat
  | .waiting, false => 1
  | _, _ => 0

/-- The points between which the steps lead when `running` is false. -/
inductive Control.Moves : ProgramLabel → Control → Bool → Control → Bool → Prop
  | call : Moves .call .waiting false .waiting true
  | report {batch : List EpollEvent} {now : UInt64} {events : List Event} :
      Moves (.report batch now) .waiting true (.dispatching events) false
  | test {event : Event} {events : List Event} :
      Moves .test (.dispatching (event :: events)) false (.dispatching []) false
  | handle {event : Event} {events : List Event} {accepted : Option Int}
      {reads : List ReadResult} {append : IoResult} {now : UInt64} :
      Moves (.handle event accepted reads append now) (.dispatching (event :: events)) true
        (.dispatching events) false
  | count {now : UInt64} : Moves (.count now) (.dispatching []) false (.dispatching []) true
  | close : Moves .close (.dispatching []) true .stopped false
  | connect {control : Control} {inside : Bool} : Moves .connect control inside control inside
  | stop {control : Control} {inside : Bool} : Moves .stop control inside control inside

namespace Control

variable {x : ProgramLabel} {control control' : Control} {inside inside' : Bool}

theorem Moves.started (h : Moves x control inside control' inside')
    (hstarted : control ≠ .settingUp) : control' ≠ .settingUp := by
  cases h with
  | connect => exact hstarted
  | stop => exact hstarted
  | _ => exact nofun

theorem Moves.current (h : Moves x control inside control' inside') :
    x.passes.toList ++ control'.current inside' = control.current inside := by
  cases h with
  | @handle event events => cases events <;> rfl
  | @report _ _ events => cases events <;> rfl
  | _ => rfl

theorem Moves.callsToCome (h : Moves x control inside control' inside') :
    [x].count .call + control'.callsToCome inside' ≤ control.callsToCome inside := by
  cases h with
  | _ => simp [Control.callsToCome]

theorem Moves.rank (h : Moves x control inside control' inside') :
    [x].countP ProgramLabel.isProgram + control'.rank inside' ≤ control.rank inside := by
  cases h with
  | @handle event events => cases events <;> simp [Control.rank, ProgramLabel.isProgram]
  | @report _ _ events => cases events <;> simp [Control.rank, ProgramLabel.isProgram]
  | _ => simp [Control.rank, ProgramLabel.isProgram]

end Control

namespace Program

open Throwing

/-- A stop request at this point is not lost. -/
structure HeedsStop (p : Program) : Prop where
  /-- No event is passed to a handler but the one that is being dispatched. -/
  passed : ∀ ys t, Run Step p.stop ys t → passed ys <+: p.server.control.current p.inside
  calls : ∀ ys t, Run Step p.stop ys t → ys.count .call ≤ 1
  /-- The program does not go on for ever. -/
  ends : ∃ n, ∀ ys t, Run Step p.stop ys t → ys.countP ProgramLabel.isProgram ≤ n
  /-- It goes on as long as the loop has not been left. -/
  goesOn : ∀ ys t, Run Step p.stop ys t → t.server.control ≠ .stopped →
    ∃ x t', x.isProgram = true ∧ Step t x t'

/-- The program has been stopped at `p`, and has made the steps `ys` since. -/
structure Stopping (p : Program) (ys : List ProgramLabel) (t : Program) : Prop where
  running : t.server.running = false
  started : t.server.control ≠ .settingUp
  passed : passed ys ++ t.server.control.current t.inside = p.server.control.current p.inside
  calls : ys.count .call + t.server.control.callsToCome t.inside ≤ 1
  steps : ys.countP ProgramLabel.isProgram + t.server.control.rank t.inside ≤
    p.server.control.rank p.inside

section

variable {p t t' : Program} {ys : List ProgramLabel} {x : ProgramLabel}

theorem moves_of_step (hinvariant : t.server.Invariant) (hrunning : t.server.running = false)
    (hstarted : t.server.control ≠ .settingUp) (hstep : Step t x t') :
    t'.server.running = false ∧
      Control.Moves x t.server.control t.inside t'.server.control t'.inside := by
  obtain ⟨hx, hok⟩ := hstep
  cases x with
  -- No other step sets `running` to true.
  | setUp => exact absurd hx hstarted
  | call =>
      cases hok
      rw [hx.1, hx.2]
      exact ⟨hrunning, .call⟩
  | report batch now =>
      obtain ⟨m, -, hsame, -, hwait⟩ := Server.wait_ok hinvariant.table batch now
      rw [next, hwait] at hok
      cases hok
      rw [hx.1, hx.2.1]
      exact ⟨hsame.running.trans hrunning, .report⟩
  | test =>
      obtain ⟨hinside, event, events, hcontrol⟩ := hx
      rw [next, if_neg (ne_true_of_eq_false hrunning)] at hok
      cases hok
      rw [hinside, hcontrol]
      exact ⟨hrunning, .test⟩
  | handle event accepted reads append now =>
      obtain ⟨hinside, ⟨events, hcontrol⟩, hfresh⟩ := hx
      have hcases := hinvariant.dispatched hcontrol hfresh reads append now
      rw [next_handle hcontrol] at hok
      obtain ⟨m, hdispatch, hafter⟩ := except_bind_eq_ok hok
      rw [hdispatch] at hcases
      cases hafter
      rw [hinside, hcontrol]
      exact ⟨hcases.running.trans hrunning, .handle⟩
  | count now =>
      obtain ⟨m, -, hsame, hcount⟩ := Server.countIteration_ok hinvariant.table now
      rw [next, hcount] at hok
      cases hok
      have hcontrol : m.control = .dispatching [] := hsame.control.trans hx.2
      simp only [hx.1, hx.2, hcontrol]
      exact ⟨hsame.running.trans hrunning, .count⟩
  | close =>
      have hclosed : t.server.closeIteration.control = .stopped ∧
          t.server.closeIteration.running = false := by
        rw [Server.closeIteration, if_neg (ne_true_of_eq_false hrunning)]
        exact ⟨rfl, hrunning⟩
      cases hok
      simp only [hx.1, hx.2, hclosed.1]
      exact ⟨hclosed.2, .close⟩
  | connect =>
      cases hok
      exact ⟨hrunning, .connect⟩
  | stop =>
      cases hok
      exact ⟨rfl, .stop⟩

theorem passed_snoc (ys : List ProgramLabel) (x : ProgramLabel) :
    EasyKeyDB.passed (ys ++ [x]) = EasyKeyDB.passed ys ++ x.passes.toList := by
  rw [EasyKeyDB.passed, List.filterMap_append]
  cases hx : x.passes with
  | none =>
      rw [List.filterMap_cons_none hx]
      rfl
  | some event =>
      rw [List.filterMap_cons_some hx]
      rfl

theorem Stopping.start (hstarted : p.server.control ≠ .settingUp) :
    Stopping p [] p.stop where
  running := rfl
  started := hstarted
  passed := rfl
  calls := by
    show 0 + p.server.control.callsToCome p.inside ≤ 1
    unfold Control.callsToCome
    split <;> decide
  steps := Nat.le_of_eq (Nat.zero_add _)

theorem Stopping.step (hinvariant : t.server.Invariant) (h : Stopping p ys t)
    (hstep : Step t x t') : Stopping p (ys ++ [x]) t' := by
  obtain ⟨hrunning, hmoves⟩ := moves_of_step hinvariant h.running h.started hstep
  refine ⟨hrunning, hmoves.started h.started, ?_, ?_, ?_⟩
  · rw [passed_snoc, List.append_assoc, hmoves.current, h.passed]
  · have hsofar := h.calls
    have hnext := hmoves.callsToCome
    rw [List.count_append]
    omega
  · have hsofar := h.steps
    have hnext := hmoves.rank
    rw [List.countP_append]
    omega

theorem stopping_of_run (hinvariant : p.server.Invariant)
    (hstarted : p.server.control ≠ .settingUp) (h : Run Step p.stop ys t) :
    Stopping p ys t := by
  have hstop : p.stop.server.Invariant :=
    run_invariant hinvariant (Run.single (step_stop p))
  have hboth : t.server.Invariant ∧ Stopping p ys t := by
    apply h.history (I := fun ys t => t.server.Invariant ∧ Stopping p ys t)
    · exact ⟨hstop, .start hstarted⟩
    · rintro ys m x m' ⟨hm, hstopping⟩ hstep
      exact ⟨run_invariant hm (Run.single hstep), hstopping.step hm hstep⟩
  exact hboth.2

theorem goes_on (h : t.server.Invariant) (hleft : t.server.control ≠ .stopped) :
    ∃ x t', x.isProgram = true ∧ Step t x t' := by
  obtain ⟨s, inside⟩ := t
  cases hcontrol : s.control with
  | settingUp => exact ⟨.setUp, _, rfl, hcontrol, rfl⟩
  | stopped => exact absurd hcontrol hleft
  | waiting =>
      cases inside with
      | false => exact ⟨.call, _, rfl, step_call hcontrol⟩
      | true =>
          obtain ⟨m, hstep, -, -⟩ := step_report h hcontrol
          exact ⟨.report [] 0, _, rfl, hstep⟩
  | dispatching events =>
      cases events with
      | nil =>
          cases inside with
          | false =>
              obtain ⟨m, hstep, -, -⟩ := step_count h hcontrol
              exact ⟨.count 0, _, rfl, hstep⟩
          | true => exact ⟨.close, _, rfl, ⟨rfl, hcontrol⟩, rfl⟩
      | cons event events =>
          cases inside with
          | false =>
              have hx : Enabled ⟨s, false⟩ .test := ⟨rfl, event, events, hcontrol⟩
              rcases next_ok h hx with ⟨t', ht', -⟩ | hfault
              · exact ⟨.test, t', rfl, hx, ht'⟩
              · rw [next] at hfault
                split_ifs at hfault
          | true =>
              -- If the event is a connection, `accept` finds a free descriptor.
              obtain ⟨fd, hfd⟩ := Infinite.exists_notMem_finset s.descriptors
              have hfresh : ∀ fd' ∈ some fd, fd' ∉ s.descriptors := by
                rintro fd' hfd'
                cases hfd'
                exact hfd
              have hx : Enabled ⟨s, true⟩ (.handle event (some fd) [] .complete 0) :=
                ⟨rfl, ⟨events, hcontrol⟩, hfresh⟩
              rcases h.dispatch_ok hcontrol hfresh [] .complete 0 with
                ⟨m, hm, -⟩ | ⟨hnone, -⟩
              · have hhandled : next ⟨s, true⟩ (.handle event (some fd) [] .complete 0) =
                    .ok ⟨{ m with control := .dispatching events }, false⟩ := by
                  rw [next_handle hcontrol, hm]
                  rfl
                exact ⟨_, _, rfl, hx, hhandled⟩
              · cases hnone

/-- In the set-up the request is undone, and the loop goes round. -/
theorem calls_twice (h : p.server.Invariant) (hcontrol : p.server.control = .settingUp) :
    ∃ t, Run Step p.stop [.setUp, .call, .report [] 0, .count 0, .close, .call] t := by
  obtain ⟨s, inside⟩ := p
  let started : Server := { s.stop with running := true, iterations := 0, control := .waiting }
  have hsetUp : Step (stop ⟨s, inside⟩) .setUp ⟨started, false⟩ := ⟨hcontrol, rfl⟩
  have hrun := (Run.single (step_stop ⟨s, inside⟩)).snoc hsetUp
  obtain ⟨m, hreport, hreported, hrunning⟩ :=
    step_report (run_invariant h hrun) (show started.control = .waiting from rfl)
  have hrun := (hrun.snoc (step_call rfl)).snoc hreport
  obtain ⟨t, hcount, hcounted, hstill⟩ := step_count (run_invariant h hrun) hreported
  have hclose : t.closeIteration = { t with control := .waiting } :=
    if_pos (hstill.trans hrunning)
  refine ⟨_, Run.cons_iff.mpr ⟨_, hsetUp, Run.cons_iff.mpr ⟨_, step_call rfl,
    Run.cons_iff.mpr ⟨_, hreport, Run.cons_iff.mpr ⟨_, hcount, Run.cons_iff.mpr
      ⟨⟨t.closeIteration, false⟩, ⟨⟨rfl, hcounted⟩, rfl⟩, Run.single (step_call ?_)⟩⟩⟩⟩⟩⟩
  rw [hclose]

/-- **A stop request** is not lost, at whatever point of whatever run it comes,
exactly when the set-up is over. -/
theorem heedsStop_iff {socket : Int} {connected disconnected : Bool} {others : Finset Int}
    {count : UInt32} {db : Database} {xs : List ProgramLabel}
    (h : Run Step (starting socket connected disconnected others count db) xs p) :
    p.HeedsStop ↔ p.server.control ≠ .settingUp := by
  have hinvariant : p.server.Invariant :=
    run_invariant (Server.invariant_starting socket connected disconnected others count db) h
  constructor
  · intro hheeds hcontrol
    obtain ⟨t, hrun⟩ := calls_twice hinvariant hcontrol
    have htwo := hheeds.calls _ t hrun
    exact absurd htwo (by decide)
  · intro hstarted
    refine ⟨?_, ?_, ⟨p.server.control.rank p.inside, ?_⟩, ?_⟩
    · intro ys t hrun
      exact ⟨_, (stopping_of_run hinvariant hstarted hrun).passed⟩
    · intro ys t hrun
      exact (Nat.le_add_right _ _).trans (stopping_of_run hinvariant hstarted hrun).calls
    · intro ys t hrun
      exact (Nat.le_add_right _ _).trans (stopping_of_run hinvariant hstarted hrun).steps
    · intro ys t hrun hleft
      apply goes_on _ hleft
      exact run_invariant hinvariant (Run.cons_iff.mpr ⟨p.stop, step_stop p, hrun⟩)

end

/-! ## A request that comes early -/

def fresh : Program := starting 3 true true {0, 1, 2} 0 Database.new

/-- A request while the process waits for events is heeded. -/
theorem waiting_heedsStop : ∃ p, Run Step fresh [.setUp, .call] p ∧ p.HeedsStop := by
  have hsetUp : Step fresh .setUp
      ⟨{ fresh.server with running := true, iterations := 0, control := .waiting }, false⟩ :=
    ⟨rfl, rfl⟩
  have hrun := (Run.single hsetUp).snoc (step_call rfl)
  exact ⟨_, hrun, (heedsStop_iff hrun).mpr nofun⟩

/-- The set-up goes on behind a request, and a client is accepted. -/
def accepting : List ProgramLabel :=
  [.setUp, .connect, .call, .report [⟨0x001, 3⟩] 0, .test,
    .handle ⟨3, 0x001⟩ (some 5) [] .complete 0, .count 0, .close, .call]

theorem settingUp_not_heedsStop :
    (∃ t, Run Step fresh.stop accepting t) ∧ ¬ fresh.HeedsStop := by
  have hgoes : (accepting.foldlM (attempt Enabled next) fresh.stop).isSome = true := by
    decide +kernel
  obtain ⟨t, ht⟩ := Option.isSome_iff_exists.mp hgoes
  have hrun : Run Step fresh.stop accepting t := Run.of_attempts ht
  refine ⟨⟨t, hrun⟩, fun hheeds => ?_⟩
  have hnone := hheeds.passed accepting t hrun
  exact absurd (List.prefix_nil.mp hnone) (by decide)

end Program

end EasyKeyDB
