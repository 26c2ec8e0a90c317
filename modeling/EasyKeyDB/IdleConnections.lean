import EasyKeyDB.ConnectionSteps
import EasyKeyDB.Sweeps

/-!
# How long a connection may be idle

The loop sweeps when a batch is empty and when it has counted a thousand
iterations, and only the second sets the count back. A run is timed here by a
clock that does not go back, and keeps account of the last sweep and of the
iterations since (`Timed`). No connection is older than the clock shows, so no
difference of times wraps (`Timed.Timely`).
-/

namespace EasyKeyDB

/-- What the clock shows in a step. -/
def Label.time : Label → Option UInt64
  | .wait _ now => some now
  | .dispatch _ _ _ now => some now
  | .endOfBatch now => some now
  | .setUp | .connect | .stop => none

namespace Server

/-- The state in which a step calls `check_idle_connections`, if it does, and the
time at which it does. -/
def sweeping (s : Server) : Label → Option (Server × UInt64)
  | .wait [] now => some (s, now)
  | .endOfBatch now =>
    if s.iterations + 1 = 1000 then some ({ s with iterations := s.iterations + 1 }, now)
    else none
  | _ => none

section

variable {s s' t m : Server} {x : Label} {now : UInt64} {event : Event} {events : List Event}
  {accepted : Option Int} {reads : List ReadResult} {append : IoResult} {fd : Int}
  {c : Connection}

/-! ## The count of the iterations -/

def countAfter (iterations : UInt16) : Label → UInt16
  | .setUp => 0
  | .endOfBatch _ => if iterations + 1 = 1000 then 0 else iterations + 1
  | _ => iterations

theorem Dispatched.iterations (hd : Dispatched s event accepted reads append now (.ok t)) :
    t.iterations = s.iterations := by
  cases hd <;> rfl

theorem iterations_of_step (h : s.Invariant) (hstep : Step s x s') :
    s'.iterations = countAfter s.iterations x := by
  obtain ⟨hx, hok⟩ := hstep
  cases x with
  | setUp =>
      cases hok
      rfl
  | connect =>
      cases hok
      rfl
  | stop =>
      cases hok
      rfl
  | wait batch now =>
      cases batch with
      | nil =>
          obtain ⟨t, signalled, hsweep, rfl⟩ := wait_nil hok
          have hcount := iterations_checkIdleConnections h.table hsweep
          exact hcount
      | cons e batch =>
          cases hok
          rfl
  | dispatch accepted reads append now =>
      obtain ⟨event, events, -, ⟨-, rfl⟩ | ⟨-, t, -, hcases, rfl⟩⟩ := dispatch_step h ⟨hx, hok⟩
      · rfl
      · exact hcases.iterations
  | endOfBatch now =>
      unfold countAfter
      by_cases hdue : s.iterations + 1 = 1000
      · obtain ⟨t, -, rfl⟩ := endOfBatch_due hdue hok
        obtain ⟨ioNotifier, control, hclose⟩ := closeIteration_eq { t with iterations := 0 }
        rw [if_pos hdue, hclose]
      · obtain rfl := endOfBatch_not_due hdue hok
        obtain ⟨ioNotifier, control, hclose⟩ :=
          closeIteration_eq { s with iterations := s.iterations + 1 }
        rw [if_neg hdue, hclose]

/-! ## The entries -/

theorem sweeping_ok (hsweeping : s.sweeping x = some (m, now)) (hok : s.next x = .ok s') :
    x.time = some now ∧ (∃ iterations, m = { s with iterations }) ∧
      ∃ t, m.checkIdleConnections now = .ok t ∧
        s'.currentConnections = t.currentConnections ∧ s'.callbacks = t.callbacks := by
  unfold sweeping at hsweeping
  split at hsweeping
  · cases hsweeping
    obtain ⟨t, signalled, hsweep, rfl⟩ := wait_nil hok
    exact ⟨rfl, ⟨s.iterations, rfl⟩, t, hsweep, rfl, rfl⟩
  -- Behind the sweep the count is reset and the condition of the loop evaluated.
  · split_ifs at hsweeping with hdue
    cases hsweeping
    obtain ⟨t, hsweep, rfl⟩ := endOfBatch_due hdue hok
    obtain ⟨ioNotifier, control, hclose⟩ := closeIteration_eq { t with iterations := 0 }
    rw [hclose]
    exact ⟨rfl, ⟨s.iterations + 1, rfl⟩, t, hsweep, rfl, rfl⟩
  · cases hsweeping

theorem dispatch_seen (h : s.Table) (hfresh : ∀ fd ∈ accepted, fd ∉ s.descriptors)
    (hok : s.dispatch event accepted reads append now = .ok t) (hc : t.entry fd = some c) :
    s.entry fd = some c ∨ c.client.lastSeen = now := by
  unfold dispatch at hok
  split_ifs at hok with hlistening hclose hread
  · cases accepted with
    | none => cases hok
    | some fd' =>
        have hfree := h.entry_eq_none (hfresh fd' rfl)
        rw [handleNewConnection_ok hfree] at hok
        cases hok
        rw [entry_enter hfree] at hc
        split_ifs at hc with hsame
        · cases hc
          exact .inr rfl
        · exact .inl hc
  · exact .inl ((handleClientDisconnected_onlyLeaves hok).entries fd c hc)
  · cases hfind : s.entry event.fileDescriptor with
    | none =>
        have hmissing : s.currentConnections.find? event.fileDescriptor = none := hfind
        rw [handleRequest, hmissing] at hok
        cases hok
    | some c' =>
        obtain ⟨client, -, hseen, hrequest⟩ := handleRequest_spec hfind reads append now
        rw [hrequest] at hok
        cases hok
        rw [entry_serve_of_some hfind] at hc
        split_ifs at hc with hsame
        · cases hc
          exact .inr hseen
        · exact .inl hc
  · cases hok
    exact .inl hc

theorem step_seen (h : s.Invariant) (hstep : Step s x s') (hc : s'.entry fd = some c) :
    s.entry fd = some c ∨ x.time = some c.client.lastSeen := by
  obtain ⟨hx, hok⟩ := hstep
  cases x with
  | setUp =>
      cases hok
      exact .inl hc
  | connect =>
      cases hok
      exact .inl hc
  | stop =>
      cases hok
      exact .inl hc
  | wait batch now => exact .inl ((wait_onlyLeaves hok).entries fd c hc)
  | endOfBatch now => exact .inl ((endOfBatch_onlyLeaves hok).entries fd c hc)
  | dispatch accepted reads append now =>
      obtain ⟨event, events, -, ⟨-, rfl⟩ | ⟨-, t, ht, -, rfl⟩⟩ := dispatch_step h ⟨hx, hok⟩
      · exact .inl hc
      · rcases dispatch_seen h.table hx.2 ht hc with hold | hseen
        · exact .inl hold
        · exact .inr (congrArg some hseen.symm)

end

end Server

/-! ## Runs with a clock -/

/-- The server, with what a clock would tell of it. -/
structure Timed where
  server : Server
  /-- What the clock has shown last. -/
  clock : UInt64
  /-- When the last sweep was. -/
  swept : Option UInt64
  /-- The iterations since then, or since the start. -/
  since : Nat

namespace Timed

open Throwing

def counted (since : Nat) : Label → Nat
  | .setUp => 0
  | .endOfBatch _ => since + 1
  | _ => since

def clockAfter (t : Timed) (x : Label) : UInt64 := x.time.getD t.clock

def after (t : Timed) (x : Label) (s : Server) : Timed :=
  match t.server.sweeping x with
  | some (_, now) => ⟨s, t.clockAfter x, some now, 0⟩
  | none => ⟨s, t.clockAfter x, t.swept, counted t.since x⟩

def next (t : Timed) (x : Label) : Except Fault Timed := do
  let s ← t.server.next x
  return t.after x s

/-- The clock does not go back. -/
def Enabled (t : Timed) (x : Label) : Prop :=
  t.server.Enabled x ∧ t.clock ≤ t.clockAfter x

instance (t : Timed) (x : Label) : Decidable (t.Enabled x) :=
  inferInstanceAs (Decidable (_ ∧ _))

def Step (t : Timed) (x : Label) (t' : Timed) : Prop :=
  t.Enabled x ∧ t.next x = .ok t'

def starting (socket : Int) (connected disconnected : Bool) (others : Finset Int)
    (count : UInt32) (db : Database) (clock : UInt64) : Timed :=
  ⟨Server.starting socket connected disconnected others count db, clock, none, 0⟩

structure Timely (t : Timed) : Prop where
  server : t.server.Invariant
  seen : ∀ fd c, t.server.entry fd = some c → c.client.lastSeen ≤ t.clock
  past : ∀ now ∈ t.swept, now ≤ t.clock
  idle : ∀ now ∈ t.swept, ∀ fd c, t.server.entry fd = some c → c.idle now < 300
  counted : t.since ≤ t.server.iterations.toNat
  few : t.server.iterations.toNat ≤ 999

section

variable {t t' : Timed} {x : Label} {m : Server} {now : UInt64}

/-- The account keeps no step of the server from being made. -/
theorem step_after {s : Server} (hstep : t.server.Step x s)
    (hclock : t.clock ≤ t.clockAfter x) : Step t x (t.after x s) := by
  refine ⟨⟨hstep.1, hclock⟩, ?_⟩
  rw [next, hstep.2]
  rfl

theorem Step.server (hstep : Step t x t') :
    t.server.Step x t'.server ∧ t' = t.after x t'.server := by
  obtain ⟨⟨hx, -⟩, hok⟩ := hstep
  obtain ⟨s, hs, hafter⟩ := except_bind_eq_ok hok
  have hserver : (t.after x s).server = s := by
    unfold after
    split <;> rfl
  cases hafter
  rw [hserver]
  exact ⟨⟨hx, hs⟩, rfl⟩

theorem clockAfter_of_time (htime : x.time = some now) : t.clockAfter x = now := by
  rw [clockAfter, htime]
  rfl

theorem Timely.seen_after (h : Timely t) (hstep : Step t x t') (fd : Int) (c : Connection)
    (hc : t'.server.entry fd = some c) : c.client.lastSeen ≤ t.clockAfter x := by
  rcases Server.step_seen h.server hstep.server.1 hc with hold | hseen
  · exact UInt64.le_trans (h.seen fd c hold) hstep.1.2
  · rw [clockAfter_of_time hseen]
    exact UInt64.le_refl _

theorem Timely.sweeps (h : Timely t) (hstep : Step t x t')
    (hsweeping : t.server.sweeping x = some (m, now)) :
    x.time = some now ∧ ∃ s, m.checkIdleConnections now = .ok s ∧ t.server.Sweeps now s ∧
      t'.server.currentConnections = s.currentConnections ∧
      t'.server.callbacks = s.callbacks := by
  obtain ⟨htime, ⟨iterations, rfl⟩, s, hsweep, hafter⟩ :=
    Server.sweeping_ok hsweeping hstep.server.1.2
  have htable : Server.Table { t.server with iterations } := h.server.table.outside _ _ _ _ _
  have hseen : ∀ fd c, t.server.entry fd = some c → c.client.lastSeen.toNat ≤ now.toNat := by
    intro fd c hc
    have hclock := hstep.1.2
    rw [clockAfter_of_time htime] at hclock
    exact UInt64.le_iff_toNat_le.mp (UInt64.le_trans (h.seen fd c hc) hclock)
  obtain ⟨hnoWrap, hentries, hremoved⟩ :=
    Server.checkIdleConnections_sweeps htable hseen hsweep
  exact ⟨htime, s, hsweep, ⟨hnoWrap, hentries, hremoved⟩, hafter⟩

theorem idle_of_seen {c : Connection} (h : now ≤ c.client.lastSeen) : c.idle now < 300 := by
  have hseen := UInt64.le_iff_toNat_le.mp h
  unfold Connection.idle
  omega

theorem Timely.count (h : Timely t) (hstep : Step t x t') :
    t'.server.iterations.toNat ≤ 999 ∧ (t.server.sweeping x = none →
      Timed.counted t.since x ≤ t'.server.iterations.toNat) := by
  have hcount := h.counted
  have hfew := h.few
  rw [Server.iterations_of_step h.server hstep.server.1]
  cases x with
  | endOfBatch now =>
      by_cases hdue : t.server.iterations + 1 = 1000
      · rw [Server.countAfter, if_pos hdue]
        refine ⟨Nat.zero_le _, ?_⟩
        intro hnone
        rw [Server.sweeping, if_pos hdue] at hnone
        cases hnone
      -- The count goes up by one, so the test for 1000 does not miss.
      · have hone : (t.server.iterations + 1).toNat = t.server.iterations.toNat + 1 := by
          have hbound : t.server.iterations.toNat + 1 < 2 ^ 16 := by omega
          rw [UInt16.toNat_add]
          exact Nat.mod_eq_of_lt hbound
        have hnot : (t.server.iterations + 1).toNat ≠ 1000 := fun hsame =>
          hdue (UInt16.toNat_inj.mp hsame)
        rw [Server.countAfter, if_neg hdue]
        refine ⟨by omega, ?_⟩
        intro _
        show t.since + 1 ≤ _
        omega
  | setUp => exact ⟨Nat.zero_le _, fun _ => Nat.le_refl 0⟩
  | _ => exact ⟨hfew, fun _ => hcount⟩

theorem Timely.step (h : Timely t) (hstep : Step t x t') : Timely t' := by
  have hinvariant := (Server.run_invariant h.server (Run.single hstep.server.1)).1
  have hseen := h.seen_after hstep
  obtain ⟨hfew, hcounted⟩ := h.count hstep
  have hclock := hstep.1.2
  have hafter := hstep.server.2
  unfold after at hafter
  obtain ⟨s', clock, swept, since⟩ := t'
  cases hsweeping : t.server.sweeping x with
  | some sweep =>
      obtain ⟨m, now⟩ := sweep
      obtain ⟨htime, s, -, hsweeps, hentries, -⟩ := h.sweeps hstep hsweeping
      rw [hsweeping, clockAfter_of_time htime] at hafter
      cases hafter
      rw [clockAfter_of_time htime] at hseen
      refine ⟨hinvariant, hseen, ?_, ?_, Nat.zero_le _, hfew⟩
      · intro now' hnow'
        cases hnow'
        exact UInt64.le_refl _
      · intro now' hnow' fd c hc
        cases hnow'
        rw [Server.entry, hentries] at hc
        exact ((hsweeps.entries fd c).mp hc).2
  | none =>
      -- Who has come or been heard of since the last sweep was not idle then.
      rw [hsweeping] at hafter
      cases hafter
      refine ⟨hinvariant, hseen, ?_, ?_, hcounted hsweeping, hfew⟩
      · intro now hnow
        exact UInt64.le_trans (h.past now hnow) hclock
      · intro now hnow fd c hc
        rcases Server.step_seen h.server hstep.server.1 hc with hold | hrecent
        · exact h.idle now hnow fd c hold
        · rw [clockAfter_of_time hrecent] at hclock
          exact idle_of_seen (UInt64.le_trans (h.past now hnow) hclock)

theorem timely_starting (socket : Int) (connected disconnected : Bool) (others : Finset Int)
    (count : UInt32) (db : Database) (clock : UInt64) :
    Timely (starting socket connected disconnected others count db clock) := by
  refine ⟨Server.invariant_starting .., ?_, nofun, nofun, Nat.zero_le _, Nat.zero_le _⟩
  intro fd c hc
  cases (Server.entry_starting socket connected disconnected others count db fd).symm.trans hc

theorem run_timely (ht : Timely t) {xs : List Label} (h : Run Step t xs t') : Timely t' :=
  h.invariant ht fun _ _ _ hm hstep => hm.step hstep

/-- What the sweeps guarantee at a point of a run. -/
structure SweepsInTime (t : Timed) : Prop where
  /-- The last sweep, or the start, is not long ago. -/
  recent : t.since ≤ 999
  /-- No connection was idle for long at the last sweep. -/
  bounded : ∀ now ∈ t.swept, ∀ fd c, t.server.entry fd = some c → c.idle now < 300
  /-- A sweep that comes does what it has to do, and nothing else is done to the
  connections in its step. -/
  exactly : ∀ x t' m now, Step t x t' → t.server.sweeping x = some (m, now) →
    ∃ s, m.checkIdleConnections now = .ok s ∧ t.server.Sweeps now s ∧
      t'.server.currentConnections = s.currentConnections ∧
      t'.server.callbacks = s.callbacks

/-- **Idle connections** are swept in time and active ones are not, in every run
with a clock that does not go back. -/
theorem sweepsInTime {socket : Int} {connected disconnected : Bool} {others : Finset Int}
    {count : UInt32} {db : Database} {clock : UInt64} {xs : List Label}
    (h : Run Step (starting socket connected disconnected others count db clock) xs t) :
    t.SweepsInTime := by
  have htimely : Timely t := run_timely (timely_starting ..) h
  refine ⟨htimely.counted.trans htimely.few, htimely.idle, ?_⟩
  intro x t' m now hstep hsweeping
  exact (htimely.sweeps hstep hsweeping).2

end

/-- Two clients come, a hundred seconds apart. When nothing is reported, three
hundred seconds behind the first, only the first is idle. -/
def waitingLong : List Label :=
  [.setUp, .connect, .wait [⟨0x001, 3⟩] 0, .dispatch (some 5) [] .complete 0, .endOfBatch 0,
    .connect, .wait [⟨0x001, 3⟩] 100000000000, .dispatch (some 6) [] .complete 100000000000,
    .endOfBatch 100000000000, .wait [] 300000000000]

theorem waitingLong_sweepsInTime :
    ∃ t, Run Step (starting 3 true true {0, 1, 2} 0 Database.new 0) waitingLong t ∧
      (t.swept, t.server.currentConnections.keys, t.server.callbacks) =
        (some 300000000000, [6], [.connected 0, .connected 1, .disconnected 0]) ∧
      t.SweepsInTime := by
  have hcall : (waitingLong.foldlM (attempt Enabled next)
      (starting 3 true true {0, 1, 2} 0 Database.new 0)).map
      (fun t => (t.swept, t.server.currentConnections.keys, t.server.callbacks)) =
        some (some 300000000000, [6], [.connected 0, .connected 1, .disconnected 0]) := by
    decide +kernel
  obtain ⟨t, hrun, hswept⟩ := Run.of_view hcall
  exact ⟨t, hrun, hswept, sweepsInTime hrun⟩

end Timed

end EasyKeyDB
