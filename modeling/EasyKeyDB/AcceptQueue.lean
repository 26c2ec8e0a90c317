import EasyKeyDB.EventLoop
import EasyKeyDB.Library.EdgeQueue

/-!
# The accept queue

The listening socket is registered edge-triggered like every other, and an event
of it performs one `accept`. As long as the server does not leave its loop, the
queue behind the socket moves like the edge-triggered queue of the library
(`step_queue`), a dispatch of the listening event being a `take`. So a connection
is forgotten when an event finds several in the queue: the others wait until
somebody else connects.
-/

namespace EasyKeyDB

namespace Server

def accepting (s : Server) : Label → Bool
  | .dispatch _ _ _ _ =>
    match s.control with
    | .dispatching (event :: _) => s.running && event.isFor s.socket
    | _ => false
  | _ => false

/-- What the kernel answers about the queue: the listening socket is reported if a
connection has arrived since the last report, and `accept` succeeds if there is a
connection in the queue. -/
def Queued (s : Server) : Label → Prop
  | .wait batch _ =>
    (batch.any fun e => e.fileDescriptor = s.socket) = true → s.signalled = true
  | .dispatch accepted reads append now =>
    s.accepting (.dispatch accepted reads append now) = true →
      accepted.isSome = decide (0 < s.backlog)
  | _ => True

instance (s : Server) (x : Label) : Decidable (s.Queued x) :=
  match x with
  | .wait _ _ | .dispatch _ _ _ _ => inferInstanceAs (Decidable (_ → _))
  | .setUp | .endOfBatch _ | .connect | .stop => isTrue trivial

def listed (s : Server) : Bool :=
  match s.control with
  | .dispatching events => events.any fun event => event.isFor s.socket
  | _ => false

def queue (s : Server) : EdgeQueue.State := ⟨s.backlog, s.signalled, s.listed⟩

/-- The server will not get back to the top of the loop. -/
def Leaving (s : Server) : Prop :=
  s.control = .stopped ∨ s.running = false ∧ ∃ events, s.control = .dispatching events

abbrev QueueStep : Server → Label → Server → Prop :=
  StepIf fun s x => s.Enabled x ∧ s.Queued x

section

variable {s s' t : Server} {x : Label} {xs : List Label}

theorem step_of_queueStep (h : QueueStep s x s') : Step s x s' := ⟨h.1.1, h.2⟩

theorem invariant_of_run (hs : s.Invariant) (h : Run QueueStep s xs t) : t.Invariant :=
  (run_invariant hs (h.mono fun _ _ _ => step_of_queueStep)).1

theorem Pending.not_listed {event : Event} {events : List Event}
    (h : s.Pending (event :: events)) (hevent : event.isFor s.socket = true) :
    events.any (·.isFor s.socket) = false := by
  rw [List.any_eq_false]
  intro e he hfor
  have hsame : event.fileDescriptor = e.fileDescriptor :=
    (of_decide_eq_true hevent).trans (of_decide_eq_true hfor).symm
  exact (List.nodup_cons.mp h.1).1 (hsame ▸ List.mem_map_of_mem he)

theorem take_of_entered (h : s.Invariant) {event : Event} {events : List Event}
    (hcontrol : s.control = .dispatching (event :: events))
    (hlistening : event.isFor s.socket = true) (fd : Int) (now : UInt64) :
    EdgeQueue.Step s.queue .take
      (queue { s.enter fd now with control := .dispatching events }) := by
  have hlisted : s.listed = true := by
    simp only [listed, hcontrol, List.any_cons, hlistening, Bool.true_or]
  have hafter : queue { s.enter fd now with control := .dispatching events } =
      ⟨s.backlog - 1, s.signalled, false⟩ :=
    congrArg (EdgeQueue.State.mk (s.backlog - 1) s.signalled)
      ((h.batch _ hcontrol).not_listed hlistening)
  rw [hafter]
  exact .take hlisted

theorem queue_of_client {event : Event} {events : List Event}
    (hcontrol : s.control = .dispatching (event :: events))
    (hclient : event.isFor s.socket = false) :
    EdgeQueue.State.mk s.backlog s.signalled (events.any (·.isFor s.socket)) = s.queue := by
  have hlisted : s.listed = events.any (·.isFor s.socket) := by
    simp only [listed, hcontrol, List.any_cons, hclient, Bool.false_or]
  rw [queue, hlisted]

theorem dispatch_queue (h : s.Invariant) {accepted : Option Int} {reads : List ReadResult}
    {append : IoResult} {now : UInt64}
    (hstep : Step s (.dispatch accepted reads append now) s') :
    s'.Leaving ∨
      (s.accepting (.dispatch accepted reads append now) = true ∧
        EdgeQueue.Step s.queue .take s'.queue) ∨
      s.accepting (.dispatch accepted reads append now) = false ∧ s'.queue = s.queue := by
  obtain ⟨event, events, hcontrol, ⟨hrunning, rfl⟩ | ⟨hrunning, t, -, hcases, rfl⟩⟩ :=
    dispatch_step h hstep
  · exact Or.inl (Or.inr ⟨hrunning, [], rfl⟩)
  · right
    have haccepting : s.accepting (.dispatch accepted reads append now) =
        event.isFor s.socket := by
      simp only [accepting, hcontrol, hrunning, Bool.true_and]
    cases hcases with
    | @entered fd hlistening _ _ =>
        left
        exact ⟨haccepting.trans hlistening, take_of_entered h hcontrol hlistening fd now⟩
    | left _ hclient _ =>
        right
        exact ⟨haccepting.trans hclient, queue_of_client hcontrol hclient⟩
    | served hsome _ _ =>
        right
        have hclient := client_of_requesting hsome
        exact ⟨haccepting.trans hclient, queue_of_client hcontrol hclient⟩
    | ignored _ hclient =>
        right
        exact ⟨haccepting.trans hclient, queue_of_client hcontrol hclient⟩

theorem wait_queue (h : s.Invariant) {batch : List EpollEvent} {now : UInt64}
    (hstep : QueueStep s (.wait batch now) s') :
    s'.queue = s.queue ∨ EdgeQueue.Step s.queue .report s'.queue := by
  obtain ⟨⟨⟨hwaiting, -, -⟩, hqueued⟩, hok⟩ := hstep
  obtain ⟨t, -, hsame, -, ht⟩ := wait_ok h.table batch now
  obtain rfl := Except.ok.inj (ht.symm.trans hok)
  have hlisted : s.listed = false := by rw [listed, hwaiting]
  have hany : (batch.map Event.ofEpoll).any (·.isFor t.socket) =
      batch.any fun e => e.fileDescriptor = s.socket := by
    rw [List.any_map, hsame.socket]
    congr 1
    ext e
    exact congrArg (fun fd => decide (fd = s.socket)) (Event.fileDescriptor_ofEpoll e)
  have hafter : queue { t with
      signalled := s.signalled && !batch.any fun e => e.fileDescriptor = s.socket
      control := .dispatching (batch.map Event.ofEpoll) } =
      ⟨s.backlog, s.signalled && !batch.any fun e => e.fileDescriptor = s.socket,
        batch.any fun e => e.fileDescriptor = s.socket⟩ := by
    rw [← hany, ← hsame.backlog]
    rfl
  rw [hafter]
  cases hreported : batch.any fun e => e.fileDescriptor = s.socket with
  | false =>
      left
      rw [queue, hlisted, Bool.not_false, Bool.and_true]
  | true =>
      right
      rw [Bool.not_true, Bool.and_false]
      exact .report (hqueued hreported)

/-- The queue behind the listening socket is an edge-triggered queue, until the
server is on its way out. -/
theorem step_queue (h : s.Invariant) (hstep : QueueStep s x s') :
    s'.Leaving ∨ s'.queue = s.queue ∨
      ∃ m, EdgeQueue.Step s.queue m s'.queue ∧ (m = .arrive → x = .connect) ∧
        (m = .take → s.accepting x = true) := by
  obtain ⟨⟨hx, hqueued⟩, hok⟩ := hstep
  cases x with
  | setUp =>
      obtain rfl := Except.ok.inj hok
      have hlisted : s.listed = false := by rw [listed, show s.control = _ from hx]
      exact .inr (.inl (congrArg (EdgeQueue.State.mk s.backlog s.signalled) hlisted.symm))
  | wait batch now =>
      rcases wait_queue h ⟨⟨hx, hqueued⟩, hok⟩ with hsame | hreport
      · exact .inr (.inl hsame)
      · exact .inr (.inr ⟨.report, hreport, nofun, nofun⟩)
  | dispatch accepted reads append now =>
      rcases dispatch_queue h ⟨hx, hok⟩ with hleaving | ⟨haccepting, htake⟩ | ⟨-, hsame⟩
      · exact .inl hleaving
      · exact .inr (.inr ⟨.take, htake, nofun, fun _ => haccepting⟩)
      · exact .inr (.inl hsame)
  | endOfBatch now =>
      obtain ⟨t, -, hsame, ht⟩ := endOfBatch_ok h.table now
      obtain rfl := Except.ok.inj (ht.symm.trans hok)
      cases hrunning : s.running with
      | false => exact .inl (.inl rfl)
      | true =>
          right
          left
          have hlisted : s.listed = false := by rw [listed, show s.control = _ from hx]; rfl
          rw [queue, queue, hlisted, ← hsame.backlog, ← hsame.signalled]
          rfl
  | connect =>
      obtain rfl := Except.ok.inj hok
      exact .inr (.inr ⟨.arrive, .arrive, fun _ => rfl, nofun⟩)
  | stop =>
      obtain rfl := Except.ok.inj hok
      exact .inr (.inl rfl)

theorem Leaving.step (h : s.Leaving) (hs : s.Invariant) (hstep : Step s x s') :
    s'.Leaving := by
  obtain ⟨hx, hok⟩ := hstep
  have hcontrol : s.control ≠ .settingUp ∧ s.control ≠ .waiting := by
    rcases h with hstopped | ⟨-, events, hevents⟩
    · rw [hstopped]
      exact ⟨nofun, nofun⟩
    · rw [hevents]
      exact ⟨nofun, nofun⟩
  cases x with
  | setUp => exact absurd hx hcontrol.1
  | wait batch now => exact absurd hx.1 hcontrol.2
  | dispatch accepted reads append now =>
      -- With `running` false the events that are left are passed over.
      obtain ⟨⟨event, events, hevents⟩, -⟩ := hx
      rcases h with hstopped | ⟨hrunning, -⟩
      · cases hstopped.symm.trans hevents
      · rw [next_break hevents hrunning] at hok
        obtain rfl := Except.ok.inj hok
        exact Or.inr ⟨hrunning, [], rfl⟩
  | endOfBatch now =>
      rcases h with hstopped | ⟨hrunning, -⟩
      · cases hstopped.symm.trans hx
      · obtain ⟨t, -, -, ht⟩ := endOfBatch_ok hs.table now
        obtain rfl := Except.ok.inj (ht.symm.trans hok)
        rw [hrunning]
        exact Or.inl rfl
  | connect =>
      obtain rfl := Except.ok.inj hok
      exact h
  | stop =>
      obtain rfl := Except.ok.inj hok
      exact h.imp_right fun ⟨_, hevents⟩ => ⟨rfl, hevents⟩

theorem leaving_of_run (hs : s.Invariant) (h : s.Leaving) (hrun : Run QueueStep s xs t) :
    t.Leaving := by
  refine (hrun.invariant (I := fun m => m.Invariant ∧ m.Leaving) ⟨hs, h⟩ ?_).2
  rintro m x m' ⟨hm, hleaving⟩ hstep
  exact ⟨invariant_of_run hm (.single hstep), hleaving.step hm (step_of_queueStep hstep)⟩

theorem not_leaving_of_waiting (h : s.control = .waiting) : ¬ s.Leaving := by
  rintro (hstopped | ⟨-, events, hevents⟩)
  · cases h.symm.trans hstopped
  · cases h.symm.trans hevents

/-! ## What is forgotten, and when nothing is -/

/-- A connection that is forgotten stays in the queue until somebody else
connects or the server leaves its loop. -/
theorem forgotten_stays (hs : s.Invariant) (hforgotten : ¬ s.queue.Covered)
    (h : Run QueueStep s xs t) (hnobody : .connect ∉ xs) :
    t.Leaving ∨ t.queue = s.queue := by
  have hstep : ∀ xs m x m',
      (m.Invariant ∧ (.connect ∉ xs → m.Leaving ∨ m.queue = s.queue)) → QueueStep m x m' →
      m'.Invariant ∧ (.connect ∉ xs ++ [x] → m'.Leaving ∨ m'.queue = s.queue) := by
    rintro xs m x m' ⟨hm, hqueue⟩ hlast
    refine ⟨invariant_of_run hm (.single hlast), ?_⟩
    intro hnobody
    rw [List.mem_append, not_or] at hnobody
    rcases hqueue hnobody.1 with hleaving | hsame
    · exact .inl (hleaving.step hm (step_of_queueStep hlast))
    · rcases step_queue hm hlast with hleaving | hstays | ⟨move, hmove, harrive, -⟩
      · exact .inl hleaving
      · exact .inr (hstays.trans hsame)
      · rw [hsame] at hmove
        have hconnect := harrive (EdgeQueue.eq_arrive_of_not_covered hforgotten hmove)
        exact absurd (List.mem_singleton.mpr hconnect.symm) hnobody.2
  exact (Run.history (I := fun xs m => m.Invariant ∧
    (.connect ∉ xs → m.Leaving ∨ m.queue = s.queue))
      ⟨hs, fun _ => .inr rfl⟩ hstep h).2 hnobody

/-- The connection that is accepted is the only one in the queue, or another one
has arrived since the report. -/
def AcceptsLast (s : Server) (x : Label) : Prop :=
  s.accepting x = true → s.backlog ≤ 1 ∨ s.signalled = true

/-- An accept that leaves something behind, with nothing new to report, forgets
it. -/
theorem forgets (hs : s.Invariant) (hstep : QueueStep s x s') (hx : ¬ s.AcceptsLast x) :
    s'.Leaving ∨ ¬ s'.queue.Covered := by
  rw [AcceptsLast, Classical.not_imp] at hx
  obtain ⟨haccepting, hleft⟩ := hx
  cases x with
  | dispatch accepted reads append now =>
      rcases dispatch_queue hs (step_of_queueStep hstep) with hleaving | ⟨-, htake⟩ | ⟨hnot, -⟩
      · exact .inl hleaving
      · exact .inr fun hcovered => hleft ((EdgeQueue.covered_take htake).mp hcovered)
      · cases hnot.symm.trans haccepting
  | _ => cases haccepting

/-- A connection in the queue will be reported. -/
def NothingForgotten (s : Server) : Prop := 0 < s.backlog → s.signalled = true

/-- Whenever an accept leaves something behind, with nothing new to report,
somebody connects afterwards. -/
def MadeGood (s : Server) (xs : List Label) : Prop :=
  ∀ pre x post m, xs = pre ++ x :: post → Run QueueStep s pre m → ¬ m.AcceptsLast x →
    .connect ∈ post

theorem covered_iff_of_waiting (h : s.control = .waiting) :
    s.queue.Covered ↔ s.NothingForgotten := by
  have hlisted : s.listed = false := by rw [listed, h]
  show (0 < s.backlog → s.signalled = true ∨ s.listed = true) ↔ _
  rw [hlisted]
  exact imp_congr_right fun _ => or_iff_left Bool.false_ne_true

/-- A queue that is not covered has been left so by an accept. -/
theorem not_madeGood_of_not_covered (hs : s.Invariant) (hstart : s.queue.Covered)
    (h : Run QueueStep s xs t) (hleaving : ¬ t.Leaving) (hforgotten : ¬ t.queue.Covered) :
    ∃ pre x post m, xs = pre ++ x :: post ∧ Run QueueStep s pre m ∧ ¬ m.AcceptsLast x ∧
      .connect ∉ post := by
  induction h with
  | nil => exact absurd hstart hforgotten
  | @snoc xs m x t hrun hlast ih =>
      have hm : m.Invariant := invariant_of_run hs hrun
      have hstep : Step m x t := step_of_queueStep hlast
      rcases step_queue hm hlast with hgone | hstays | ⟨move, hmove, -, htake⟩
      · exact absurd hgone hleaving
      · rw [hstays] at hforgotten
        obtain ⟨pre, y, post, m', rfl, hpre, hlost, hnobody⟩ :=
          ih (fun hgone => hleaving (hgone.step hm hstep)) hforgotten
        refine ⟨pre, y, post ++ [x], m', by simp, hpre, hlost, ?_⟩
        rw [List.mem_append, not_or]
        refine ⟨hnobody, ?_⟩
        intro hconnect
        obtain rfl := List.mem_singleton.mp hconnect
        obtain rfl := Except.ok.inj hlast.2
        exact absurd (congrArg EdgeQueue.State.length hstays) (Nat.succ_ne_self _)
      · refine ⟨xs, x, [], m, rfl, hrun, ?_, List.not_mem_nil⟩
        intro hlost
        exact hforgotten (EdgeQueue.covered_step hmove fun heq => hlost (htake heq))

/-- **At the top of the loop nothing is forgotten exactly if every accept that
left a connection behind unreported has been made good by an arrival.** -/
theorem nothing_forgotten_iff {socket : Int} {connected disconnected : Bool}
    {others : Finset Int} {count : UInt32} {db : Database}
    (h : Run QueueStep (starting socket connected disconnected others count db) xs s)
    (hwaiting : s.control = .waiting) :
    s.NothingForgotten ↔
      (starting socket connected disconnected others count db).MadeGood xs := by
  have hstart := invariant_starting socket connected disconnected others count db
  have hleaving := not_leaving_of_waiting hwaiting
  rw [← covered_iff_of_waiting hwaiting]
  constructor
  · rintro hcovered pre x post m rfl hpre hlost
    by_contra hnobody
    obtain ⟨m', m'', hpre', hlast, hpost⟩ := h.split
    have hfunctional : ∀ m x t t', QueueStep m x t → QueueStep m x t' → t = t' :=
      fun _ _ _ _ => StepIf.unique
    obtain rfl := Run.unique hfunctional hpre hpre'
    have hm : m.Invariant := invariant_of_run hstart hpre
    have hm'' : m''.Invariant := invariant_of_run hm (.single hlast)
    -- What is forgotten stays so, and who is on the way out does not come back.
    rcases forgets hm hlast hlost with hgone | hforgotten
    · exact hleaving (leaving_of_run hm'' hgone hpost)
    · rcases forgotten_stays hm'' hforgotten hpost hnobody with hgone | hsame
      · exact hleaving hgone
      · exact hforgotten (hsame ▸ hcovered)
  · intro hgood
    by_contra hforgotten
    obtain ⟨pre, x, post, m, hxs, hpre, hlost, hnobody⟩ :=
      not_madeGood_of_not_covered hstart (fun hback => absurd hback (Nat.lt_irrefl 0)) h
        hleaving hforgotten
    exact hnobody (hgood pre x post m hxs hpre hlost)

end

def inTurn : List Label :=
  [.setUp, .connect, .wait [⟨0x001, 3⟩] 0, .connect, .dispatch (some 5) [] .complete 0,
    .endOfBatch 0]

theorem in_turn_nothing_forgotten :
    ∃ s, Run QueueStep (starting 3 true true {0, 1, 2} 0 Database.new) inTurn s ∧
      (s.backlog = 1 ∧ s.NothingForgotten) ∧
      (starting 3 true true {0, 1, 2} 0 Database.new).MadeGood inTurn := by
  have hcall : (inTurn.foldlM (attempt (fun s x => s.Enabled x ∧ s.Queued x) next)
      (starting 3 true true {0, 1, 2} 0 Database.new)).map
        (fun s => (s.control, s.backlog, s.signalled)) = some (.waiting, 1, true) := by
    decide +kernel
  obtain ⟨s, hrun, hview⟩ := Run.of_view hcall
  obtain ⟨hwaiting, hrest⟩ := Prod.mk.inj hview
  obtain ⟨hback, hsignalled⟩ := Prod.mk.inj hrest
  have hnothing : s.NothingForgotten := fun _ => hsignalled
  exact ⟨s, hrun, ⟨hback, hnothing⟩, (nothing_forgotten_iff hrun hwaiting).mp hnothing⟩

/-- Two clients connect before the first report, and one is accepted. -/
def atOnce : List Label :=
  [.setUp, .connect, .connect, .wait [⟨0x001, 3⟩] 0, .dispatch (some 5) [] .complete 0,
    .endOfBatch 0]

theorem at_once_forgotten :
    ∃ s, Run QueueStep (starting 3 true true {0, 1, 2} 0 Database.new) atOnce s ∧
      s.control = .waiting ∧ ¬ s.NothingForgotten := by
  have hcall : (atOnce.foldlM (attempt (fun s x => s.Enabled x ∧ s.Queued x) next)
      (starting 3 true true {0, 1, 2} 0 Database.new)).map
        (fun s => (s.control, s.backlog, s.signalled)) = some (.waiting, 1, false) := by
    decide +kernel
  obtain ⟨s, hrun, hview⟩ := Run.of_view hcall
  obtain ⟨hwaiting, hrest⟩ := Prod.mk.inj hview
  obtain ⟨hback, hsignalled⟩ := Prod.mk.inj hrest
  refine ⟨s, hrun, hwaiting, fun hnothing => ?_⟩
  have hreported := hnothing (hback ▸ Nat.one_pos)
  cases hsignalled.symm.trans hreported

end Server

end EasyKeyDB
