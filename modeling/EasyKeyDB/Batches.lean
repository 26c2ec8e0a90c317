import EasyKeyDB.Linearizable

/-!
# Batches answer what they announce

Between two calls of `epoll_wait` the loop makes one step for each event of the batch and
one more. Unless it is told to stop meanwhile, every event is dispatched once and in its
turn, as what it has been when it was reported (`Network.batch_in_order`). So every request
of a client that the batch has announced is answered when the loop waits again
(`Session.answered_in_batch`).
-/

namespace EasyKeyDB

open ByteBuffer Linearization Client

namespace Server

section

variable {s s' : Server} {rest : List Event} {rounds : Nat} {x : Label}

/-- The events to come, and the number of steps that the loop makes before it waits again. -/
def ToGo (s : Server) (rest : List Event) (rounds : Nat) : Prop :=
  s.control = .dispatching rest ∧ rounds = rest.length + 1 ∨
    s.control = .waiting ∧ rest = [] ∧ rounds = 0

/-- What a step within a batch leaves of the events to come. -/
def behind : Label → List Event → List Event
  | .dispatch _ _ _ _, rest => rest.tail
  | .setUp, rest | .wait _ _, rest | .endOfBatch _, rest | .connect, rest | .stop, rest => rest

def isRound : Label → Bool
  | .dispatch _ _ _ _ | .endOfBatch _ => true
  | .setUp | .wait _ _ | .connect | .stop => false

/-- Neither the beginning of a batch nor a signal. -/
def isWithin : Label → Bool
  | .wait _ _ | .stop => false
  | .setUp | .dispatch _ _ _ _ | .endOfBatch _ | .connect => true

theorem Dispatched.accepts {event : Event} {accepted : Option Int} {reads : List ReadResult}
    {append : IoResult} {now : UInt64} {t : Server}
    (hd : Dispatched s event accepted reads append now (.ok t)) :
    t.accepts = s.accepts + if event.isFor s.socket then 1 else 0 := by
  cases hd with
  | entered hlistening _ _ =>
      rw [if_pos hlistening]
      rfl
  | left _ hclient _ =>
      rw [hclient]
      rfl
  | served hrequesting _ _ =>
      rw [client_of_requesting hrequesting]
      rfl
  | ignored _ hclient =>
      rw [hclient]
      rfl

theorem ToGo.step (h : s.ToGo rest rounds) (hs : s.Invariant) (hrunning : s.running = true)
    (hx : isWithin x = true) (hstep : Step s x s') :
    s'.running = true ∧ ∃ rounds', s'.ToGo (behind x rest) rounds' ∧
      rounds = rounds' + if isRound x then 1 else 0 := by
  have hwhole := hstep
  obtain ⟨henabled, hok⟩ := hstep
  cases x with
  | wait batch now => cases hx
  | stop => cases hx
  | setUp =>
      rcases h with ⟨hcontrol, -⟩ | ⟨hcontrol, -⟩
      · cases hcontrol.symm.trans henabled
      · cases hcontrol.symm.trans henabled
  | connect =>
      cases hok
      exact ⟨hrunning, rounds, h, rfl⟩
  | dispatch accepted reads append now =>
      obtain ⟨event, events, hcontrol, ⟨hstopped, -⟩ | ⟨-, t, -, hd, rfl⟩⟩ :=
        dispatch_step hs hwhole
      · cases hrunning.symm.trans hstopped
      · rcases h with ⟨hevents, rfl⟩ | ⟨hwaiting, -⟩
        · obtain rfl := Control.dispatching.inj (hevents.symm.trans hcontrol)
          exact ⟨hd.running.trans hrunning, events.length + 1, .inl ⟨rfl, rfl⟩, rfl⟩
        · cases hwaiting.symm.trans hcontrol
  | endOfBatch now =>
      obtain ⟨t, -, hsame, hend⟩ := endOfBatch_ok hs.table now
      obtain rfl := Except.ok.inj (hend.symm.trans hok)
      rcases h with ⟨hevents, rfl⟩ | ⟨hwaiting, -⟩
      · obtain rfl := Control.dispatching.inj (hevents.symm.trans henabled)
        exact ⟨hsame.running.trans hrunning, 0, .inr ⟨if_pos hrunning, rfl, rfl⟩, rfl⟩
      · cases hwaiting.symm.trans henabled

theorem toGo_wait (h : s.Table) {batch : List EpollEvent} {now : UInt64}
    (hok : s.wait batch now = .ok s') :
    s'.running = s.running ∧ s'.ToGo (batch.map Event.ofEpoll) (batch.length + 1) ∧
      s'.socket = s.socket ∧ s'.accepts = s.accepts ∧
      ∀ returned ∈ batch, s'.requesting (Event.ofEpoll returned) =
        s.requesting (Event.ofEpoll returned) := by
  obtain ⟨t, -, hsame, ht, hreported⟩ := wait_ok h batch now
  have haccepts := (wait_onlyLeaves hok).accepts
  obtain rfl := Except.ok.inj (hreported.symm.trans hok)
  refine ⟨hsame.running, .inl ⟨rfl, by rw [List.length_map]⟩, hsame.socket, haccepts, ?_⟩
  intro returned hreturned
  obtain rfl := ht (List.ne_nil_of_mem hreturned)
  rfl

end

end Server

namespace Network

def isRound : NetworkLabel → Bool
  | .server x => Server.isRound x
  | .receive _ _ | .hangUp _ => false

/-- The events of a batch, those behind the loop and those to come. The first have been
dispatched in their turn, and the others are still what they have been. -/
structure Worked (start : Network) (done rest : List Event) (net : Network) : Prop where
  socket : net.server.socket = start.server.socket
  handled : net.handled.map Handling.number = start.handled.map Handling.number ++
    (done.filterMap start.server.requesting).map Connection.number
  accepts : net.server.accepts =
    start.server.accepts + done.countP fun e => e.isFor start.server.socket
  same : ∀ e ∈ rest, (net.server.requesting e).map Connection.number =
    (start.server.requesting e).map Connection.number

section

variable {start net net' : Network} {done rest : List Event} {event : Event}

theorem Worked.dispatch (h : Worked start done (event :: rest) net) (hs : net.server.Invariant)
    (hrunning : net.server.running = true)
    (hcontrol : net.server.control = .dispatching (event :: rest)) {accepted : Option Int}
    {reads : List ReadResult} {append : IoResult} {now : UInt64} {server : Server}
    (hstep : Server.Step net.server (.dispatch accepted reads append now) server) :
    Worked start (done ++ [event]) rest
      (net.after (.dispatch accepted reads append now) server) := by
  obtain ⟨first, later, hfirst, ⟨hstopped, -⟩ | ⟨-, t, -, hd, rfl⟩⟩ :=
    Server.dispatch_step hs hstep
  · cases hrunning.symm.trans hstopped
  obtain ⟨rfl, rfl⟩ := List.cons.inj (Control.dispatching.inj (hfirst.symm.trans hcontrol))
  have hhandles : net.server.handles (.dispatch accepted reads append now) =
      (net.server.requesting first).map fun c => (c, reads, append) := by
    simp only [Server.handles, hcontrol, hrunning]
    rfl
  have hsame := h.same first List.mem_cons_self
  refine ⟨?_, ?_, ?_, ?_⟩
  · rw [after_server]
    exact hd.socket.trans h.socket
  · rw [List.filterMap_append, List.map_append, ← List.append_assoc, ← h.handled]
    cases hrequesting : net.server.requesting first with
    | none =>
        rw [hrequesting] at hhandles hsame
        have hnone := Option.map_eq_none_iff.mp hsame.symm
        rw [after_of_none hhandles, List.filterMap_cons_none hnone]
        exact (List.append_nil _).symm
    | some c =>
        rw [hrequesting] at hhandles hsame
        obtain ⟨c₀, hc₀, hnumber⟩ := Option.map_eq_some_iff.mp hsame.symm
        rw [after_of_some hhandles, List.filterMap_cons_some hc₀, List.map_append]
        exact congrArg (_ ++ [·]) hnumber.symm
  · rw [after_server, List.countP_append, List.countP_singleton, ← Nat.add_assoc, ← h.accepts,
      ← h.socket]
    exact hd.accepts
  · intro e he
    obtain ⟨hnodup, hthere⟩ := hs.batch _ hcontrol
    have hother : first.fileDescriptor ≠ e.fileDescriptor := fun hsame =>
      (List.nodup_cons.mp hnodup).1 (hsame ▸ List.mem_map_of_mem he)
    have hkept : t.requesting e = net.server.requesting e :=
      hd.requesting_eq hother (hthere e (List.mem_cons_of_mem _ he))
    rw [after_server]
    change (t.requesting e).map _ = _
    rw [hkept]
    exact h.same e (List.mem_cons_of_mem _ he)

theorem Worked.step (h : Worked start done rest net) (hs : net.server.Invariant)
    (hrunning : net.server.running = true) {rounds : Nat} (htogo : net.server.ToGo rest rounds)
    {x : Label} (hx : Server.isWithin x = true) {server : Server}
    (hstep : Server.Step net.server x server) :
    ∃ done', done ++ rest = done' ++ Server.behind x rest ∧
      Worked start done' (Server.behind x rest) (net.after x server) := by
  have hwhole := hstep
  obtain ⟨henabled, hok⟩ := hstep
  cases x with
  | wait batch now => cases hx
  | stop => cases hx
  | setUp =>
      rcases htogo with ⟨hcontrol, -⟩ | ⟨hcontrol, -⟩
      · cases hcontrol.symm.trans henabled
      · cases hcontrol.symm.trans henabled
  | connect =>
      cases hok
      exact ⟨done, rfl, h.socket, h.handled, h.accepts, h.same⟩
  | dispatch accepted reads append now =>
      obtain ⟨⟨event, events, hcontrol⟩, -⟩ := henabled
      rcases htogo with ⟨hevents, -⟩ | ⟨hwaiting, -⟩
      · obtain rfl := Control.dispatching.inj (hevents.symm.trans hcontrol)
        exact ⟨done ++ [event], List.append_cons _ _ _,
          h.dispatch hs hrunning hcontrol hwhole⟩
      · cases hwaiting.symm.trans hcontrol
  | endOfBatch now =>
      have hrest : rest = [] := by
        rcases htogo with ⟨hevents, -⟩ | ⟨-, hrest, -⟩
        · exact Control.dispatching.inj (hevents.symm.trans henabled)
        · exact hrest
      subst hrest
      obtain ⟨t, -, hsame, hend⟩ := Server.endOfBatch_ok hs.table now
      have haccepts := (Server.endOfBatch_onlyLeaves hok).accepts
      obtain rfl := Except.ok.inj (hend.symm.trans hok)
      exact ⟨done, rfl, hsame.socket.trans h.socket, h.handled, haccepts.trans h.accepts, nofun⟩

theorem Worked.run {net₂ : Network} {ys : List NetworkLabel} {rounds : Nat}
    (h : Worked start done rest net) (hs : net.server.Invariant)
    (hrunning : net.server.running = true) (htogo : net.server.ToGo rest rounds)
    (hrun : Run Step net ys net₂) (hwithin : ∀ x, .server x ∈ ys → Server.isWithin x = true) :
    ∃ done' rest' rounds', done ++ rest = done' ++ rest' ∧ Worked start done' rest' net₂ ∧
      net₂.server.Invariant ∧ net₂.server.running = true ∧ net₂.server.ToGo rest' rounds' ∧
      rounds = rounds' + ys.countP isRound := by
  induction hrun with
  | nil => exact ⟨done, rest, rounds, rfl, h, hs, hrunning, htogo, rfl⟩
  | @snoc ys m x net₂ _ hlast ih =>
      obtain ⟨done', rest', rounds', hsplit, hm, hinvariant, hrunning', htogo', hrounds⟩ :=
        ih fun y hy => hwithin y (List.mem_append_left _ hy)
      rw [List.countP_append, List.countP_singleton]
      obtain ⟨henabled, hok⟩ := hlast
      cases x with
      | receive n bytes =>
          cases hok
          exact ⟨done', rest', rounds', hsplit, ⟨hm.socket, hm.handled, hm.accepts, hm.same⟩,
            hinvariant, hrunning', htogo', hrounds⟩
      | hangUp n =>
          cases hok
          exact ⟨done', rest', rounds', hsplit, ⟨hm.socket, hm.handled, hm.accepts, hm.same⟩,
            hinvariant, hrunning', htogo', hrounds⟩
      | server y =>
          obtain ⟨server, hnext, hafter⟩ := Throwing.except_bind_eq_ok hok
          cases hafter
          have hstep : Server.Step m.server y server := ⟨henabled.1, hnext⟩
          have hy := hwithin y (List.mem_append_right ys List.mem_cons_self)
          obtain ⟨done'', hsplit', hworked⟩ := hm.step hinvariant hrunning' htogo' hy hstep
          obtain ⟨hrunning'', rounds'', htogo'', hround⟩ :=
            htogo'.step hinvariant hrunning' hy hstep
          refine ⟨done'', _, rounds'', hsplit.trans hsplit', hworked, ?_, ?_, ?_, ?_⟩
          · rw [after_server]
            exact (Server.run_invariant hinvariant (Run.single hstep)).1
          · rw [after_server]
            exact hrunning''
          · rw [after_server]
            exact htogo''
          · rw [hrounds, hround]
            change rounds'' + (if Server.isRound y = true then 1 else 0) + _ =
              rounds'' + (_ + if Server.isRound y = true then 1 else 0)
            omega

theorem worked_batch {net₁ net₂ : Network} {batch : List EpollEvent} {now : UInt64}
    {ys : List NetworkLabel} (hs : net.server.Invariant) (hrunning : net.server.running = true)
    (hwait : Step net (.server (.wait batch now)) net₁) (hbatch : Run Step net₁ ys net₂)
    (hwithin : ∀ x, .server x ∈ ys → Server.isWithin x = true)
    (hrounds : ys.countP isRound = batch.length + 1) :
    net₂.server.control = .waiting ∧ Worked net (batch.map Event.ofEpoll) [] net₂ := by
  obtain ⟨henabled, hok⟩ := hwait
  obtain ⟨server, hnext, hafter⟩ := Throwing.except_bind_eq_ok hok
  cases hafter
  obtain ⟨hstart, htogo, hsocket, haccepts, hsame⟩ := Server.toGo_wait hs.table hnext
  have hinvariant := (Server.run_invariant hs (Run.single ⟨henabled.1, hnext⟩)).1
  have hworked : Worked net [] (batch.map Event.ofEpoll)
      (net.after (.wait batch now) server) := by
    refine ⟨hsocket, (List.append_nil _).symm, haccepts, ?_⟩
    intro e he
    obtain ⟨returned, hreturned, rfl⟩ := List.mem_map.mp he
    exact congrArg _ (hsame returned hreturned)
  obtain ⟨done, rest, rounds, hsplit, hdone, -, -, htogo', hleft⟩ :=
    hworked.run hinvariant (hstart.trans hrunning) htogo hbatch hwithin
  rcases htogo' with ⟨-, rfl⟩ | ⟨hwaiting, rfl, -⟩
  · omega
  · rw [List.nil_append, List.append_nil] at hsplit
    exact ⟨hwaiting, hsplit ▸ hdone⟩

/-- **A batch is worked through in its order.** Unless it is told to stop, the loop waits
again after a step for each event and one more. It has then handled one request for each
event that was one when it was reported, on the connection that was there then, and has
accepted one connection for each event of the listening socket. -/
theorem batch_in_order {socket : Int} {connected disconnected : Bool} {others : Finset Int}
    {count : UInt32} {db : Database} {xs ys : List NetworkLabel} {net₁ net₂ : Network}
    {batch : List EpollEvent} {now : UInt64}
    (h : Run Step (beside (Server.starting socket connected disconnected others count db)) xs net)
    (hrunning : net.server.running = true) (hwait : Step net (.server (.wait batch now)) net₁)
    (hbatch : Run Step net₁ ys net₂) (hwithin : ∀ x, .server x ∈ ys → Server.isWithin x = true)
    (hrounds : ys.countP isRound = batch.length + 1) :
    net₂.server.control = .waiting ∧
      net₂.handled.map Handling.number = net.handled.map Handling.number ++
        ((batch.map Event.ofEpoll).filterMap net.server.requesting).map Connection.number ∧
      net₂.server.accepts = net.server.accepts +
        (batch.map Event.ofEpoll).countP fun e => e.isFor net.server.socket := by
  obtain ⟨hwaiting, -, hhandled, haccepts, -⟩ :=
    worked_batch (tracks h).server hrunning hwait hbatch hwithin hrounds
  exact ⟨hwaiting, hhandled, haccepts⟩

/-- A client has sent two bytes that are no request, and another one connects. -/
def twoBytes : List NetworkLabel :=
  [.server .setUp, .server .connect, .server (.wait [⟨0x001, 3⟩] 0),
    .server (.dispatch (some 5) [] .complete 0), .server (.endOfBatch 0), .server .connect,
    .receive 0 [9, 9]]

def bothReported : NetworkLabel := .server (.wait [⟨0x005, 5⟩, ⟨0x001, 3⟩] 1)

def bothDispatched : List NetworkLabel :=
  [.server (.dispatch none [.bytes [9, 9]] .complete 1),
    .server (.dispatch (some 6) [] .complete 1), .server (.endOfBatch 1)]

theorem twoBytes_batch_in_order :
    ∃ net net₁ net₂,
      Run Step (beside (Server.starting 3 true true {0, 1, 2} 0 Database.new)) twoBytes net ∧
      Step net bothReported net₁ ∧ Run Step net₁ bothDispatched net₂ ∧
      net₂.server.control = .waiting ∧ net₂.handled.map Handling.number = [0] ∧
      net₂.server.accepts = 2 := by
  have hcall : ((twoBytes.foldlM (attempt Enabled next)
      (beside (Server.starting 3 true true {0, 1, 2} 0 Database.new))).bind fun net =>
        (attempt Enabled next net bothReported).bind fun net₁ =>
          (bothDispatched.foldlM (attempt Enabled next) net₁).map fun _ =>
            (net.server.running, net.handled.map Handling.number ++
              (([⟨0x005, 5⟩, ⟨0x001, 3⟩].map Event.ofEpoll).filterMap
                net.server.requesting).map Connection.number,
              net.server.accepts + ([⟨0x005, 5⟩, ⟨0x001, 3⟩].map Event.ofEpoll).countP
                fun e => e.isFor net.server.socket)) = some (true, [0], 2) := by
    decide +kernel
  obtain ⟨net, hnet, hcall⟩ := Option.bind_eq_some_iff.mp hcall
  obtain ⟨net₁, hwait, hcall⟩ := Option.bind_eq_some_iff.mp hcall
  obtain ⟨net₂, hbatch, hview⟩ := Option.map_eq_some_iff.mp hcall
  obtain ⟨hrunning, hview⟩ := Prod.mk.inj hview
  obtain ⟨hhandled, haccepts⟩ := Prod.mk.inj hview
  have hwithin : ∀ x, .server x ∈ bothDispatched → Server.isWithin x = true := by
    simp [bothDispatched, Server.isWithin]
  obtain ⟨hwaiting, hhandled₂, haccepts₂⟩ := batch_in_order (Run.of_attempts hnet) hrunning
    (attempt_eq_some hwait) (Run.of_attempts hbatch) hwithin rfl
  exact ⟨net, net₁, net₂, Run.of_attempts hnet, attempt_eq_some hwait, Run.of_attempts hbatch,
    hwaiting, hhandled₂.trans hhandled, haccepts₂.trans haccepts⟩

end

end Network

namespace Session

def onNetwork : SessionLabel → Option NetworkLabel
  | .call n q _ => some (.receive n q.request.encode)
  | .ret _ _ _ => none
  | .hangUp n => some (.hangUp n)
  | .server x _ _ => some (.server x)

def isRound : SessionLabel → Bool
  | .server x _ _ => Server.isRound x
  | .call _ _ _ | .ret _ _ _ | .hangUp _ => false

/-- How many responses a client has been given or has in front of it. -/
def answered (n : Nat) (s : Session) : Nat :=
  (returns n s.history).length + if s.inbox n = [] then 0 else 1

section

variable {s s' : Session} {order : List Done} {n : Nat}

theorem network_of_run {ys : List SessionLabel} (h : Run Step s ys s') :
    Run Network.Step s.net (ys.filterMap onNetwork) s'.net := by
  induction h with
  | nil => exact .nil
  | @snoc ys m x s' _ hlast ih =>
      rw [List.filterMap_append]
      obtain ⟨⟨hx, hregime⟩, hok⟩ := hlast
      cases x with
      | call n q write =>
          obtain rfl := hregime
          rw [next, q.writeRequest_eq] at hok
          cases hok
          exact ih.snoc ⟨hx.2.2, rfl⟩
      | ret n header body =>
          rw [next] at hok
          cases hread : readResponse header body (m.inbox n) with
          | error complaint rest =>
              rw [hread] at hok
              cases hok
              exact (List.append_nil _).symm ▸ ih
          | ok response rest =>
              rw [hread] at hok
              cases hok
              exact (List.append_nil _).symm ▸ ih
      | hangUp n =>
          cases hok
          exact ih.snoc ⟨hx, rfl⟩
      | server x send file =>
          obtain ⟨net, hnet, hafter⟩ := Throwing.except_bind_eq_ok hok
          cases hafter
          exact ih.snoc ⟨hx, Throwing.except_mapError_eq_ok hnet⟩

theorem countP_onNetwork (ys : List SessionLabel) :
    (ys.filterMap onNetwork).countP Network.isRound = ys.countP isRound := by
  rw [List.countP_filterMap]
  congr 1
  funext x
  cases x <;> rfl

theorem Sound.calls_eq (h : Sound s order) (n : Nat) : (calls n s.history).length =
    answered n s + if s.net.waiting n = [] then 0 else 1 := by
  rw [answered]
  cases h.standing n with
  | idle hasked hgiven hwaiting hinbox =>
      rw [hasked, hgiven, if_pos hinbox, if_pos hwaiting, List.length_map, List.length_map]
      rfl
  | @asking q hasked hgiven hwaiting hinbox =>
      have hsent : s.net.waiting n ≠ [] := hwaiting ▸ consumes.nonempty q.request
      rw [hasked, hgiven, if_pos hinbox, if_neg hsent, List.length_append, List.length_map,
        List.length_map]
      rfl
  | @answered o hasked hgiven hwaiting hinbox =>
      have hframe : s.inbox n ≠ [] := by
        rw [hinbox, frame_eq]
        exact List.cons_ne_nil _ _
      have hlength := congrArg List.length hgiven
      rw [List.length_map, List.length_append] at hlength
      rw [hasked, if_neg hframe, if_pos hwaiting, List.length_map, hlength]
      rfl

def timesHandled (n : Nat) (s : Session) : Nat := (s.net.handled.map Handling.number).count n

theorem Sound.answered_step (h : Sound s order) {x : SessionLabel} (hstep : Step s x s')
    (hanswered : ∀ n, answered n s = timesHandled n s) (n : Nat) :
    answered n s' = timesHandled n s' := by
  obtain ⟨order', h'⟩ := h.step hstep
  cases x with
  | call m q write =>
      obtain ⟨⟨-, rfl⟩, hok⟩ := hstep
      rw [next, q.writeRequest_eq] at hok
      cases hok
      have hreturns : returns n (s.history ++ [.call m q]) = returns n s.history := by
        rw [returns_append]
        exact List.append_nil _
      change (returns n (s.history ++ [.call m q])).length + _ = timesHandled n s
      rw [hreturns, ← hanswered n]
      rfl
  | ret m header body =>
      obtain ⟨⟨-, rfl, rfl⟩, hok⟩ := hstep
      by_cases hinbox : s.inbox m = []
      · rw [next_ret_of_empty hinbox] at hok
        cases hok
        exact hanswered n
      obtain ⟨o, -, -, hnext⟩ := h.next_ret hinbox
      obtain rfl := Except.ok.inj (hnext.symm.trans hok)
      change (returns n (s.history ++ [.ret m o.response])).length +
        (if Function.update s.inbox m [] n = [] then 0 else 1) = timesHandled n s
      rw [← hanswered n, returns_append, returns_ret, answered]
      by_cases hm : m = n
      · subst hm
        rw [if_pos rfl, Function.update_self, if_pos rfl, if_neg hinbox, List.length_append]
        rfl
      · rw [if_neg hm, Function.update_of_ne (Ne.symm hm), List.append_nil]
  | hangUp m =>
      cases hstep.2
      exact hanswered n
  | server x send file =>
      obtain ⟨server, -, rfl⟩ := hstep.server
      cases hhandles : s.net.server.handles x with
      | none =>
          rw [answered, timesHandled, inboxAfter, hhandles, Network.after_of_none hhandles]
          exact hanswered n
      | some handled =>
          obtain ⟨c, reads, append⟩ := handled
          have hcalls := h.calls_eq c.number
          have hcalls' := h'.calls_eq c.number
          rw [Network.after_of_some hhandles] at hcalls' ⊢
          change _ = ((s.net.handled ++ [_]).map Handling.number).count n
          rw [List.map_append, List.count_append]
          change _ = timesHandled n s + [c.number].count n
          by_cases hn : c.number = n
          · -- One of its requests has been waiting, and none does any more.
            subst hn
            change (calls c.number s.history).length = _ +
              if Function.update s.net.waiting c.number [] c.number = [] then 0 else 1 at hcalls'
            rw [Function.update_self, if_pos rfl] at hcalls'
            rw [if_neg (h.readable.handles hhandles), hanswered] at hcalls
            rw [List.count_singleton_self, ← hcalls, hcalls']
            rfl
          · rw [List.count_singleton, beq_false_of_ne hn, ← hanswered n, answered, inboxAfter,
              hhandles]
            simp only [Function.update_of_ne (Ne.symm hn)]
            rfl

theorem answered_of_run {socket : Int} {connected disconnected : Bool} {others : Finset Int}
    {count : UInt32} {xs : List SessionLabel}
    (h : Run Step
      (beside (Server.starting socket connected disconnected others count Database.new)) xs s) :
    (∃ order, Sound s order) ∧ ∀ n, answered n s = timesHandled n s := by
  apply h.invariant (I := fun s => (∃ order, Sound s order) ∧
    ∀ n, answered n s = timesHandled n s)
  · exact ⟨⟨[], sound_starting ..⟩, fun _ => rfl⟩
  · rintro m x m' ⟨⟨order, hm⟩, hanswered⟩ hstep
    exact ⟨hm.step hstep, hm.answered_step hstep hanswered⟩

/-- **What a batch announces is answered in it.** When the loop has made a step for each
event and one more, it waits again, and each client whose request has been announced has
been given its response, or finds it in front of it. -/
theorem answered_in_batch {socket : Int} {connected disconnected : Bool}
    {others : Finset Int} {count : UInt32} {xs ys : List SessionLabel} {s₁ s₂ : Session}
    {batch : List EpollEvent} {now : UInt64}
    (h : Run Step
      (beside (Server.starting socket connected disconnected others count Database.new)) xs s)
    (hrunning : s.net.server.running = true) (hwait : Step s (whole (.wait batch now)) s₁)
    (hbatch : Run Step s₁ ys s₂)
    (hwithin : ∀ x send file, .server x send file ∈ ys → Server.isWithin x = true)
    (hrounds : ys.countP isRound = batch.length + 1) :
    s₂.net.server.control = .waiting ∧
      ∀ returned ∈ batch, ∀ c, s.net.server.requesting (Event.ofEpoll returned) = some c →
        (calls c.number s.history).length ≤ (returns c.number s₂.history).length ∨
          s₂.inbox c.number ≠ [] := by
  obtain ⟨⟨order, hs⟩, hanswered⟩ := answered_of_run h
  obtain ⟨⟨order₂, hs₂⟩, hanswered₂⟩ := answered_of_run ((h.snoc hwait).append hbatch)
  have hnetwork := network_of_run (Run.single hwait)
  obtain ⟨net, hstart, hrest⟩ := Run.cons_iff.mp hnetwork
  obtain rfl := Run.nil_iff.mp hrest
  have hwithin' : ∀ x, .server x ∈ ys.filterMap onNetwork → Server.isWithin x = true := by
    intro x hx
    obtain ⟨y, hy, hyx⟩ := List.mem_filterMap.mp hx
    cases y with
    | server z send file =>
        obtain rfl := NetworkLabel.server.inj (Option.some.inj hyx)
        exact hwithin z send file hy
    | call n q write => cases hyx
    | ret n header body => cases hyx
    | hangUp n => cases hyx
  obtain ⟨hwaiting, hworked⟩ := Network.worked_batch hs.tracks.server hrunning hstart
    (network_of_run hbatch) hwithin' ((countP_onNetwork ys).trans hrounds)
  refine ⟨hwaiting, fun returned hreturned c hc => ?_⟩
  have hasked : s.net.waiting c.number ≠ [] := by
    obtain ⟨hread, hentry⟩ := Network.has_read_of_requesting hc
    rw [Event.fileDescriptor_ofEpoll] at hentry
    exact hwait.1.2.1 returned hreturned (Network.has_read_ofEpoll hread) c hentry
  have hmore : timesHandled c.number s + 1 ≤ timesHandled c.number s₂ := by
    have hmem : c.number ∈ (((batch.map Event.ofEpoll).filterMap
        s.net.server.requesting).map Connection.number) :=
      List.mem_map_of_mem (List.mem_filterMap.mpr
        ⟨_, List.mem_map_of_mem hreturned, hc⟩)
    rw [timesHandled, timesHandled, hworked.handled, List.count_append]
    exact Nat.add_le_add_left (List.count_pos_iff.mpr hmem) _
  have hcalls := hs.calls_eq c.number
  rw [if_neg hasked, hanswered] at hcalls
  rw [← hcalls, ← hanswered₂] at hmore
  by_cases hinbox : s₂.inbox c.number = []
  · rw [answered, if_pos hinbox] at hmore
    exact .inl hmore
  · exact .inr hinbox

def bothAsking : List SessionLabel :=
  twoAccepted ++ [.call 1 readA .complete, .call 0 writeA .complete]

def bothAnnounced : SessionLabel := whole (.wait [⟨0x005, 5⟩, ⟨0x005, 6⟩] 1)

/-- The second client is gone when its request is handled. -/
def bothHandled : List SessionLabel :=
  [whole (.dispatch none [.bytes writeA.request.encode] .complete 1), .hangUp 1,
    whole (.dispatch none [.bytes readA.request.encode] .complete 1), whole (.endOfBatch 1)]

theorem bothAsking_answered_in_batch :
    ∃ s s₁ s₂, Run Step fresh bothAsking s ∧ Step s bothAnnounced s₁ ∧
      Run Step s₁ bothHandled s₂ ∧
      (1 ≤ (returns 0 s₂.history).length ∨ s₂.inbox 0 ≠ []) := by
  have hcall : ((bothAsking.foldlM (attempt Allowed next) fresh).bind fun s =>
      (attempt Allowed next s bothAnnounced).bind fun s₁ =>
        (bothHandled.foldlM (attempt Allowed next) s₁).map fun _ =>
          (s.net.server.running, (calls 0 s.history).length,
            (s.net.server.requesting (Event.ofEpoll ⟨0x005, 5⟩)).map Connection.number)) =
      some (true, 1, some 0) := by
    decide +kernel
  obtain ⟨s, hs, hcall⟩ := Option.bind_eq_some_iff.mp hcall
  obtain ⟨s₁, hwait, hcall⟩ := Option.bind_eq_some_iff.mp hcall
  obtain ⟨s₂, hbatch, hview⟩ := Option.map_eq_some_iff.mp hcall
  obtain ⟨hrunning, hview⟩ := Prod.mk.inj hview
  obtain ⟨hasked, hview⟩ := Prod.mk.inj hview
  obtain ⟨c, hc, hnumber⟩ := Option.map_eq_some_iff.mp hview
  have hwithin : ∀ x send file, .server x send file ∈ bothHandled →
      Server.isWithin x = true := by
    intro x send file hx
    simp only [bothHandled, whole, List.mem_cons, SessionLabel.server.injEq, reduceCtorEq,
      List.not_mem_nil, or_false, false_or] at hx
    rcases hx with ⟨rfl, -⟩ | ⟨rfl, -⟩ | ⟨rfl, -⟩ <;> rfl
  obtain ⟨-, hanswered⟩ := answered_in_batch (Run.of_attempts hs) hrunning
    (attempt_eq_some hwait) (Run.of_attempts hbatch) hwithin rfl
  have hclient := hanswered ⟨0x005, 5⟩ List.mem_cons_self c hc
  rw [hnumber, hasked] at hclient
  exact ⟨s, s₁, s₂, Run.of_attempts hs, attempt_eq_some hwait, Run.of_attempts hbatch, hclient⟩

end

end Session

end EasyKeyDB
