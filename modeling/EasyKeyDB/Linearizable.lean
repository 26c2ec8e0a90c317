import EasyKeyDB.Sessions

/-!
# Sessions are linearizable

In every run of clients and server the history of calls and returns is one of a
write-once map (`Session.linearizable`). An operation takes effect when the loop handles
its request: `Standing` says where each client is, and each step moves one client or
none.
-/

namespace EasyKeyDB

open ByteBuffer Linearization Client

/-! ## Events that have been reported -/

namespace Server

section

variable {s t : Server} {event e : Event} {accepted : Option Int} {reads : List ReadResult}
  {append : IoResult} {now : UInt64} {fd : Int} {c : Connection}

theorem Dispatched.entry_eq (hd : Dispatched s event accepted reads append now (.ok t))
    (hfd : event.fileDescriptor ≠ fd) (hc : s.entry fd = some c) : t.entry fd = some c := by
  cases hd with
  | entered _ _ hfree => exact entry_enter_of_some hfree now hc
  | left _ _ _ =>
      rw [entry_leave, if_neg hfd]
      exact hc
  | served _ _ _ =>
      rw [entry_serve, if_neg hfd]
      exact hc
  | ignored _ _ => exact hc

theorem Dispatched.requesting_eq (hd : Dispatched s event accepted reads append now (.ok t))
    (hfd : event.fileDescriptor ≠ e.fileDescriptor)
    (hthere : e.fileDescriptor ≠ s.socket → ∃ c, s.entry e.fileDescriptor = some c) :
    t.requesting e = s.requesting e := by
  unfold requesting
  rw [hd.socket]
  cases hlistening : e.isFor s.socket with
  | true => rfl
  | false =>
      obtain ⟨c, hc⟩ := hthere (of_decide_eq_false hlistening)
      rw [hc, hd.entry_eq hfd hc]

end

end Server

namespace Network

section

variable {net : Network} {s' : Server} {x : Label}

@[simp] theorem after_server (net : Network) (x : Label) (server : Server) :
    (net.after x server).server = server := by
  unfold after
  split <;> rfl

/-- The requests among the events to come find something to read. -/
def Readable (net : Network) : Prop :=
  ∀ events, net.server.control = .dispatching events → ∀ e ∈ events, ∀ c,
    net.server.requesting e = some c → net.waiting c.number ≠ []

theorem Readable.of_idle (h : ∀ events, net.server.control = .dispatching events → events = []) :
    net.Readable := by
  intro events hevents e he
  rw [h events hevents] at he
  cases he

theorem has_read_ofEpoll {returned : EpollEvent}
    (h : (Event.ofEpoll returned).has .read = true) :
    returned.events &&& EventType.read.flag ≠ 0 := by
  intro hzero
  unfold Event.ofEpoll at h
  dsimp only at h
  rw [if_neg (not_ne_iff.mpr hzero)] at h
  split_ifs at h
  · exact absurd (show (EventType.read.flag &&& (0 ||| EventType.closeConnection.flag)) ≠ 0 from
      of_decide_eq_true h) (by decide)
  · exact absurd (show (EventType.read.flag &&& (0 ||| EventType.write.flag)) ≠ 0 from
      of_decide_eq_true h) (by decide)
  · exact absurd (show (EventType.read.flag &&& 0) ≠ 0 from of_decide_eq_true h) (by decide)

theorem has_read_of_requesting {s : Server} {e : Event} {c : Connection}
    (h : s.requesting e = some c) :
    e.has .read = true ∧ s.entry e.fileDescriptor = some c := by
  unfold Server.requesting at h
  split_ifs at h with hlistening hclose hread
  exact ⟨hread, h⟩

theorem Readable.wait {batch : List EpollEvent} {now : UInt64}
    (hreports : net.ReportsReadable (.wait batch now))
    (hok : net.server.wait batch now = .ok s') : Readable { net with server := s' } := by
  cases batch with
  | nil =>
      obtain ⟨t, signalled, -, rfl⟩ := Server.wait_nil hok
      apply Readable.of_idle
      intro events hevents
      exact (Control.dispatching.inj hevents).symm
  | cons b batch =>
      cases hok
      intro events hevents e he c hc
      obtain rfl := Control.dispatching.inj hevents
      obtain ⟨returned, hreturned, rfl⟩ := List.mem_map.mp he
      obtain ⟨hread, hentry⟩ := has_read_of_requesting hc
      rw [Event.fileDescriptor_ofEpoll] at hentry
      exact hreports returned hreturned (has_read_ofEpoll hread) c hentry

/-- The event that is dispatched takes what has arrived on its own connection only. -/
theorem Readable.dispatch (h : net.Readable) (hs : net.server.Invariant) {accepted : Option Int}
    {reads : List ReadResult} {append : IoResult} {now : UInt64}
    (hstep : Server.Step net.server (.dispatch accepted reads append now) s') :
    (net.after (.dispatch accepted reads append now) s').Readable := by
  obtain ⟨event, events, hcontrol, ⟨hrunning, rfl⟩ | ⟨hrunning, t, -, hcases, rfl⟩⟩ :=
    Server.dispatch_step hs hstep
  · have hnone : net.server.handles (.dispatch accepted reads append now) = none := by
      simp only [Server.handles, hcontrol, hrunning]
      rfl
    rw [after_of_none hnone]
    exact .of_idle fun events' hevents => (Control.dispatching.inj hevents).symm
  · have hhandles : net.server.handles (.dispatch accepted reads append now) =
        (net.server.requesting event).map fun c => (c, reads, append) := by
      simp only [Server.handles, hcontrol, hrunning]
      rfl
    obtain ⟨hnodup, hthere⟩ := hs.batch _ hcontrol
    obtain ⟨hfirst, -⟩ := List.nodup_cons.mp hnodup
    -- A later event is about another descriptor, and is the request it has been.
    have hlater : ∀ e ∈ events, event.fileDescriptor ≠ e.fileDescriptor ∧
        t.requesting e = net.server.requesting e := by
      intro e he
      have hother : event.fileDescriptor ≠ e.fileDescriptor :=
        fun hsame => hfirst (hsame ▸ List.mem_map_of_mem he)
      exact ⟨hother, hcases.requesting_eq hother
        (hthere e (List.mem_cons_of_mem _ he))⟩
    cases hrequesting : net.server.requesting event with
    | none =>
        rw [hrequesting] at hhandles
        rw [after_of_none hhandles]
        intro events' hevents e he c hc
        obtain rfl := Control.dispatching.inj hevents
        change t.requesting e = some c at hc
        rw [(hlater e he).2] at hc
        exact h _ hcontrol e (List.mem_cons_of_mem _ he) c hc
    | some c₀ =>
        rw [hrequesting] at hhandles
        rw [after_of_some hhandles]
        intro events' hevents e he c hc
        obtain rfl := Control.dispatching.inj hevents
        change t.requesting e = some c at hc
        obtain ⟨hother, hsame⟩ := hlater e he
        rw [hsame] at hc
        have hnumber : c.number ≠ c₀.number := fun heq => hother (hs.table.distinct _ _ _ _
          (has_read_of_requesting hrequesting).2 (has_read_of_requesting hc).2 heq.symm)
        change Function.update net.waiting c₀.number [] c.number ≠ []
        rw [Function.update_of_ne hnumber]
        exact h _ hcontrol e (List.mem_cons_of_mem _ he) c hc

theorem Readable.server_step (h : net.Readable) (hs : net.server.Invariant)
    (hreports : net.ReportsReadable x) (hstep : Server.Step net.server x s') :
    (net.after x s').Readable := by
  cases x with
  | setUp =>
      cases hstep.2
      exact .of_idle nofun
  | connect =>
      cases hstep.2
      exact h
  | stop =>
      cases hstep.2
      exact h
  | wait batch now => exact Readable.wait hreports hstep.2
  | dispatch accepted reads append now => exact h.dispatch hs hstep
  | endOfBatch now =>
      obtain ⟨t, -, -, hend⟩ := Server.endOfBatch_ok hs.table now
      cases hend.symm.trans hstep.2
      apply Readable.of_idle
      intro events hevents
      change (if net.server.running then Control.waiting else .stopped) = _ at hevents
      split_ifs at hevents

theorem Readable.handles (h : net.Readable) {c : Connection} {reads : List ReadResult}
    {append : IoResult} (hhandles : net.server.handles x = some (c, reads, append)) :
    net.waiting c.number ≠ [] := by
  unfold Server.handles at hhandles
  split at hhandles
  · split at hhandles
    · rename_i event events hcontrol
      split_ifs at hhandles
      obtain ⟨c', hc', hsame⟩ := Option.map_eq_some_iff.mp hhandles
      cases hsame
      exact h _ hcontrol event List.mem_cons_self c hc'
    · cases hhandles
  · cases hhandles

end

end Network

/-! ## Where the clients are -/

abbrev Done := Effect Nat SmallRequest EasyKeyV1Response

/-- What a client has asked, what it has been given, which of its requests are done,
what it has sent that is not handled, and what it has in front of it. -/
inductive Standing (asked : List SmallRequest) (given : List EasyKeyV1Response)
    (done : List Done) (waiting inbox : List UInt8) : Prop
  | idle : asked = done.map Effect.op → given = done.map Effect.result → waiting = [] →
      inbox = [] → Standing asked given done waiting inbox
  | asking {q : SmallRequest} : asked = done.map Effect.op ++ [q] →
      given = done.map Effect.result → waiting = q.request.encode → inbox = [] →
      Standing asked given done waiting inbox
  | answered {o : Outcome} : asked = done.map Effect.op →
      done.map Effect.result = given ++ [o.response] → waiting = [] →
      inbox = frame o.1 o.2.bytes → Standing asked given done waiting inbox

namespace Standing

variable {asked : List SmallRequest} {given : List EasyKeyV1Response} {done : List Done}
  {waiting inbox : List UInt8}

/-- A client that has been given all it has asked for may ask again. -/
theorem call (h : Standing asked given done waiting inbox)
    (hidle : asked.length = given.length) (q : SmallRequest) :
    Standing (asked ++ [q]) given done (waiting ++ q.request.encode) inbox := by
  cases h with
  | idle hasked hgiven hwaiting hinbox =>
      subst hwaiting
      exact .asking (by rw [hasked]) hgiven (List.nil_append _) hinbox
  | asking hasked hgiven _ _ =>
      rw [hasked, hgiven, List.length_append, List.length_map, List.length_map] at hidle
      exact absurd hidle (Nat.succ_ne_self _)
  | answered hasked hgiven _ _ =>
      have hlength := congrArg List.length hgiven
      rw [hasked, List.length_map] at hidle
      rw [List.length_map, List.length_append, hidle] at hlength
      exact absurd hlength.symm (Nat.succ_ne_self _)

theorem ret (h : Standing asked given done waiting inbox) (hinbox : inbox ≠ []) :
    ∃ o : Outcome, inbox = frame o.1 o.2.bytes ∧
      given ++ [o.response] = done.map Effect.result ∧
      Standing asked (given ++ [o.response]) done waiting [] := by
  cases h with
  | idle _ _ _ hempty => exact absurd hempty hinbox
  | asking _ _ _ hempty => exact absurd hempty hinbox
  | @answered o hasked hgiven hwaiting hframe =>
      exact ⟨o, hframe, hgiven.symm, .idle hasked hgiven.symm hwaiting rfl⟩

/-- A request that has arrived is that of a client that waits for the response. -/
theorem handled (h : Standing asked given done waiting inbox) (hwaiting : waiting ≠ []) :
    ∃ q : SmallRequest, waiting = q.request.encode ∧
      asked = done.map Effect.op ++ [q] ∧ inbox = [] ∧
      ∀ (n : Nat) (o : Outcome), Standing asked given (done ++ [⟨n, q, o.response⟩]) []
        (frame o.1 o.2.bytes) := by
  cases h with
  | idle _ _ hempty _ => exact absurd hempty hwaiting
  | answered _ _ hempty _ => exact absurd hempty hwaiting
  | @asking q hasked hgiven hencode hinbox =>
      refine ⟨q, hencode, hasked, hinbox, fun n o => .answered ?_ ?_ rfl rfl⟩
      · rw [List.map_append]
        exact hasked
      · rw [List.map_append, hgiven]
        rfl

end Standing

namespace Session

def contentsOf (order : List Done) : WriteOnce.Contents Key Value :=
  writeOnceStore.after WriteOnce.empty (order.map Effect.op)

/-- The state of a session, with the requests done so far. -/
structure Sound (s : Session) (order : List Done) : Prop where
  tracks : Network.Tracks Database.new s.net
  readable : s.net.Readable
  /-- Nothing is left of a request. -/
  taken : ∀ n, Consumer.left restOf [] (arrivals n s.net.handled) = []
  represents : Represents s.net.server.database (contentsOf order)
  small : Sendable (contentsOf order)
  points : Points writeOnceStore WriteOnce.empty s.history order
  standing : ∀ n, Standing (calls n s.history) (returns n s.history) (effects n order)
    (s.net.waiting n) (s.inbox n)

section

variable {s s' : Session} {order : List Done} {n : Nat}

theorem Sound.call (h : Sound s order) {q : SmallRequest}
    (hx : s.Enabled (.call n q .complete)) (hok : s.next (.call n q .complete) = .ok s') :
    Sound s' order := by
  rw [next, q.writeRequest_eq] at hok
  cases hok
  obtain ⟨hidle, -, hreceive⟩ := hx
  refine ⟨h.tracks.step ⟨hreceive, rfl⟩, ?_, h.taken, h.represents, h.small, h.points.call n q, ?_⟩
  · intro events hevents e he c hc
    have hwaiting := h.readable events hevents e he c hc
    change Function.update s.net.waiting n _ c.number ≠ []
    by_cases hn : c.number = n
    · rw [hn] at hwaiting ⊢
      rw [Function.update_self]
      exact List.append_ne_nil_of_left_ne_nil hwaiting _
    · rw [Function.update_of_ne hn]
      exact hwaiting
  · intro m
    change Standing (calls m (s.history ++ [.call n q])) (returns m (s.history ++ [.call n q]))
      (effects m order) (Function.update s.net.waiting n _ m) (s.inbox m)
    have hreturns : returns m (s.history ++ [.call n q]) = returns m s.history := by
      rw [returns_append]
      exact List.append_nil _
    rw [hreturns, calls_append, calls_call]
    by_cases hm : n = m
    · subst hm
      rw [if_pos rfl, Function.update_self]
      exact (h.standing n).call hidle q
    · rw [if_neg hm, List.append_nil, Function.update_of_ne (Ne.symm hm)]
      exact h.standing m

theorem Sound.next_ret (h : Sound s order) (hinbox : s.inbox n ≠ []) :
    ∃ o : Outcome, returns n s.history ++ [o.response] = (effects n order).map Effect.result ∧
      Standing (calls n s.history) (returns n s.history ++ [o.response]) (effects n order)
        (s.net.waiting n) [] ∧
      s.next (.ret n .complete .complete) = .ok { s with
        inbox := Function.update s.inbox n []
        history := s.history ++ [.ret n o.response] } := by
  obtain ⟨o, hframe, hgiven, hstanding⟩ := (h.standing n).ret hinbox
  have hread := readResponse_frame o []
  rw [List.append_nil, ← hframe] at hread
  refine ⟨o, hgiven, hstanding, ?_⟩
  rw [next, hread]

theorem next_ret_of_empty (hinbox : s.inbox n = []) :
    s.next (.ret n .complete .complete) =
      .ok { s with lost := Function.update s.lost n true } := by
  have hsame : Function.update s.inbox n [] = s.inbox := by
    rw [← hinbox, Function.update_eq_self]
  rw [next, hinbox]
  change Except.ok { s with inbox := Function.update s.inbox n [], lost := _ } = _
  rw [hsame]

theorem Sound.ret (h : Sound s order) (hok : s.next (.ret n .complete .complete) = .ok s') :
    Sound s' order := by
  by_cases hinbox : s.inbox n = []
  · rw [next_ret_of_empty hinbox] at hok
    cases hok
    exact ⟨h.tracks, h.readable, h.taken, h.represents, h.small, h.points, h.standing⟩
  obtain ⟨o, hgiven, hstanding, hnext⟩ := h.next_ret hinbox
  obtain rfl := Except.ok.inj (hnext.symm.trans hok)
  refine ⟨h.tracks, h.readable, h.taken, h.represents, h.small,
    h.points.ret (hgiven ▸ List.prefix_refl _), ?_⟩
  intro m
  have hcalls : calls m (s.history ++ [.ret n o.response]) = calls m s.history := by
    rw [calls_append]
    exact List.append_nil _
  change Standing (calls m (s.history ++ _)) (returns m (s.history ++ _)) _ _
    (Function.update s.inbox n [] m)
  rw [hcalls, returns_append, returns_ret]
  by_cases hm : n = m
  · subst hm
    rw [if_pos rfl, Function.update_self]
    exact hstanding
  · rw [if_neg hm, List.append_nil, Function.update_of_ne (Ne.symm hm)]
    exact h.standing m

theorem Sound.hangUp (h : Sound s order) (hx : s.Enabled (.hangUp n))
    (hok : s.next (.hangUp n) = .ok s') : Sound s' order := by
  cases hok
  exact ⟨h.tracks.step (x := .hangUp n) ⟨hx, rfl⟩, h.readable, h.taken, h.represents, h.small,
    h.points, h.standing⟩

/-! ## The server -/

/-- A step without a request is not seen by the clients. -/
theorem Sound.server_idle (h : Sound s order) {x : Label} {server : Server}
    (hreports : s.net.ReportsReadable x) (hreads : s.net.ReadsArrivals x)
    (hstep : Server.Step s.net.server x server) (hnone : s.net.server.handles x = none) :
    Sound { s with
      net := s.net.after x server
      inbox := s.inboxAfter x server .complete .complete } order := by
  have htracks := h.tracks.server_step hreads hstep
  have hreadable := h.readable.server_step h.tracks.server hreports hstep
  have hinbox : s.inboxAfter x server .complete .complete = s.inbox := by
    rw [inboxAfter, hnone]
  rw [Network.after_of_none hnone] at htracks hreadable ⊢
  rw [hinbox]
  have hdatabase : server.database = s.net.server.database :=
    htracks.database.trans h.tracks.database.symm
  refine ⟨htracks, hreadable, h.taken, ?_, h.small, h.points, h.standing⟩
  change Represents server.database _
  rw [hdatabase]
  exact h.represents

/-- The request of a client is made of what has arrived on its connection, and the bytes
of the answer are delivered. -/
theorem Sound.delivered_eq (h : Sound s order) {x : Label} {server : Server}
    (hreads : s.net.ReadsArrivals x) (hstep : Server.Step s.net.server x server)
    {c : Connection} {reads : List ReadResult} {append : IoResult}
    (hhandles : s.net.server.handles x = some (c, reads, append)) {q : SmallRequest}
    (hwaiting : s.net.waiting c.number = q.request.encode) :
    server.database = s.net.server.database.call (q.request.call append) ∧
      delivered c server .complete .complete = q.request.reply
        (WriteOnce.result (contentsOf order) q.request.op) := by
  cases Server.step_effect h.tracks.server hstep with
  | leaves hnone _ => cases hnone.symm.trans hhandles
  | enters hnone _ _ _ _ => cases hnone.symm.trans hhandles
  | @serves fd c' reads' append' client hhandles' hc hrequest hentries hdatabase _ =>
      obtain ⟨rfl, rfl, rfl⟩ : c = c' ∧ reads = reads' ∧ append = append' := by
        simpa using hhandles.symm.trans hhandles'
      obtain ⟨hno, hall⟩ := hreads _ hhandles
      have hfound : c.found reads = q.request.encode := by
        rw [Network.found_of_reads hno hall, h.tracks.unread fd c hc, h.taken, hwaiting,
          List.nil_append]
      have hparse : parse (c.found reads) = q.request.parsed [] := by
        have hencode := parse_encode q.request []
        rwa [List.append_nil, ← hfound] at hencode
      have hcalls : (parse (c.found reads)).calls s.net.server.database =
          q.request.answer s.net.server.database := by
        rw [hparse]
        cases q.request <;> rfl
      refine ⟨?_, ?_⟩
      · rw [hdatabase, hparse]
        cases q.request <;> rfl
      · have hdescriptor := (h.tracks.server.table.sockets fd c hc).1
        have hentry : server.currentConnections.find? c.client.fileDescriptor =
            some { c with client } := by
          rw [hdescriptor]
          exact (hentries fd).trans (if_pos rfl)
        unfold delivered
        rw [hentry]
        change (client.sent.drop c.client.sent.length).flatMap _ = _
        simp only [SocketCall.outcome_complete]
        rw [hrequest.sent, List.drop_left, hcalls, h.represents.acceptedBy h.small]
        exact h.represents.answer q.request

theorem Sound.server_handles (h : Sound s order) {x : Label} {server : Server}
    (hreports : s.net.ReportsReadable x) (hreads : s.net.ReadsArrivals x)
    (hstep : Server.Step s.net.server x server) {c : Connection} {reads : List ReadResult}
    (hhandles : s.net.server.handles x = some (c, reads, .complete)) :
    ∃ e, Sound { s with
      net := s.net.after x server
      inbox := s.inboxAfter x server .complete .complete }
      (order ++ [e]) := by
  obtain ⟨q, hwaiting, hasked, hempty, hstanding⟩ :=
    (h.standing c.number).handled (h.readable.handles hhandles)
  obtain ⟨hdatabase, hdelivered⟩ := h.delivered_eq hreads hstep hhandles hwaiting
  have htracks := h.tracks.server_step hreads hstep
  have hreadable := h.readable.server_step h.tracks.server hreports hstep
  let o := q.outcome (WriteOnce.result (contentsOf order) q.request.op)
  have hcontents : contentsOf (order ++ [⟨c.number, q, o.response⟩]) =
      writeOnceStore.step (contentsOf order) q := by
    rw [contentsOf, List.map_append, writeOnceStore.after_append]
    rfl
  rw [q.reply_eq] at hdelivered
  rw [Network.after_of_some hhandles] at htracks hreadable ⊢
  refine ⟨⟨c.number, q, o.response⟩, htracks, hreadable, ?_, ?_, ?_, ?_, ?_⟩
  · intro n
    change Consumer.left restOf [] (arrivals n (s.net.handled ++ [_])) = []
    rw [arrivals_append, arrivals_singleton, Consumer.left_append, h.taken]
    by_cases hn : c.number = n
    · rw [if_pos hn]
      change restOf ([] ++ s.net.waiting c.number) = []
      rw [List.nil_append, hwaiting, ← List.append_nil q.request.encode]
      exact consumes.item q.request []
    · rw [if_neg hn]
      rfl
  · rw [hcontents]
    change Represents server.database _
    rw [hdatabase]
    exact h.represents.call q.request.appends_complete
  · rw [hcontents]
    exact sendable_step h.small q
  · exact h.points.effect (hasked ▸ List.prefix_refl _)
  · intro n
    change Standing _ _ (effects n (order ++ [_])) (Function.update s.net.waiting c.number [] n)
      (s.inboxAfter x server .complete .complete n)
    rw [inboxAfter, hhandles, effects_append, effects_singleton]
    by_cases hn : c.number = n
    · subst hn
      simp only [if_true, Function.update_self, hempty, List.nil_append, hdelivered]
      exact hstanding c.number o
    · rw [if_neg hn, List.append_nil, Function.update_of_ne (Ne.symm hn)]
      simp only [Function.update_of_ne (Ne.symm hn)]
      exact h.standing n

/-! ## Every run -/

theorem Step.server {x : Label} {send file : IoResult} (h : Step s (.server x send file) s') :
    ∃ server, Server.Step s.net.server x server ∧
      s' = { s with
        net := s.net.after x server
        inbox := s.inboxAfter x server .complete .complete } := by
  obtain ⟨⟨⟨hserver, -, -⟩, -, -, rfl, rfl⟩, hok⟩ := h
  obtain ⟨net, hnet, hafter⟩ := Throwing.except_bind_eq_ok hok
  obtain ⟨server, hnext, hnet⟩ :=
    Throwing.except_bind_eq_ok (Throwing.except_mapError_eq_ok hnet)
  cases hnet
  cases hafter
  refine ⟨server, ⟨hserver, hnext⟩, ?_⟩
  rw [Network.after_server]

theorem Sound.step (h : Sound s order) {x : SessionLabel} (hstep : Step s x s') :
    ∃ order', Sound s' order' := by
  have hwhole := hstep
  obtain ⟨⟨hx, hregime⟩, hok⟩ := hstep
  cases x with
  | call n q write =>
      obtain rfl := hregime
      exact ⟨order, h.call hx hok⟩
  | ret n header body =>
      obtain ⟨rfl, rfl⟩ := hregime
      exact ⟨order, h.ret hok⟩
  | hangUp n => exact ⟨order, h.hangUp hx hok⟩
  | server x send file =>
      obtain ⟨-, -, hreads⟩ := hx
      obtain ⟨hreports, hcomplete, -, -⟩ := hregime
      obtain ⟨server, hnext, rfl⟩ := hwhole.server
      cases hhandles : s.net.server.handles x with
      | none => exact ⟨order, h.server_idle hreports hreads hnext hhandles⟩
      | some handled =>
          obtain ⟨c, reads, append⟩ := handled
          obtain rfl : append = .complete := hcomplete _ hhandles
          obtain ⟨e, hsound⟩ := h.server_handles hreports hreads hnext hhandles
          exact ⟨order ++ [e], hsound⟩

theorem sound_starting (socket : Int) (connected disconnected : Bool) (others : Finset Int)
    (count : UInt32) :
    Sound (beside (Server.starting socket connected disconnected others count Database.new))
      [] where
  tracks := Network.tracks .nil
  readable := .of_idle nofun
  taken _ := rfl
  represents := represents_new
  small _ _ hv := by cases hv
  points := .nil
  standing _ := .idle rfl rfl rfl rfl

theorem sound_of_run {socket : Int} {connected disconnected : Bool} {others : Finset Int}
    {count : UInt32} {xs : List SessionLabel}
    (h : Run Step
      (beside (Server.starting socket connected disconnected others count Database.new)) xs s) :
    ∃ order, Sound s order := by
  apply h.invariant (I := fun s => ∃ order, Sound s order)
  · exact ⟨[], sound_starting ..⟩
  · rintro m x m' ⟨order, hm⟩ hstep
    exact hm.step hstep

/-- **Sessions are linearizable.** Whatever clients and server do, the calls and returns
of all clients are those of one write-once map that is used by one client at a time. -/
theorem linearizable {socket : Int} {connected disconnected : Bool} {others : Finset Int}
    {count : UInt32} {xs : List SessionLabel}
    (h : Run Step
      (beside (Server.starting socket connected disconnected others count Database.new)) xs s) :
    ∃ order, Linearizes writeOnceStore WriteOnce.empty s.history order := by
  obtain ⟨order, hsound⟩ := sound_of_run h
  exact ⟨order, hsound.points.linearizes⟩

def writeA : SmallRequest := ⟨.write keyA valueOne, by decide⟩

def readA : SmallRequest := ⟨.read keyA, by decide⟩

/-- A step of the server in which everything is moved. -/
def whole (x : Label) : SessionLabel := .server x .complete .complete

def twoAccepted : List SessionLabel :=
  [whole .setUp, whole .connect, whole (.wait [⟨0x001, 3⟩] 0),
    whole (.dispatch (some 5) [] .complete 0), whole (.endOfBatch 0),
    whole .connect, whole (.wait [⟨0x001, 3⟩] 0),
    whole (.dispatch (some 6) [] .complete 0), whole (.endOfBatch 0)]

/-- The second asks first, and is told what the first writes. -/
def overlapping : List SessionLabel :=
  twoAccepted ++ [.call 1 readA .complete, .call 0 writeA .complete,
    whole (.wait [⟨0x005, 5⟩, ⟨0x005, 6⟩] 1),
    whole (.dispatch none [.bytes writeA.request.encode] .complete 1),
    whole (.dispatch none [.bytes readA.request.encode] .complete 1),
    .ret 1 .complete .complete]

abbrev fresh : Session := beside (Server.starting 3 true true {0, 1, 2} 0 Database.new)

/-- What can be done under the regime. -/
abbrev Allowed (s : Session) (x : SessionLabel) : Prop := s.Enabled x ∧ s.Regime x

theorem overlapping_linearizable :
    ∃ s, Run Step fresh overlapping s ∧
      (returns 1 s.history).map (fun r => (r.statusCode, r.value.array)) = [(1, [1])] ∧
      ∃ order, Linearizes writeOnceStore WriteOnce.empty s.history order := by
  have hcall : (overlapping.foldlM (attempt Allowed next) fresh).map
      (fun s => (returns 1 s.history).map fun r => (r.statusCode, r.value.array)) =
        some [(1, [1])] := by
    decide +kernel
  obtain ⟨s, hrun, hreturns⟩ := Run.of_view hcall
  exact ⟨s, hrun, hreturns, linearizable hrun⟩

/-- **Nothing fails** in a session but `accept`: no call of the client library leaves its
buffers, no exception leaves the loop, and a client is given a null pointer only if its
connection has been closed and all that has been sent on it is read. -/
theorem nothing_fails {socket : Int} {connected disconnected : Bool} {others : Finset Int}
    {count : UInt32} {xs : List SessionLabel}
    (h : Run Step
      (beside (Server.starting socket connected disconnected others count Database.new)) xs s)
    {x : SessionLabel} (hx : s.Enabled x) (hregime : s.Regime x) :
    (∃ s', s.next x = .ok s' ∧
      ∀ n, s'.lost n = true → s.lost n = true ∨ s.Closed n ∧ s.inbox n = []) ∨
      s.next x = .error (.server .couldNotAccept) := by
  obtain ⟨order, hsound⟩ := sound_of_run h
  cases x with
  | call n q write =>
      obtain rfl := hregime
      left
      rw [next, q.writeRequest_eq]
      exact ⟨_, rfl, fun m hm => Or.inl hm⟩
  | ret n header body =>
      obtain ⟨rfl, rfl⟩ := hregime
      left
      by_cases hinbox : s.inbox n = []
      · refine ⟨_, next_ret_of_empty hinbox, fun m hm => ?_⟩
        by_cases hn : m = n
        · subst hn
          exact Or.inr ⟨hx.2.2.resolve_left (not_not.mpr hinbox), hinbox⟩
        · change Function.update s.lost n true m = true at hm
          rw [Function.update_of_ne hn] at hm
          exact Or.inl hm
      · obtain ⟨o, -, -, hnext⟩ := hsound.next_ret hinbox
        exact ⟨_, hnext, fun m hm => Or.inl hm⟩
  | hangUp n => exact .inl ⟨_, rfl, fun m hm => Or.inl hm⟩
  | server x send file =>
      rcases Server.next_ok hsound.tracks.server hx.1 with ⟨server, hok, -, -⟩ | hfault
      · left
        rw [next, Network.next, hok]
        exact ⟨_, rfl, fun m hm => Or.inl hm⟩
      · right
        rw [next, Network.next, hfault]
        rfl

/-- The first client asks, and nothing comes for more than 300 s. -/
def sweptWaiting : List SessionLabel :=
  twoAccepted ++ [.call 0 writeA .complete, whole (.wait [] 400000000000),
    whole (.endOfBatch 400000000000)]

/-- A client that is swept while it waits is given a null pointer. -/
theorem sweptWaiting_nothing_fails :
    ∃ s s', Run Step fresh sweptWaiting s ∧ s.next (.ret 0 .complete .complete) = .ok s' ∧
      s'.lost 0 = true ∧ s.Closed 0 := by
  have hcall : (sweptWaiting.foldlM (attempt Allowed next) fresh).map
      (fun s => (decide (Allowed s (.ret 0 .complete .complete)), s.lost 0,
        (s.next (.ret 0 .complete .complete)).toOption.map fun s' => s'.lost 0)) =
        some (true, false, some true) := by
    decide +kernel
  obtain ⟨s, hrun, hview⟩ := Run.of_view hcall
  obtain ⟨hallowed, hview⟩ := Prod.mk.inj hview
  obtain ⟨hbefore, hlost⟩ := Prod.mk.inj hview
  obtain ⟨henabled, hregime⟩ := of_decide_eq_true hallowed
  rcases nothing_fails hrun henabled hregime with ⟨s', hok, hcause⟩ | hfault
  · rw [hok] at hlost
    have hlost' : s'.lost 0 = true := Option.some.inj hlost
    refine ⟨s, s', hrun, hok, hlost', ?_⟩
    rcases hcause 0 hlost' with hold | ⟨hclosed, -⟩
    · cases hbefore.symm.trans hold
    · exact hclosed
  · rw [hfault] at hlost
    cases hlost

end

end Session

end EasyKeyDB
