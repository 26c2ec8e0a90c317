import EasyKeyDB.Network
import EasyKeyDB.ReplyFrames
import EasyKeyDB.WriteOnceMap

/-!
# Who is answered what

A connection has been sent the replies to its own calls of `parse_request`, in their
order, each made from the database that all calls before it have left
(`Network.one_order`). Whatever a call finds, it makes one reply, which is one response
unless it is cut or the database is damaged, and `iterations` counts the calls
(`Network.answered_once`).
-/

namespace EasyKeyDB

open ByteBuffer

/-- What is sent on a connection in the course of some calls, if the database is `db`
before them. -/
def callsFor (n : Nat) (db : Database) : List Handling → List SocketCall
  | [] => []
  | h :: handled =>
    (if h.number = n then (parse h.found).calls db else []) ++
      callsFor n ((parse h.found).database h.append db) handled

theorem callsFor_append (n : Nat) (db : Database) (handled more : List Handling) :
    callsFor n db (handled ++ more) =
      callsFor n db handled ++ callsFor n (performed db handled) more := by
  induction handled generalizing db with
  | nil => rfl
  | cons h handled ih =>
      rw [List.cons_append, callsFor, callsFor, ih, List.append_assoc]
      rfl

theorem callsFor_singleton (n : Nat) (db : Database) (h : Handling) :
    callsFor n db [h] = if h.number = n then (parse h.found).calls db else [] :=
  List.append_nil _

theorem replyCount_calls (p : Parsed) (db : Database) : replyCount (p.calls db) = 1 := by
  cases p with
  | read key rest =>
      change replyCount (readCalls db key) = 1
      unfold readCalls
      cases db.read key <;> rfl
  | _ => rfl

theorem replyCount_callsFor (n : Nat) (db : Database) (handled : List Handling) :
    replyCount (callsFor n db handled) = (arrivals n handled).length := by
  induction handled generalizing db with
  | nil => rfl
  | cons h handled ih =>
      rw [← List.singleton_append, arrivals_append, List.length_append, arrivals_singleton,
        List.singleton_append, callsFor, replyCount_append, ih]
      by_cases hn : h.number = n
      · rw [if_pos hn, if_pos hn, replyCount_calls]
        rfl
      · rw [if_neg hn, if_neg hn]
        rfl

/-- The replies to the calls on a connection are complete responses. -/
def WholeRepliesTo (n : Nat) (db : Database) : List Handling → Prop
  | [] => True
  | h :: handled => (h.number = n → (parse h.found).ReplyWhole db) ∧
      WholeRepliesTo n ((parse h.found).database h.append db) handled

theorem frames_callsFor {n : Nat} {db : Database} {handled : List Handling}
    (h : WholeRepliesTo n db handled) :
    ∃ frames : List (List UInt8), frames.length = (arrivals n handled).length ∧
      (∀ f ∈ frames, IsFrame f) ∧ sentBytes (callsFor n db handled) = frames.flatten := by
  induction handled generalizing db with
  | nil => exact ⟨[], rfl, nofun, rfl⟩
  | cons x handled ih =>
      obtain ⟨hfirst, hrest⟩ := h
      obtain ⟨frames, hlength, hframes, hsent⟩ := ih hrest
      rw [← List.singleton_append, arrivals_append, List.length_append, arrivals_singleton,
        List.singleton_append, callsFor, sentBytes_append, hsent, ← hlength]
      by_cases hn : x.number = n
      · rw [if_pos hn, if_pos hn]
        refine ⟨_ :: frames, Nat.add_comm _ _, ?_, rfl⟩
        intro f hf
        rcases List.mem_cons.mp hf with rfl | hf
        · exact Parsed.isFrame_calls_iff.mpr (hfirst hn)
        · exact hframes f hf
      · rw [if_neg hn, if_neg hn]
        exact ⟨frames, (Nat.zero_add _).symm, hframes, rfl⟩

theorem callsFor_eq_nil {n : Nat} {handled : List Handling} (h : arrivals n handled = [])
    (db : Database) : callsFor n db handled = [] := by
  induction handled generalizing db with
  | nil => rfl
  | cons x handled ih =>
      rw [← List.singleton_append, arrivals_append, List.append_eq_nil_iff,
        arrivals_singleton] at h
      rw [callsFor, ih h.2]
      split_ifs at h with hn
      · exact h.1.elim
      · rw [if_neg hn]
        rfl

namespace Network

section

variable {db : Database} {net : Network}

/-! ## What the entries keep -/

/-- The rule for what is true of every connection and the calls so far: it is true of
new connections, calls on other connections keep it, and so does a call on its own. -/
theorem entries_of_run {I : List Handling → Connection → Prop}
    (hnew : ∀ handled n fd now, arrivals n handled = [] →
      I handled ⟨n, ClientSocket.new fd now []⟩)
    (hother : ∀ handled c h, h.number ≠ c.number → I handled c → I (handled ++ [h]) c)
    (hserve : ∀ net x s' c reads append client, Tracks db net →
      Server.Step net.server x s' → net.server.handles x = some (c, reads, append) →
      Server.AfterRequest net.server.database c reads client →
      s'.entry c.client.fileDescriptor = some { c with client } → I net.handled c →
      I (net.handled ++ [⟨c.number, net.waiting c.number, c.found reads, append⟩])
        { c with client })
    {socket : Int} {connected disconnected : Bool} {others : Finset Int} {count : UInt32}
    {xs : List NetworkLabel}
    (h : Run Step (beside (Server.starting socket connected disconnected others count db))
      xs net) :
    ∀ fd c, net.server.entry fd = some c → I net.handled c := by
  induction h with
  | nil =>
      intro fd c hc
      cases (Server.entry_starting socket connected disconnected others count db fd).symm.trans hc
  | @snoc xs net x net' hrun hstep ih =>
      have htracks := tracks hrun
      rcases hstep with ⟨hx, hok⟩
      cases x with
      | receive n bytes =>
          cases hok
          exact ih
      | hangUp n =>
          cases hok
          exact ih
      | server x =>
          obtain ⟨s', hnext, hafter⟩ := Throwing.except_bind_eq_ok hok
          cases hafter
          have hserver : Server.Step net.server x s' := ⟨hx.1, hnext⟩
          cases Server.step_effect htracks.server hserver with
          | leaves hnone honly =>
              rw [after_of_none hnone]
              exact fun fd c hc => ih fd c (honly.entries fd c hc)
          | enters hnone hfree hentries hdatabase haccepts =>
              rw [after_of_none hnone]
              intro fd c hc
              change s'.entry fd = some c at hc
              rw [hentries] at hc
              split_ifs at hc
              · obtain rfl := Option.some.inj hc
                exact hnew _ _ _ _ (htracks.future _ (Nat.le_refl _))
              · exact ih fd c hc
          | @serves fd c reads append client hhandles hc hrequest hentries hdatabase haccepts =>
              rw [after_of_some hhandles]
              have hdescriptor := (htracks.server.table.sockets fd c hc).1
              intro fd' c' hc'
              change s'.entry fd' = some c' at hc'
              by_cases hfd : fd = fd'
              · have hown : s'.entry c.client.fileDescriptor = some { c with client } := by
                  rw [hdescriptor, hentries, if_pos rfl]
                rw [hentries, if_pos hfd] at hc'
                obtain rfl := Option.some.inj hc'
                exact hserve net x s' c reads append client htracks hserver hhandles hrequest
                  hown (ih fd c hc)
              · rw [hentries, if_neg hfd] at hc'
                apply hother _ _ _ _ (ih fd' c' hc')
                exact fun hsame => hfd (htracks.server.table.distinct _ _ _ _ hc hc' hsame)

/-- A connection has been sent the replies to its own calls. -/
theorem sent_eq_callsFor {socket : Int} {connected disconnected : Bool} {others : Finset Int}
    {count : UInt32} {xs : List NetworkLabel}
    (h : Run Step (beside (Server.starting socket connected disconnected others count db))
      xs net) {fd : Int} {c : Connection} (hc : net.server.entry fd = some c) :
    c.client.sent = callsFor c.number db net.handled := by
  refine entries_of_run (I := fun handled c => c.client.sent = callsFor c.number db handled)
    ?_ ?_ ?_ h fd c hc
  · intro handled n fd now hnone
    exact (callsFor_eq_nil hnone db).symm
  · intro handled c x hother hsent
    rw [callsFor_append, callsFor_singleton, if_neg hother, List.append_nil]
    exact hsent
  · intro net x s' c reads append client htracks _ _ hrequest _ hsent
    rw [callsFor_append, callsFor_singleton, if_pos rfl, ← htracks.database]
    exact hrequest.sent.trans (congrArg (· ++ _) hsent)

/-- All calls of all connections, one after the other in the order of `handled`,
account for what is there. -/
structure OneOrder (db : Database) (net : Network) : Prop where
  database : net.server.database = performed db net.handled
  found : Chained net.handled
  sent : ∀ fd c, net.server.entry fd = some c →
    c.client.sent = callsFor c.number db net.handled

/-- **Replies are not misdirected.** In every run there is one order of all calls in
which each finds what is left on its connection, and which makes the database and every
connection's replies what they are. -/
theorem one_order {socket : Int} {connected disconnected : Bool} {others : Finset Int}
    {count : UInt32} {xs : List NetworkLabel}
    (h : Run Step (beside (Server.starting socket connected disconnected others count db))
      xs net) : OneOrder db net :=
  ⟨(tracks h).database, (tracks h).chained, fun _ _ hc => sent_eq_callsFor h hc⟩

/-- A server on descriptor 3 with two clients, on 5 and 6. The second has sent a read
before the first has sent the write that it finds. -/
def twoClients : List NetworkLabel :=
  [.server .setUp, .server .connect, .server (.wait [⟨0x001, 3⟩] 0),
    .server (.dispatch (some 5) [] .complete 0), .server (.endOfBatch 0),
    .server .connect, .server (.wait [⟨0x001, 3⟩] 0),
    .server (.dispatch (some 6) [] .complete 0), .server (.endOfBatch 0),
    .receive 1 (Request.read keyA).encode,
    .receive 0 (Request.write keyA valueOne).encode,
    .server (.wait [⟨0x005, 5⟩, ⟨0x005, 6⟩] 1),
    .server (.dispatch none [.bytes (Request.write keyA valueOne).encode] .complete 1),
    .server (.dispatch none [.bytes (Request.read keyA).encode] .complete 1)]

theorem twoClients_one_order :
    ∃ net, Run Step (beside (Server.starting 3 true true {0, 1, 2} 0 Database.new)) twoClients
        net ∧ (net.server.entry 6).map (fun c => (c.number, c.client.sent)) =
          some (1, [.send successHeader true, .sendfile (LittleEndian.field 4 [1])]) ∧
      OneOrder Database.new net := by
  have hcall : (twoClients.foldlM (attempt Enabled next)
      (beside (Server.starting 3 true true {0, 1, 2} 0 Database.new))).map
        (fun net => (net.server.entry 6).map fun c => (c.number, c.client.sent)) =
      some (some (1, [.send successHeader true, .sendfile (LittleEndian.field 4 [1])])) := by
    decide +kernel
  obtain ⟨net, hrun, hsent⟩ := Run.of_view hcall
  exact ⟨net, hrun, hsent, one_order hrun⟩

/-! ## One response for each call -/

def announced (c : Connection) (reads : List ReadResult) (now : UInt64) : ClientSocket Chunks :=
  ClientSocket.seen { c.client with
    readBuffer := { c.client.readBuffer with source := reads.map sourceTrigger } } now

theorem handleRequest_eq_ok {s t : Server} {fd : Int} {c : Connection}
    {reads : List ReadResult} {append : IoResult} {now : UInt64} (hc : s.entry fd = some c)
    (hok : s.handleRequest fd reads append now = .ok t) :
    ∃ after, parseRequest append ⟨s.database, announced c reads now⟩ = .ok () after ∧
      t.entry fd = some { c with client := after.socket } := by
  have hfind : s.currentConnections.find? fd = some c := hc
  obtain ⟨b', -, hrun⟩ := parseRequest_run append s.database (announced c reads now)
  have hhandle : EasyKeyDB.handleRequest now append ⟨s.database, { c.client with readBuffer :=
      { c.client.readBuffer with source := reads.map sourceTrigger } }⟩ = _ := hrun
  unfold Server.handleRequest at hok
  simp only [hfind, hhandle] at hok
  cases hok
  refine ⟨_, hrun, ?_⟩
  change (s.serve fd _ _).entry fd = _
  rw [Server.entry_serve_of_some hc, if_pos rfl]

theorem dispatch_of_requesting {s : Server} {event : Event} {c : Connection}
    (h : s.requesting event = some c) (accepted : Option Int) (reads : List ReadResult)
    (append : IoResult) (now : UInt64) :
    s.entry event.fileDescriptor = some c ∧
      s.dispatch event accepted reads append now =
        s.handleRequest event.fileDescriptor reads append now := by
  unfold Server.requesting at h
  split_ifs at h with hlistening hclose hread
  refine ⟨h, ?_⟩
  rw [Server.dispatch, if_neg hlistening, if_neg hclose, if_pos hread]

theorem called_of_handles {s s' : Server} (h : s.Invariant) {x : Label}
    (hstep : Server.Step s x s') {c : Connection} {reads : List ReadResult}
    {append : IoResult} (hhandles : s.handles x = some (c, reads, append)) :
    ∃ now after, parseRequest append ⟨s.database, announced c reads now⟩ = .ok () after ∧
      s'.entry c.client.fileDescriptor = some { c with client := after.socket } := by
  unfold Server.handles at hhandles
  split at hhandles
  · rename_i accepted reads' append' now
    obtain ⟨event, events, hcontrol, ⟨hrunning, -⟩ | ⟨hrunning, t, hdispatch, -, rfl⟩⟩ :=
      Server.dispatch_step h hstep
    · simp only [hcontrol, hrunning] at hhandles
      cases hhandles
    · simp only [hcontrol, hrunning, if_true] at hhandles
      obtain ⟨c'', hrequesting, hsame⟩ := Option.map_eq_some_iff.mp hhandles
      cases hsame
      obtain ⟨hc, hrequest⟩ := dispatch_of_requesting hrequesting accepted reads append now
      rw [hrequest] at hdispatch
      obtain ⟨after, hcall, hafter⟩ := handleRequest_eq_ok hc hdispatch
      refine ⟨now, after, hcall, ?_⟩
      rw [(h.table.sockets _ _ hc).1]
      exact hafter
  · cases hhandles

theorem iterations_of_handles {s s' : Server} (h : s.Invariant) {x : Label}
    (hstep : Server.Step s x s') {c c' : Connection} {reads : List ReadResult}
    {append : IoResult} (hhandles : s.handles x = some (c, reads, append))
    (hc' : s'.entry c.client.fileDescriptor = some c') :
    c'.client.iterations = c.client.iterations + 1 := by
  obtain ⟨now, after, hcall, hafter⟩ := called_of_handles h hstep hhandles
  obtain ⟨b', -, hrun⟩ := parseRequest_run append s.database (announced c reads now)
  obtain rfl := Throwing.end_unique hrun hcall
  obtain rfl := Option.some.inj (hafter.symm.trans hc')
  rfl

/-- **One reply for each call.** In every run there have been as many replies on each
connection as it has had readable events handled, and `iterations` is their number; if the
replies are whole, just as many complete responses have been sent. -/
theorem answered_once {socket : Int} {connected disconnected : Bool} {others : Finset Int}
    {count : UInt32} {xs : List NetworkLabel}
    (h : Run Step (beside (Server.starting socket connected disconnected others count db))
      xs net) {fd : Int} {c : Connection} (hc : net.server.entry fd = some c) :
    replyCount c.client.sent = (arrivals c.number net.handled).length ∧
      (WholeRepliesTo c.number db net.handled → ∃ frames : List (List UInt8),
        frames.length = (arrivals c.number net.handled).length ∧ (∀ f ∈ frames, IsFrame f) ∧
          sentBytes c.client.sent = frames.flatten) ∧
      c.client.iterations = UInt32.ofNat (arrivals c.number net.handled).length := by
  refine ⟨?_, ?_, ?_⟩
  · rw [sent_eq_callsFor h hc, replyCount_callsFor]
  · intro hwhole
    rw [sent_eq_callsFor h hc]
    exact frames_callsFor hwhole
  · refine entries_of_run (I := fun handled c =>
      c.client.iterations = UInt32.ofNat (arrivals c.number handled).length) ?_ ?_ ?_ h fd c hc
    · intro handled n fd now hnone
      rw [hnone]
      rfl
    · intro handled c x hother hcount
      rw [arrivals_append, arrivals_singleton, if_neg hother, List.append_nil]
      exact hcount
    · intro net x s' c reads append client htracks hserver hhandles _ hown hcount
      rw [arrivals_append, arrivals_singleton, if_pos rfl, List.length_append,
        List.length_singleton, UInt32.ofNat_add, ← hcount]
      exact iterations_of_handles htracks.server hserver hhandles hown

/-- The second client has had one request handled, and has been sent one response. -/
theorem twoClients_answered_once :
    ∃ net c f, Run Step (beside (Server.starting 3 true true {0, 1, 2} 0 Database.new)) twoClients
        net ∧ net.server.entry 6 = some c ∧ c.client.iterations = 1 ∧ IsFrame f ∧
      sentBytes c.client.sent = f := by
  have hcall : (twoClients.foldlM (attempt Enabled next)
      (beside (Server.starting 3 true true {0, 1, 2} 0 Database.new))).map
        (fun net => ((net.server.entry 6).map Connection.number, net.handled)) =
      some (some 1, [⟨0, (Request.write keyA valueOne).encode,
          (Request.write keyA valueOne).encode, .complete⟩,
        ⟨1, (Request.read keyA).encode, (Request.read keyA).encode, .complete⟩]) := by
    decide +kernel
  obtain ⟨net, hrun, hview⟩ := Run.of_view hcall
  obtain ⟨hentry, hhandled⟩ := Prod.mk.inj hview
  obtain ⟨c, hc, hnumber⟩ := Option.map_eq_some_iff.mp hentry
  obtain ⟨-, hframes, hcount⟩ := answered_once hrun hc
  rw [hnumber, hhandled] at hframes hcount
  obtain ⟨frames, hlength, hall, hsent⟩ := hframes
    ⟨nofun, fun _ => ⟨fun hnone => absurd hnone (by decide), fun storage hread => by
      cases hread
      exact ⟨valueOne, rfl⟩⟩, trivial⟩
  obtain ⟨f, rfl⟩ := List.length_eq_one_iff.mp hlength
  refine ⟨net, c, f, hrun, hc, hcount, hall f List.mem_cons_self, ?_⟩
  rw [hsent, List.flatten_singleton]

end

end Network

end EasyKeyDB
