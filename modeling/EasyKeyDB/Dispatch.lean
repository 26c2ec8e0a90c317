import EasyKeyDB.ConnectionTable

/-!
# The dispatch of an event

The dispatch of an event has five outcomes (`Dispatched`): `accept` fails, a
connection comes, one goes, a request on one is handled, or nothing happens. What
the loop keeps and what it does to the connections follow from these five.
-/

namespace EasyKeyDB

open ByteBuffer

/-- What `parse_request` finds on a connection whose reads return these
results. -/
def Connection.found (c : Connection) (reads : List ReadResult) : List UInt8 :=
  c.client.readBuffer.buffer ++ arriving (reads.map sourceTrigger)

namespace Server

/-- The connection on which an event is a request, if it is one. -/
def requesting (s : Server) (event : Event) : Option Connection :=
  if event.isFor s.socket then none
  else if event.has .closeConnection then none
  else if event.has .read then s.entry event.fileDescriptor
  else none

structure AfterRequest (db : Database) (c : Connection) (reads : List ReadResult)
    (client : ClientSocket Chunks) : Prop where
  descriptor : client.fileDescriptor = c.client.fileDescriptor
  sent : client.sent = c.client.sent ++ (parse (c.found reads)).calls db
  left : LeftBehind (parse (c.found reads))
    ⟨c.client.readBuffer.buffer, reads.map sourceTrigger⟩ client.readBuffer

section

variable {s t : Server} {event : Event} {accepted : Option Int} {reads : List ReadResult}
  {append : IoResult} {now : UInt64} {fd : Int} {c : Connection}

theorem handleRequest_spec (hc : s.entry fd = some c)
    (reads : List ReadResult) (append : IoResult) (now : UInt64) :
    ∃ client, AfterRequest s.database c reads client ∧ client.lastSeen = now ∧
      s.handleRequest fd reads append now =
        .ok (s.serve fd ((parse (c.found reads)).database append s.database) client) := by
  have hfind : s.currentConnections.find? fd = some c := hc
  let socket : ClientSocket Chunks := ClientSocket.seen { c.client with
    readBuffer := { c.client.readBuffer with source := reads.map sourceTrigger } } now
  obtain ⟨b', hleft, hrun⟩ := parseRequest_run append s.database socket
  refine ⟨{ socket with
    readBuffer := b'
    sent := socket.sent ++ (parse (c.found reads)).calls s.database }, ⟨rfl, rfl, hleft⟩, rfl, ?_⟩
  have hhandle : EasyKeyDB.handleRequest now append ⟨s.database, { c.client with readBuffer :=
      { c.client.readBuffer with source := reads.map sourceTrigger } }⟩ = _ := hrun
  unfold handleRequest
  simp only [hfind, hhandle]
  rfl

theorem dispatch_listening (hevent : event.isFor s.socket = true)
    (hfree : s.entry fd = none) (reads : List ReadResult) (append : IoResult) (now : UInt64) :
    s.dispatch event (some fd) reads append now = .ok (s.enter fd now) := by
  rw [dispatch, if_pos hevent]
  exact handleNewConnection_ok hfree now

/-- What can come of the dispatch of an event. -/
inductive Dispatched (s : Server) (event : Event) (accepted : Option Int)
    (reads : List ReadResult) (append : IoResult) (now : UInt64) : Except Fault Server → Prop
  | refused : event.isFor s.socket = true → accepted = none →
      Dispatched s event accepted reads append now (.error .couldNotAccept)
  | entered {fd : Int} : event.isFor s.socket = true → accepted = some fd →
      s.entry fd = none → Dispatched s event accepted reads append now (.ok (s.enter fd now))
  | left {c : Connection} : s.requesting event = none → event.isFor s.socket = false →
      s.entry event.fileDescriptor = some c →
      Dispatched s event accepted reads append now (.ok (s.leave event.fileDescriptor c))
  | served {c : Connection} {client : ClientSocket Chunks} : s.requesting event = some c →
      s.entry event.fileDescriptor = some c → AfterRequest s.database c reads client →
      Dispatched s event accepted reads append now (.ok (s.serve event.fileDescriptor
        ((parse (c.found reads)).database append s.database) client))
  | ignored : s.requesting event = none → event.isFor s.socket = false →
      Dispatched s event accepted reads append now (.ok s)

theorem requesting_of_listening (h : event.isFor s.socket = true) :
    s.requesting event = none := if_pos h

theorem client_of_requesting (h : s.requesting event = some c) :
    event.isFor s.socket = false := by
  cases hlistening : event.isFor s.socket with
  | true =>
      rw [requesting_of_listening hlistening] at h
      cases h
  | false => rfl

theorem dispatch_cases (h : s.Table)
    (hthere : event.fileDescriptor ≠ s.socket → ∃ c, s.entry event.fileDescriptor = some c)
    (hfresh : ∀ fd ∈ accepted, fd ∉ s.descriptors) :
    Dispatched s event accepted reads append now
      (s.dispatch event accepted reads append now) := by
  cases hlistening : event.isFor s.socket with
  | true =>
      cases accepted with
      | none =>
          rw [dispatch, if_pos hlistening]
          exact .refused hlistening rfl
      | some fd =>
          have hfree := h.entry_eq_none (hfresh fd rfl)
          rw [dispatch_listening hlistening hfree]
          exact .entered hlistening rfl hfree
  | false =>
      have hclient : event.isFor s.socket ≠ true := Bool.eq_false_iff.mp hlistening
      obtain ⟨c, hc⟩ := hthere (of_decide_eq_false hlistening)
      unfold dispatch
      rw [if_neg hclient]
      by_cases hclose : event.has .closeConnection = true
      · rw [if_pos hclose, handleClientDisconnected_ok h hc]
        apply Dispatched.left _ hlistening hc
        rw [requesting, if_neg hclient, if_pos hclose]
      · rw [if_neg hclose]
        by_cases hread : event.has .read = true
        · obtain ⟨client, hafter, -, hok⟩ := handleRequest_spec hc reads append now
          rw [if_pos hread, hok]
          apply Dispatched.served _ hc hafter
          rw [requesting, if_neg hclient, if_neg hclose, if_pos hread, hc]
        · rw [if_neg hread]
          apply Dispatched.ignored _ hlistening
          rw [requesting, if_neg hclient, if_neg hclose, if_neg hread]

theorem Dispatched.table (hd : Dispatched s event accepted reads append now (.ok t))
    (h : s.Table) (hfresh : ∀ fd ∈ accepted, fd ∉ s.descriptors) : t.Table := by
  cases hd with
  | entered _ haccepted _ => exact h.enter (hfresh _ haccepted) now
  | left _ _ hc => exact h.leave hc
  | served _ hc hafter => exact h.serve hc hafter.descriptor
  | ignored _ _ => exact h

theorem Dispatched.kept (hd : Dispatched s event accepted reads append now (.ok t))
    (hfd : event.fileDescriptor ≠ fd) (hc : ∃ c, s.entry fd = some c) :
    ∃ c, t.entry fd = some c := by
  cases hd with
  | entered _ _ hfree =>
      rcases hc with ⟨c, hc⟩
      exact ⟨c, entry_enter_of_some hfree now hc⟩
  | left _ _ _ =>
      rw [entry_leave, if_neg hfd]
      exact hc
  | served _ _ _ =>
      rw [entry_serve, if_neg hfd]
      exact hc
  | ignored _ _ => exact hc

theorem Dispatched.notices (hd : Dispatched s event accepted reads append now (.ok t)) :
    t.notices = s.notices := by
  cases hd <;> rfl

theorem Dispatched.running (hd : Dispatched s event accepted reads append now (.ok t)) :
    t.running = s.running := by
  cases hd <;> rfl

theorem Dispatched.socket (hd : Dispatched s event accepted reads append now (.ok t)) :
    t.socket = s.socket := by
  cases hd <;> rfl

end

end Server

end EasyKeyDB
