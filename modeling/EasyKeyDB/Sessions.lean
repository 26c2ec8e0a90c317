import EasyKeyDB.ClientRequests
import EasyKeyDB.ClientResponses
import EasyKeyDB.Library.Linearization
import EasyKeyDB.Network
import EasyKeyDB.WriteOnceMap

/-!
# Clients and the server

Any number of clients that use the client library on one connection each, and the
server. A client calls `write_request` and then `read_response` before it calls
`write_request` again; between these calls the server and the other clients do what
they like, and a client may hang up or never come back for its response. If the server
has closed its connection in the meantime and there is nothing left to read, it is given
a null pointer and asks no more.

What is proved of sessions is proved of requests that one `write` can send and under a
regime (`Session.Regime`): `write`, `read`, `send`, `sendfile` and the appends of the
database move all their bytes, a request has arrived before it is reported, and `EPOLLIN`
is reported only for bytes that have not been read.
-/

namespace EasyKeyDB

open ByteBuffer Linearization Client

/-- A request that one `write` can send, and whose response one `send` or `sendfile`
can send. -/
structure SmallRequest where
  request : Request
  small : request.encode.length ≤ sendfileLimit
deriving DecidableEq

/-- The request as the client library has it. -/
def Request.ofClient : Request → EasyKeyV1Request
  | .read key => ⟨protocolV1, 1, [Array.of key.bytes key.short], rfl⟩
  | .write key value =>
    ⟨protocolV1, 2, [Array.of key.bytes key.short, Array.of value.bytes value.short], rfl⟩

theorem Request.encode_ofClient (q : Request) : q.ofClient.encode = q.encode := by
  cases q with
  | read key => exact AsksFor.encode_eq (q := .read key) rfl rfl
  | write key value => exact AsksFor.encode_eq (q := .write key value) rfl rfl

namespace SmallRequest

theorem short (q : SmallRequest) : q.request.encode.length < 2 ^ 31 :=
  q.small.trans_lt (by decide)

theorem writeRequest_eq (q : SmallRequest) :
    writeRequest q.request.ofClient .complete = some ⟨q.request.encode, none, true⟩ := by
  have hlength : q.request.ofClient.length = q.request.encode.length := by
    rw [← EasyKeyV1Request.length_encode, q.request.encode_ofClient]
  have hshort := q.short
  rw [Client.writeRequest_eq (by omega), q.request.encode_ofClient, hlength,
    IoResult.transferred_complete, List.take_length]
  rfl

end SmallRequest

/-! ## The responses -/

abbrev Outcome := ResponseStatus × Value

def Outcome.response (o : Outcome) : EasyKeyV1Response where
  version := protocolV1
  statusCode := o.1.code.toUInt32
  value := Array.of o.2.bytes o.2.short

theorem length_key_lt {key : Key} (h : (Request.read key).encode.length ≤ sendfileLimit) :
    key.bytes.length < 2 ^ 31 := by
  have hlimit : sendfileLimit < 2 ^ 31 := by decide
  simp [Request.encode] at h
  omega

theorem length_written_lt {key : Key} {value : Value}
    (h : (Request.write key value).encode.length ≤ sendfileLimit) :
    key.bytes.length < 2 ^ 31 ∧ 4 + value.bytes.length ≤ sendfileLimit := by
  have hlimit : sendfileLimit < 2 ^ 31 := by decide
  simp [Request.encode] at h
  omega

def SmallRequest.outcome : SmallRequest → WriteOnce.Result Value → Outcome
  | ⟨.read _, _⟩, .found value => (.ok, value)
  | ⟨.read key, h⟩, _ => (.clientError, ⟨keyNotFound key.bytes, by
      have hkey := length_key_lt h
      rw [length_keyNotFound]
      omega⟩)
  | ⟨.write key _, h⟩, _ => (.ok, ⟨keyWritten key.bytes, by
      have hkey := (length_written_lt h).1
      rw [length_keyWritten]
      omega⟩)

theorem SmallRequest.reply_eq (q : SmallRequest) (r : WriteOnce.Result Value) :
    q.request.reply r = frame (q.outcome r).1 (q.outcome r).2.bytes := by
  obtain ⟨q, hsmall⟩ := q
  cases q with
  | read key =>
      have hkey := length_key_lt hsmall
      have htext : textReply .clientError (keyNotFound key.bytes) =
          frame .clientError (keyNotFound key.bytes) := by
        apply textReply_of_lt
        rw [length_keyNotFound]
        omega
      cases r with
      | found value => rfl
      | absent => exact htext
      | stored => exact htext
  | write key value =>
      have hkey := (length_written_lt hsmall).1
      have htext : textReply .ok (keyWritten key.bytes) = frame .ok (keyWritten key.bytes) := by
        apply textReply_of_lt
        rw [length_keyWritten]
        omega
      cases r <;> exact htext

theorem readResponse_frame (o : Outcome) (t : List UInt8) :
    readResponse .complete .complete (frame o.1 o.2.bytes ++ t) = .ok o.response t := by
  have hserves : Serves .complete := by decide
  exact readResponse_of_full
    (x := ⟨o.1, o.2, .complete, .complete, hserves, hserves⟩) ⟨rfl, rfl⟩ t

/-! ## The system -/

/-- The specification: a write-once map that answers as the server does. -/
def writeOnceStore :
    Sequential (WriteOnce.Contents Key Value) SmallRequest EasyKeyV1Response where
  step m q := WriteOnce.step m q.request.op
  result m q := (q.outcome (WriteOnce.result m q.request.op)).response

theorem sendable_step {m : WriteOnce.Contents Key Value} (h : Sendable m) (q : SmallRequest) :
    Sendable (WriteOnce.step m q.request.op) := by
  intro k v hv
  rw [WriteOnce.step_apply] at hv
  obtain ⟨q, hq⟩ := q
  cases q with
  | read key =>
      rw [show (Request.read key).op.puts k = none from rfl, Option.or_none] at hv
      exact h k v hv
  | write key value =>
      rcases Option.or_eq_some_iff.mp hv with hv | ⟨-, hv⟩
      · exact h k v hv
      · simp only [Request.op, WriteOnce.Op.puts, Option.ite_none_right_eq_some] at hv
        obtain rfl := Option.some.inj hv.2
        exact (length_written_lt hq).2

structure Session where
  net : Network
  /-- The bytes that have been sent to a client and that it has not read. -/
  inbox : Nat → List UInt8
  /-- The client has been given a null pointer, or its `write` has failed. -/
  lost : Nat → Bool
  history : List (Linearization.Event Nat SmallRequest EasyKeyV1Response)

/-- A step, with what becomes of the transfers in it. -/
inductive SessionLabel
  /-- A client calls `write_request`. -/
  | call (client : Nat) (q : SmallRequest) (write : IoResult)
  /-- It calls `read_response`. -/
  | ret (client : Nat) (header body : IoResult)
  | hangUp (client : Nat)
  | server (x : Label) (send file : IoResult)
deriving DecidableEq

inductive SessionFault
  | server (fault : Fault)
  /-- `write_request` writes outside of its buffer. -/
  | outsideBuffer
deriving DecidableEq

/-- What becomes of the calls that a step makes on a connection: of its `send` and of its
`sendfile`. -/
def SocketCall.outcome (send file : IoResult) : SocketCall → IoResult
  | .send _ _ => send
  | .sendfile _ => file

@[simp] theorem SocketCall.outcome_complete (call : SocketCall) :
    call.outcome .complete .complete = .complete := by
  cases call <;> rfl

/-- Bytes are announced when there are some. -/
def Network.ReportsReadable (net : Network) : Label → Prop
  | .wait batch _ => ∀ e ∈ batch, e.events &&& EventType.read.flag ≠ 0 →
      ∀ c ∈ net.server.entry e.fileDescriptor, net.waiting c.number ≠ []
  | _ => True

instance (net : Network) (x : Label) : Decidable (net.ReportsReadable x) :=
  match x with
  | .wait _ _ => inferInstanceAs (Decidable (∀ _ ∈ _, _ → ∀ c ∈ _, _))
  | .setUp | .dispatch _ _ _ _ | .endOfBatch _ | .connect | .stop => isTrue trivial

namespace Session

def beside (server : Server) : Session := ⟨.beside server, fun _ => [], fun _ => false, []⟩

/-- The server has closed the connection, or has come to its end. -/
def Closed (s : Session) (n : Nat) : Prop :=
  s.net.Removed n ∨ s.net.server.control = .stopped

instance (s : Session) (n : Nat) : Decidable (s.Closed n) :=
  inferInstanceAs (Decidable (_ ∨ _))

def delivered (c : Connection) (server : Server) (send file : IoResult) : List UInt8 :=
  match server.currentConnections.find? c.client.fileDescriptor with
  | none => []
  | some c' => (c'.client.sent.drop c.client.sent.length).flatMap fun call =>
      call.acceptedBy (call.outcome send file)

def inboxAfter (s : Session) (x : Label) (server : Server) (send file : IoResult) :
    Nat → List UInt8 :=
  match s.net.server.handles x with
  | none => s.inbox
  | some (c, _, _) =>
    Function.update s.inbox c.number (s.inbox c.number ++ delivered c server send file)

def next (s : Session) : SessionLabel → Except SessionFault Session
  | .call n q write =>
    match writeRequest q.request.ofClient write with
    | none => .error .outsideBuffer
    | some w => do
      let net ← (s.net.next (.receive n w.accepted)).mapError .server
      let lost := if w.returned then s.lost else Function.update s.lost n true
      return { s with net, lost, history := s.history ++ [.call n q] }
  | .ret n header body =>
    match readResponse header body (s.inbox n) with
    | .error _ rest => .ok { s with
        inbox := Function.update s.inbox n rest
        lost := Function.update s.lost n true }
    | .ok response rest => .ok { s with
        inbox := Function.update s.inbox n rest
        history := s.history ++ [.ret n response] }
  | .hangUp n => do
    let net ← (s.net.next (.hangUp n)).mapError .server
    return { s with net }
  | .server x send file => do
    let net ← (s.net.next (.server x)).mapError .server
    return { s with net, inbox := s.inboxAfter x net.server send file }

/-- A client that has sent a request waits until there is something to read, or until the
connection is closed. -/
def Enabled (s : Session) : SessionLabel → Prop
  | .call n q _ => (calls n s.history).length = (returns n s.history).length ∧
      s.lost n = false ∧ s.net.Enabled (.receive n q.request.encode)
  | .ret n _ _ => (returns n s.history).length < (calls n s.history).length ∧
      s.lost n = false ∧ (s.inbox n ≠ [] ∨ s.Closed n)
  | .hangUp n => s.net.Enabled (.hangUp n)
  | .server x _ _ => s.net.Enabled (.server x)

/-- The kernel does all that it is asked to, and reports bytes when there are some. -/
def Regime (s : Session) : SessionLabel → Prop
  | .call _ _ write => write = .complete
  | .ret _ header body => header = .complete ∧ body = .complete
  | .hangUp _ => True
  | .server x send file => s.net.ReportsReadable x ∧
      (∀ handled ∈ s.net.server.handles x, handled.2.2 = .complete) ∧
      send = .complete ∧ file = .complete

instance (s : Session) (x : SessionLabel) : Decidable (s.Enabled x) :=
  match x with
  | .call n q _ =>
    inferInstanceAs (Decidable (_ ∧ _ ∧ s.net.Enabled (.receive n q.request.encode)))
  | .ret _ _ _ => inferInstanceAs (Decidable (_ ∧ _ ∧ _))
  | .hangUp n => inferInstanceAs (Decidable (s.net.Enabled (.hangUp n)))
  | .server x _ _ => inferInstanceAs (Decidable (s.net.Enabled (.server x)))

instance (s : Session) (x : SessionLabel) : Decidable (s.Regime x) :=
  match x with
  | .call _ _ _ => inferInstanceAs (Decidable (_ = _))
  | .ret _ _ _ => inferInstanceAs (Decidable (_ ∧ _))
  | .hangUp _ => isTrue trivial
  | .server _ _ _ => inferInstanceAs (Decidable (_ ∧ (∀ _ ∈ _, _) ∧ _ ∧ _))

def Step (s : Session) (x : SessionLabel) (s' : Session) : Prop :=
  (s.Enabled x ∧ s.Regime x) ∧ s.next x = .ok s'

end Session

end EasyKeyDB
