import EasyKeyDB.Connection
import EasyKeyDB.Library.Runs
import EasyKeyDB.Notifier

/-!
# The event loop

`Server::start` as a transition system. The handlers are functions on the
server's state that may end it with a `Fault`; the loop around them is cut into
steps (`Label`): the set-up, one `wait_for_events`, the dispatch of one event of
the batch, and the end of the iteration. Between any two of them clients may
connect and a signal may call `stop`.

Each label carries what the kernel answers in that step: the batch, the result
of `accept`, what the reads return. `Enabled` says what is assumed of these
answers.
-/

namespace EasyKeyDB

open ByteBuffer

/-- An entry of `current_connections`. The number tells apart connections that
have had the same descriptor; it counts the calls of `accept`. -/
structure Connection where
  number : Nat
  client : ClientSocket Chunks
deriving DecidableEq

inductive Callback
  | connected (number : Nat)
  | disconnected (number : Nat)
deriving DecidableEq, Repr

/-- Where `start` is: before `running = true`, at the top of the loop, in the
loop over a batch with these events to come, or behind the loop. -/
inductive Control
  | settingUp
  | waiting
  | dispatching (events : List Event)
  | stopped
deriving DecidableEq, Repr

/-- What ends the process. -/
inductive Fault
  /-- `throw "Could not accept a connection!"` -/
  | couldNotAccept
  /-- `std::out_of_range`, from `current_connections.at` -/
  | outOfRange
  /-- The callback's argument is `*client` with a null `client`. -/
  | nullDereference
  /-- An exception that leaves `parse_request`. -/
  | uncaught (e : EmptyBufferException)
deriving DecidableEq, Repr

structure Server where
  /-- The descriptor of the listening socket. -/
  socket : Int
  /-- Whether the two optional callbacks are set. -/
  clientConnectedCallback : Bool
  clientDisconnectedCallback : Bool
  running : Bool
  iterations : UInt16
  currentConnections : UnorderedMap Int Connection
  ioNotifier : IONotifier
  /-- The database of the handler behind the message callback. -/
  database : Database
  /-- The open descriptors of the process. -/
  descriptors : Finset Int
  /-- The number of connections in the accept queue. -/
  backlog : Nat
  /-- A connection has arrived since the listening socket was last reported. -/
  signalled : Bool
  accepts : Nat
  callbacks : List Callback
  control : Control

namespace Server

def close (s : Server) (fd : Int) : Server :=
  { s with
    descriptors := s.descriptors.erase fd
    ioNotifier := s.ioNotifier.closed fd }

/-- `handle_new_connection`, given the descriptor that `accept` returns, if it
does. -/
def handleNewConnection (s : Server) (accepted : Option Int) (now : UInt64) :
    Except Fault Server :=
  match accepted with
  | none => .error .couldNotAccept
  | some fd =>
    let client : Connection := ⟨s.accepts, ClientSocket.new fd now []⟩
    let event := (((Event.new fd).add .read).add .closeConnection).add .write
    let s := { s with
      descriptors := insert fd s.descriptors
      backlog := s.backlog - 1
      accepts := s.accepts + 1
      ioNotifier := (s.ioNotifier.addEvent event).2
      callbacks :=
        if s.clientConnectedCallback then s.callbacks ++ [Callback.connected client.number]
        else s.callbacks }
    if s.currentConnections.find? fd = none then
      .ok { s with currentConnections := s.currentConnections.insert fd client }
    else
      -- The pair that was not inserted is destroyed, and the socket with it.
      .ok (s.close fd)

/-- `handle_client_disconnected`. On a missing entry `operator[]` makes one with
a null pointer, which the callback's argument dereferences. -/
def handleClientDisconnected (s : Server) (fd : Int) : Except Fault Server := do
  let s ← if s.clientDisconnectedCallback then
      match s.currentConnections.find? fd with
      | none => throw Fault.nullDereference
      | some client =>
        pure { s with callbacks := s.callbacks ++ [Callback.disconnected client.number] }
    else pure s
  let s := { s with ioNotifier := (s.ioNotifier.deleteEvent (Event.new fd)).2 }
  match s.currentConnections.find? fd with
  | none => return s
  | some client =>
    let s := { s with currentConnections := s.currentConnections.erase fd }
    return s.close client.client.fileDescriptor

/-- `current_connections.at(fd)`, and `handle_request` on what it finds. The
reads that the request makes return `reads`. -/
def handleRequest (s : Server) (fd : Int) (reads : List ReadResult) (append : IoResult)
    (now : UInt64) : Except Fault Server :=
  match s.currentConnections.find? fd with
  | none => .error .outOfRange
  | some connection =>
    let client := connection.client
    let client := { client with
      readBuffer := { client.readBuffer with source := reads.map sourceTrigger } }
    match EasyKeyDB.handleRequest now append ⟨s.database, client⟩ with
    | .error e _ => .error (.uncaught e)
    | .ok () after => .ok { s with
        database := after.database
        currentConnections := s.currentConnections.modify fd fun connection =>
          { connection with client := after.socket } }

/-- The whole seconds of a `std::uint64_t` difference in nanoseconds. -/
def idleSeconds (now lastSeen : UInt64) : UInt64 := (now - lastSeen) / 1000000000

/-- The descriptors that `check_idle_connections` finds idle. -/
def toRemove (s : Server) (now : UInt64) : List Int :=
  s.currentConnections.keys.filter fun fd =>
    match s.currentConnections.find? fd with
    | none => false
    | some connection => 300 ≤ idleSeconds now connection.client.lastSeen

def checkIdleConnections (s : Server) (now : UInt64) : Except Fault Server :=
  (s.toRemove now).foldlM handleClientDisconnected s

/-! ## The loop -/

/-- The branches of the loop over a batch. -/
def dispatch (s : Server) (event : Event) (accepted : Option Int) (reads : List ReadResult)
    (append : IoResult) (now : UInt64) : Except Fault Server :=
  if event.isFor s.socket then s.handleNewConnection accepted now
  else if event.has .closeConnection then
    s.handleClientDisconnected event.fileDescriptor
  else if event.has .read then s.handleRequest event.fileDescriptor reads append now
  else .ok s

/-- `wait_for_events` and the branch behind it. The report clears what the
listening socket had to report. -/
def wait (s : Server) (batch : List EpollEvent) (now : UInt64) : Except Fault Server := do
  let events := batch.map Event.ofEpoll
  let s ← if events.isEmpty then s.checkIdleConnections now else pure s
  return { s with
    signalled := s.signalled && !batch.any fun e => e.fileDescriptor = s.socket
    control := .dispatching events }

/-- From behind the loop over the batch to the condition of the outer loop. -/
def endOfBatch (s : Server) (now : UInt64) : Except Fault Server := do
  let s := { s with iterations := s.iterations + 1 }
  let s ← if s.iterations = 1000 then do
      let s ← s.checkIdleConnections now
      pure { s with iterations := 0 }
    else pure s
  if s.running then return { s with control := .waiting }
  else
    let notifier := (s.ioNotifier.deleteEvent (Event.new s.socket)).2
    return { s with ioNotifier := notifier, control := .stopped }

/-- The first half of `endOfBatch`: the iteration is counted, and the thousandth
one sweeps. -/
def countIteration (s : Server) (now : UInt64) : Except Fault Server :=
  let s := { s with iterations := s.iterations + 1 }
  if s.iterations = 1000 then do
    let s ← s.checkIdleConnections now
    pure { s with iterations := 0 }
  else pure s

/-- The second half: the condition of the outer loop. -/
def closeIteration (s : Server) : Server :=
  if s.running then { s with control := .waiting }
  else
    { s with
      ioNotifier := (s.ioNotifier.deleteEvent (Event.new s.socket)).2
      control := .stopped }

/-- `stop`, called by the signal handler. -/
def stop (s : Server) : Server := { s with running := false }

def connect (s : Server) : Server :=
  { s with backlog := s.backlog + 1, signalled := true }

end Server

/-- A step of the server or its surroundings. -/
inductive Label
  | setUp
  | wait (batch : List EpollEvent) (now : UInt64)
  | dispatch (accepted : Option Int) (reads : List ReadResult) (append : IoResult) (now : UInt64)
  | endOfBatch (now : UInt64)
  | connect
  | stop
deriving DecidableEq

namespace Server

def next (s : Server) : Label → Except Fault Server
  | .setUp => .ok { s with running := true, iterations := 0, control := .waiting }
  | .wait batch now => s.wait batch now
  | .dispatch accepted reads append now =>
    match s.control with
    | .dispatching (event :: events) =>
      if !s.running then .ok { s with control := .dispatching [] }
      else do
        let s ← s.dispatch event accepted reads append now
        return { s with control := .dispatching events }
    | _ => .ok s
  | .endOfBatch now => s.endOfBatch now
  | .connect => .ok s.connect
  | .stop => .ok s.stop

/-- Which steps are possible, and what the kernel may answer in them: a batch
lists registered descriptors, each at most once, and `accept` returns a
descriptor that is not open. -/
def Enabled (s : Server) : Label → Prop
  | .setUp => s.control = .settingUp
  | .wait batch _ => s.control = .waiting ∧
      (batch.map EpollEvent.fileDescriptor).Nodup ∧
      ∀ e ∈ batch, s.ioNotifier.Watches e.fileDescriptor
  | .dispatch accepted _ _ _ => (∃ event events, s.control = .dispatching (event :: events)) ∧
      ∀ fd ∈ accepted, fd ∉ s.descriptors
  | .endOfBatch _ => s.control = .dispatching []
  | .connect => True
  | .stop => True

/-- A step of a run in which only `allowed` steps are made. -/
def StepIf (allowed : Server → Label → Prop) (s : Server) (x : Label) (s' : Server) : Prop :=
  allowed s x ∧ s.next x = .ok s'

theorem StepIf.unique {allowed : Server → Label → Prop} {s t t' : Server} {x : Label}
    (h : StepIf allowed s x t) (h' : StepIf allowed s x t') : t = t' :=
  Except.ok.inj (h.2.symm.trans h'.2)

abbrev Step : Server → Label → Server → Prop := StepIf Enabled

instance (s : Server) : Decidable (∃ event events, s.control = .dispatching (event :: events)) :=
  match s.control with
  | .dispatching (event :: events) => isTrue ⟨event, events, rfl⟩
  | .settingUp | .waiting | .stopped | .dispatching [] => isFalse nofun

instance (s : Server) (x : Label) : Decidable (s.Enabled x) :=
  match x with
  | .setUp => inferInstanceAs (Decidable (_ = _))
  | .wait _ _ => inferInstanceAs (Decidable (_ ∧ _ ∧ _))
  | .dispatch _ _ _ _ => inferInstanceAs (Decidable (_ ∧ _))
  | .endOfBatch _ => inferInstanceAs (Decidable (_ = _))
  | .connect | .stop => isTrue trivial

/-- A server that is about to start: the listening socket is registered, and
nobody has been accepted. -/
def starting (socket : Int) (connected disconnected : Bool) (others : Finset Int)
    (count : UInt32) (db : Database) : Server where
  socket
  clientConnectedCallback := connected
  clientDisconnectedCallback := disconnected
  running := false
  iterations := 0
  currentConnections := .empty
  ioNotifier := ((IONotifier.new count).addEvent ((Event.new socket).add .read)).2
  database := db
  descriptors := insert socket others
  backlog := 0
  signalled := false
  accepts := 0
  callbacks := []
  control := .settingUp

end Server

end EasyKeyDB
