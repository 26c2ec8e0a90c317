import EasyKeyDB.Coalesced
import EasyKeyDB.ConnectionSteps
import EasyKeyDB.Library.Consumer

/-!
# The server and its connections

The event loop together with what arrives on each connection. A client sends
bytes and hangs up; the loop reports a hang-up that has happened, and the reads
of a request return what has arrived, in any pieces. `handled` keeps the calls of
`parse_request`, those of all connections in the order in which they are made.

What a connection has left unread is a matter of its own calls alone
(`Tracks.unread`), and what the database holds is a matter of all calls
(`Tracks.database`).
-/

namespace EasyKeyDB

open ByteBuffer

/-- A call of `parse_request`: the number of the connection, the bytes that have
arrived on it since the call before, all that the call finds, and the outcome of
the append if there is one. -/
structure Handling where
  number : Nat
  arrived : List UInt8
  found : List UInt8
  append : IoResult
deriving DecidableEq

def arrivals (n : Nat) (handled : List Handling) : List (List UInt8) :=
  (handled.filter fun h => h.number = n).map Handling.arrived

def performed (db : Database) (handled : List Handling) : Database :=
  handled.foldl (fun db h => (parse h.found).database h.append db) db

/-- What a call leaves of what it finds. -/
def restOf (s : List UInt8) : List UInt8 := (parse s).rest

theorem arrivals_append (n : Nat) (handled more : List Handling) :
    arrivals n (handled ++ more) = arrivals n handled ++ arrivals n more := by
  rw [arrivals, List.filter_append, List.map_append]
  rfl

theorem arrivals_singleton (n : Nat) (h : Handling) :
    arrivals n [h] = if h.number = n then [h.arrived] else [] := by
  by_cases hn : h.number = n
  · rw [if_pos hn, arrivals, List.filter_singleton, decide_eq_true hn]
    rfl
  · rw [if_neg hn, arrivals, List.filter_singleton, decide_eq_false hn]
    rfl

theorem performed_append (db : Database) (handled more : List Handling) :
    performed db (handled ++ more) = performed (performed db handled) more :=
  List.foldl_append

/-- A call takes a request at the beginning of what it finds, and something of
whatever it finds. -/
theorem consumes : Consumer.Consumes restOf Request.encode where
  item q t := by
    rw [restOf, parse_encode]
    cases q <;> rfl
  progress _ h := length_rest_parse h
  idle := rfl
  nonempty q := by cases q <;> exact List.cons_ne_nil _ _

/-! ## What the calls find -/

/-- Each call has found what the calls before it, on the same connection, have
left, and what has arrived since. -/
def Chained (handled : List Handling) : Prop :=
  ∀ before h later, handled = before ++ h :: later →
    h.found = Consumer.left restOf [] (arrivals h.number before) ++ h.arrived

theorem Chained.nil : Chained [] := by
  intro before h later hnil
  simp at hnil

theorem Chained.snoc {handled : List Handling} (hs : Chained handled) {h : Handling}
    (hfound : h.found =
      Consumer.left restOf [] (arrivals h.number handled) ++ h.arrived) :
    Chained (handled ++ [h]) := by
  intro before h' later hsplit
  rcases List.eq_nil_or_concat later with rfl | ⟨later, last, rfl⟩
  · obtain ⟨rfl, hlast⟩ := List.append_inj' hsplit rfl
    obtain rfl := (List.cons.inj hlast).1
    exact hfound
  · rw [List.concat_eq_append, ← List.cons_append, ← List.append_assoc] at hsplit
    obtain ⟨hbefore, -⟩ := List.append_inj' hsplit rfl
    exact hs before h' later hbefore

theorem Chained.before {before later : List Handling} {h : Handling}
    (hs : Chained (before ++ h :: later)) : Chained before := by
  rintro b h' l rfl
  apply hs b h' (l ++ h :: later)
  rw [List.append_assoc, List.cons_append]

/-! ## The network -/

structure Network where
  server : Server
  /-- The bytes that have arrived on a connection since its last call. -/
  waiting : Nat → List UInt8
  /-- The client has closed its end, or half of it. -/
  hungUp : Nat → Bool
  handled : List Handling

/-- A step of a client or of the server. -/
inductive NetworkLabel
  | receive (number : Nat) (bytes : List UInt8)
  | hangUp (number : Nat)
  | server (x : Label)
deriving DecidableEq

theorem live_iff_keys (s : Server) (n : Nat) :
    (∃ fd ∈ s.currentConnections.keys, ∃ c ∈ s.entry fd, c.number = n) ↔ s.Live n := by
  constructor
  · rintro ⟨fd, -, c, hc, hnumber⟩
    exact ⟨fd, c, hc, hnumber⟩
  · rintro ⟨fd, c, hc, hnumber⟩
    exact ⟨fd, UnorderedMap.mem_keys.mpr ⟨c, hc⟩, c, hc, hnumber⟩

instance (s : Server) (n : Nat) : Decidable (s.Live n) :=
  decidable_of_iff _ (live_iff_keys s n)

namespace Network

def beside (server : Server) : Network := ⟨server, fun _ => [], fun _ => false, []⟩

def Removed (net : Network) (n : Nat) : Prop :=
  n < net.server.accepts ∧ ¬ net.server.Live n

def received (net : Network) (n : Nat) : List UInt8 :=
  (arrivals n net.handled).flatten ++ net.waiting n

/-- A hang-up is reported for connections that have one. -/
def ReportsHangUps (net : Network) : Label → Prop
  | .wait batch _ => ∀ e ∈ batch, e.events &&& EventType.closeConnection.flag ≠ 0 →
      ∀ c ∈ net.server.entry e.fileDescriptor, net.hungUp c.number = true
  | _ => True

/-- The reads of a request return what is there, and then nothing. What arrives
while it is handled has either arrived before it or comes after it. -/
def ReadsArrivals (net : Network) (x : Label) : Prop :=
  ∀ call ∈ net.server.handles x, [] ∉ call.2.1.map sourceTrigger ∧
    (call.2.1.map sourceTrigger).flatten =
      arriving call.1.client.readBuffer.source ++ net.waiting call.1.number

def Enabled (net : Network) : NetworkLabel → Prop
  | .receive n _ => n < net.server.accepts + net.server.backlog ∧ net.hungUp n = false ∧
      ¬ net.Removed n
  | .hangUp n => n < net.server.accepts + net.server.backlog ∧ net.hungUp n = false
  | .server x => net.server.Enabled x ∧ net.ReportsHangUps x ∧ net.ReadsArrivals x

def after (net : Network) (x : Label) (server : Server) : Network :=
  match net.server.handles x with
  | none => { net with server }
  | some (c, reads, append) => { net with
      server
      waiting := Function.update net.waiting c.number []
      handled := net.handled ++
        [⟨c.number, net.waiting c.number, c.found reads, append⟩] }

def next (net : Network) : NetworkLabel → Except Fault Network
  | .receive n bytes => .ok { net with
      waiting := Function.update net.waiting n (net.waiting n ++ bytes) }
  | .hangUp n => .ok { net with hungUp := Function.update net.hungUp n true }
  | .server x => (net.server.next x).map (net.after x)

def Step (net : Network) (x : NetworkLabel) (net' : Network) : Prop :=
  net.Enabled x ∧ net.next x = .ok net'

instance (net : Network) (n : Nat) : Decidable (net.Removed n) :=
  inferInstanceAs (Decidable (_ ∧ _))

instance (net : Network) (x : Label) : Decidable (net.ReportsHangUps x) :=
  match x with
  | .wait _ _ => inferInstanceAs (Decidable (∀ _ ∈ _, _ → ∀ c ∈ _, _))
  | .setUp | .dispatch _ _ _ _ | .endOfBatch _ | .connect | .stop => isTrue trivial

instance (net : Network) (x : Label) : Decidable (net.ReadsArrivals x) :=
  inferInstanceAs (Decidable (∀ _ ∈ _, _))

instance (net : Network) (x : NetworkLabel) : Decidable (net.Enabled x) :=
  match x with
  | .receive _ _ => inferInstanceAs (Decidable (_ ∧ _ ∧ _))
  | .hangUp _ => inferInstanceAs (Decidable (_ ∧ _))
  | .server _ => inferInstanceAs (Decidable (_ ∧ _ ∧ _))

section

variable {db : Database} {net net' : Network}

/-! ## What every run keeps -/

theorem after_of_none {x : Label} (h : net.server.handles x = none) (s' : Server) :
    net.after x s' = { net with server := s' } := by
  rw [after, h]

theorem after_of_some {x : Label} {c : Connection} {reads : List ReadResult}
    {append : IoResult} (h : net.server.handles x = some (c, reads, append)) (s' : Server) :
    net.after x s' = { net with
      server := s'
      waiting := Function.update net.waiting c.number []
      handled := net.handled ++
        [⟨c.number, net.waiting c.number, c.found reads, append⟩] } := by
  rw [after, h]

structure Tracks (db : Database) (net : Network) : Prop where
  server : net.server.Invariant
  database : net.server.database = performed db net.handled
  /-- What a connection has left unread. -/
  unread : ∀ fd c, net.server.entry fd = some c → c.client.readBuffer.unread =
    Consumer.left restOf [] (arrivals c.number net.handled)
  /-- Nothing has been handled for the connections to come. -/
  future : ∀ n, net.server.accepts ≤ n → arrivals n net.handled = []
  chained : Chained net.handled

theorem found_of_reads {c : Connection} {reads : List ReadResult} {waiting : List UInt8}
    (hno : [] ∉ reads.map sourceTrigger)
    (hall : (reads.map sourceTrigger).flatten =
      arriving c.client.readBuffer.source ++ waiting) :
    c.found reads = c.client.readBuffer.unread ++ waiting := by
  rw [Connection.found, arriving_eq_flatten hno, hall, ← List.append_assoc]
  rfl

theorem Tracks.leaves (h : Tracks db net) {s' : Server} (hs' : s'.Invariant)
    (honly : Server.OnlyLeaves net.server s') : Tracks db { net with server := s' } := by
  refine ⟨hs', honly.database.trans h.database, ?_, ?_, h.chained⟩
  · intro fd c hc
    exact h.unread fd c (honly.entries fd c hc)
  · intro n hn
    rw [honly.accepts] at hn
    exact h.future n hn

theorem Tracks.enters (h : Tracks db net) {s' : Server} (hs' : s'.Invariant) {fd : Int}
    {now : UInt64}
    (hentries : ∀ fd', s'.entry fd' =
      if fd = fd' then some ⟨net.server.accepts, ClientSocket.new fd now []⟩
      else net.server.entry fd')
    (hdatabase : s'.database = net.server.database)
    (haccepts : s'.accepts = net.server.accepts + 1) :
    Tracks db { net with server := s' } := by
  refine ⟨hs', hdatabase.trans h.database, ?_, ?_, h.chained⟩
  · intro fd' c hc
    rw [hentries] at hc
    split_ifs at hc
    · obtain rfl := Option.some.inj hc
      rw [h.future _ (Nat.le_refl _)]
      rfl
    · exact h.unread fd' c hc
  · intro n hn
    rw [haccepts] at hn
    exact h.future n (Nat.le_of_succ_le hn)

/-- A request is handled on one connection; what the others have left unread
stays as it is. -/
theorem Tracks.serves (h : Tracks db net) {s' : Server} (hs' : s'.Invariant) {fd : Int}
    {c : Connection} {client : ClientSocket Chunks} {found : List UInt8} {append : IoResult}
    (hc : net.server.entry fd = some c)
    (hfound : found = c.client.readBuffer.unread ++ net.waiting c.number)
    (hleft : client.readBuffer.unread = restOf found)
    (hentries : ∀ fd', s'.entry fd' =
      if fd = fd' then some { c with client } else net.server.entry fd')
    (hdatabase : s'.database = (parse found).database append net.server.database)
    (haccepts : s'.accepts = net.server.accepts) :
    Tracks db { net with
      server := s'
      waiting := Function.update net.waiting c.number []
      handled := net.handled ++ [⟨c.number, net.waiting c.number, found, append⟩] } := by
  have hissued : c.number < net.server.accepts :=
    h.server.table.told.issued _ ⟨fd, c, hc, rfl⟩
  refine ⟨hs', ?_, ?_, ?_, ?_⟩
  · rw [hdatabase, h.database]
    change _ = performed db (net.handled ++ _)
    rw [performed_append]
    rfl
  · intro fd' c' hc'
    rw [hentries] at hc'
    rw [arrivals_append, arrivals_singleton]
    by_cases hfd : fd = fd'
    · rw [if_pos hfd] at hc'
      obtain rfl := Option.some.inj hc'
      rw [if_pos rfl, Consumer.left_append, ← h.unread fd c hc]
      change client.readBuffer.unread = restOf (c.client.readBuffer.unread ++ _)
      rw [hleft, hfound]
    · -- Another descriptor is another connection, whose bytes were not read.
      rw [if_neg hfd] at hc'
      have hother : c.number ≠ c'.number := fun hsame =>
        hfd (h.server.table.distinct _ _ _ _ hc hc' hsame)
      rw [if_neg hother, List.append_nil]
      exact h.unread fd' c' hc'
  · intro n hn
    rw [haccepts] at hn
    have hother : c.number ≠ n := Nat.ne_of_lt (Nat.lt_of_lt_of_le hissued hn)
    rw [arrivals_append, arrivals_singleton, if_neg hother, h.future n hn]
    rfl
  · apply h.chained.snoc
    rw [← h.unread fd c hc]
    exact hfound

theorem Tracks.server_step (h : Tracks db net) {x : Label} {s' : Server}
    (hreads : net.ReadsArrivals x) (hstep : Server.Step net.server x s') :
    Tracks db (net.after x s') := by
  have hinvariant : s'.Invariant :=
    (Server.run_invariant h.server (Run.single hstep)).1
  cases Server.step_effect h.server hstep with
  | leaves hnone honly =>
      rw [after_of_none hnone]
      exact h.leaves hinvariant honly
  | enters hnone hfree hentries hdatabase haccepts =>
      rw [after_of_none hnone]
      exact h.enters hinvariant hentries hdatabase haccepts
  | serves hhandles hc hrequest hentries hdatabase haccepts =>
      rw [after_of_some hhandles]
      obtain ⟨hno, hall⟩ := hreads _ hhandles
      have hfound := found_of_reads hno hall
      have hleft := hrequest.left.unread_eq (afterEmpty_eq_nil hno)
      exact h.serves hinvariant hc hfound hleft.1 hentries hdatabase haccepts

theorem Tracks.step (h : Tracks db net) {x : NetworkLabel} (hstep : Step net x net') :
    Tracks db net' := by
  rcases hstep with ⟨hx, hok⟩
  cases x with
  | receive n bytes =>
      cases hok
      exact ⟨h.server, h.database, h.unread, h.future, h.chained⟩
  | hangUp n =>
      cases hok
      exact ⟨h.server, h.database, h.unread, h.future, h.chained⟩
  | server x =>
      rcases hx with ⟨hserver, -, hreads⟩
      obtain ⟨s', hnext, hafter⟩ := Throwing.except_bind_eq_ok hok
      cases hafter
      exact h.server_step hreads ⟨hserver, hnext⟩

/-- **Connections do not interfere**: in every run each connection's unread bytes
are what its own calls have left. -/
theorem tracks {socket : Int} {connected disconnected : Bool} {others : Finset Int}
    {count : UInt32} {xs : List NetworkLabel}
    (h : Run Step (beside (Server.starting socket connected disconnected others count db))
      xs net) : Tracks db net := by
  apply h.invariant
  · have hstart := Server.invariant_starting socket connected disconnected others count db
    refine ⟨hstart, rfl, ?_, fun _ _ => rfl, .nil⟩
    intro fd c hc
    cases (Server.entry_starting socket connected disconnected others count db fd).symm.trans hc
  · intro m x m' hm hstep
    exact hm.step hstep

end

end Network

end EasyKeyDB
