import EasyKeyDB.Replies

/-!
# Clients that send anything

The event loop against the write-once map, whatever the clients send. A call of
`parse_request` finds a request or something else (`request_cases`); what is not a
request is turned down with a text and changes nothing.

So in every run the database holds what the map holds after the requests that have been
found, and each connection has been sent what the map answers to its own
(`Network.served_as_map`). Of the other clients it gets to know no more than the first
values that they have stored (`Network.nothing_learnt`).
-/

namespace EasyKeyDB

open ByteBuffer

def Key.of (bytes : List UInt8) : Option Key :=
  if h : isKeyValid bytes = true ∧ bytes.length < 2 ^ 32 then some ⟨bytes, h.1, h.2⟩ else none

def Value.of (bytes : List UInt8) : Option Value :=
  if h : bytes.length < 2 ^ 32 then some ⟨bytes, h⟩ else none

theorem Key.of_bytes (key : Key) : Key.of key.bytes = some key :=
  dif_pos ⟨key.valid, key.short⟩

theorem Value.of_bytes (value : Value) : Value.of value.bytes = some value := dif_pos value.short

namespace Parsed

def request : Parsed → Option Request
  | read key _ => (Key.of key).map .read
  | write key value _ => do return .write (← Key.of key) (← Value.of value)
  | _ => none

def refusal : Parsed → List UInt8
  | unsupportedVersion _ => textReply .clientError onlyFirstVersion
  | invalidCount _ => textReply .clientError oneOrTwoMessages
  | invalidKey key _ => textReply .clientError (keyNotValid key)
  | _ => textReply .clientError doesNotFollow

def step (m : WriteOnce.Contents Key Value) (p : Parsed) : WriteOnce.Contents Key Value :=
  match p.request with
  | some q => WriteOnce.step m q.op
  | none => m

def reply (m : WriteOnce.Contents Key Value) (p : Parsed) : List UInt8 :=
  match p.request with
  | some q => q.reply (WriteOnce.result m q.op)
  | none => p.refusal

end Parsed

theorem Request.request_parsed (q : Request) (rest : List UInt8) :
    (q.parsed rest).request = some q := by
  cases q with
  | read key => rw [parsed, Parsed.request, Key.of_bytes, Option.map_some]
  | write key value =>
      rw [parsed, Parsed.request, Key.of_bytes, Value.of_bytes]
      rfl

/-- What a call finds is a request, or it is turned down and leaves the database as it
is. -/
theorem request_cases (s : List UInt8) :
    (∃ q rest, parse s = Request.parsed rest q) ∨
      ((parse s).request = none ∧
        (∀ append db, (parse s).database append db = db) ∧
        ∀ db, sentBytes ((parse s).calls db) = (parse s).refusal) := by
  have hsound := parse_sound s
  cases hparse : parse s with
  | read key rest =>
      rw [hparse] at hsound
      obtain ⟨k, rfl, -⟩ := hsound
      exact .inl ⟨.read k, rest, rfl⟩
  | write key value rest =>
      rw [hparse] at hsound
      obtain ⟨k, v, rfl, rfl, -⟩ := hsound
      exact .inl ⟨.write k v, rest, rfl⟩
  | unsupportedVersion rest =>
      exact .inr ⟨rfl, fun _ _ => rfl, fun _ => sentBytes_textCalls _ _⟩
  | invalidCount rest =>
      exact .inr ⟨rfl, fun _ _ => rfl, fun _ => sentBytes_textCalls _ _⟩
  | invalidKey key rest =>
      exact .inr ⟨rfl, fun _ _ => rfl, fun _ => sentBytes_textCalls _ _⟩
  | truncated rest =>
      exact .inr ⟨rfl, fun _ _ => rfl, fun _ => sentBytes_textCalls _ _⟩

/-! ## The map behind the loop -/

def Handling.request (h : Handling) : Option Request := (parse h.found).request

def contentsAfter (m : WriteOnce.Contents Key Value) (handled : List Handling) :
    WriteOnce.Contents Key Value :=
  handled.foldl (fun m h => (parse h.found).step m) m

/-- What the map sends on a connection in the course of some calls. -/
def repliesTo (n : Nat) (m : WriteOnce.Contents Key Value) : List Handling → List UInt8
  | [] => []
  | h :: handled =>
    (if h.number = n then (parse h.found).reply m else []) ++
      repliesTo n ((parse h.found).step m) handled

def AppendsWhole (handled : List Handling) : Prop :=
  ∀ h ∈ handled, ∀ q ∈ h.request, q.Appends h.append

theorem appendsWhole_of_complete {handled : List Handling} {count : Nat}
    (h : handled.map Handling.append = List.replicate count .complete) : AppendsWhole handled := by
  intro x hx q _
  have happend := List.mem_map_of_mem (f := Handling.append) hx
  rw [h] at happend
  rw [List.eq_of_mem_replicate happend]
  exact q.appends_complete

section

variable {db : Database} {m : WriteOnce.Contents Key Value}

theorem Represents.handled (hm : Represents db m) {h : Handling}
    (hwhole : ∀ q ∈ h.request, q.Appends h.append) :
    Represents ((parse h.found).database h.append db) ((parse h.found).step m) ∧
      sentBytes ((parse h.found).calls db) = (parse h.found).reply m := by
  rcases request_cases h.found with ⟨q, rest, hparse⟩ | ⟨hnone, hdatabase, hcalls⟩
  · have hrequest : h.request = some q := by
      rw [Handling.request, hparse, q.request_parsed]
    have hcall : (q.parsed rest).database h.append db = db.call (q.call h.append) := by
      cases q <;> rfl
    have hanswer : (q.parsed rest).calls db = q.answer db := by
      cases q <;> rfl
    rw [hparse, hcall, hanswer, Parsed.step, Parsed.reply, q.request_parsed]
    exact ⟨hm.call (hwhole q hrequest), hm.answer q⟩
  · rw [hdatabase, hcalls, Parsed.step, Parsed.reply, hnone]
    exact ⟨hm, rfl⟩

theorem Represents.performed (hm : Represents db m) {handled : List Handling}
    (hwhole : AppendsWhole handled) :
    Represents (performed db handled) (contentsAfter m handled) := by
  induction handled generalizing db m with
  | nil => exact hm
  | cons h handled ih =>
      exact ih (hm.handled (hwhole h List.mem_cons_self)).1
        fun x hx => hwhole x (List.mem_cons_of_mem h hx)

theorem Represents.callsFor (hm : Represents db m) (n : Nat) {handled : List Handling}
    (hwhole : AppendsWhole handled) :
    sentBytes (callsFor n db handled) = repliesTo n m handled := by
  induction handled generalizing db m with
  | nil => rfl
  | cons h handled ih =>
      obtain ⟨hafter, hreply⟩ := hm.handled (hwhole h List.mem_cons_self)
      rw [EasyKeyDB.callsFor, sentBytes_append, repliesTo,
        ih hafter fun x hx => hwhole x (List.mem_cons_of_mem h hx), ← hreply]
      split_ifs <;> rfl

/-! ## What a client may see of the others -/

/-- What concerns a connection: what a call of its own finds, and what is stored under a
key that has been free. -/
inductive Visible
  | own (found : List UInt8)
  | stored (key : Key) (value : Value)
deriving DecidableEq

/-- A call of another connection. -/
def storedBy (m : WriteOnce.Contents Key Value) (h : Handling) : List Visible :=
  match h.request with
  | some (.write key value) => if m key = none then [.stored key value] else []
  | _ => []

def visibleTo (n : Nat) (m : WriteOnce.Contents Key Value) : List Handling → List Visible
  | [] => []
  | h :: handled =>
    (if h.number = n then [.own h.found] else storedBy m h) ++
      visibleTo n ((parse h.found).step m) handled

/-- What is sent on a connection, made from what concerns it. -/
def repliesSeen (m : WriteOnce.Contents Key Value) : List Visible → List UInt8
  | [] => []
  | .own found :: seen => (parse found).reply m ++ repliesSeen ((parse found).step m) seen
  | .stored key value :: seen => repliesSeen (WriteOnce.step m (.put key value)) seen

theorem storedBy_cases (m : WriteOnce.Contents Key Value) (h : Handling) :
    (∃ key value, storedBy m h = [.stored key value] ∧
        (parse h.found).step m = WriteOnce.step m (.put key value)) ∨
      storedBy m h = [] ∧ (parse h.found).step m = m := by
  rw [storedBy, Handling.request, Parsed.step]
  match (parse h.found).request with
  | none => exact .inr ⟨rfl, rfl⟩
  | some (.read key) => exact .inr ⟨rfl, rfl⟩
  | some (.write key value) =>
      by_cases hfree : m key = none
      · exact .inl ⟨key, value, if_pos hfree, rfl⟩
      · have hsettled : WriteOnce.Settled m (.put key value) := by
          intro k hk
          change (if key = k then some value else none).isSome at hk
          split_ifs at hk with hkey
          · exact hkey ▸ Option.isSome_iff_ne_none.mpr hfree
          · cases hk
        exact .inr ⟨if_neg hfree, hsettled.step_eq⟩

theorem repliesTo_eq (n : Nat) (m : WriteOnce.Contents Key Value) (handled : List Handling) :
    repliesTo n m handled = repliesSeen m (visibleTo n m handled) := by
  induction handled generalizing m with
  | nil => rfl
  | cons h handled ih =>
      rw [repliesTo, visibleTo, ih]
      by_cases hn : h.number = n
      · rw [if_pos hn, if_pos hn]
        rfl
      · rw [if_neg hn, if_neg hn, List.nil_append]
        rcases storedBy_cases m h with ⟨key, value, hstored, hafter⟩ | ⟨hstored, hafter⟩
        · rw [hstored, hafter]
          rfl
        · rw [hstored, hafter, List.nil_append]

end

namespace Network

section

variable {db db' : Database} {net net' : Network} {m : WriteOnce.Contents Key Value}

/-- **The loop serves a map**, whatever the clients send and in whatever order it
arrives. -/
theorem served_as_map {socket : Int} {connected disconnected : Bool} {others : Finset Int}
    {count : UInt32} {xs : List NetworkLabel}
    (h : Run Step (beside (Server.starting socket connected disconnected others count db))
      xs net) (hm : Represents db m) (hwhole : AppendsWhole net.handled) :
    Represents net.server.database (contentsAfter m net.handled) ∧
      ∀ fd c, net.server.entry fd = some c →
        sentBytes c.client.sent = repliesTo c.number m net.handled := by
  constructor
  · rw [(tracks h).database]
    exact hm.performed hwhole
  · intro fd c hc
    rw [sent_eq_callsFor h hc]
    exact hm.callsFor c.number hwhole

def accepting (fds : List Int) : List NetworkLabel :=
  .server .setUp :: fds.flatMap fun fd =>
    [.server .connect, .server (.wait [⟨0x001, 3⟩] 0),
      .server (.dispatch (some fd) [] .complete 0), .server (.endOfBatch 0)]

/-- Some bytes arrive on a connection and are found by a call. -/
def calling (n : Nat) (fd : Int) (bytes : List UInt8) : List NetworkLabel :=
  [.receive n bytes, .server (.wait [⟨0x001, fd⟩] 0),
    .server (.dispatch none [.bytes bytes] .complete 0), .server (.endOfBatch 0)]

/-- The client on 5 sends what is no request, while the one on 6 stores a value and reads
it. -/
def besideGarbage : List NetworkLabel :=
  accepting [5, 6] ++ calling 1 6 (Request.write keyA valueOne).encode ++
    calling 0 5 [7, 7, 7] ++ calling 1 6 (Request.read keyA).encode

theorem besideGarbage_served_as_map :
    ∃ net c, Run Step (beside (Server.starting 3 true true {0, 1, 2} 0 Database.new))
        besideGarbage net ∧ net.server.entry 6 = some c ∧
      sentBytes c.client.sent = textReply .ok (keyWritten keyA.bytes) ++ frame .ok [1] := by
  have hcall : (besideGarbage.foldlM (attempt Enabled next)
      (beside (Server.starting 3 true true {0, 1, 2} 0 Database.new))).map
        (fun net => ((net.server.entry 6).map Connection.number,
          net.handled.map Handling.append, repliesTo 1 WriteOnce.empty net.handled)) =
      some (some 1, List.replicate 3 .complete,
        textReply .ok (keyWritten keyA.bytes) ++ frame .ok [1]) := by
    decide +kernel
  obtain ⟨net, hrun, hview⟩ := Run.of_view hcall
  obtain ⟨hentry, hview⟩ := Prod.mk.inj hview
  obtain ⟨hcomplete, hreplies⟩ := Prod.mk.inj hview
  obtain ⟨c, hc, hnumber⟩ := Option.map_eq_some_iff.mp hentry
  have hwhole : AppendsWhole net.handled := appendsWhole_of_complete hcomplete
  refine ⟨net, c, hrun, hc, ?_⟩
  rw [(served_as_map hrun represents_new hwhole).2 6 c hc, hnumber, hreplies]

/-- **A client learns of the others the first values that they store, and nothing else.**
Two runs, with other clients, other packets, in another order, that show a connection the
same send it the same. -/
theorem nothing_learnt {socket socket' : Int} {connected disconnected connected'
    disconnected' : Bool} {others others' : Finset Int} {count count' : UInt32}
    {xs xs' : List NetworkLabel}
    (h : Run Step (beside (Server.starting socket connected disconnected others count db))
      xs net)
    (h' : Run Step (beside (Server.starting socket' connected' disconnected' others' count' db'))
      xs' net')
    (hm : Represents db m) (hm' : Represents db' m) (hwhole : AppendsWhole net.handled)
    (hwhole' : AppendsWhole net'.handled) {fd fd' : Int} {c c' : Connection}
    (hc : net.server.entry fd = some c) (hc' : net'.server.entry fd' = some c')
    (hsame : visibleTo c.number m net.handled = visibleTo c'.number m net'.handled) :
    sentBytes c.client.sent = sentBytes c'.client.sent := by
  rw [sent_eq_callsFor h hc, sent_eq_callsFor h' hc', hm.callsFor _ hwhole,
    hm'.callsFor _ hwhole', repliesTo_eq, repliesTo_eq, hsame]

/-- A value is stored on 5 and read on 6. -/
def besideWriter : List NetworkLabel :=
  accepting [5, 6] ++ calling 0 5 (Request.write keyA valueOne).encode ++
    calling 1 6 (Request.read keyA).encode

/-- It is read on 7, and there have been a second value and what is no request. -/
def besideWriters : List NetworkLabel :=
  accepting [5, 6, 7] ++ calling 0 5 [7, 7, 7] ++
    calling 1 6 (Request.write keyA valueOne).encode ++
    calling 0 5 (Request.write keyA valueTwo).encode ++
    calling 2 7 (Request.read keyA).encode

theorem besideWriters_nothing_learnt :
    ∃ net net' c c',
      Run Step (beside (Server.starting 3 true true {0, 1, 2} 0 Database.new)) besideWriter net ∧
      Run Step (beside (Server.starting 3 true true {0, 1, 2} 0 Database.new)) besideWriters
        net' ∧
      net.server.entry 6 = some c ∧ net'.server.entry 7 = some c' ∧
      sentBytes c.client.sent = sentBytes c'.client.sent := by
  have hcall : (besideWriter.foldlM (attempt Enabled next)
      (beside (Server.starting 3 true true {0, 1, 2} 0 Database.new))).map
        (fun net => ((net.server.entry 6).map Connection.number,
          net.handled.map Handling.append, visibleTo 1 WriteOnce.empty net.handled)) =
      some (some 1, List.replicate 2 .complete,
        [.stored keyA valueOne, .own (Request.read keyA).encode]) := by
    decide +kernel
  have hcall' : (besideWriters.foldlM (attempt Enabled next)
      (beside (Server.starting 3 true true {0, 1, 2} 0 Database.new))).map
        (fun net => ((net.server.entry 7).map Connection.number,
          net.handled.map Handling.append, visibleTo 2 WriteOnce.empty net.handled)) =
      some (some 2, List.replicate 4 .complete,
        [.stored keyA valueOne, .own (Request.read keyA).encode]) := by
    decide +kernel
  obtain ⟨net, hrun, hview⟩ := Run.of_view hcall
  obtain ⟨net', hrun', hview'⟩ := Run.of_view hcall'
  obtain ⟨hentry, hview⟩ := Prod.mk.inj hview
  obtain ⟨hentry', hview'⟩ := Prod.mk.inj hview'
  obtain ⟨hcomplete, hseen⟩ := Prod.mk.inj hview
  obtain ⟨hcomplete', hseen'⟩ := Prod.mk.inj hview'
  obtain ⟨c, hc, hnumber⟩ := Option.map_eq_some_iff.mp hentry
  obtain ⟨c', hc', hnumber'⟩ := Option.map_eq_some_iff.mp hentry'
  refine ⟨net, net', c, c', hrun, hrun', hc, hc', ?_⟩
  apply nothing_learnt hrun hrun' represents_new represents_new
    (appendsWhole_of_complete hcomplete) (appendsWhole_of_complete hcomplete') hc hc'
  rw [hnumber, hnumber', hseen, hseen']

end

end Network

end EasyKeyDB
