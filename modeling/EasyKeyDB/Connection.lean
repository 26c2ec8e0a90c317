import EasyKeyDB.Serving

/-!
# One connection and its readable events

`Server::handle_request` calls the message callback, which is `parse_request`,
once for each readable event. Between events bytes pile up in the kernel, and
while one is handled more may come in; a read returns any part of what is there
(`Receives`), and returns nothing once the read timeout expires with nothing
there.

An edge-triggered descriptor reports an event when bytes have arrived since the
last report (`EdgeTriggered`). What the handling leaves unread causes no event.
-/

namespace EasyKeyDB

open ByteBuffer

namespace ClientSocket

/-- `last_seen` and `iterations` on an event. -/
def seen {σ : Type} (socket : ClientSocket σ) (now : UInt64) : ClientSocket σ :=
  { socket with lastSeen := now, iterations := socket.iterations + 1 }

/-- `bytes` more bytes are there for the reads to come, which return them in
any pieces. -/
inductive Receives (socket : ClientSocket Chunks) (bytes : List UInt8) :
    ClientSocket Chunks → Prop
  | cut {chunks : Chunks} : [] ∉ chunks →
      chunks.flatten = arriving socket.readBuffer.source ++ bytes →
      Receives socket bytes
        { socket with readBuffer := { socket.readBuffer with source := chunks } }

variable {socket socket' : ClientSocket Chunks} {bytes : List UInt8}

theorem Receives.unread (h : Receives socket bytes socket') :
    socket'.readBuffer.unread = socket.readBuffer.unread ++ bytes := by
  rcases h with ⟨hchunks, hflatten⟩
  show socket.readBuffer.buffer ++ arriving _ = _
  rw [arriving_eq_flatten hchunks, hflatten, ← List.append_assoc]
  rfl

theorem Receives.later (h : Receives socket bytes socket') :
    socket'.readBuffer.later = [] := by
  rcases h with ⟨hchunks, -⟩
  exact afterEmpty_eq_nil hchunks

theorem Receives.sent (h : Receives socket bytes socket') : socket'.sent = socket.sent := by
  rcases h with ⟨-, -⟩
  rfl

theorem receives_exists (socket : ClientSocket Chunks) (bytes : List UInt8) :
    ∃ socket', Receives socket bytes socket' := by
  by_cases h : arriving socket.readBuffer.source ++ bytes = []
  · exact ⟨_, .cut List.not_mem_nil h.symm⟩
  · have hchunks : [] ∉ [arriving socket.readBuffer.source ++ bytes] := by
      simpa using Ne.symm h
    exact ⟨_, .cut hchunks List.flatten_singleton⟩

end ClientSocket

/-- `Server::handle_request`, with the callback that `main` installs. -/
def handleRequest {σ : Type} [SourceTrigger σ] (now : UInt64) (append : IoResult) :
    HandlerM σ Unit := do
  modify fun s => { s with socket := s.socket.seen now }
  parseRequest append

/-- A readable event: the bytes that arrived since the last report, those that
arrive while it is handled, the time, and the outcome of the append if there is
one. -/
structure Round where
  before : List UInt8
  during : List UInt8
  now : UInt64
  append : IoResult
deriving DecidableEq

def Round.bytes (r : Round) : List UInt8 := r.before ++ r.during

def delivered (rounds : List Round) : List UInt8 := rounds.flatMap Round.bytes

theorem delivered_append (rounds more : List Round) :
    delivered (rounds ++ more) = delivered rounds ++ delivered more :=
  List.flatMap_append

@[simp] theorem delivered_singleton (r : Round) : delivered [r] = r.bytes :=
  List.append_nil _

/-- Each event has something new to report, and whatever arrives while one is
handled is reported by the next. -/
def EdgeTriggered (rounds : List Round) : Prop :=
  (∀ r post, rounds = r :: post → r.before ≠ []) ∧
  (∀ pre r r' post, rounds = pre ++ r :: r' :: post → r.during ++ r'.before ≠ []) ∧
  ∀ pre r, rounds = pre ++ [r] → r.during = []

inductive Handled (s : HandlerState Chunks) (r : Round) : HandlerState Chunks → Prop
  | call {socket : ClientSocket Chunks} {s' : HandlerState Chunks} :
      s.socket.Receives r.bytes socket →
      handleRequest r.now r.append ⟨s.database, socket⟩ = .ok () s' →
      Handled s r s'

def announcing (bytes : List UInt8) : Round := ⟨bytes, [], 0, .complete⟩

def newConnection (db : Database) (fd : Int) (now : UInt64) : HandlerState Chunks :=
  ⟨db, ClientSocket.new fd now []⟩

/-- What is sent when the reads come back empty. -/
def complaint : SocketCall := .send (textReply .clientError doesNotFollow) false

/-- No request is answered with a complaint. -/
theorem complaint_notMem_answer (q : Request) (db : Database) :
    complaint ∉ q.answer db := by
  have hshort : textReply .clientError doesNotFollow = frame .clientError doesNotFollow :=
    textReply_of_lt (by decide)
  intro hmem
  cases q with
  | write key value =>
      have hsame := List.mem_singleton.mp hmem
      rw [complaint, hshort, SocketCall.send.injEq] at hsame
      cases (textReply_eq_frame hsame.1.symm).1
  | read key =>
      unfold Request.answer readCalls at hmem
      cases hread : db.read key.bytes with
      | none =>
          simp only [hread] at hmem
          have hsame := List.mem_singleton.mp hmem
          rw [complaint, hshort, SocketCall.send.injEq] at hsame
          obtain ⟨rest, hrest⟩ := (textReply_eq_frame hsame.1.symm).2
          -- One text begins with M, the other with T.
          have hletter : (77 : UInt8) = 84 := (List.cons.inj hrest).1
          exact absurd hletter (by decide)
      | some storage =>
          simp only [hread] at hmem
          rcases List.mem_pair.mp hmem with hsame | hsame
          · cases hsame
          · cases hsame

section

variable {s s' : HandlerState Chunks} {r : Round}

theorem Handled.spec (h : Handled s r s') :
    ∃ p, p = parse (s.socket.readBuffer.unread ++ r.bytes) ∧
      s'.database = p.database r.append s.database ∧
      s'.socket.sent = s.socket.sent ++ p.calls s.database ∧
      s'.socket.readBuffer.unread = p.rest := by
  rcases h with ⟨hreceives, hrun⟩
  rename_i socket
  obtain ⟨b', hleft, hspec⟩ := parseRequest_run r.append s.database (socket.seen r.now)
  have hunread : (socket.seen r.now).readBuffer.unread =
      s.socket.readBuffer.unread ++ r.bytes := hreceives.unread
  have hsent : (socket.seen r.now).sent = s.socket.sent := hreceives.sent
  have hstart : handleRequest r.now r.append ⟨s.database, socket⟩ =
      parseRequest r.append ⟨s.database, socket.seen r.now⟩ := rfl
  rw [hstart, hspec] at hrun
  obtain rfl := (EStateM.Result.ok.inj hrun).2
  refine ⟨_, rfl, ?_⟩
  rw [← hunread, ← hsent]
  exact ⟨rfl, rfl, (hleft.unread_eq hreceives.later).1⟩

theorem event_exists (s : HandlerState Chunks) (r : Round) : ∃ s', Handled s r s' := by
  obtain ⟨socket, hreceives⟩ := s.socket.receives_exists r.bytes
  obtain ⟨b', -, hspec⟩ := parseRequest_run r.append s.database (socket.seen r.now)
  exact ⟨_, .call hreceives hspec⟩

theorem Handled.served (h : Handled s r s') {q : Request} {t : List UInt8}
    (hq : s.socket.readBuffer.unread ++ r.bytes = q.encode ++ t) :
    s'.database = s.database.call (q.call r.append) ∧
      s'.socket.sent = s.socket.sent ++ q.answer s.database ∧
      s'.socket.readBuffer.unread = t := by
  obtain ⟨p, hp, hdb, hsent, hrest⟩ := h.spec
  rw [hq, parse_encode] at hp
  subst hp
  cases q with
  | read key => exact ⟨hdb, hsent, hrest⟩
  | write key value => exact ⟨hdb, hsent, hrest⟩

theorem Handled.complains (h : Handled s r s')
    (hcut : (parse (s.socket.readBuffer.unread ++ r.bytes)).isTruncated = true) :
    s'.database = s.database ∧ s'.socket.sent = s.socket.sent ++ [complaint] := by
  obtain ⟨p, rfl, hdb, hsent, -⟩ := h.spec
  cases hparse : parse (s.socket.readBuffer.unread ++ r.bytes) with
  | truncated rest =>
      rw [hparse] at hdb hsent
      exact ⟨hdb, hsent⟩
  | _ =>
      rw [hparse] at hcut
      cases hcut

theorem Handled.sent_grows (h : Handled s r s') : s.socket.sent <+: s'.socket.sent := by
  obtain ⟨p, -, -, hsent, -⟩ := h.spec
  exact ⟨_, hsent.symm⟩

theorem sent_grows {rounds : List Round} (h : Run Handled s rounds s') :
    s.socket.sent <+: s'.socket.sent := by
  induction h with
  | nil => exact List.prefix_refl _
  | snoc _ hevent ih => exact ih.trans hevent.sent_grows

end

end EasyKeyDB
