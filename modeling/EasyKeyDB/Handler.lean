import EasyKeyDB.ClientSocket
import EasyKeyDB.Protocol
import EasyKeyDB.Response

/-!
# `Handler::parse_request`

The function itself (`parseRequest`), with its reads, its early returns and its
`catch`, and its specification over chunked sources (`parseRequest_run`): what
it does is a function of the unread bytes of the connection, namely what
`parse` makes of them, and of the database.
-/

namespace EasyKeyDB

open ByteBuffer Throwing

/-- What `parse_request` works on: the handler's database and the socket. -/
structure HandlerState (σ : Type) where
  database : Database
  socket : ClientSocket σ

/-- Code of the handler: it changes the state and may throw out of a read. -/
abbrev HandlerM (σ α : Type) := EStateM EmptyBufferException (HandlerState σ) α

section Program

variable {σ : Type} [SourceTrigger σ]

def reading {α : Type} (read : ReadM σ α) : HandlerM σ α := fun s =>
  match read s.socket.readBuffer with
  | .ok a b => .ok a { s with socket := { s.socket with readBuffer := b } }
  | .error e b => .error e { s with socket := { s.socket with readBuffer := b } }

/-- `const auto response = write_dynamic_content(status, text);`
`socket.write(response.data(), response.size(), false);` -/
def reply (status : ResponseStatus) (text : List UInt8) : HandlerM σ Unit := do
  let response := writeDynamicContent status text
  modify fun s =>
    { s with socket := s.socket.write response (UInt32.ofNat response.length) false }

/-- The two writes of the zero-copy reply. -/
def replyStored (value : FileStorage) : HandlerM σ Unit := do
  modify fun s => { s with socket := s.socket.write successHeader 7 true }
  modify fun s =>
    let file := s.database.openedFiles value.file
    { s with socket := s.socket.writeFile file value.offset value.size }

/-- The write operation, from the size of the second message on. `append` is the
outcome of the append that `database.write` makes. -/
def writeOperation (append : IoResult) (firstMessage : List UInt8) : HandlerM σ Unit := do
  let secondMessageSize ← reading getInteger4
  let secondMessage ← reading (getNext secondMessageSize.toNat)
  modify fun s =>
    { s with database := s.database.write firstMessage secondMessage append }
  reply .ok (keyWritten firstMessage)

/-- From the size of the first message on. -/
def messagesBlock (append : IoResult) (messages : UInt8) : HandlerM σ Unit := do
  let firstMessageSize ← reading getInteger4
  let firstMessage ← reading (getNext firstMessageSize.toNat)
  if !isKeyValid firstMessage then
    reply .clientError (keyNotValid firstMessage)
  else if messages = 1 then
    let s ← get
    match s.database.read firstMessage with
    | none => reply .clientError (keyNotFound firstMessage)
    | some value => replyStored value
  else
    writeOperation append firstMessage

/-- The block under `try`. -/
def requestBlock (append : IoResult) : HandlerM σ Unit := do
  let protocol ← reading getInteger1
  if protocol ≠ v1 then
    reply .clientError onlyFirstVersion
  else
    let messages ← reading getInteger1
    if messages ≠ 1 ∧ messages ≠ 2 then
      reply .clientError oneOrTwoMessages
    else
      messagesBlock append messages

/-- `Handler::parse_request`. -/
def parseRequest (append : IoResult) : HandlerM σ Unit :=
  tryCatch (requestBlock append) fun _ => reply .clientError doesNotFollow

end Program

/-! ## What a request asks for -/

def textCalls (status : ResponseStatus) (text : List UInt8) : List SocketCall :=
  [.send (textReply status text) false]

theorem sentBytes_textCalls (status : ResponseStatus) (text : List UInt8) :
    sentBytes (textCalls status text) = textReply status text :=
  List.append_nil _

def storedCalls (db : Database) (value : FileStorage) : List SocketCall :=
  [.send successHeader true, .sendfile (db.range value)]

def readCalls (db : Database) (key : List UInt8) : List SocketCall :=
  match db.read key with
  | none => textCalls .clientError (keyNotFound key)
  | some value => storedCalls db value

namespace Parsed

def database (append : IoResult) (db : Database) : Parsed → Database
  | write key value _ => db.write key value append
  | _ => db

def calls (db : Database) : Parsed → List SocketCall
  | unsupportedVersion _ => textCalls .clientError onlyFirstVersion
  | invalidCount _ => textCalls .clientError oneOrTwoMessages
  | invalidKey key _ => textCalls .clientError (keyNotValid key)
  | read key _ => readCalls db key
  | write key _ _ => textCalls .ok (keyWritten key)
  | truncated _ => textCalls .clientError doesNotFollow

end Parsed

/-- What handling leaves in a buffer: after a request that came to its end, the
bytes behind it; after one that did not, whatever had been queued, the empty
result being used up. -/
def LeftBehind (p : Parsed) (b b' : ByteBuffer Chunks) : Prop :=
  if p.isTruncated then b' = ⟨p.rest, b.later⟩
  else b'.unread = p.rest ∧ b'.later = b.later

/-- With nothing to come, handling leaves exactly what was not read. -/
theorem LeftBehind.unread_eq {p : Parsed} {b b' : ByteBuffer Chunks}
    (h : LeftBehind p b b') (hlater : b.later = []) :
    b'.unread = p.rest ∧ b'.later = [] := by
  unfold LeftBehind at h
  by_cases htruncated : p.isTruncated = true
  · rw [if_pos htruncated, hlater] at h
    subst h
    exact ⟨List.append_nil _, rfl⟩
  · rw [if_neg htruncated, hlater] at h
    exact h

/-! ## The specification -/

section Specification

variable {append : IoResult} {db : Database} {socket : ClientSocket Chunks}

def withBuffer (db : Database) (socket : ClientSocket Chunks) (b : ByteBuffer Chunks) :
    HandlerState Chunks :=
  ⟨db, { socket with readBuffer := b }⟩

theorem reading_ok {α : Type} {read : ReadM Chunks α} {a : α} {b b' : ByteBuffer Chunks}
    (h : read b = .ok a b') :
    reading read (withBuffer db socket b) = .ok a (withBuffer db socket b') := by
  simp only [reading, withBuffer, h]

theorem reading_error {α : Type} {read : ReadM Chunks α} {e : EmptyBufferException}
    {b b' : ByteBuffer Chunks} (h : read b = .error e b') :
    reading read (withBuffer db socket b) = .error e (withBuffer db socket b') := by
  simp only [reading, withBuffer, h]

def replied (db : Database) (socket : ClientSocket Chunks) (b : ByteBuffer Chunks)
    (calls : List SocketCall) : HandlerState Chunks :=
  ⟨db, { socket with readBuffer := b, sent := socket.sent ++ calls }⟩

theorem reply_run (status : ResponseStatus) (text : List UInt8) (b : ByteBuffer Chunks) :
    reply status text (withBuffer db socket b) =
      .ok () (replied db socket b (textCalls status text)) := rfl

theorem replyStored_run (value : FileStorage) (b : ByteBuffer Chunks) :
    replyStored value (withBuffer db socket b) =
      .ok () (replied db socket b (storedCalls db value)) := by
  show EStateM.Result.ok () _ = _
  simp only [withBuffer, replied, storedCalls, ClientSocket.write,
    ClientSocket.writeFile, List.append_assoc]
  rfl

/-- What the block comes to: a reply, or an exception with the buffer run
dry. -/
def BlockRun (append : IoResult) (db : Database) (socket : ClientSocket Chunks)
    (b : ByteBuffer Chunks) (p : Parsed) (block : HandlerM Chunks Unit) : Prop :=
  if p.isTruncated then
    ∃ e, block (withBuffer db socket b) =
      .error e (withBuffer db socket ⟨p.rest, b.later⟩)
  else
    ∃ b', b'.unread = p.rest ∧ b'.later = b.later ∧
      block (withBuffer db socket b) =
        .ok () (replied (p.database append db) socket b' (p.calls db))

theorem BlockRun.of_eq {b b' : ByteBuffer Chunks} {p : Parsed}
    {block block' : HandlerM Chunks Unit} (h : BlockRun append db socket b' p block')
    (heq : block (withBuffer db socket b) = block' (withBuffer db socket b'))
    (hlater : b'.later = b.later) : BlockRun append db socket b p block := by
  unfold BlockRun at h ⊢
  rw [heq, ← hlater]
  exact h

theorem writeOperation_run (key : List UInt8) (b : ByteBuffer Chunks) :
    BlockRun append db socket b (parseValue key b.unread) (writeOperation append key) := by
  unfold parseValue
  cases hfield : LittleEndian.readField 4 b.unread with
  | error rest =>
      rcases readField_error hfield with ⟨e, hsize⟩ | ⟨n, b₁, e, hsize, hnext⟩
      · exact ⟨e, bind_error (reading_error hsize)⟩
      · refine ⟨e, ?_⟩
        rw [writeOperation, bind_ok (reading_ok hsize), bind_error (reading_error hnext)]
        rfl
  | ok message =>
      obtain ⟨value, rest⟩ := message
      obtain ⟨n, b₁, b₂, hsize, hnext, hunread, hlater⟩ := readField_ok hfield
      refine ⟨b₂, hunread, hlater, ?_⟩
      rw [writeOperation, bind_ok (reading_ok hsize), bind_ok (reading_ok hnext)]
      rfl

theorem messagesBlock_run {messages : UInt8} (b : ByteBuffer Chunks) :
    BlockRun append db socket b (parseMessages messages b.unread)
      (messagesBlock append messages) := by
  unfold parseMessages
  cases hfield : LittleEndian.readField 4 b.unread with
  | error rest =>
      rcases readField_error hfield with ⟨e, hsize⟩ | ⟨n, b₁, e, hsize, hnext⟩
      · exact ⟨e, bind_error (reading_error hsize)⟩
      · refine ⟨e, ?_⟩
        rw [messagesBlock, bind_ok (reading_ok hsize), bind_error (reading_error hnext)]
        rfl
  | ok message =>
      obtain ⟨key, rest⟩ := message
      obtain ⟨n, b₁, b₂, hsize, hnext, hunread, hlater⟩ := readField_ok hfield
      -- Once the key has been read the rest does not depend on how it came.
      have hreads : messagesBlock append messages (withBuffer db socket b) =
          (do
            if !isKeyValid key then
              reply .clientError (keyNotValid key)
            else if messages = 1 then
              let s ← get
              match s.database.read key with
              | none => reply .clientError (keyNotFound key)
              | some value => replyStored value
            else
              writeOperation append key : HandlerM Chunks Unit)
            (withBuffer db socket b₂) := by
        rw [messagesBlock, bind_ok (reading_ok hsize), bind_ok (reading_ok hnext)]
      refine BlockRun.of_eq ?_ hreads hlater
      by_cases hvalid : isKeyValid key = true
      · simp only [hvalid, if_true, Bool.not_true, Bool.false_eq_true, if_false]
        by_cases hone : messages = 1
        · simp only [hone, if_true]
          refine ⟨b₂, hunread, rfl, ?_⟩
          show (match db.read key with
            | none => reply .clientError (keyNotFound key)
            | some value => replyStored value) (withBuffer db socket b₂) = _
          cases hread : db.read key with
          | none => simp only [Parsed.calls, readCalls, hread, reply_run]; rfl
          | some value =>
              simp only [Parsed.calls, readCalls, hread, replyStored_run]; rfl
        · simp only [hone, if_false, ← hunread]
          exact writeOperation_run key b₂
      · simp only [hvalid, Bool.not_false, if_true, Bool.false_eq_true, if_false]
        exact ⟨b₂, hunread, rfl, reply_run _ _ b₂⟩

theorem requestBlock_run (b : ByteBuffer Chunks) :
    BlockRun append db socket b (parse b.unread) (requestBlock append) := by
  rcases parse_cases b.unread with ⟨rest, hparse, version, hversion, hs⟩ |
    ⟨rest, hparse, messages, hone, htwo, hs⟩ | ⟨hparse, hs⟩ |
    ⟨messages, t, hcount, hs, hparse⟩
  · obtain ⟨b₁, hread, hunread, hlater⟩ := getInteger1_ok hs
    rw [hparse]
    refine ⟨b₁, hunread, hlater, ?_⟩
    rw [requestBlock, bind_ok (reading_ok hread), if_pos hversion]
    exact reply_run _ _ b₁
  · obtain ⟨b₁, hread, hunread, hlater⟩ := getInteger1_ok hs
    obtain ⟨b₂, hread₂, hunread₂, hlater₂⟩ := getInteger1_ok hunread
    rw [hparse]
    refine ⟨b₂, hunread₂, hlater₂.trans hlater, ?_⟩
    rw [requestBlock, bind_ok (reading_ok hread), if_neg (by simp),
      bind_ok (reading_ok hread₂), if_pos ⟨hone, htwo⟩]
    exact reply_run _ _ b₂
  · rw [hparse]
    rcases hs with hs | hs
    · exact ⟨_, bind_error (reading_error (getInteger1_error hs))⟩
    · obtain ⟨b₁, hread, hunread, hlater⟩ := getInteger1_ok hs
      refine ⟨requestExceeds 0 1, ?_⟩
      rw [requestBlock, bind_ok (reading_ok hread), if_neg (by simp),
        bind_error (reading_error (getInteger1_error hunread)), hlater]
      rfl
  · obtain ⟨b₁, hread, hunread, hlater⟩ := getInteger1_ok hs
    obtain ⟨b₂, hread₂, hunread₂, hlater₂⟩ := getInteger1_ok hunread
    have hboth : ¬ (messages ≠ 1 ∧ messages ≠ 2) := by tauto
    rw [hparse, ← hunread₂]
    apply (messagesBlock_run b₂).of_eq _ (hlater₂.trans hlater)
    rw [requestBlock, bind_ok (reading_ok hread), if_neg (by simp),
      bind_ok (reading_ok hread₂), if_neg hboth]

/-- **`parse_request` over chunks.** No exception leaves the call; the database,
the calls on the socket and the bytes left behind are what `parse` makes of the
unread bytes. -/
theorem parseRequest_run (append : IoResult) (db : Database)
    (socket : ClientSocket Chunks) :
    ∃ b', LeftBehind (parse socket.readBuffer.unread) socket.readBuffer b' ∧
      parseRequest append ⟨db, socket⟩ =
        .ok () (replied ((parse socket.readBuffer.unread).database append db) socket b'
          ((parse socket.readBuffer.unread).calls db)) := by
  have hblock : BlockRun append db socket socket.readBuffer _ (requestBlock append) :=
    requestBlock_run socket.readBuffer
  generalize parse socket.readBuffer.unread = p at hblock ⊢
  unfold BlockRun at hblock
  unfold LeftBehind
  cases p with
  | truncated rest =>
      obtain ⟨e, herror⟩ := hblock
      refine ⟨⟨rest, socket.readBuffer.later⟩, rfl, ?_⟩
      have hcatch : parseRequest append ⟨db, socket⟩ = _ := catch_error herror
      rw [hcatch]
      rfl
  | _ =>
      obtain ⟨b', hunread, hlater, hok⟩ := hblock
      exact ⟨b', ⟨hunread, hlater⟩, catch_ok hok⟩

end Specification

end EasyKeyDB
