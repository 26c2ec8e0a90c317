import EasyKeyDB.Handler

/-!
# `parse_request` and the request grammar

Which streams `parse_request` takes for a request, what it does with them and
what it answers, for every cut of the stream into chunks. A reply counts as a
response when the bytes handed to the socket are one frame; for that the text
of the reply must fit, which only very long keys prevent.
-/

namespace EasyKeyDB

open LittleEndian ByteBuffer

/-- Between the two states the socket was handed exactly one response, with
this status. -/
def Answered (before after : ClientSocket Chunks) (status : ResponseStatus) : Prop :=
  ∃ calls body, after.sent = before.sent ++ calls ∧
    IsResponse status body (sentBytes calls)

/-- What a call of `parse_request` on `socket`, ending in `after`, has to
satisfy: the unread bytes decide, by the grammar of version 1 requests. -/
structure FollowsGrammar (append : IoResult) (db : Database)
    (socket : ClientSocket Chunks) (after : HandlerState Chunks) : Prop where
  write : ∀ (k : Key) (v : Value) t,
    socket.readBuffer.unread = (Request.write k v).encode ++ t →
      after.database = db.write k.bytes v.bytes append ∧
      Answered socket after.socket .ok ∧
      after.socket.readBuffer.unread = t ∧
      after.socket.readBuffer.later = socket.readBuffer.later
  read : ∀ (k : Key) t, socket.readBuffer.unread = (Request.read k).encode ++ t →
      after.database = db ∧
      (match db.read k.bytes with
        | some value => after.socket.sent = socket.sent ++ storedCalls db value
        | none => Answered socket after.socket .clientError) ∧
      after.socket.readBuffer.unread = t ∧
      after.socket.readBuffer.later = socket.readBuffer.later
  other : (∀ (q : Request) t, socket.readBuffer.unread ≠ q.encode ++ t) →
      after.database = db ∧ Answered socket after.socket .clientError

/-- No text that answers the stream is cut on its way to the socket. The
numbers are the lengths of the texts around the key. -/
def ReplyFits (db : Database) (s : List UInt8) : Prop :=
  (∀ (k : Key) (v : Value) t, s = (Request.write k v).encode ++ t →
    Fits (k.bytes.length + 35)) ∧
  (∀ (k : Key) t, s = (Request.read k).encode ++ t → db.read k.bytes = none →
    Fits (k.bytes.length + 23)) ∧
  (∀ messages key t, (messages = 1 ∨ messages = 2) →
    s = [v1, messages] ++ field 4 key ++ t → key.length < 2 ^ 32 →
    isKeyValid key = false → Fits (key.length + 45))

theorem answered_text_iff {status : ResponseStatus} {text : List UInt8}
    {before after : ClientSocket Chunks}
    (hsent : after.sent = before.sent ++ textCalls status text) :
    Answered before after status ↔ Fits text.length := by
  constructor
  · rintro ⟨calls, body, hcalls, hresponse⟩
    rw [hsent, List.append_cancel_left_eq] at hcalls
    rw [← hcalls, sentBytes_textCalls] at hresponse
    exact isResponse_text_iff.mp ⟨_, _, hresponse⟩
  · intro hfits
    refine ⟨_, text.take (text.length % 2 ^ 32), hsent, ?_⟩
    rw [sentBytes_textCalls]
    exact isResponse_textReply hfits

theorem fits_doesNotFollow : Fits doesNotFollow.length := by decide

theorem fits_onlyFirstVersion : Fits onlyFirstVersion.length := by decide

theorem fits_oneOrTwoMessages : Fits oneOrTwoMessages.length := by decide

section

variable {append : IoResult} {db : Database} {socket : ClientSocket Chunks}
  {b' : ByteBuffer Chunks}

/-- The state in which `parse_request` ends, given the buffer it leaves. -/
def afterRequest (append : IoResult) (db : Database) (socket : ClientSocket Chunks)
    (b' : ByteBuffer Chunks) : HandlerState Chunks :=
  replied ((parse socket.readBuffer.unread).database append db) socket b'
    ((parse socket.readBuffer.unread).calls db)

theorem fits_of_write {k : Key} {v : Value} {t : List UInt8}
    (hs : socket.readBuffer.unread = (Request.write k v).encode ++ t)
    (h : FollowsGrammar append db socket (afterRequest append db socket b')) :
    Fits (k.bytes.length + 35) := by
  have hanswer := (h.write k v t hs).2.1
  have hsent : (afterRequest append db socket b').socket.sent =
      socket.sent ++ textCalls .ok (keyWritten k.bytes) := by
    rw [afterRequest, hs, parse_encode]
    rfl
  rwa [answered_text_iff hsent, length_keyWritten] at hanswer

theorem fits_of_read {k : Key} {t : List UInt8}
    (hs : socket.readBuffer.unread = (Request.read k).encode ++ t)
    (hfresh : db.read k.bytes = none)
    (h : FollowsGrammar append db socket (afterRequest append db socket b')) :
    Fits (k.bytes.length + 23) := by
  have hanswer := (h.read k t hs).2.1
  rw [hfresh] at hanswer
  have hsent : (afterRequest append db socket b').socket.sent =
      socket.sent ++ textCalls .clientError (keyNotFound k.bytes) := by
    rw [afterRequest, hs, parse_encode]
    simp only [replied, Request.parsed, Parsed.calls, readCalls, hfresh]
  rwa [answered_text_iff hsent, length_keyNotFound] at hanswer

theorem fits_of_invalidKey {messages : UInt8} {key t : List UInt8}
    (hcount : messages = 1 ∨ messages = 2)
    (hs : socket.readBuffer.unread = [v1, messages] ++ field 4 key ++ t)
    (hshort : key.length < 2 ^ 32) (hkey : isKeyValid key = false)
    (h : FollowsGrammar append db socket (afterRequest append db socket b')) :
    Fits (key.length + 45) := by
  have hparse := parse_invalidKey (t := t) hcount hshort hkey
  rw [← hs] at hparse
  have hother : ∀ (q : Request) t, socket.readBuffer.unread ≠ q.encode ++ t := by
    intro q t' hq
    rw [hq, parse_encode] at hparse
    cases q <;> cases hparse
  have hanswer := (h.other hother).2
  have hsent : (afterRequest append db socket b').socket.sent =
      socket.sent ++ textCalls .clientError (keyNotValid key) := by
    rw [afterRequest, hparse]
    rfl
  rwa [answered_text_iff hsent, length_keyNotValid] at hanswer

theorem rejected_of_fits
    (hinvalid : ∀ messages key t, (messages = 1 ∨ messages = 2) →
      socket.readBuffer.unread = [v1, messages] ++ field 4 key ++ t → key.length < 2 ^ 32 →
      isKeyValid key = false → Fits (key.length + 45))
    (hother : ∀ (q : Request) t, socket.readBuffer.unread ≠ q.encode ++ t) :
    (afterRequest append db socket b').database = db ∧
      Answered socket (afterRequest append db socket b').socket .clientError := by
  obtain ⟨hnoread, hnowrite⟩ := parse_of_not_request hother
  have hsound := parse_sound socket.readBuffer.unread
  have hsent : (afterRequest append db socket b').socket.sent = socket.sent ++
      (parse socket.readBuffer.unread).calls db := rfl
  have hdb : (afterRequest append db socket b').database =
      (parse socket.readBuffer.unread).database append db := rfl
  cases hparse : parse socket.readBuffer.unread with
  | read key rest => exact absurd hparse (hnoread key rest)
  | write key value rest => exact absurd hparse (hnowrite key value rest)
  | unsupportedVersion rest =>
      rw [hparse] at hsent hdb
      exact ⟨hdb, (answered_text_iff hsent).mpr fits_onlyFirstVersion⟩
  | invalidCount rest =>
      rw [hparse] at hsent hdb
      exact ⟨hdb, (answered_text_iff hsent).mpr fits_oneOrTwoMessages⟩
  | truncated rest =>
      rw [hparse] at hsent hdb
      exact ⟨hdb, (answered_text_iff hsent).mpr fits_doesNotFollow⟩
  | invalidKey key rest =>
      -- The one text of these whose length depends on the request.
      rw [hparse] at hsent hdb hsound
      obtain ⟨messages, hcount, hs, hshort, hkey⟩ := hsound
      have hfit := hinvalid messages key rest hcount hs hshort hkey
      rw [← length_keyNotValid] at hfit
      exact ⟨hdb, (answered_text_iff hsent).mpr hfit⟩

theorem followsGrammar_of_fits
    (hleft : LeftBehind (parse socket.readBuffer.unread) socket.readBuffer b')
    (hfits : ReplyFits db socket.readBuffer.unread) :
    FollowsGrammar append db socket (afterRequest append db socket b') := by
  obtain ⟨hwrite, hread, hinvalid⟩ := hfits
  refine ⟨?_, ?_, ?_⟩
  · intro k v t hs
    rw [hs, parse_encode] at hleft
    have hfit := hwrite k v t hs
    rw [← length_keyWritten] at hfit
    refine ⟨?_, (answered_text_iff ?_).mpr hfit, hleft.1, hleft.2⟩ <;>
      rw [afterRequest, hs, parse_encode] <;> rfl
  · intro k t hs
    rw [hs, parse_encode] at hleft
    refine ⟨?_, ?_, hleft.1, hleft.2⟩
    · rw [afterRequest, hs, parse_encode]
      rfl
    · have hsent : (afterRequest append db socket b').socket.sent =
          socket.sent ++ readCalls db k.bytes := by
        rw [afterRequest, hs, parse_encode]
        rfl
      unfold readCalls at hsent
      cases hfind : db.read k.bytes with
      | some value => simpa only [hfind] using hsent
      | none =>
          have hfit := hread k t hs hfind
          rw [← length_keyNotFound] at hfit
          rw [hfind] at hsent
          exact (answered_text_iff hsent).mpr hfit
  · exact rejected_of_fits hinvalid

end

/-- **`parse_request` follows the grammar**, on every stream and for every cut
of it into chunks, exactly when no text that answers the stream is cut. -/
theorem parseRequest_grammar (append : IoResult) (db : Database)
    (socket : ClientSocket Chunks) :
    (∃ after, parseRequest append ⟨db, socket⟩ = .ok () after ∧
      FollowsGrammar append db socket after) ↔
      ReplyFits db socket.readBuffer.unread := by
  obtain ⟨b', hleft, hrun⟩ := parseRequest_run append db socket
  constructor
  · rintro ⟨after, hafter, hfollows⟩
    rw [hrun] at hafter
    obtain rfl : afterRequest append db socket b' = after := by
      injection hafter
    refine ⟨?_, ?_, ?_⟩
    · intro k v t hs
      exact fits_of_write hs hfollows
    · intro k t hs hfresh
      exact fits_of_read hs hfresh hfollows
    · intro messages key t hcount hs hshort hkey
      exact fits_of_invalidKey hcount hs hshort hkey hfollows
  · intro hfits
    exact ⟨_, hrun, followsGrammar_of_fits hleft hfits⟩

/-! ## A key of almost 4 GiB -/

theorem isKeyValid_replicate {n : Nat} (hn : n ≠ 0) :
    isKeyValid (List.replicate n 97) = true := by
  rw [isKeyValid_iff]
  refine ⟨by simpa using hn, ?_⟩
  intro ch hch
  rw [List.eq_of_mem_replicate hch]
  decide

def repeatedKey (n : Nat) (hn : n ≠ 0) (hshort : n < 2 ^ 32) : Key where
  bytes := List.replicate n 97
  valid := isKeyValid_replicate hn
  short := by rwa [List.length_replicate]

theorem length_repeatedKey (n : Nat) (hn : n ≠ 0) (hshort : n < 2 ^ 32) :
    (repeatedKey n hn hshort).bytes.length = n :=
  List.length_replicate

/-- A key whose acknowledgement is exactly 2 ^ 32 bytes long. -/
def wrappingKey : Key := repeatedKey (2 ^ 32 - 46) (by decide) (by decide)

/-- A connection with these bytes queued and nothing behind them. -/
def connectionWith (s : List UInt8) : ClientSocket Chunks :=
  { ClientSocket.new 5 0 ([] : Chunks) with readBuffer := ⟨s, []⟩ }

@[simp] theorem unread_connectionWith (s : List UInt8) :
    (connectionWith s).readBuffer.unread = s :=
  List.append_nil s

theorem not_fits_wrappingKey : ¬ Fits (wrappingKey.bytes.length + 35) := by
  rw [wrappingKey, length_repeatedKey, Fits]
  omega

theorem write_not_answered (db : Database) (k : Key) (v : Value)
    (hlong : ¬ Fits (k.bytes.length + 35)) :
    ¬ ∃ after, parseRequest .complete ⟨db, connectionWith (Request.write k v).encode⟩
          = .ok () after ∧
        FollowsGrammar .complete db (connectionWith (Request.write k v).encode) after := by
  rintro ⟨after, hafter, hfollows⟩
  obtain ⟨b', -, hrun⟩ := parseRequest_run .complete db
    (connectionWith (Request.write k v).encode)
  rw [hrun] at hafter
  obtain rfl : afterRequest .complete db _ b' = after := by
    injection hafter
  have hunread : (connectionWith (Request.write k v).encode).readBuffer.unread =
      (Request.write k v).encode ++ [] := rfl
  exact hlong (fits_of_write hunread hfollows)

/-- No byte is sent in answer to the write of an empty value under
`wrappingKey`. -/
theorem wrappingKey_not_answered :
    ¬ ∃ after, parseRequest .complete
        ⟨Database.new, connectionWith (Request.write wrappingKey ⟨[], by decide⟩).encode⟩
          = .ok () after ∧
      FollowsGrammar .complete Database.new
        (connectionWith (Request.write wrappingKey ⟨[], by decide⟩).encode) after :=
  write_not_answered Database.new wrappingKey ⟨[], by decide⟩ not_fits_wrappingKey

end EasyKeyDB
