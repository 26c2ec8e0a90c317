import EasyKeyDB.Grammar
import EasyKeyDB.Serving

/-!
# Packets and what follows them

A packet is framed: a version, a count and as many length-prefixed messages.
`parse_request` reads a packet message by message and returns as soon as it
finds a reason to reject it; the messages behind that point stay on the
connection (`Packet.leftover`, `parse_packet`) and the next call takes them for
the start of a request.

Whatever a leftover consists of, the request behind it is not served: the call
that reads it would have to read the version byte of that request as part of a
key (`six_le_of_parsed`, `version_not_in_key`). So a packet leaves the requests
behind it alone exactly when it is read to its end (`handledAsFresh_iff`).
-/

namespace EasyKeyDB

open LittleEndian ByteBuffer Database

/-- A version 1 packet: any number of messages, of any contents. -/
structure Packet where
  messages : List (List UInt8)
  count : messages.length < 2 ^ 8
  short : ∀ message ∈ messages, message.length < 2 ^ 32

namespace Packet

def encode (p : Packet) : List UInt8 :=
  [v1, UInt8.ofNat p.messages.length] ++ p.messages.flatMap (field 4)

/-- `parse_request` reads the packet to its end. -/
def Delimited (p : Packet) : Prop :=
  match p.messages with
  | [] => True
  | [_] => True
  | [key, _] => isKeyValid key = true
  | _ => False

def unreadMessages (p : Packet) : List (List UInt8) :=
  match p.messages with
  | [] => []
  | [_] => []
  | [key, value] => if isKeyValid key then [] else [value]
  | messages => messages

def leftover (p : Packet) : List UInt8 := p.unreadMessages.flatMap (field 4)

theorem delimited_iff (p : Packet) : p.Delimited ↔ p.unreadMessages = [] := by
  obtain ⟨messages, -, -⟩ := p
  rcases messages with _ | ⟨key, _ | ⟨value, _ | ⟨third, messages⟩⟩⟩ <;>
    simp [Delimited, unreadMessages]

end Packet

/-- What a packet with `s` behind it is read as. -/
def Packet.parsed (p : Packet) (s : List UInt8) : Parsed :=
  match p.messages with
  | [] => .invalidCount s
  | [key] => if isKeyValid key then .read key s else .invalidKey key s
  | [key, value] =>
      if isKeyValid key then .write key value s
      else .invalidKey key (field 4 value ++ s)
  | messages => .invalidCount (messages.flatMap (field 4) ++ s)

theorem parse_packet (p : Packet) (s : List UInt8) :
    parse (p.encode ++ s) = p.parsed s := by
  obtain ⟨messages, hcount, hshort⟩ := p
  rcases messages with _ | ⟨key, _ | ⟨value, _ | ⟨third, messages⟩⟩⟩
  · rfl
  · have hkey := readField_field (w := 4) (hshort key (by simp)) s
    have hencode : Packet.encode ⟨[key], hcount, hshort⟩ ++ s =
        v1 :: 1 :: (field 4 key ++ s) := by
      simp [Packet.encode]
    rw [hencode, parse_messages (Or.inl rfl), parseMessages, hkey]
    rfl
  · have hkey := readField_field (w := 4) (hshort key (by simp)) (field 4 value ++ s)
    have hvalue := readField_field (w := 4) (hshort value (by simp)) s
    have hencode : Packet.encode ⟨[key, value], hcount, hshort⟩ ++ s =
        v1 :: 2 :: (field 4 key ++ (field 4 value ++ s)) := by
      simp [Packet.encode]
    rw [hencode, parse_messages (Or.inr rfl), parseMessages, hkey]
    simp only [parseValue, hvalue]
    rfl
  -- The count is one byte; with at most 255 messages it is none of 1 and 2.
  · have hlength : (key :: value :: third :: messages).length % 2 ^ 8 =
        messages.length + 3 := Nat.mod_eq_of_lt hcount
    have hne : ∀ n : UInt8, n.toNat ≤ 2 →
        UInt8.ofNat (key :: value :: third :: messages).length ≠ n := by
      rintro n hn rfl
      rw [UInt8.toNat_ofNat', hlength] at hn
      omega
    rw [Packet.encode, List.append_assoc]
    exact if_pos ⟨hne 1 (by decide), hne 2 (by decide)⟩

theorem Packet.isTruncated_parsed (p : Packet) (s : List UInt8) :
    (p.parsed s).isTruncated = false := by
  obtain ⟨messages, -, -⟩ := p
  rcases messages with _ | ⟨key, _ | ⟨value, _ | ⟨third, messages⟩⟩⟩
  · rfl
  · by_cases hvalid : isKeyValid key = true <;> simp [parsed, hvalid, Parsed.isTruncated]
  · by_cases hvalid : isKeyValid key = true <;> simp [parsed, hvalid, Parsed.isTruncated]
  · rfl

theorem Packet.rest_parsed (p : Packet) (s : List UInt8) :
    (p.parsed s).rest = p.leftover ++ s := by
  obtain ⟨messages, -, -⟩ := p
  rcases messages with _ | ⟨key, _ | ⟨value, _ | ⟨third, messages⟩⟩⟩
  · rfl
  · by_cases hvalid : isKeyValid key = true <;>
      simp [parsed, leftover, unreadMessages, hvalid, Parsed.rest]
  · by_cases hvalid : isKeyValid key = true <;>
      simp [parsed, leftover, unreadMessages, hvalid, Parsed.rest]
  · rfl

theorem Packet.database_parsed {p : Packet} (hp : p.unreadMessages ≠ [])
    (append : IoResult) (db : Database) (s : List UInt8) :
    (p.parsed s).database append db = db := by
  obtain ⟨messages, hcount, hshort⟩ := p
  rcases messages with _ | ⟨key, _ | ⟨value, _ | ⟨third, messages⟩⟩⟩
  · rfl
  · exact absurd rfl hp
  · by_cases hvalid : isKeyValid key = true
    · exact absurd (if_pos hvalid) hp
    · simp [parsed, hvalid, Parsed.database]
  · rfl

/-! ## The next request -/

/-- The call that led from `before` to `after` served `q`, with `t` behind it,
as it would have been served on a new connection. -/
def AsOnFresh (append : IoResult) (q : Request) (t : List UInt8)
    (before after : HandlerState Chunks) : Prop :=
  ∀ fd now chunks, arriving chunks = q.encode ++ t →
    ∃ fresh, parseRequest append ⟨before.database, ClientSocket.new fd now chunks⟩
        = .ok () fresh ∧
      after.database = fresh.database ∧
      after.socket.sent = before.socket.sent ++ fresh.socket.sent ∧
      after.socket.readBuffer.unread = fresh.socket.readBuffer.unread

/-- Wherever the packet `p` and the request `q` arrive one after the other, `p`
is handled by one call and the next call serves `q` as on a new connection. -/
def HandledAsFresh (p : Packet) (q : Request) : Prop :=
  ∀ db socket t append append',
    socket.readBuffer.unread = p.encode ++ (q.encode ++ t) →
    ∃ between after, parseRequest append ⟨db, socket⟩ = .ok () between ∧
      parseRequest append' between = .ok () after ∧
      AsOnFresh append' q t between after

theorem asOnFresh_iff {append : IoResult} {q : Request} {t : List UInt8}
    {before after : HandlerState Chunks} : AsOnFresh append q t before after ↔
      after.database = before.database.call (q.call append) ∧
      after.socket.sent = before.socket.sent ++ q.answer before.database ∧
      after.socket.readBuffer.unread = t := by
  have hfresh : ∀ fd now chunks, arriving chunks = q.encode ++ t → ∃ b', b'.unread = t ∧
      parseRequest append ⟨before.database, ClientSocket.new fd now chunks⟩ = .ok ()
        (replied (before.database.call (q.call append)) (ClientSocket.new fd now chunks)
          b' (q.answer before.database)) := by
    intro fd now chunks hchunks
    obtain ⟨b', hunread, -, hrun⟩ := parseRequest_complete append before.database
      (show (ClientSocket.new fd now chunks).readBuffer.unread = q.encode ++ t from hchunks)
    exact ⟨b', hunread, hrun⟩
  constructor
  · intro h
    have hchunks : arriving [q.encode ++ t] = q.encode ++ t := by
      cases q <;> simp [Request.encode, arriving]
    obtain ⟨fresh, hrun, hdb, hsent, hunread⟩ := h 0 0 _ hchunks
    obtain ⟨b', ht, hrun'⟩ := hfresh 0 0 _ hchunks
    obtain rfl := Throwing.end_unique hrun' hrun
    exact ⟨hdb, hsent, hunread.trans ht⟩
  · rintro ⟨hdb, hsent, hunread⟩ fd now chunks hchunks
    obtain ⟨b', ht, hrun⟩ := hfresh fd now chunks hchunks
    exact ⟨_, hrun, hdb, hsent, hunread.trans ht.symm⟩

theorem handledAsFresh_of_delimited {p : Packet} (hp : p.Delimited) (q : Request) :
    HandledAsFresh p q := by
  intro db socket t append append' hunread
  obtain ⟨b', hleft, hrun⟩ := parseRequest_run append db socket
  rw [hunread, parse_packet] at hleft hrun
  rw [LeftBehind, p.isTruncated_parsed, p.rest_parsed, Packet.leftover,
    p.delimited_iff.mp hp] at hleft
  have hnext : (replied ((p.parsed (q.encode ++ t)).database append db) socket b'
      ((p.parsed (q.encode ++ t)).calls db)).socket.readBuffer.unread = q.encode ++ t :=
    hleft.1
  obtain ⟨b'', ht, -, hserved⟩ := parseRequest_complete append' _ hnext
  exact ⟨_, _, hrun, hserved, asOnFresh_iff.mpr ⟨rfl, rfl, ht⟩⟩

/-! ## Behind a leftover -/

/-- The first two bytes of a message's frame are a version and a count only if
the message is longer than they are. -/
theorem six_le_of_parsed {message s : List UInt8} {messages : UInt8} {t : List UInt8}
    (hcount : messages ≠ 0) (h : field 4 message ++ s = v1 :: messages :: t) :
    2 ≤ message.length := by
  by_contra hshort
  rcases message with _ | ⟨c, _ | ⟨d, message⟩⟩
  · have hversion := (List.cons.inj h).1
    exact absurd hversion (by decide)
  · have hzero : UInt8.ofNat (1 >>> 8) = messages := (List.cons.inj (List.cons.inj h).2).1
    subst hzero
    exact hcount (by decide)
  · simp at hshort

/-- No valid key extends over the beginning of a request. -/
theorem version_not_in_key {x s key rest : List UInt8} {messages : UInt8} {q : Request}
    (hx : s = x ++ q.encode) (hs : s = [v1, messages] ++ (field 4 key ++ rest))
    (hkey : isKeyValid key = true) (hbegin : 6 ≤ x.length) :
    6 + key.length ≤ x.length := by
  by_contra hinside
  have hversion : s[x.length]? = some v1 := by
    rw [hx]
    cases q <;> simp [Request.encode]
  have hfront : ([v1, messages] ++ encode 4 key.length).length = 6 := by simp
  have hkeyAt : s[x.length]? = key[x.length - 6]? := by
    rw [hs, field, List.append_assoc, ← List.append_assoc, List.getElem?_append_right
      (by rw [hfront]; exact hbegin), hfront, List.getElem?_append_left (by omega)]
  have hmem : v1 ∈ key := List.mem_of_getElem? (hkeyAt.symm.trans hversion)
  have hchar := ((isKeyValid_iff key).mp hkey).2 v1 hmem
  exact absurd hchar (by decide)

theorem six_le_leftover {ms : List (List UInt8)} (hne : ms ≠ []) {s t : List UInt8}
    {messages : UInt8} (hcount : messages ≠ 0)
    (h : ms.flatMap (field 4) ++ s = v1 :: messages :: t) :
    6 ≤ (ms.flatMap (field 4)).length := by
  obtain ⟨message, ms, rfl⟩ := List.exists_cons_of_ne_nil hne
  rw [List.flatMap_cons, List.append_assoc] at h
  have hlong := six_le_of_parsed hcount h
  rw [List.flatMap_cons, List.length_append, length_field]
  omega

theorem write_ne (db : Database) (key data : List UInt8) :
    db.write key data .complete ≠ db := by
  intro h
  have hlength := length_write_complete db key data (bucket key)
  rw [h, if_pos rfl] at hlength
  omega

theorem write_behind_leftover {ms : List (List UInt8)} (hne : ms ≠ []) {k : Key}
    {v : Value} {key value : List UInt8} {db : Database}
    (hparse : parse (ms.flatMap (field 4) ++ (Request.write k v).encode)
      = .write key value []) :
    db.write key value .complete ≠ db.write k.bytes v.bytes .complete := by
  intro hdb
  have hsound := parse_sound (ms.flatMap (field 4) ++ (Request.write k v).encode)
  rw [hparse] at hsound
  obtain ⟨k', v', rfl, rfl, hs⟩ := hsound
  rw [List.append_nil] at hs
  have hbegin : 6 ≤ (ms.flatMap (field 4)).length :=
    six_le_leftover hne (by decide) (hs.trans (List.append_assoc _ _ _))
  have hkey := version_not_in_key rfl (hs.trans (List.append_assoc _ _ _)) k'.valid hbegin
  -- Both writes make the file of the found key longer by the same number of bytes.
  have hvalue : v'.bytes.length = v.bytes.length := by
    have hfound := length_write_complete db k'.bytes v'.bytes (bucket k'.bytes)
    rw [hdb, length_write_complete, if_pos rfl] at hfound
    by_cases hbucket : bucket k.bytes = bucket k'.bytes
    · rw [if_pos hbucket] at hfound
      omega
    · rw [if_neg hbucket] at hfound
      omega
  have hlength := congrArg List.length hs
  rw [List.length_append] at hlength
  simp only [Request.encode, List.length_append, length_field, List.length_cons,
    List.length_nil] at hlength
  omega

/-- A read found behind a leftover would have to have the request in its key. -/
theorem read_behind_leftover {ms : List (List UInt8)} (hne : ms ≠ []) {q : Request}
    {key : List UInt8} :
    parse (ms.flatMap (field 4) ++ q.encode) ≠ .read key [] := by
  intro hparse
  have hsound := parse_sound (ms.flatMap (field 4) ++ q.encode)
  rw [hparse] at hsound
  obtain ⟨k', rfl, hs⟩ := hsound
  rw [List.append_nil] at hs
  have hbegin : 6 ≤ (ms.flatMap (field 4)).length := six_le_leftover hne (by decide) hs
  rw [Request.encode, ← List.append_nil (field 4 _)] at hs
  have hkey := version_not_in_key rfl hs k'.valid hbegin
  have hlength := congrArg List.length hs
  have hencode : q.encode.length ≠ 0 := by
    cases q <;> simp [Request.encode]
  rw [List.length_append] at hlength
  simp only [List.length_append, length_field, List.length_cons,
    List.length_nil] at hlength
  omega

/-- A database on which the request cannot be mistaken for a rejected one: a
read of its key finds something. -/
def telling : Request → Database
  | .read key => Database.new.write key.bytes [] .complete
  | .write _ _ => Database.new

/-- What `parse` makes of a request behind a leftover has not the effects of the
request. -/
theorem parse_behind_leftover {ms : List (List UInt8)} (hne : ms ≠ []) (q : Request) :
    ¬ ((parse (ms.flatMap (field 4) ++ q.encode)).database .complete (telling q) =
        (telling q).call (q.call .complete) ∧
      (parse (ms.flatMap (field 4) ++ q.encode)).calls (telling q) = q.answer (telling q) ∧
      (parse (ms.flatMap (field 4) ++ q.encode)).rest = []) := by
  rintro ⟨hdb, hcalls, hrest⟩
  cases q with
  | write k v =>
      cases hparse : parse (ms.flatMap (field 4) ++ (Request.write k v).encode) with
      | write key value rest =>
          rw [hparse] at hdb hrest
          obtain rfl : rest = [] := hrest
          exact write_behind_leftover hne hparse hdb
      | _ =>
          rw [hparse] at hdb
          exact write_ne _ _ _ hdb.symm
  | read k =>
      have hfound : (telling (.read k)).read k.bytes ≠ none := by
        rw [telling, read_write, if_pos rfl]
        simp [Database.read, Database.new]
      have hanswer : ((Request.read k).answer (telling (.read k))).length = 2 := by
        obtain ⟨storage, hstorage⟩ := Option.ne_none_iff_exists'.mp hfound
        simp only [Request.answer, readCalls, hstorage]
        rfl
      cases hparse : parse (ms.flatMap (field 4) ++ (Request.read k).encode) with
      | write key value rest =>
          rw [hparse] at hdb
          exact write_ne _ _ _ hdb
      | read key rest =>
          rw [hparse] at hrest
          obtain rfl : rest = [] := hrest
          exact read_behind_leftover hne hparse
      | _ =>
          -- A complaint is a single call, the answer to a read of what is there two.
          rw [hparse] at hcalls
          rw [← hcalls] at hanswer
          cases hanswer

theorem not_handledAsFresh {p : Packet} (hp : p.unreadMessages ≠ []) (q : Request) :
    ¬ HandledAsFresh p q := by
  intro h
  have hunread : (connectionWith (p.encode ++ q.encode)).readBuffer.unread =
      p.encode ++ (q.encode ++ []) := by
    rw [unread_connectionWith, List.append_nil]
  obtain ⟨between, after, hfirst, hsecond, hfresh⟩ :=
    h (telling q) _ [] .complete .complete hunread
  obtain ⟨b', hleft, hrun⟩ := parseRequest_run .complete (telling q)
    (connectionWith (p.encode ++ q.encode))
  rw [hunread, List.append_nil, parse_packet] at hleft hrun
  rw [hrun, replied, p.database_parsed hp] at hfirst
  obtain rfl := (EStateM.Result.ok.inj hfirst).2
  obtain ⟨hrest, hlater⟩ := hleft.unread_eq rfl
  rw [p.rest_parsed] at hrest
  obtain ⟨b'', hleft', hrun'⟩ := parseRequest_run .complete (telling q)
    { connectionWith (p.encode ++ q.encode) with
      readBuffer := b', sent := (p.parsed q.encode).calls (telling q) }
  rw [hrest] at hleft' hrun'
  obtain rfl := Throwing.end_unique hrun' hsecond
  obtain ⟨hdatabase, hsent, hend⟩ := asOnFresh_iff.mp hfresh
  apply parse_behind_leftover hp q
  refine ⟨hdatabase, List.append_cancel_left hsent, ?_⟩
  exact (hleft'.unread_eq hlater).1.symm.trans hend

/-- **Packets and the requests behind them.** The next request is served as on
a new connection exactly when the packet has been read to its end. -/
theorem handledAsFresh_iff (p : Packet) (q : Request) :
    HandledAsFresh p q ↔ p.Delimited := by
  constructor
  · intro h
    rw [p.delimited_iff]
    by_contra hne
    exact not_handledAsFresh hne q h
  · exact fun hp => handledAsFresh_of_delimited hp q

/-! ## A smuggled write -/

theorem served_from_leftover {p : Packet} {db : Database} {q : Request}
    {s rest : List UInt8} (hp : p.unreadMessages ≠ [])
    (hq : p.leftover ++ s = q.encode ++ rest) :
    ∃ between after, parseRequest .complete ⟨db, connectionWith (p.encode ++ s)⟩
        = .ok () between ∧
      between.database = db ∧
      parseRequest .complete between = .ok () after ∧
      after.database = db.call (q.call .complete) := by
  obtain ⟨b', hleft, hrun⟩ := parseRequest_run .complete db (connectionWith (p.encode ++ s))
  rw [unread_connectionWith, parse_packet] at hleft hrun
  rw [replied, p.database_parsed hp] at hrun
  obtain ⟨hrest, -⟩ := hleft.unread_eq rfl
  rw [p.rest_parsed, hq] at hrest
  obtain ⟨b'', -, -, hrun'⟩ := @parseRequest_complete .complete db
    { connectionWith (p.encode ++ s) with
      readBuffer := b', sent := (p.parsed s).calls db } _ _ hrest
  exact ⟨_, _, hrun, rfl, hrun', rfl⟩

/-- A message of 66049 = 0x10201 bytes: its size reads as a version, a count and
half of a key size, and it goes on as a write request does. -/
def smuggler : List UInt8 := [0, 0, 98] ++ field 4 [7] ++ List.replicate 66041 0

theorem length_smuggler : smuggler.length = 66049 := by
  rw [smuggler, List.length_append, List.length_replicate]
  rfl

def smugglingPacket : Packet where
  messages := [[45], smuggler]
  count := by
    show 2 < 2 ^ 8
    decide
  short := by
    intro message hmessage
    rcases List.mem_pair.mp hmessage with rfl | rfl
    · decide
    · rw [length_smuggler]
      decide

def smuggledWrite : Request := .write keyB ⟨[7], by decide⟩

theorem field_smuggler (s : List UInt8) :
    field 4 smuggler ++ s = smuggledWrite.encode ++ (List.replicate 66041 0 ++ s) := by
  rw [field, length_smuggler, smuggler]
  simp only [List.append_assoc]
  rfl

/-- The packet is rejected, and the call that should read `a` writes to `b`. -/
theorem smuggled_write :
    ¬ HandledAsFresh smugglingPacket (.read keyA) ∧
      ∃ between after,
        parseRequest .complete ⟨Database.new, connectionWith
          (smugglingPacket.encode ++ (Request.read keyA).encode)⟩ = .ok () between ∧
        between.database = Database.new ∧
        parseRequest .complete between = .ok () after ∧
        after.database = Database.new.write keyB.bytes [7] .complete := by
  have hleftover : smugglingPacket.unreadMessages = [smuggler] := rfl
  constructor
  · apply not_handledAsFresh
    rw [hleftover]
    exact List.cons_ne_nil _ _
  · apply served_from_leftover (q := smuggledWrite)
    · rw [hleftover]
      exact List.cons_ne_nil _ _
    · rw [Packet.leftover, hleftover, List.flatMap_singleton]
      exact field_smuggler _

end EasyKeyDB
