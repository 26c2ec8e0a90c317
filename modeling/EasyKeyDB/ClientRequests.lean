import EasyKeyDB.Client
import EasyKeyDB.Coalesced

/-!
# Requests of the client library

The buffer of `write_request` and the bytes it sends. The size of the buffer is
added up in 32 bits, and so is the index that runs through it: the loop fills
the buffer exactly, or else the size has wrapped and the loop leaves the buffer
(`encodeRequest_spec`, `insideBuffer_iff`).

What is encoded is what the server reads (`clientRequests_performed`), provided
that `write` takes all of it; `write_request` does not look at how much it took
(`sentWhole_iff`).
-/

namespace EasyKeyDB.Client

open LittleEndian FixedBuffer ByteBuffer Throwing

/-! ## The loop and its buffer -/

/-- Of the `size` bytes of the buffer, `done` has been written. -/
def Encoding.Filled (size : Nat) (e : Encoding) (done : List UInt8) : Prop :=
  e.data.length = size ∧ e.dataIndex.toNat = done.length ∧ ∃ rest, e.data = done ++ rest

section

variable {size : Nat}

/-- A copy to the index, and an index moved behind it. The index does not wrap,
as it stays inside the buffer. -/
theorem writes_copy (hsize : size < 2 ^ 32) {src : List UInt8} {n : UInt32}
    (hn : n.toNat = src.length) :
    Writes (Encoding.Filled size) size (fun e => do
      let data ← copy e.data e.dataIndex.toNat src
      return { data, dataIndex := e.dataIndex + n }) src := by
  rintro ⟨data, dataIndex⟩ done ⟨hlength, hindex, rest, hdata⟩
  simp only at hlength hindex hdata
  subst hdata
  rw [List.length_append] at hlength
  simp only [hindex, copy_behind]
  by_cases hfits : src.length ≤ rest.length
  · left
    rw [if_pos hfits]
    refine ⟨_, rfl, ?_, ?_, _, rfl⟩
    · simp only [List.length_append, List.length_drop]
      omega
    · simp only [UInt32.toNat_add, hindex, hn, List.length_append]
      exact Nat.mod_eq_of_lt (by omega)
  · right
    rw [if_neg hfits]
    exact ⟨rfl, by omega⟩

theorem writes_put (hsize : size < 2 ^ 32) (byte : UInt8) :
    Writes (Encoding.Filled size) size (fun e => e.put byte) [byte] :=
  writes_copy hsize rfl

theorem writes_message (hsize : size < 2 ^ 32) (array : Array) :
    Writes (Encoding.Filled size) size (fun e => e.message array) (field 4 array.array) := by
  have hstores := (writes_put hsize array.size.toUInt8).bind
    ((writes_put hsize (array.size >>> 8).toUInt8).bind
      ((writes_put hsize (array.size >>> 16).toUInt8).bind
        ((writes_put hsize (array.size >>> 24).toUInt8).bind
          (writes_copy hsize array.filled.symm))))
  rw [field, array.filled, ← sizeBytes]
  exact hstores

end

theorem encodeRequest_spec (request : EasyKeyV1Request) :
    (∃ e, encodeRequest request = some e ∧
        e.Filled (requestSize request.messages).toNat request.encode) ∨
      (encodeRequest request = none ∧
        (requestSize request.messages).toNat < request.length) := by
  have hsize := (requestSize request.messages).toNat_lt
  have hprogram := (writes_put hsize request.version.toUInt8).bind
    ((writes_put hsize request.messagesNumber).bind
      (Writes.foldlM (writes_message hsize) request.messages))
  have hzeros : Encoding.Filled (requestSize request.messages).toNat
      ⟨List.replicate (requestSize request.messages).toNat 0, 0⟩ [] :=
    ⟨List.length_replicate, rfl, _, rfl⟩
  -- The first two stores are at the index that the loop starts from.
  have hcode : encodeRequest request = (do
      let e ← Encoding.put ⟨List.replicate (requestSize request.messages).toNat 0, 0⟩
        request.version.toUInt8
      let e ← e.put request.messagesNumber
      request.messages.foldlM Encoding.message e) := by
    simp only [encodeRequest, Encoding.put, bind_assoc, pure_bind]
    rfl
  have hrun := hprogram _ _ hzeros
  rw [List.nil_append, List.length_nil, Nat.zero_add] at hrun
  rw [← request.length_encode, hcode]
  exact hrun

theorem encodeRequest_eq_some {request : EasyKeyV1Request} (h : request.length < 2 ^ 32) :
    encodeRequest request = some ⟨request.encode, requestSize request.messages⟩ := by
  have hsize := toNat_requestSize request
  rw [Nat.mod_eq_of_lt h] at hsize
  rcases encodeRequest_spec request with ⟨⟨data, dataIndex⟩, he, hlength, hindex, rest, hdata⟩ |
    ⟨-, hshort⟩
  · simp only at hlength hindex hdata
    -- The encoding is as long as the buffer, so nothing is left of the zeros.
    rw [hdata, List.length_append, request.length_encode, hsize] at hlength
    obtain rfl : rest = [] := List.length_eq_zero_iff.mp (by omega)
    rw [List.append_nil] at hdata
    rw [request.length_encode, ← hsize] at hindex
    rw [he, hdata, UInt32.toNat_inj.mp hindex]
  · omega

theorem encodeRequest_eq_none {request : EasyKeyV1Request} (h : 2 ^ 32 ≤ request.length) :
    encodeRequest request = none := by
  have hsize := (requestSize request.messages).toNat_lt
  rcases encodeRequest_spec request with ⟨e, -, hlength, -, rest, hdata⟩ | ⟨hnone, -⟩
  · rw [hdata, List.length_append, request.length_encode] at hlength
    omega
  · exact hnone

/-- What the buffer of `write_request` has to satisfy. -/
structure InsideBuffer (request : EasyKeyV1Request) : Prop where
  /-- The size given to `calloc` is that of the encoding. -/
  size : (requestSize request.messages).toNat = request.length
  /-- Every store is inside, and the last one fills the buffer. -/
  stores : ∃ e, encodeRequest request = some e ∧ e.dataIndex = requestSize request.messages

/-- **The buffer of `write_request`** is kept exactly when the size does not
wrap. -/
theorem insideBuffer_iff (request : EasyKeyV1Request) :
    InsideBuffer request ↔ request.length < 2 ^ 32 := by
  constructor
  · rintro ⟨-, e, he, -⟩
    by_contra hlong
    rw [encodeRequest_eq_none (Nat.le_of_not_lt hlong)] at he
    cases he
  · intro hshort
    refine ⟨?_, _, encodeRequest_eq_some hshort, rfl⟩
    rw [toNat_requestSize, Nat.mod_eq_of_lt hshort]

def requestOf (message : Array) : EasyKeyV1Request where
  version := protocolV1
  messagesNumber := 1
  messages := [message]
  counted := rfl

theorem length_replicate_lt {n : Nat} (hn : n < 2 ^ 32) :
    (List.replicate n (0 : UInt8)).length < 2 ^ 32 := by
  rwa [List.length_replicate]

def zeros (n : Nat) (hn : n < 2 ^ 32) : Array :=
  Array.of (List.replicate n 0) (length_replicate_lt hn)

theorem length_requestOf_zeros (n : Nat) (hn : n < 2 ^ 32) :
    (requestOf (zeros n hn)).length = n + 6 := by
  have hsize : (zeros n hn).size.toNat = n := by
    rw [← (zeros n hn).filled]
    exact List.length_replicate
  simp only [EasyKeyV1Request.length, requestOf, List.map_cons, List.map_nil, List.sum_cons,
    List.sum_nil, hsize]
  omega

/-- A message six bytes short of 4 GiB: no buffer is asked for, and the version
is stored all the same. -/
theorem wrapped_not_insideBuffer :
    requestSize (requestOf (zeros (2 ^ 32 - 6) (by decide))).messages = 0 ∧
      encodeRequest (requestOf (zeros (2 ^ 32 - 6) (by decide))) = none ∧
      ¬ InsideBuffer (requestOf (zeros (2 ^ 32 - 6) (by decide))) := by
  have hlength := length_requestOf_zeros (2 ^ 32 - 6) (by decide)
  refine ⟨?_, encodeRequest_eq_none (by omega), ?_⟩
  · apply UInt32.toNat_inj.mp
    rw [toNat_requestSize, hlength]
    rfl
  · rintro ⟨hsize, -⟩
    have hlt := (requestSize (requestOf (zeros (2 ^ 32 - 6) (by decide))).messages).toNat_lt
    omega

/-! ## The one `write` of a request -/

theorem writeRequest_eq {request : EasyKeyV1Request} (h : request.length < 2 ^ 32)
    (r : IoResult) :
    writeRequest request r = some
      { accepted := request.encode.take (r.transferred request.length)
        complaint := if r = .failed then some "write: " else none
        returned := decide (r ≠ .failed) } := by
  have hsize := toNat_requestSize request
  rw [Nat.mod_eq_of_lt h] at hsize
  simp only [writeRequest, encodeRequest_eq_some h, hsize]
  cases r <;> rfl

/-- If a call of `write_request` returns true, its request has been sent: the
server that comes to these bytes serves it and is left with what follows. -/
def SentWhole (request : EasyKeyV1Request) (r : IoResult) : Prop :=
  ∀ w, writeRequest request r = some w → w.returned = true →
    w.accepted = request.encode ∧
    ∀ (q : Request) t append db socket, q.encode = request.encode →
      socket.readBuffer.unread = w.accepted ++ t →
      ∃ b', b'.unread = t ∧ parseRequest append ⟨db, socket⟩ =
        .ok () (replied (db.call (q.call append)) socket b' (q.answer db))

/-- **A request reported as sent** has been sent whole exactly when `write`
took all of it or said that it failed. -/
theorem sentWhole_iff {request : EasyKeyV1Request} (h : request.length < 2 ^ 32)
    (r : IoResult) : SentWhole request r ↔ r = .failed ∨ r.Whole request.length := by
  have hlength := request.length_encode
  constructor
  · intro hsent
    by_cases hfailed : r = .failed
    · exact Or.inl hfailed
    · right
      obtain ⟨haccepted, -⟩ := hsent _ (writeRequest_eq h r) (decide_eq_true hfailed)
      have hcount := congrArg List.length haccepted
      have hle := r.transferred_le request.length
      rw [List.length_take, hlength, Nat.min_eq_left hle] at hcount
      exact hcount
  · rintro hwhole w hw hreturned
    obtain rfl := Option.some.inj ((writeRequest_eq h r).symm.trans hw)
    have hmoved : r.transferred request.length = request.length :=
      hwhole.resolve_left (of_decide_eq_true hreturned)
    have haccepted : request.encode.take (r.transferred request.length) = request.encode := by
      rw [hmoved, ← hlength, List.take_length]
    refine ⟨haccepted, ?_⟩
    intro q t append db socket hq hunread
    rw [haccepted, ← hq] at hunread
    obtain ⟨b', hrest, -, hrun⟩ := parseRequest_complete append db hunread
    exact ⟨b', hrest, hrun⟩

def readOfA : EasyKeyV1Request := requestOf (Array.of keyA.bytes keyA.short)

theorem sentWhole_readOfA : SentWhole readOfA .complete :=
  (sentWhole_iff (show readOfA.length < 2 ^ 32 by decide) .complete).mpr (Or.inr rfl)

theorem short_not_sentWhole : ¬ SentWhole readOfA (.short 3) := by
  intro hsent
  have haccepted := (hsent ⟨[1, 1, 1], none, true⟩ (by decide +kernel) rfl).1
  exact absurd haccepted (by decide)

/-! ## Client and server -/

/-- A request that the server can serve: version 1, a key, and a value if there
are two messages. -/
structure EasyKeyV1Request.Servable (request : EasyKeyV1Request) : Prop where
  version : request.version = protocolV1
  number : request.messagesNumber = 1 ∨ request.messagesNumber = 2
  key : ∀ message, request.messages.head? = some message → isKeyValid message.array = true

/-- The messages of a request are the key and the value that `q` is about. -/
def AsksFor (request : EasyKeyV1Request) : Request → Prop
  | .read key => request.messages.map Array.array = [key.bytes]
  | .write key value => request.messages.map Array.array = [key.bytes, value.bytes]

theorem Array.length_lt (message : Array) : message.array.length < 2 ^ 32 := by
  rw [message.filled]
  exact message.size.toNat_lt

theorem exists_asksFor {request : EasyKeyV1Request} (h : request.Servable) :
    ∃ q, AsksFor request q := by
  rcases request with ⟨version, number, messages, counted⟩
  rcases h with ⟨-, hnumber, hkey⟩
  simp only at hnumber hkey
  rcases messages with _ | ⟨key, _ | ⟨value, _ | ⟨third, messages⟩⟩⟩
  · rcases hnumber with rfl | rfl <;> cases counted
  · exact ⟨.read ⟨key.array, hkey key rfl, key.length_lt⟩, rfl⟩
  · exact ⟨.write ⟨key.array, hkey key rfl, key.length_lt⟩ ⟨value.array, value.length_lt⟩, rfl⟩
  · rcases hnumber with rfl | rfl <;> simp at counted

theorem AsksFor.encode_eq {request : EasyKeyV1Request} {q : Request} (h : AsksFor request q)
    (hversion : request.version = protocolV1) : request.encode = q.encode := by
  have hflat : request.messages.flatMap (fun message => field 4 message.array) =
      (request.messages.map Array.array).flatMap (field 4) := by
    rw [List.flatMap_map]
  have hcount : request.messagesNumber =
      UInt8.ofNat (request.messages.map Array.array).length := by
    rw [List.length_map, request.counted, UInt8.ofNat_toNat]
  rw [EasyKeyV1Request.encode, hflat, hcount, hversion]
  cases q with
  | read key =>
      rw [show request.messages.map Array.array = [key.bytes] from h]
      simp [Request.encode, protocolV1, v1]
  | write key value =>
      rw [show request.messages.map Array.array = [key.bytes, value.bytes] from h]
      simp [Request.encode, protocolV1, v1]

/-- Successive calls of `parse_request`, with the outcomes of their appends. -/
def parseRequests (appends : List IoResult) : HandlerM Chunks Unit :=
  appends.forM fun append => parseRequest append

def perform (s : Database × List SocketCall) (x : Request × IoResult) :
    Database × List SocketCall :=
  (s.1.call (x.1.call x.2), s.2 ++ x.1.answer s.1)

/-- As many calls as there are requests perform them, and no more. -/
theorem parseRequests_stream {qs : List Request} {appends : List IoResult}
    (hlength : appends.length = qs.length) (db : Database) (socket : ClientSocket Chunks)
    (hunread : socket.readBuffer.unread = stream qs) :
    ∃ after, parseRequests appends ⟨db, socket⟩ = .ok () after ∧
      (after.database, after.socket.sent) =
        (qs.zip appends).foldl perform (db, socket.sent) ∧
      after.socket.readBuffer.unread = [] := by
  induction qs generalizing appends db socket with
  | nil =>
      obtain rfl := List.length_eq_zero_iff.mp hlength
      exact ⟨_, rfl, rfl, hunread⟩
  | cons q qs ih =>
      rcases appends with _ | ⟨append, appends⟩
      · cases hlength
      obtain ⟨b', hrest, -, hrun⟩ := parseRequest_complete append db hunread
      obtain ⟨after, hok, hdone, hempty⟩ := ih (Nat.succ.inj hlength)
        (db.call (q.call append))
        { socket with readBuffer := b', sent := socket.sent ++ q.answer db } hrest
      refine ⟨after, ?_, hdone, hempty⟩
      show (parseRequest append >>= fun _ => parseRequests appends) _ = _
      rw [bind_ok hrun]
      exact hok

/-- What the client sends for servable requests is the stream of the requests
behind them. -/
theorem sent_eq_stream {requests : List EasyKeyV1Request}
    (hservable : ∀ request ∈ requests, request.Servable)
    (hshort : ∀ request ∈ requests, request.length < 2 ^ 32) :
    ∃ (qs : List Request) (sent : List Written),
      List.Forall₂ AsksFor requests qs ∧
      requests.mapM (fun request => writeRequest request .complete) = some sent ∧
      sent.flatMap Written.accepted = stream qs := by
  induction requests with
  | nil => exact ⟨[], [], .nil, rfl, rfl⟩
  | cons request requests ih =>
      rw [List.forall_mem_cons] at hservable hshort
      obtain ⟨qs, sent, hasks, hsent, hstream⟩ := ih hservable.2 hshort.2
      obtain ⟨q, hq⟩ := exists_asksFor hservable.1
      have hwritten := writeRequest_eq hshort.1 .complete
      rw [IoResult.transferred_complete, ← request.length_encode, List.take_length,
        hq.encode_eq hservable.1.version] at hwritten
      refine ⟨q :: qs, ⟨q.encode, none, true⟩ :: sent, .cons hq hasks, ?_, ?_⟩
      · rw [List.mapM_cons, hwritten, hsent]
        rfl
      · rw [List.flatMap_cons, hstream, stream, stream, List.flatMap_cons]

/-- **Encoder and parser agree.** What `write_request` sends for any servable
requests, in whatever chunks it arrives, is performed request by request, and
nothing of it is left. -/
theorem clientRequests_performed (requests : List EasyKeyV1Request)
    (hservable : ∀ request ∈ requests, request.Servable)
    (hshort : ∀ request ∈ requests, request.length < 2 ^ 32) :
    ∃ (qs : List Request) (sent : List Written),
      List.Forall₂ AsksFor requests qs ∧
      requests.mapM (fun request => writeRequest request .complete) = some sent ∧
      ∀ (db : Database) (fd : Int) (now : UInt64) (appends : List IoResult) (chunks : Chunks),
        appends.length = requests.length → [] ∉ chunks →
        chunks.flatten = sent.flatMap Written.accepted →
        ∃ after, parseRequests appends ⟨db, ClientSocket.new fd now chunks⟩ = .ok () after ∧
          (after.database, after.socket.sent) = (qs.zip appends).foldl perform (db, []) ∧
          after.socket.readBuffer.unread = [] := by
  obtain ⟨qs, sent, hasks, hsent, hstream⟩ := sent_eq_stream hservable hshort
  refine ⟨qs, sent, hasks, hsent, ?_⟩
  intro db fd now appends chunks hlength hchunks hflatten
  apply parseRequests_stream (hlength.trans hasks.length_eq)
  rw [← hstream, ← hflatten]
  exact arriving_eq_flatten hchunks

/-- A write of a value with bytes above 0x7f, and a read. -/
def writeAndRead : List EasyKeyV1Request :=
  [⟨protocolV1, 2, [Array.of keyA.bytes keyA.short, Array.of [255, 128] (by decide)], rfl⟩,
    readOfA]

theorem writeAndRead_performed :
    ∃ after, parseRequests [.complete, .complete]
        ⟨Database.new, ClientSocket.new 5 0
          [[1, 2, 1], [0, 0, 0, 97, 2, 0, 0, 0, 255], [128, 1, 1], [1, 0, 0, 0, 97]]⟩ =
          .ok () after ∧
      after.socket.readBuffer.unread = [] := by
  have hservable : ∀ request ∈ writeAndRead, request.Servable := by
    intro request hrequest
    simp only [writeAndRead, List.mem_cons, List.not_mem_nil, or_false] at hrequest
    rcases hrequest with rfl | rfl
    · refine ⟨rfl, Or.inr rfl, ?_⟩
      rintro message ⟨⟩
      decide
    · refine ⟨rfl, Or.inl rfl, ?_⟩
      rintro message ⟨⟩
      decide
  obtain ⟨qs, sent, -, hsent, hperformed⟩ :=
    clientRequests_performed writeAndRead hservable (by decide)
  have hbytes : (writeAndRead.mapM fun request => writeRequest request .complete).map
      (List.flatMap Written.accepted) =
        some [1, 2, 1, 0, 0, 0, 97, 2, 0, 0, 0, 255, 128, 1, 1, 1, 0, 0, 0, 97] := by
    decide +kernel
  rw [hsent] at hbytes
  obtain ⟨after, hok, -, hempty⟩ := hperformed Database.new 5 0 [.complete, .complete]
    [[1, 2, 1], [0, 0, 0, 97, 2, 0, 0, 0, 255], [128, 1, 1], [1, 0, 0, 0, 97]] rfl (by decide)
    (Option.some.inj hbytes).symm
  exact ⟨after, hok, hempty⟩

end EasyKeyDB.Client
