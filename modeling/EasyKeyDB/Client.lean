import EasyKeyDB.ByteBuffer
import EasyKeyDB.Database
import EasyKeyDB.Library.FixedBuffer

/-!
# The client library

`write_request` and `read_response` of `easykeyv1-clients.c`. Sizes and indices
are `unsigned int`, so they wrap; the buffers come from `calloc`, which is taken
to succeed, and every store into them is checked: `none` is a store outside.

One `write` sends a request, two `read` calls take a response. What the kernel
makes of each is an `IoResult`, and the stream of a socket is the bytes that are
still to be read from it.
-/

namespace EasyKeyDB.Client

open LittleEndian FixedBuffer

/-- `Array`: the size and the bytes behind the pointer. -/
structure Array where
  size : UInt32
  array : List UInt8
  filled : array.length = size.toNat
deriving DecidableEq

/-- A request. An `enum` of C is an integer some of whose values have names. -/
structure EasyKeyV1Request where
  version : UInt32
  messagesNumber : UInt8
  messages : List Array
  counted : messages.length = messagesNumber.toNat
deriving DecidableEq

structure EasyKeyV1Response where
  version : UInt32
  statusCode : UInt32
  value : Array
deriving DecidableEq

/-- `V1`. -/
def protocolV1 : UInt32 := 0x01

def Array.of (bytes : List UInt8) (short : bytes.length < 2 ^ 32) : Array where
  size := UInt32.ofNat bytes.length
  array := bytes
  filled := (UInt32.toNat_ofNat_of_lt' short).symm

theorem Array.ext_array {a b : Array} (h : a.array = b.array) : a = b := by
  rcases a with ⟨size, array, filled⟩
  rcases b with ⟨size', array', filled'⟩
  obtain rfl : array = array' := h
  obtain rfl : size = size' := UInt32.toNat_inj.mp (filled.symm.trans filled')
  rfl

/-! ## `write_request` -/

/-- The first loop. -/
def requestSize (messages : List Array) : UInt32 :=
  messages.foldl (fun size message => size + 4 + message.size) (0 + 2)

/-- The buffer, and the index of the next store. -/
structure Encoding where
  data : List UInt8
  dataIndex : UInt32
deriving DecidableEq

/-- `data[data_index++] = byte;` -/
def Encoding.put (e : Encoding) (byte : UInt8) : Option Encoding := do
  let data ← copy e.data e.dataIndex.toNat [byte]
  return { data, dataIndex := e.dataIndex + 1 }

/-- A round of the second loop. -/
def Encoding.message (e : Encoding) (array : Array) : Option Encoding := do
  let e ← e.put array.size.toUInt8
  let e ← e.put (array.size >>> 8).toUInt8
  let e ← e.put (array.size >>> 16).toUInt8
  let e ← e.put (array.size >>> 24).toUInt8
  let data ← copy e.data e.dataIndex.toNat array.array
  return { data, dataIndex := e.dataIndex + array.size }

/-- From `calloc` to the end of the second loop. -/
def encodeRequest (request : EasyKeyV1Request) : Option Encoding := do
  let size := requestSize request.messages
  let data := List.replicate size.toNat 0
  let data ← copy data 0 [request.version.toUInt8]
  let data ← copy data 1 [request.messagesNumber]
  request.messages.foldlM Encoding.message { data, dataIndex := 2 }

/-- What a call of `write_request` comes to. -/
structure Written where
  /-- The bytes the socket took. -/
  accepted : List UInt8
  /-- What `perror` is given to print. -/
  complaint : Option String
  returned : Bool
deriving DecidableEq

/-- `write_request`, given what `write` does. -/
def writeRequest (request : EasyKeyV1Request) (r : IoResult) : Option Written := do
  let size := requestSize request.messages
  let e ← encodeRequest request
  let accepted := e.data.take (r.transferred size.toNat)
  match r with
  | .failed => return { accepted, complaint := "write: ", returned := false }
  | _ => return { accepted, complaint := none, returned := true }

/-! ## `read_response` -/

/-- Code that reads from a socket and may give up, with what it prints. What it
has read is gone. -/
abbrev SocketM := EStateM String (List UInt8)

abbrev Buffer (n : Nat) := { data : List UInt8 // data.length = n }

theorem length_readInto (n : Nat) (r : IoResult) (s : List UInt8) :
    (overlay (List.replicate n 0) (s.take (r.transferred (min n s.length)))).length = n := by
  have hcount := r.transferred_le (min n s.length)
  rw [length_overlay, List.length_replicate]
  rw [List.length_take, List.length_replicate]
  omega

/-- `read` into `n` bytes of zeros. It returns at most what there is. -/
def readInto (n : Nat) (r : IoResult) : SocketM (Buffer n) := fun s =>
  match r with
  | .failed => .error "read:" s
  | _ =>
    let count := r.transferred (min n s.length)
    .ok ⟨overlay (List.replicate n 0) (s.take count), length_readInto n r s⟩ (s.drop count)

/-- `size |= buffer[7]; …; size |= (buffer[10]) << 24;` -/
def valueSize (buffer : List UInt8) : UInt32 :=
  (0 : UInt32) ||| (buffer.getD 7 0).toUInt32 ||| (buffer.getD 8 0).toUInt32 <<< 8 |||
    (buffer.getD 9 0).toUInt32 <<< 16 ||| (buffer.getD 10 0).toUInt32 <<< 24

/-- `read_response`, given what its two `read` calls do. -/
def readResponse (header body : IoResult) : SocketM EasyKeyV1Response := do
  let buffer ← readInto 11 header
  let version := (buffer.1.getD 0 0).toUInt32
  if buffer.1.getD 1 0 ≠ 2 then
    throw "Server returned an invalid number of messages!\n"
  let statusCode := (buffer.1.getD 6 0).toUInt32
  let size := valueSize buffer.1
  let array ← readInto size.toNat body
  return { version, statusCode, value := { size, array := array.1, filled := array.2 } }

/-! ## What `write_request` should send -/

namespace EasyKeyV1Request

def length (request : EasyKeyV1Request) : Nat :=
  2 + (request.messages.map fun message => 4 + message.size.toNat).sum

/-- The encoding: the version, the number of messages, and the messages, each
behind its size. -/
def encode (request : EasyKeyV1Request) : List UInt8 :=
  [request.version.toUInt8, request.messagesNumber] ++
    request.messages.flatMap fun message => field 4 message.array

theorem length_encode (request : EasyKeyV1Request) :
    request.encode.length = request.length := by
  simp [encode, length, List.length_flatMap, Array.filled]
  omega

end EasyKeyV1Request

theorem sizeBytes (size : UInt32) :
    [size.toUInt8, (size >>> 8).toUInt8, (size >>> 16).toUInt8, (size >>> 24).toUInt8] =
      LittleEndian.encode 4 size.toNat := by
  have hbyte : ∀ k : UInt32, (size >>> k).toUInt8 =
      UInt8.ofNat (size.toNat >>> (k.toNat % 32)) := by
    intro k
    apply congrArg UInt8.ofNat
    exact UInt32.toNat_shiftRight size k
  rw [hbyte, hbyte, hbyte]
  rfl

theorem toNat_requestSize (request : EasyKeyV1Request) :
    (requestSize request.messages).toNat = request.length % 2 ^ 32 := by
  have hloop : ∀ (messages : List Array) (size : UInt32),
      (messages.foldl (fun size message => size + 4 + message.size) size).toNat =
        (size.toNat + (messages.map fun message => 4 + message.size.toNat).sum) % 2 ^ 32 := by
    intro messages
    induction messages with
    | nil =>
        intro size
        exact (Nat.mod_eq_of_lt size.toNat_lt).symm
    | cons message messages ih =>
        intro size
        have hround : (size + 4 + message.size).toNat =
            (size.toNat + 4 + message.size.toNat) % 2 ^ 32 := by
          rw [UInt32.toNat_add, UInt32.toNat_add, Nat.mod_add_mod]
          rfl
        rw [List.foldl_cons, ih, hround, Nat.mod_add_mod, List.map_cons, List.sum_cons,
          ← Nat.add_assoc, ← Nat.add_assoc]
  exact hloop request.messages (0 + 2)

/-- The 32-bit value that the client puts together from the four bytes. -/
theorem toNat_valueSize (buffer : List UInt8) :
    (valueSize buffer).toNat =
      decode [buffer.getD 7 0, buffer.getD 8 0, buffer.getD 9 0, buffer.getD 10 0] := by
  unfold valueSize
  generalize buffer.getD 7 0 = a
  generalize buffer.getD 8 0 = b
  generalize buffer.getD 9 0 = c
  generalize buffer.getD 10 0 = d
  have ha := a.toNat_lt
  have hb := b.toNat_lt
  have hc := c.toNat_lt
  have hone : (0 ||| a.toUInt32 : UInt32).toNat = a.toNat := by
    rw [UInt32.zero_or, UInt8.toNat_toUInt32]
  have htwo := ByteBuffer.toNat_or_shifted (0 ||| a.toUInt32) b (k := 8) (by decide)
    (by rw [hone]; exact ha)
  have hthree := ByteBuffer.toNat_or_shifted _ c (k := 16) (by decide)
    (by rw [htwo, hone]; change a.toNat + b.toNat * 2 ^ 8 < 2 ^ 16; omega)
  have hfour := ByteBuffer.toNat_or_shifted _ d (k := 24) (by decide)
    (by rw [hthree, htwo, hone]
        change a.toNat + b.toNat * 2 ^ 8 + c.toNat * 2 ^ 16 < 2 ^ 24
        omega)
  rw [hfour, hthree, htwo, hone]
  simp only [decode_cons, decode_nil]
  change a.toNat + b.toNat * 2 ^ 8 + c.toNat * 2 ^ 16 + d.toNat * 2 ^ 24 = _
  omega

end EasyKeyDB.Client
