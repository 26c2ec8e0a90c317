import EasyKeyDB.ByteBuffer
import EasyKeyDB.Database

/-!
# Client sockets

`ClientSocket` of `socket.cpp`. The two `write` methods return nothing and only
log a failure, so the code that calls them cannot depend on what the socket
took. A socket therefore keeps the list of the calls made on it, each with the
bytes it hands to the kernel; which of them are accepted is the environment's
business (`acceptedBy`).
-/

namespace EasyKeyDB

/-- What one `::read` on the descriptor returns. -/
inductive ReadResult
  | bytes (data : List UInt8)
  | error (wouldBlock : Bool)
deriving DecidableEq, Repr

/-- The lambda a `ClientSocket` gives to its buffer: an error of any kind, a
timeout among them, and the end of the stream all come out as an empty
vector. -/
def sourceTrigger : ReadResult → List UInt8
  | .bytes data => data
  | .error _ => []

/-- A system call that sends. -/
inductive SocketCall
  /-- `::send(fd, data, data.size(), more ? MSG_MORE : 0)` -/
  | send (data : List UInt8) (more : Bool)
  /-- `::sendfile`, with the bytes it finds in the file. -/
  | sendfile (data : List UInt8)
deriving DecidableEq, Repr

def SocketCall.data : SocketCall → List UInt8
  | .send data _ => data
  | .sendfile data => data

/-- What one `sendfile` moves at most. -/
def sendfileLimit : Nat := 0x7ffff000

/-- The bytes the socket takes from a call with the given outcome. -/
def SocketCall.acceptedBy : SocketCall → IoResult → List UInt8
  | .send data _, r => data.take (r.transferred data.length)
  | .sendfile data, r => data.take (min sendfileLimit (r.transferred data.length))

/-- The bytes of calls that all transfer in full. -/
def sentBytes (calls : List SocketCall) : List UInt8 := calls.flatMap SocketCall.data

structure ClientSocket (σ : Type) where
  fileDescriptor : Int
  /-- Nanoseconds on the steady clock. -/
  lastSeen : UInt64
  iterations : UInt32
  readBuffer : ByteBuffer σ
  /-- The calls made on the descriptor so far. -/
  sent : List SocketCall
deriving DecidableEq

namespace ClientSocket

variable {σ : Type}

def new (fileDescriptor : Int) (now : UInt64) (source : σ) : ClientSocket σ where
  fileDescriptor
  lastSeen := now
  iterations := 0
  readBuffer := { buffer := [], source }
  sent := []

/-- `write(buffer, size, more_coming)`: `size` bytes from the start of the
buffer. -/
def write (socket : ClientSocket σ) (buffer : List UInt8) (size : UInt32)
    (moreComing : Bool) : ClientSocket σ :=
  { socket with sent := socket.sent ++ [.send (buffer.take size.toNat) moreComing] }

/-- `write(file_descriptor, offset, size)`. -/
def writeFile (socket : ClientSocket σ) (file : File) (offset size : Nat) :
    ClientSocket σ :=
  { socket with sent := socket.sent ++ [.sendfile (file.range offset size)] }

/-- More bytes, or a timeout, are in store for the reads of a socket. -/
def deliver (socket : ClientSocket ByteBuffer.Chunks) (chunks : ByteBuffer.Chunks) :
    ClientSocket ByteBuffer.Chunks :=
  { socket with
    readBuffer := { socket.readBuffer with
      source := socket.readBuffer.source ++ chunks } }

end ClientSocket

end EasyKeyDB
