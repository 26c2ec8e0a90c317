import EasyKeyDB.Sessions

/-!
# The command-line clients

`main` of `EasyKeyV1Client-Cli-Write.c` and of `EasyKeyV1Client-Cli-Read.c`, from their
arguments to the way their processes end. Both make a request, send it with
`write_request`, print what `read_response` returns, free what they have and return 0 if
the status is OK. Each run has a connection of its own, on which the server calls
`parse_request` once.

What the kernel makes of the system calls is a `Kernel`. Memory is modelled as far as the
programs give it back: a `Message` remembers whether its bytes are from `calloc`. `free` of
anything else is undefined, and a run is not followed beyond it.
-/

namespace EasyKeyDB.Client

open ByteBuffer Throwing

/-- An argument of a program: it has no zero byte, and `execve` takes it. -/
structure CString where
  bytes : List UInt8
  terminated : 0 ∉ bytes
  short : bytes.length < 131072
deriving DecidableEq

theorem CString.length_lt (string : CString) : string.bytes.length < 2 ^ 32 :=
  string.short.trans (by decide)

/-- Whom a block of memory belongs to. -/
inductive Owner
  | allocated
  | arguments
deriving DecidableEq, Repr

structure Message where
  owner : Owner
  content : Array

/-- How a process ends. -/
inductive Ending
  | exited (status : UInt8)
  /-- `free` is given what `calloc` has not returned. -/
  | invalidFree
  | nullPointer
  /-- `write_request` leaves its buffer. -/
  | outsideBuffer
deriving DecidableEq, Repr

/-- What the system calls of one run come to, those of the server included: the files that
`fopen` finds, and how much is moved. -/
structure Kernel where
  /-- If `connect` fails, the `errno` that `exit` is given: `perror` may have changed it. -/
  connect : Option UInt8
  disk : CString → Option (List UInt8)
  fread : IoResult
  write : IoResult
  append : IoResult
  header : IoResult
  body : IoResult

/-- What a run changes: the database of the server, and what has been written to `stdout`
and to `stderr`. `stdout` is a terminal, where a line is out when it is complete. -/
structure Machine where
  database : Database
  output : List UInt8
  complaints : List (List UInt8)

/-- Code of a client program. Returning from `main` early, `exit` and being killed are
exceptions. -/
abbrev ProgramM := EStateM Ending Machine

/-- `puts`, `printf`, of whole lines -/
def print (text : List UInt8) : ProgramM Unit :=
  modify fun m => { m with output := m.output ++ text }

/-- `fprintf(stderr, …)`, `perror` -/
def complain (text : List UInt8) : ProgramM Unit :=
  modify fun m => { m with complaints := m.complaints ++ [text] }

def decimal (n : Nat) : List UInt8 := (Nat.toDigits 10 n).map fun ch => UInt8.ofNat ch.toNat

/-- `%d`, which takes the 32 bits for an `int`. -/
def signedDecimal (n : UInt32) : List UInt8 :=
  if n.toNat < 2 ^ 31 then decimal n.toNat else ascii "-" ++ decimal (2 ^ 32 - n.toNat)

/-- `duplicate_string`, and its `strlen` as the size. -/
def duplicateString (string : CString) : Message where
  owner := .allocated
  content := Array.of string.bytes string.length_lt

/-- What `print_server_response` prints about a response. -/
def responseText (reply : EasyKeyV1Response) : List UInt8 :=
  ascii "\tKnow Nothing: \"" ++ decimal reply.version.toNat ++ ascii "\"\n" ++
    ascii "\tStatus Code: \"" ++ signedDecimal reply.statusCode ++ ascii "\"\n" ++
    if 0 < reply.value.size then ascii "\tBody: \n" ++ reply.value.array ++ ascii "\n" else []

def responseTitle : List UInt8 := ascii "\t----- Server Response -----\n"

/-- `print_server_response`. It looks at what it is given behind the first line. -/
def printServerResponse (reply : Option EasyKeyV1Response) :
    ProgramM EasyKeyV1Response := do
  print responseTitle
  match reply with
  | none => throw .nullPointer
  | some reply => do
    print (responseText reply)
    return reply

def freeEasykeyRequest (messages : List Message) : ProgramM Unit :=
  messages.forM fun message =>
    match message.owner with
    | .allocated => pure ()
    | .arguments => throw .invalidFree

/-- The request that a program has put together. -/
def madeRequest (messages : List Message) (few : messages.length < 256) : EasyKeyV1Request where
  version := protocolV1
  messagesNumber := UInt8.ofNat messages.length
  messages := messages.map Message.content
  counted := by rw [List.length_map, UInt8.toNat_ofNat_of_lt' few]

/-- The server's part: it finds some bytes on a new connection. -/
def serve (append : IoResult) (db : Database) (sent : List UInt8) :
    Database × List UInt8 :=
  match parseRequest append ⟨db, ClientSocket.new 5 0 [sent]⟩ with
  | .ok () after | .error _ after =>
    (after.database, after.socket.sent.flatMap fun call => call.acceptedBy .complete)

def served (append : IoResult) (sent : List UInt8) : ProgramM (List UInt8) :=
  modifyGet fun m =>
    let (database, answer) := serve append m.database sent
    (answer, { m with database })

def connectTo (k : Kernel) : ProgramM Unit :=
  match k.connect with
  | none => pure ()
  | some errno => do
    complain (ascii "connect:")
    throw (.exited errno)

/-- `write_request` and what `main` makes of its result: the bytes of the answer. -/
def sendRequest (k : Kernel) (request : EasyKeyV1Request) : ProgramM (List UInt8) :=
  match writeRequest request k.write with
  | none => throw .outsideBuffer
  | some w => do
    match w.complaint with
    | some text => complain (ascii text)
    | none => pure ()
    if !w.returned then
      complain (ascii "Could not send the request to the server ...\n")
      throw (.exited 1)
    served k.append w.accepted

def receiveResponse (k : Kernel) (answer : List UInt8) :
    ProgramM (Option EasyKeyV1Response) :=
  match readResponse k.header k.body answer with
  | .error text _ => do
    complain (ascii text)
    return none
  | .ok response _ => return some response

/-- What both programs do from `write_request` on. -/
def converse (k : Kernel) (messages : List Message) (few : messages.length < 256) :
    ProgramM UInt8 := do
  let answer ← sendRequest k (madeRequest messages few)
  let response ← printServerResponse (← receiveResponse k answer)
  let success := response.statusCode = ResponseStatus.ok.code.toUInt32
  freeEasykeyRequest messages
  return if success then 0 else 1

/-- `main` of the reading program, given its name and the arguments behind it. -/
def cliRead (k : Kernel) (binaryName : CString) (arguments : List CString) : ProgramM UInt8 :=
  match arguments with
  | [] => do
    complain (ascii "Usage: " ++ binaryName.bytes ++ ascii " key\n")
    return 1
  | keyName :: _ => do
    connectTo k
    converse k [duplicateString keyName] (by simp)

/-! ## Writing -/

/-- The bytes of a file of which `size` bytes are read. The size comes from `ftell` and is
an `unsigned int`. -/
def fileMessage (content : List UInt8) : Message where
  owner := .allocated
  content :=
    { size := UInt32.ofNat content.length
      array := content.take (content.length % 2 ^ 32)
      filled := by
        rw [List.length_take, UInt32.toNat_ofNat']
        exact Nat.min_eq_left (Nat.mod_le _ _) }

/-- `--file=yes`: the value is what is in the file of this name. -/
def readFile (k : Kernel) (name : CString) : ProgramM Message :=
  match k.disk name with
  | none => do
    complain (ascii "fopen:")
    throw (.exited 1)
  | some content => do
    let message := fileMessage content
    let bytesRead := k.fread.transferred message.content.size.toNat
    if bytesRead ≠ message.content.size.toNat then
      complain (ascii "fread requested: " ++ signedDecimal message.content.size ++
        ascii " but read only: " ++ decimal bytesRead ++ ascii "! This indicates an error!\n")
      throw (.exited 1)
    return message

/-- Otherwise it is the argument itself, and is not copied. -/
def argumentMessage (value : CString) : Message where
  owner := .arguments
  content := Array.of value.bytes value.length_lt

def fileYes : List UInt8 := ascii "--file=yes"

def optionYes : CString := ⟨fileYes, by decide, by decide⟩

/-- `strncmp(argv[3], "--file=yes", 10) == 0` -/
def isFile (option : CString) : Bool := option.bytes.take 10 = fileYes

def cliWriteBin : CString := ⟨ascii "./cli-write.out", by decide, by decide⟩

/-- `main` of the writing program. -/
def cliWrite (k : Kernel) (binaryName : CString) (arguments : List CString) :
    ProgramM UInt8 :=
  match arguments with
  | keyName :: value :: option :: _ => do
    connectTo k
    let first := duplicateString keyName
    if isFile option then
      let second ← readFile k value
      converse k [first, second] (by simp)
    else
      converse k [first, argumentMessage value] (by simp)
  | _ => do
    complain (ascii "Usage: " ++ binaryName.bytes ++
      ascii " keyname value --file=[yes|no]\n")
    return 1

/-! ## Processes -/

/-- Whether `fork` and `exec` succeed for a child. -/
structure Spawn where
  fork : Bool
  exec : Bool

def Spawn.succeeds : Spawn := ⟨true, true⟩

/-- The program that a child becomes, or its own way out with status 1. -/
def Spawn.child (spawn : Spawn) (main : ProgramM UInt8) : ProgramM UInt8 :=
  if spawn.exec then main else throw (.exited 1)

def runMain (main : ProgramM UInt8) (m : Machine) : Ending × Machine :=
  match main m with
  | .ok status m => (.exited status, m)
  | .error ending m => (ending, m)

end EasyKeyDB.Client
