import EasyKeyDB.CommandLine
import EasyKeyDB.Replies

/-!
# Runs of the command-line clients

What the two programs do when every system call moves what it is asked to move: which
response they print, how they end, and what the database then holds. The server's part in
it is what its event loop does for a connection with one request (`serve_of_handled`).
-/

namespace EasyKeyDB.Client

open ByteBuffer Throwing LittleEndian

/-- The connection is made, and every call moves all its bytes. -/
structure Kernel.Complete (k : Kernel) : Prop where
  connect : k.connect = none
  fread : k.fread = .complete
  write : k.write = .complete
  append : k.append = .complete
  header : k.header = .complete
  body : k.body = .complete

/-- The database holds contents that can be sent. -/
structure Holds (db : Database) (c : WriteOnce.Contents Key Value) : Prop where
  represents : Represents db c
  sendable : Sendable c

/-! ## The server's part -/

theorem serve_eq (append : IoResult) (db : Database) {sent : List UInt8} {p : Parsed}
    (hparse : parse sent = p) :
    serve append db sent =
      (p.database append db, (p.calls db).flatMap fun call => call.acceptedBy .complete) := by
  have hunread : (ClientSocket.new 5 0 [sent] : ClientSocket Chunks).readBuffer.unread = sent := by
    cases sent with
    | nil => rfl
    | cons byte sent => exact congrArg (byte :: ·) (List.append_nil sent)
  obtain ⟨b', -, hrun⟩ := parseRequest_run append db (ClientSocket.new 5 0 [sent])
  rw [hunread, hparse] at hrun
  rw [serve, hrun]
  rfl

/-- `serve` is what the event loop does on a connection on which there is one call,
whatever happens on the others. -/
theorem serve_of_handled {socket : Int} {connected disconnected : Bool} {others : Finset Int}
    {count : UInt32} {db : Database} {xs : List NetworkLabel} {net : Network}
    (h : Run Network.Step
      (.beside (Server.starting socket connected disconnected others count db)) xs net)
    {before later : List Handling} {x : Handling} (hsplit : net.handled = before ++ x :: later)
    (hfirst : arrivals x.number before = []) (hlast : arrivals x.number later = [])
    {fd : Int} {c : Connection} (hc : net.server.entry fd = some c)
    (hnumber : c.number = x.number) :
    serve x.append (performed db before) x.found = (performed db (before ++ [x]),
      c.client.sent.flatMap fun call => call.acceptedBy .complete) := by
  have hsent : c.client.sent = (parse x.found).calls (performed db before) := by
    rw [Network.sent_eq_callsFor h hc, hsplit, hnumber, callsFor_append,
      callsFor_eq_nil hfirst, List.nil_append, callsFor, if_pos rfl,
      callsFor_eq_nil hlast, List.append_nil]
  rw [serve_eq _ _ rfl, hsent, performed_append]
  rfl

section

variable {db : Database} {c : WriteOnce.Contents Key Value}

theorem Holds.serve_encode (h : Holds db c) (q : SmallRequest) :
    serve .complete db q.request.encode = (db.call (q.request.call .complete),
      frame (q.outcome (WriteOnce.result c q.request.op)).1
        (q.outcome (WriteOnce.result c q.request.op)).2.bytes) := by
  have hparse := parse_encode q.request []
  rw [List.append_nil] at hparse
  rw [serve_eq _ _ hparse, ← q.reply_eq, ← h.represents.answer,
    ← h.represents.acceptedBy h.sendable]
  cases q.request <;> rfl

theorem Holds.call (h : Holds db c) (q : SmallRequest) :
    Holds (db.call (q.request.call .complete)) (WriteOnce.step c q.request.op) :=
  ⟨h.represents.call q.request.appends_complete, sendable_step h.sendable q⟩

theorem serve_invalidKey (db : Database) {messages : UInt8} (hcount : messages = 1 ∨ messages = 2)
    (key : CString) (hkey : isKeyValid key.bytes = false) (t : List UInt8) :
    serve .complete db ([v1, messages] ++ field 4 key.bytes ++ t) =
      (db, frame .clientError (keyNotValid key.bytes)) := by
  have hshort := key.short
  have htext : (keyNotValid key.bytes).length + 11 < 2 ^ 32 := by
    rw [length_keyNotValid]
    omega
  rw [serve_eq _ _ (parse_invalidKey hcount (by omega) hkey)]
  exact congrArg (db, ·) ((acceptedBy_textCalls _ _).trans (textReply_of_lt htext))

end

/-! ## The conversation -/

section

variable {k : Kernel} {m : Machine} {messages : List Message} {few : messages.length < 256}

theorem connectTo_eq (hk : k.Complete) (m : Machine) : connectTo k m = .ok () m := by
  rw [connectTo, hk.connect]
  rfl

theorem sendRequest_eq (hk : k.Complete) {request : EasyKeyV1Request}
    (hshort : request.length < 2 ^ 32) (m : Machine) :
    sendRequest k request m = served .complete request.encode m := by
  have hwritten : writeRequest request k.write = some ⟨request.encode, none, true⟩ := by
    rw [writeRequest_eq hshort, hk.write, IoResult.transferred_complete,
      ← request.length_encode, List.take_length]
    rfl
  rw [sendRequest, hwritten, ← hk.append]
  rfl

def shown (o : Outcome) : List UInt8 := responseTitle ++ responseText o.response

theorem converse_eq (hk : k.Complete) (hshort : (madeRequest messages few).length < 2 ^ 32)
    {db' : Database} {o : Outcome}
    (hserve : serve .complete m.database (madeRequest messages few).encode =
      (db', frame o.1 o.2.bytes)) :
    converse k messages few m =
      (do
        freeEasykeyRequest messages
        return if o.1 = .ok then 0 else 1 : ProgramM UInt8)
          { m with database := db', output := m.output ++ shown o } := by
  have hsend : sendRequest k (madeRequest messages few) m =
      .ok (frame o.1 o.2.bytes) { m with database := db' } := by
    have hserved : served .complete (madeRequest messages few).encode m =
        .ok (serve .complete m.database (madeRequest messages few).encode).2
          { m with database :=
              (serve .complete m.database (madeRequest messages few).encode).1 } := rfl
    rw [sendRequest_eq hk hshort, hserved, hserve]
  have hread := readResponse_frame o []
  rw [List.append_nil, ← hk.header] at hread
  have hreceive : receiveResponse k (frame o.1 o.2.bytes) { m with database := db' } =
      .ok (some o.response) { m with database := db' } := by
    rw [receiveResponse, hk.body, ← hk.header, hread]
    rfl
  have hprint : printServerResponse (some o.response) { m with database := db' } =
      .ok o.response { m with database := db', output := m.output ++ shown o } := by
    change EStateM.Result.ok _ _ = _
    rw [shown, ← List.append_assoc]
  have hstatus : o.response.statusCode = ResponseStatus.ok.code.toUInt32 ↔ o.1 = .ok := by
    change o.1.code.toUInt32 = _ ↔ _
    cases o.1 <;> decide
  rw [converse, bind_ok hsend, bind_ok hreceive, bind_ok hprint]
  simp only [hstatus]

end

/-! ## The programs -/

def CString.key (string : CString) (h : isKeyValid string.bytes = true) : Key :=
  ⟨string.bytes, h, string.length_lt⟩

def CString.value (string : CString) : Value :=
  ⟨string.bytes, string.length_lt⟩

/-- What is sent of a file: from 2 ^ 32 bytes on, less than all of it. -/
def fileValue (content : List UInt8) : Value where
  bytes := content.take (content.length % 2 ^ 32)
  short := by
    rw [List.length_take]
    have := Nat.mod_lt content.length (show 0 < 2 ^ 32 by decide)
    omega

def keyRejected (keyName : CString) : Outcome :=
  (.clientError, ⟨keyNotValid keyName.bytes, by
    have := keyName.short
    rw [length_keyNotValid]
    omega⟩)

def readOutcome (c : WriteOnce.Contents Key Value) (keyName : CString) : Outcome :=
  if h : isKeyValid keyName.bytes = true then
    (c (keyName.key h)).elim
      (.clientError, ⟨keyNotFound keyName.bytes, by
        have := keyName.short
        rw [length_keyNotFound]
        omega⟩)
      fun value => (.ok, value)
  else keyRejected keyName

def writeOutcome (keyName : CString) : Outcome :=
  if isKeyValid keyName.bytes then
    (.ok, ⟨keyWritten keyName.bytes, by
      have := keyName.short
      rw [length_keyWritten]
      omega⟩)
  else keyRejected keyName

def written (c : WriteOnce.Contents Key Value) (keyName : CString) (value : Value) :
    WriteOnce.Contents Key Value :=
  if h : isKeyValid keyName.bytes = true then WriteOnce.step c (.put (keyName.key h) value)
  else c

def exitStatus (o : Outcome) : UInt8 := if o.1 = .ok then 0 else 1

section

variable {k : Kernel} {m : Machine} {c : WriteOnce.Contents Key Value}

theorem encode_read (keyName : CString) (few : [duplicateString keyName].length < 256) :
    (madeRequest [duplicateString keyName] few).encode = [v1, 1] ++ field 4 keyName.bytes := by
  have hbody : (madeRequest [duplicateString keyName] few).encode =
      [v1, 1] ++ (field 4 keyName.bytes ++ []) := rfl
  rw [hbody, List.append_nil]

theorem encode_write (keyName : CString) {second : Message} {value : Value}
    (hvalue : second.content = Array.of value.bytes value.short)
    (few : [duplicateString keyName, second].length < 256) :
    (madeRequest [duplicateString keyName, second] few).encode =
      [v1, 2] ++ field 4 keyName.bytes ++ field 4 value.bytes := by
  have hbody : (madeRequest [duplicateString keyName, second] few).encode =
      [v1, 2] ++ (field 4 keyName.bytes ++ (field 4 second.content.array ++ [])) := rfl
  rw [hbody, hvalue, List.append_nil, List.append_assoc]
  rfl

theorem length_argument_le (string : CString) : string.bytes.length + 10 ≤ sendfileLimit := by
  have hshort := string.short
  have hlimit : 131072 + 10 ≤ sendfileLimit := by decide
  omega

/-- **The reading program** prints what is under its key, and changes nothing. -/
theorem cliRead_eq (hk : k.Complete) (h : Holds m.database c) (binaryName keyName : CString)
    (more : List CString) :
    runMain (cliRead k binaryName (keyName :: more)) m =
      (.exited (exitStatus (readOutcome c keyName)),
        { m with output := m.output ++ shown (readOutcome c keyName) }) := by
  have hlength := length_argument_le keyName
  have hshort : (madeRequest [duplicateString keyName] (by simp)).length < 2 ^ 32 := by
    have hlimit : sendfileLimit < 2 ^ 32 := by decide
    rw [← EasyKeyV1Request.length_encode, encode_read]
    simp
    omega
  have hserve : serve .complete m.database
      (madeRequest [duplicateString keyName] (by simp)).encode =
      (m.database, frame (readOutcome c keyName).1 (readOutcome c keyName).2.bytes) := by
    rw [encode_read]
    by_cases hvalid : isKeyValid keyName.bytes = true
    · have hsmall : (Request.read (keyName.key hvalid)).encode.length ≤ sendfileLimit := by
        simp [Request.encode, CString.key]
        omega
      have houtcome : SmallRequest.outcome ⟨_, hsmall⟩
          (WriteOnce.result c (.get (keyName.key hvalid))) = readOutcome c keyName := by
        rw [readOutcome, dif_pos hvalid]
        change SmallRequest.outcome _ ((c (keyName.key hvalid)).elim .absent .found) = _
        cases c (keyName.key hvalid) <;> rfl
      rw [← houtcome]
      exact h.serve_encode ⟨_, hsmall⟩
    · rw [readOutcome, dif_neg hvalid, ← List.append_nil ([v1, 1] ++ field 4 keyName.bytes)]
      exact serve_invalidKey m.database (.inl rfl) keyName (eq_false_of_ne_true hvalid) []
  have hconverse := converse_eq hk hshort hserve
  rw [runMain, cliRead, bind_ok (connectTo_eq hk m), hconverse]
  rfl

theorem converse_write (hk : k.Complete) (h : Holds m.database c) (keyName : CString)
    (second : Message) (value : Value)
    (hvalue : second.content = Array.of value.bytes value.short)
    (hsmall : 10 + keyName.bytes.length + value.bytes.length ≤ sendfileLimit)
    (few : [duplicateString keyName, second].length < 256) :
    ∃ db', Holds db' (written c keyName value) ∧
      converse k [duplicateString keyName, second] few m =
        (do
          freeEasykeyRequest [duplicateString keyName, second]
          return exitStatus (writeOutcome keyName) : ProgramM UInt8)
            { m with database := db', output := m.output ++ shown (writeOutcome keyName) } := by
  have hencode := encode_write keyName hvalue few
  have hshort : (madeRequest [duplicateString keyName, second] few).length < 2 ^ 32 := by
    have hlimit : sendfileLimit < 2 ^ 32 := by decide
    rw [← EasyKeyV1Request.length_encode, hencode]
    simp
    omega
  by_cases hvalid : isKeyValid keyName.bytes = true
  · have hq : (Request.write (keyName.key hvalid) value).encode.length ≤ sendfileLimit := by
      simp [Request.encode, CString.key]
      omega
    let q : SmallRequest := ⟨_, hq⟩
    refine ⟨m.database.call (q.request.call .complete), ?_, converse_eq hk hshort ?_⟩
    · rw [written, dif_pos hvalid]
      exact h.call q
    · have houtcome : q.outcome (WriteOnce.result c q.request.op) = writeOutcome keyName :=
        (if_pos hvalid).symm
      rw [hencode, ← houtcome]
      exact h.serve_encode q
  · refine ⟨m.database, ?_, converse_eq hk hshort ?_⟩
    · rw [written, dif_neg hvalid]
      exact h
    · rw [hencode, writeOutcome, if_neg hvalid]
      exact serve_invalidKey m.database (.inr rfl) keyName (eq_false_of_ne_true hvalid) _

/-- **The writing program with a file** tells by its exit status whether its key was
accepted, and leaves what is in the file under it, up to the 32 bits of its size. -/
theorem cliWrite_file (hk : k.Complete) (h : Holds m.database c)
    (binaryName keyName value option : CString) (more : List CString)
    (hoption : isFile option = true) {content : List UInt8} (hdisk : k.disk value = some content)
    (hsmall : 10 + keyName.bytes.length + content.length % 2 ^ 32 ≤ sendfileLimit) :
    ∃ db', Holds db' (written c keyName (fileValue content)) ∧
      runMain (cliWrite k binaryName (keyName :: value :: option :: more)) m =
        (.exited (exitStatus (writeOutcome keyName)),
          { m with database := db', output := m.output ++ shown (writeOutcome keyName) }) := by
  have hread : readFile k value m = .ok (fileMessage content) m := by
    rw [readFile, hdisk, hk.fread]
    simp only [IoResult.transferred_complete, ne_eq, not_true_eq_false, if_false]
    rfl
  have hcontent : (fileMessage content).content =
      Array.of (fileValue content).bytes (fileValue content).short := Array.ext_array rfl
  have hlength : (fileValue content).bytes.length ≤ content.length % 2 ^ 32 :=
    List.length_take_le _ _
  obtain ⟨db', hholds, hconverse⟩ := converse_write hk h keyName (fileMessage content)
    (fileValue content) hcontent (by omega) (by simp)
  refine ⟨db', hholds, ?_⟩
  rw [runMain, cliWrite, bind_ok (connectTo_eq hk m)]
  simp only [hoption, if_true]
  rw [bind_ok hread, hconverse]
  rfl

/-! ## A write and a read -/

theorem Holds.served {w w' : World} {x : Exchange} (hserved : Served w x w')
    (hwhole : x.request.Appends x.append) (hsmall : x.request.encode.length ≤ sendfileLimit)
    (hw : Holds w.database c) : Holds w'.database (WriteOnce.step c x.request.op) := by
  rw [hserved.spec.1]
  exact ⟨hw.represents.call hwhole, sendable_step hw.sendable ⟨x.request, hsmall⟩⟩

theorem Holds.serving {w w' : World} {xs : List Exchange} (h : Serving w xs w')
    (hwhole : WholeAppends xs) (hsmall : ∀ x ∈ xs, x.request.encode.length ≤ sendfileLimit)
    (hw : Holds w.database c) :
    Holds w'.database (WriteOnce.after c ((requests xs).map Request.op)) := by
  induction h with
  | nil => exact hw
  | @snoc xs w₁ x w₂ _ hserved ih =>
      have hbefore := ih (fun y hy => hwhole y (List.mem_append_left _ hy))
        fun y hy => hsmall y (List.mem_append_left _ hy)
      have hlast : x ∈ xs ++ [x] := List.mem_append_right xs List.mem_cons_self
      rw [requests_append, List.map_append, WriteOnce.after_append]
      exact hbefore.served hserved (hwhole x hlast) (hsmall x hlast)

theorem readOutcome_of_some {keyName : CString} {value : Value}
    (hvalid : isKeyValid keyName.bytes = true) (h : c (keyName.key hvalid) = some value) :
    readOutcome c keyName = (.ok, value) := by
  rw [readOutcome, dif_pos hvalid, h]
  rfl

/-- **What has been written from a file is read.** A key that has been written stays
readable, whatever other clients do: the reading program prints the value that the key had
before, or else what was in the file. -/
theorem read_after_write {k' : Kernel} (hk : k.Complete) (hk' : k'.Complete)
    (h : Holds m.database c) (binaryName keyName value option : CString) (more : List CString)
    (hvalid : isKeyValid keyName.bytes = true) (hoption : isFile option = true)
    {content : List UInt8} (hdisk : k.disk value = some content)
    (hsmall : 10 + keyName.bytes.length + content.length % 2 ^ 32 ≤ sendfileLimit) :
    ∃ m₁, runMain (cliWrite k binaryName (keyName :: value :: option :: more)) m =
        (.exited 0, m₁) ∧
      ∀ {sockets : Nat → ClientSocket Chunks} {xs : List Exchange} {w : World},
        Serving ⟨m₁.database, sockets⟩ xs w → WholeAppends xs →
        (∀ x ∈ xs, x.request.encode.length ≤ sendfileLimit) → ∀ m₂ : Machine,
        m₂.database = w.database → ∀ v,
        v = (c (keyName.key hvalid)).getD (fileValue content) →
        runMain (cliRead k' binaryName (keyName :: more)) m₂ =
          (.exited 0, { m₂ with output := m₂.output ++ shown (.ok, v) }) := by
  obtain ⟨db', hholds, hwrite⟩ :=
    cliWrite_file hk h binaryName keyName value option more hoption hdisk hsmall
  rw [writeOutcome, if_pos hvalid] at hwrite
  refine ⟨_, hwrite, ?_⟩
  rintro sockets xs w hserving hwhole hothers m₂ hm₂ v rfl
  have hafter := Holds.serving hserving hwhole hothers hholds
  rw [← hm₂] at hafter
  have hkept : WriteOnce.after (written c keyName (fileValue content))
      ((requests xs).map Request.op) (keyName.key hvalid) =
        some ((c (keyName.key hvalid)).getD (fileValue content)) := by
    rw [WriteOnce.after_apply, written, dif_pos hvalid, WriteOnce.step_apply,
      WriteOnce.Op.puts, if_pos rfl]
    cases c (keyName.key hvalid) <;> rfl
  rw [cliRead_eq hk' hafter, readOutcome_of_some hvalid hkept]
  rfl

def Kernel.on (disk : CString → Option (List UInt8)) : Kernel where
  connect := none
  disk
  fread := .complete
  write := .complete
  append := .complete
  header := .complete
  body := .complete

theorem Kernel.complete_on (disk : CString → Option (List UInt8)) : (Kernel.on disk).Complete :=
  ⟨rfl, rfl, rfl, rfl, rfl, rfl⟩

theorem holds_new : Holds Database.new WriteOnce.empty := ⟨represents_new, nofun⟩

def nameA : CString := ⟨[97], by decide, by decide⟩

def optionNo : CString := ⟨ascii "--file=no", by decide, by decide⟩

theorem nameA_read_after_write :
    ∃ m₁, runMain (cliWrite (.on fun _ => some [7, 8]) nameA [nameA, nameA, optionYes])
        ⟨Database.new, [], []⟩ = (.exited 0, m₁) ∧
      runMain (cliRead (.on fun _ => none) nameA [nameA]) m₁ =
        (.exited 0, { m₁ with output := m₁.output ++ shown (.ok, fileValue [7, 8]) }) := by
  have hwhole : Kernel.Complete (.on fun _ => some [7, 8]) := Kernel.complete_on _
  have hnothing : Kernel.Complete (.on fun _ => none) := Kernel.complete_on _
  obtain ⟨m₁, hwrite, hread⟩ := read_after_write (m := ⟨Database.new, [], []⟩) hwhole hnothing
    holds_new nameA nameA nameA optionYes [] (by decide) (by decide) rfl (by decide)
  have hserving : Serving ⟨m₁.database, World.start.sockets⟩ [] ⟨m₁.database, _⟩ := .nil
  exact ⟨m₁, hwrite, hread hserving nofun nofun m₁ rfl _ rfl⟩

/-! ## Freeing an argument -/

/-- **The writing program without a file** stores its argument and prints that it has been
stored, but it does not get past freeing it. -/
theorem cliWrite_text (hk : k.Complete) (h : Holds m.database c)
    (binaryName keyName value option : CString) (more : List CString)
    (hoption : isFile option = false) :
    ∃ db', Holds db' (written c keyName value.value) ∧
      runMain (cliWrite k binaryName (keyName :: value :: option :: more)) m =
        (.invalidFree,
          { m with database := db', output := m.output ++ shown (writeOutcome keyName) }) := by
  have hkey := keyName.short
  have hvalue := value.short
  have hlimit : 131072 + 131072 + 10 ≤ sendfileLimit := by decide
  have hlength : value.value.bytes.length = value.bytes.length := rfl
  obtain ⟨db', hholds, hconverse⟩ := converse_write hk h keyName (argumentMessage value)
    value.value rfl (by omega) (by simp)
  refine ⟨db', hholds, ?_⟩
  rw [runMain, cliWrite, bind_ok (connectTo_eq hk m)]
  simp only [hoption, Bool.false_eq_true, if_false]
  rw [hconverse]
  rfl

end

end EasyKeyDB.Client
