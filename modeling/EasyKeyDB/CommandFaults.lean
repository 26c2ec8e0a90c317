import EasyKeyDB.CommandRuns

/-!
# What an exit status tells

The two programs when the system calls do anything: a connection is refused, a file is not
there or read in part, a transfer of the client or the server's append stops short or fails.

Of a request that has been cut off the server makes nothing (`parse_of_cut`), and only a
response with the status 1 lets a program end with 0 (`granted_of_status`). So the server
gets a write as a whole or not at all, and it has got it if the program says so, whatever
has come of its append (`write_all_or_nothing`); a read never changes anything
(`read_only`).
-/

namespace EasyKeyDB.Client

open ByteBuffer Throwing LittleEndian FixedBuffer

/-! ## The status of an answer -/

/-- The server answers it with the status 1. -/
def Granted (db : Database) : Parsed → Prop
  | .read key _ => (db.read key).isSome
  | .write _ _ _ => True
  | _ => False

theorem status_textReply {status : ResponseStatus} {text : List UInt8} {byte : UInt8}
    (h : (textReply status text)[6]? = some byte) : byte = status.code := by
  have hframe : (frame status text)[6]? = some status.code := by
    rw [frame, field_status]
    rfl
  rw [textReply_eq, List.getElem?_take] at h
  split_ifs at h
  exact Option.some.inj (h.symm.trans hframe)

theorem granted_of_status {db : Database} {p : Parsed}
    (h : ((p.calls db).flatMap fun call => call.acceptedBy .complete)[6]? = some 1) :
    Granted db p := by
  have hrefused : ∀ text, ((textCalls .clientError text).flatMap
      fun call => call.acceptedBy .complete)[6]? ≠ some 1 := by
    intro text hone
    rw [acceptedBy_textCalls] at hone
    exact absurd (status_textReply hone) (by decide)
  cases p with
  | write key value rest => trivial
  | read key rest =>
      cases hread : db.read key with
      | some storage => exact congrArg Option.isSome hread
      | none =>
          rw [Parsed.calls, readCalls, hread] at h
          exact absurd h (hrefused _)
  | _ => exact absurd h (hrefused _)

/-- What is in a buffer of zeros, and is not zero, has been read. -/
theorem getElem?_of_overlay {k n i : Nat} {s : List UInt8} {byte : UInt8} (hbyte : byte ≠ 0)
    (h : (overlay (List.replicate k 0) (s.take n)).getD i 0 = byte) : s[i]? = some byte := by
  rw [overlay_replicate, List.getD_eq_getElem?_getD, List.getElem?_append] at h
  split_ifs at h with hi
  · rw [List.length_take] at hi
    rw [List.getElem?_take_of_lt (by omega), List.getElem?_eq_getElem (by omega)] at h
    rw [List.getElem?_eq_getElem (by omega)]
    exact congrArg some h
  · rw [List.getElem?_replicate] at h
    split_ifs at h <;> exact absurd h.symm hbyte

theorem status_of_readResponse {header body : IoResult} {s rest : List UInt8}
    {response : EasyKeyV1Response} (h : readResponse header body s = .ok response rest)
    (hone : response.statusCode = ResponseStatus.ok.code.toUInt32) : s[6]? = some 1 := by
  by_cases hheader : header = .failed
  · subst hheader
    cases h
  · rw [readResponse_run hheader rfl rfl] at h
    split_ifs at h
    obtain ⟨array, m, -, hpure⟩ := bind_eq_ok h
    cases hpure
    exact getElem?_of_overlay (by decide) (UInt8.toUInt32_inj.mp hone)

/-! ## What is made of a request -/

/-- If part of a request has come, the server has too little of it, or all it needs. -/
theorem parse_of_cut (sent more : List UInt8) :
    (∃ rest, parse sent = .truncated rest) ∨
      (parse sent).extend more = parse (sent ++ more) := by
  cases htruncated : (parse sent).isTruncated with
  | false => exact .inr (parse_append htruncated more).symm
  | true =>
      cases hparse : parse sent with
      | truncated rest => exact .inl ⟨rest, rfl⟩
      | _ => rw [hparse] at htruncated; cases htruncated

theorem write_of_cut {sent more : List UInt8} {key value : List UInt8}
    (h : sent ++ more = [v1, 2] ++ field 4 key ++ field 4 value) (hkey : key.length < 2 ^ 32)
    (hvalue : value.length < 2 ^ 32) (append : IoResult) (db : Database) :
    (parse sent).database append db = db ∧ ¬ Granted db (parse sent) ∨
      isKeyValid key = true ∧ (parse sent).database append db = db.write key value append := by
  rcases parse_of_cut sent more with ⟨rest, htruncated⟩ | hextend
  · rw [htruncated]
    exact .inl ⟨rfl, id⟩
  · by_cases hvalid : isKeyValid key = true
    · have hparse := parse_encode (.write ⟨key, hvalid, hkey⟩ ⟨value, hvalue⟩) []
      rw [List.append_nil] at hparse
      rw [h] at hextend
      have hwhole := hextend.trans hparse
      refine .inr ⟨hvalid, ?_⟩
      cases hsent : parse sent with
      | write k v rest =>
          rw [hsent] at hwhole
          obtain ⟨rfl, rfl, -⟩ := Parsed.write.inj hwhole
          rfl
      | _ => rw [hsent] at hwhole; cases hwhole
    · have hparse := parse_invalidKey (t := field 4 value) (.inr rfl) hkey
        (eq_false_of_ne_true hvalid)
      rw [h, hparse] at hextend
      cases hsent : parse sent with
      | invalidKey k rest => exact .inl ⟨rfl, id⟩
      | _ => rw [hsent] at hextend; cases hextend

theorem read_of_cut {sent more : List UInt8} {key : List UInt8}
    (h : sent ++ more = [v1, 1] ++ field 4 key) (hkey : key.length < 2 ^ 32)
    (append : IoResult) (db : Database) :
    (parse sent).database append db = db ∧
      (Granted db (parse sent) → (db.read key).isSome = true) := by
  rcases parse_of_cut sent more with ⟨rest, htruncated⟩ | hextend
  · rw [htruncated]
    exact ⟨rfl, False.elim⟩
  · by_cases hvalid : isKeyValid key = true
    · have hparse := parse_encode (.read ⟨key, hvalid, hkey⟩) []
      rw [List.append_nil] at hparse
      rw [h] at hextend
      have hwhole := hextend.trans hparse
      cases hsent : parse sent with
      | read k rest =>
          rw [hsent] at hwhole
          obtain ⟨rfl, -⟩ := Parsed.read.inj hwhole
          exact ⟨rfl, id⟩
      | _ => rw [hsent] at hwhole; cases hwhole
    · have hparse := parse_invalidKey (t := []) (.inl rfl) hkey (eq_false_of_ne_true hvalid)
      rw [List.append_nil] at hparse
      rw [h, hparse] at hextend
      cases hsent : parse sent with
      | invalidKey k rest => exact ⟨rfl, False.elim⟩
      | _ => rw [hsent] at hextend; cases hextend

/-! ## The conversation -/

section

variable {k : Kernel} {m t : Machine}

theorem runMain_ok {α : Type} {x : ProgramM α} {f : α → ProgramM UInt8} {a : α}
    (h : x m = .ok a t) : runMain (x >>= f) m = runMain (f a) t := by
  rw [runMain, bind_ok h, runMain]

theorem runMain_error {α : Type} {x : ProgramM α} {f : α → ProgramM UInt8} {ending : Ending}
    (h : x m = .error ending t) : runMain (x >>= f) m = (ending, t) := by
  rw [runMain, bind_error h]

theorem exists_runMain {main : ProgramM UInt8} {ending : Ending}
    (h : (runMain main m).1 = ending) : ∃ t, runMain main m = (ending, t) :=
  ⟨_, Prod.ext h rfl⟩

theorem database_runMain {main : ProgramM UInt8}
    (h : Keeps (fun t : Machine => t.database = m.database) main) :
    (runMain main m).2.database = m.database := by
  have hkept := h m rfl
  rw [runMain]
  cases hmain : main m <;> rw [hmain] at hkept <;> exact hkept

theorem keeps_print (db : Database) (text : List UInt8) :
    Keeps (fun t : Machine => t.database = db) (print text) := fun _ h => h

theorem keeps_complain (db : Database) (text : List UInt8) :
    Keeps (fun t : Machine => t.database = db) (complain text) := fun _ h => h

theorem sendRequest_cases (request : EasyKeyV1Request) (m : Machine) :
    (∃ ending t, sendRequest k request m = .error ending t ∧ ending ≠ .exited 0 ∧
        t.database = m.database) ∨
      ∃ sent more t, sent ++ more = request.encode ∧
        sendRequest k request m = .ok (serve k.append m.database sent).2 t ∧
        t.database = (serve k.append m.database sent).1 := by
  by_cases hshort : request.length < 2 ^ 32
  · rw [sendRequest, writeRequest_eq hshort]
    by_cases hfailed : k.write = .failed
    · rw [hfailed]
      exact .inl ⟨.exited 1, _, rfl, by decide, rfl⟩
    · let sent := request.encode.take (k.write.transferred request.length)
      refine .inr ⟨sent, _, { m with database := (serve k.append m.database sent).1 },
        List.take_append_drop _ _, ?_, rfl⟩
      simp only [hfailed, if_false, ne_eq, not_false_eq_true, decide_true]
      rfl
  · have hnone : writeRequest request k.write = none := by
      rw [writeRequest, encodeRequest_eq_none (Nat.le_of_not_lt hshort)]
      rfl
    rw [sendRequest, hnone]
    exact .inl ⟨.outsideBuffer, m, rfl, by decide, rfl⟩

def concluded (k : Kernel) (messages : List Message) (answer : List UInt8) : ProgramM UInt8 := do
  let response ← printServerResponse (← receiveResponse k answer)
  let success := response.statusCode = ResponseStatus.ok.code.toUInt32
  freeEasykeyRequest messages
  return if success then 0 else 1

theorem keeps_concluded (db : Database) (messages : List Message) (answer : List UInt8) :
    Keeps (fun t : Machine => t.database = db) (concluded k messages answer) := by
  have hreceive : Keeps (fun t : Machine => t.database = db) (receiveResponse k answer) := by
    unfold receiveResponse
    split
    · exact (keeps_complain db _).bind fun _ => .pure _
    · exact .pure _
  have hprint : ∀ reply, Keeps (fun t : Machine => t.database = db)
      (printServerResponse reply) := by
    intro reply
    refine (keeps_print db _).bind fun _ => ?_
    cases reply with
    | none => exact .throw _
    | some reply => exact (keeps_print db _).bind fun _ => .pure _
  have hfree : Keeps (fun t : Machine => t.database = db) (freeEasykeyRequest messages) := by
    refine .forM fun message _ => ?_
    cases message.owner with
    | allocated => exact .pure _
    | arguments => exact .throw _
  exact hreceive.bind fun _ => (hprint _).bind fun _ => hfree.bind fun _ => .pure _

theorem freeEasykeyRequest_cases (messages : List Message) (m : Machine) :
    freeEasykeyRequest messages m = .ok () m ∧
        (∀ message ∈ messages, message.owner = .allocated) ∨
      freeEasykeyRequest messages m = .error .invalidFree m := by
  induction messages with
  | nil => exact .inl ⟨rfl, nofun⟩
  | cons message messages ih =>
      obtain ⟨owner, content⟩ := message
      cases owner with
      | arguments => exact .inr rfl
      | allocated =>
          have hnext : freeEasykeyRequest (⟨.allocated, content⟩ :: messages) m =
              freeEasykeyRequest messages m := rfl
          rw [hnext]
          rcases ih with ⟨hfree, hall⟩ | hfree
          · exact .inl ⟨hfree, List.forall_mem_cons.mpr ⟨rfl, hall⟩⟩
          · exact .inr hfree

/-- A program that ends with 0 has read the status 1, and has freed what is its own. -/
theorem concluded_zero {messages : List Message} {answer : List UInt8}
    (h : (runMain (concluded k messages answer) m).1 = .exited 0) :
    answer[6]? = some 1 ∧ ∀ message ∈ messages, message.owner = .allocated := by
  cases hread : readResponse k.header k.body answer with
  | error text rest =>
      have hreceive : receiveResponse k answer m =
          .ok none { m with complaints := m.complaints ++ [ascii text] } := by
        rw [receiveResponse, hread]
        rfl
      rw [concluded, runMain_ok hreceive] at h
      cases h
  | ok response rest =>
      have hreceive : receiveResponse k answer m = .ok (some response) m := by
        rw [receiveResponse, hread]
        rfl
      have hprint : ∃ t, printServerResponse (some response) m = .ok response t := ⟨_, rfl⟩
      obtain ⟨t, hprint⟩ := hprint
      rw [concluded, runMain_ok hreceive, runMain_ok hprint] at h
      rcases freeEasykeyRequest_cases messages t with ⟨hfree, hall⟩ | hfree
      · rw [runMain_ok hfree] at h
        have hstatus : (if response.statusCode = ResponseStatus.ok.code.toUInt32 then 0 else 1) =
            (0 : UInt8) := Ending.exited.inj h
        split_ifs at hstatus with hone
        · exact ⟨status_of_readResponse hread hone, hall⟩
        · exact absurd hstatus (by decide)
      · rw [runMain_error hfree] at h
        cases h

/-- The end of a conversation: the server has been asked for nothing, or has found some of
the request; and an end with 0 tells that it has granted that. -/
theorem converse_end {messages : List Message} (few : messages.length < 256) {ending : Ending}
    (h : runMain (converse k messages few) m = (ending, t)) :
    t.database = m.database ∧ ending ≠ .exited 0 ∨
      ∃ sent more, sent ++ more = (madeRequest messages few).encode ∧
        t.database = (parse sent).database k.append m.database ∧
        (ending = .exited 0 → Granted m.database (parse sent) ∧
          ∀ message ∈ messages, message.owner = .allocated) := by
  have hconverse : converse k messages few =
      sendRequest k (madeRequest messages few) >>= concluded k messages := rfl
  rw [hconverse] at h
  rcases sendRequest_cases (k := k) (madeRequest messages few) m with
    ⟨error, m', hsend, herror, hdatabase⟩ | ⟨sent, more, m', hcut, hsend, hdatabase⟩
  · rw [runMain_error hsend] at h
    cases h
    exact .inl ⟨hdatabase, herror⟩
  · rw [runMain_ok hsend, serve_eq _ _ rfl] at h
    rw [serve_eq _ _ rfl] at hdatabase
    refine .inr ⟨sent, more, hcut, ?_, ?_⟩
    · have hkept := database_runMain (m := m') (keeps_concluded (k := k) m'.database messages
        (((parse sent).calls m.database).flatMap fun call => call.acceptedBy .complete))
      rw [h] at hkept
      exact hkept.trans hdatabase
    · rintro rfl
      obtain ⟨hstatus, hall⟩ := concluded_zero (congrArg Prod.fst h)
      exact ⟨granted_of_status hstatus, hall⟩

/-! ## The programs -/

theorem connectTo_cases (hconnect : k.connect ≠ some 0) (m : Machine) :
    connectTo k m = .ok () m ∨
      ∃ ending t, connectTo k m = .error ending t ∧ ending ≠ .exited 0 ∧
        t.database = m.database := by
  unfold connectTo
  cases herrno : k.connect with
  | none => exact .inl rfl
  | some errno =>
      refine .inr ⟨.exited errno, _, rfl, ?_, rfl⟩
      rintro ⟨⟩
      exact hconnect herrno

theorem readFile_cases (k : Kernel) (name : CString) (m : Machine) :
    (∃ content, k.disk name = some content ∧ readFile k name m = .ok (fileMessage content) m) ∨
      ∃ t, readFile k name m = .error (.exited 1) t ∧ t.database = m.database := by
  unfold readFile
  cases k.disk name with
  | none => exact .inr ⟨_, rfl, rfl⟩
  | some content =>
      dsimp only
      split_ifs
      · exact .inr ⟨_, rfl, rfl⟩
      · exact .inl ⟨content, rfl, rfl⟩

/-- Every transfer may stop short: the append, and the client's two reads. -/
def stopping : Kernel where
  connect := none
  disk _ := some [7, 8]
  fread := .complete
  write := .complete
  append := .short 3
  header := .short 7
  body := .short 0

/-- What a write is to store: what is in a file, or the argument. -/
def asked (k : Kernel) (value option : CString) : Option Value :=
  if isFile option then (k.disk value).map fileValue else some value.value

/-- The write that the arguments ask for has been performed, whatever has come of its
append. -/
def Stored (k : Kernel) (arguments : List CString) (db db' : Database) : Prop :=
  ∃ keyName value option more v, arguments = keyName :: value :: option :: more ∧
    isKeyValid keyName.bytes = true ∧ asked k value option = some v ∧
    db' = db.write keyName.bytes v.bytes k.append

theorem converse_stored {keyName value option : CString} (more : List CString)
    {second : Message} {v : Value} (hsecond : second.content = Array.of v.bytes v.short)
    (hasked : asked k value option = some v)
    (few : [duplicateString keyName, second].length < 256) {ending : Ending}
    (h : runMain (converse k [duplicateString keyName, second] few) m = (ending, t)) :
    (t.database = m.database ∧ ending ≠ .exited 0 ∨
        Stored k (keyName :: value :: option :: more) m.database t.database) ∧
      (ending = .exited 0 → second.owner = .allocated) := by
  rcases converse_end few h with ⟨hdatabase, hending⟩ | ⟨sent, rest, hcut, hdatabase, hzero⟩
  · exact ⟨.inl ⟨hdatabase, hending⟩, fun hok => absurd hok hending⟩
  · refine ⟨?_, fun hok => (hzero hok).2 second (by simp)⟩
    rw [encode_write keyName hsecond] at hcut
    rcases write_of_cut hcut keyName.length_lt v.short k.append m.database with
      ⟨hsame, hrefused⟩ | ⟨hvalid, hwritten⟩
    · exact .inl ⟨hdatabase.trans hsame, fun hok => hrefused (hzero hok).1⟩
    · exact .inr ⟨keyName, value, option, more, v, rfl, hvalid, hasked, hdatabase.trans hwritten⟩

end

end EasyKeyDB.Client
