import EasyKeyDB.Grammar

/-!
# Text replies and long keys

Three texts contain the key. The size of a text is cut to 32 bits in the header
of its response, and the size of the whole response, eleven bytes more, is cut
to 32 bits on the way to `::send`. Between the two places where they wrap, what
is sent is not a response (`fits_iff`, `textReplies_framed_iff`).
-/

namespace EasyKeyDB

open LittleEndian ByteBuffer

/-- The two cuts agree below the first place where one of them wraps, and again
from the second on. -/
theorem fits_iff {n overhead : Nat} (hn : n < 2 ^ 32) (hoverhead : overhead < 2 ^ 31) :
    Fits (n + overhead) ↔ n + overhead + 11 < 2 ^ 32 ∨ 2 ^ 32 ≤ n + overhead := by
  unfold Fits
  omega

/-- `parse_request` hands the socket one buffer, and that is one complete
response with this status. -/
def SendsFrame (append : IoResult) (db : Database) (socket : ClientSocket Chunks)
    (status : ResponseStatus) : Prop :=
  ∃ after data, parseRequest append ⟨db, socket⟩ = .ok () after ∧
    after.socket.sent = socket.sent ++ [.send data false] ∧
    ∃ body, IsResponse status body data

section

variable {append : IoResult} {db : Database} {socket : ClientSocket Chunks}
  {status : ResponseStatus} {text : List UInt8}

theorem sendsFrame_iff
    (hcalls : (parse socket.readBuffer.unread).calls db = textCalls status text) :
    SendsFrame append db socket status ↔ Fits text.length := by
  obtain ⟨b', -, hrun⟩ := parseRequest_run append db socket
  rw [hcalls] at hrun
  constructor
  · rintro ⟨after, data, hafter, hsent, body, hbody⟩
    obtain rfl := Throwing.end_unique hrun hafter
    have hdata := List.append_cancel_left hsent
    rw [textCalls, List.singleton_inj, SocketCall.send.injEq] at hdata
    rw [← hdata.1] at hbody
    exact isResponse_text_iff.mp ⟨_, _, hbody⟩
  · intro hfits
    exact ⟨_, _, hrun, rfl, _, isResponse_textReply hfits⟩

end

/-- **Text replies are responses** exactly where the two cuts agree, for each of
the three texts and every length of the key. -/
theorem textReplies_framed_iff (append : IoResult) (db : Database)
    (socket : ClientSocket Chunks) :
    (∀ (k : Key) (v : Value) t, socket.readBuffer.unread = (Request.write k v).encode ++ t →
      (SendsFrame append db socket .ok ↔
        k.bytes.length + 46 < 2 ^ 32 ∨ 2 ^ 32 ≤ k.bytes.length + 35)) ∧
    (∀ (k : Key) t, socket.readBuffer.unread = (Request.read k).encode ++ t →
      db.read k.bytes = none →
      (SendsFrame append db socket .clientError ↔
        k.bytes.length + 34 < 2 ^ 32 ∨ 2 ^ 32 ≤ k.bytes.length + 23)) ∧
    ∀ messages key t, (messages = 1 ∨ messages = 2) → key.length < 2 ^ 32 →
      isKeyValid key = false →
      socket.readBuffer.unread = [v1, messages] ++ field 4 key ++ t →
      (SendsFrame append db socket .clientError ↔
        key.length + 56 < 2 ^ 32 ∨ 2 ^ 32 ≤ key.length + 45) := by
  refine ⟨?_, ?_, ?_⟩
  · intro k v t hunread
    have hcalls : (parse socket.readBuffer.unread).calls db =
        textCalls .ok (keyWritten k.bytes) := by
      rw [hunread, parse_encode]
      rfl
    rw [sendsFrame_iff hcalls, length_keyWritten]
    exact fits_iff k.short (by decide)
  · intro k t hunread hfresh
    have hcalls : (parse socket.readBuffer.unread).calls db =
        textCalls .clientError (keyNotFound k.bytes) := by
      rw [hunread, parse_encode]
      simp only [Request.parsed, Parsed.calls, readCalls, hfresh]
    rw [sendsFrame_iff hcalls, length_keyNotFound]
    exact fits_iff k.short (by decide)
  · intro messages key t hcount hshort hkey hunread
    have hcalls : (parse socket.readBuffer.unread).calls db =
        textCalls .clientError (keyNotValid key) := by
      rw [hunread, parse_invalidKey hcount hshort hkey]
      rfl
    rw [sendsFrame_iff hcalls, length_keyNotValid]
    exact fits_iff hshort (by decide)

theorem keyA_sendsFrame :
    SendsFrame .complete Database.new (connectionWith
      (Request.write ⟨[97], by decide, by decide⟩ ⟨[1], by decide⟩).encode) .ok := by
  refine ((textReplies_framed_iff .complete Database.new _).1 ⟨[97], by decide, by decide⟩
    ⟨[1], by decide⟩ [] rfl).mpr ?_
  decide

/-- The response to this write is 2 ^ 32 bytes long, and is cut to nothing. -/
theorem wrappingKey_not_framed :
    ¬ SendsFrame .complete Database.new
      (connectionWith (Request.write wrappingKey ⟨[], by decide⟩).encode) .ok := by
  have hcalls : (parse (connectionWith
      (Request.write wrappingKey ⟨[], by decide⟩).encode).readBuffer.unread).calls Database.new =
        textCalls .ok (keyWritten wrappingKey.bytes) := by
    rw [unread_connectionWith, ← List.append_nil (Request.encode _), parse_encode]
    rfl
  rw [sendsFrame_iff hcalls, length_keyWritten]
  exact not_fits_wrappingKey

end EasyKeyDB
