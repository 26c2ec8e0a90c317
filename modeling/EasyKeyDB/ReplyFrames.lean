import EasyKeyDB.Grammar
import EasyKeyDB.Serving

/-!
# Replies that are complete responses

Whether the reply to a request is one frame is decided before the request is served
(`Parsed.isFrame_calls_iff`): a text must fit, and what the index has recorded for a key
that is read must be a value behind its size.
-/

namespace EasyKeyDB

open LittleEndian ByteBuffer Database

/-- One complete response. -/
def IsFrame (bytes : List UInt8) : Prop := ∃ status body, IsResponse status body bytes

/-- A value behind its size is where the entry points to. -/
def HoldsValue (db : Database) (storage : FileStorage) : Prop :=
  ∃ v : Value, db.range storage = field 4 v.bytes

/-- When the reply to what has been found is a complete response: the numbers are the
lengths of the texts around the key. -/
def Parsed.ReplyWhole (db : Database) : Parsed → Prop
  | read key _ => (db.read key = none → Fits (key.length + 23)) ∧
      ∀ storage, db.read key = some storage → HoldsValue db storage
  | write key _ _ => Fits (key.length + 35)
  | invalidKey key _ => Fits (key.length + 45)
  | unsupportedVersion _ | invalidCount _ | truncated _ => True

abbrev Request.ReplyWhole (db : Database) (q : Request) : Prop := (q.parsed []).ReplyWhole db

section

variable {db : Database}

theorem sentBytes_append (calls more : List SocketCall) :
    sentBytes (calls ++ more) = sentBytes calls ++ sentBytes more := List.flatMap_append

theorem isFrame_textCalls_iff {status : ResponseStatus} {text : List UInt8} :
    IsFrame (sentBytes (textCalls status text)) ↔ Fits text.length := by
  rw [sentBytes_textCalls]
  exact isResponse_text_iff

/-- The header of the zero-copy reply leaves the body to the file. -/
theorem isFrame_storedCalls_iff {storage : FileStorage} :
    IsFrame (sentBytes (storedCalls db storage)) ↔ HoldsValue db storage := by
  have hsent : sentBytes (storedCalls db storage) = successHeader ++ db.range storage :=
    congrArg (successHeader ++ ·) (List.append_nil _)
  rw [hsent]
  constructor
  · rintro ⟨status, body, hframe, hshort⟩
    rw [frame, field_status] at hframe
    exact ⟨⟨body, hshort⟩, List.append_inj_right hframe rfl⟩
  · rintro ⟨v, hv⟩
    rw [hv, successHeader_append]
    exact ⟨.ok, v.bytes, rfl, v.short⟩

/-- **Complete replies.** -/
theorem Parsed.isFrame_calls_iff {p : Parsed} :
    IsFrame (sentBytes (p.calls db)) ↔ p.ReplyWhole db := by
  cases p with
  | unsupportedVersion rest =>
      exact isFrame_textCalls_iff.trans (iff_true_intro fits_onlyFirstVersion)
  | invalidCount rest =>
      exact isFrame_textCalls_iff.trans (iff_true_intro fits_oneOrTwoMessages)
  | truncated rest => exact isFrame_textCalls_iff.trans (iff_true_intro fits_doesNotFollow)
  | invalidKey key rest =>
      rw [ReplyWhole, ← length_keyNotValid]
      exact isFrame_textCalls_iff
  | write key value rest =>
      rw [ReplyWhole, ← length_keyWritten]
      exact isFrame_textCalls_iff
  | read key rest =>
      rw [ReplyWhole, ← length_keyNotFound, calls, readCalls]
      cases hread : db.read key with
      | none =>
          simp only [true_implies, reduceCtorEq, false_implies, implies_true, and_true]
          exact isFrame_textCalls_iff
      | some storage =>
          simp only [reduceCtorEq, false_implies, true_and, Option.some.injEq, forall_eq']
          exact isFrame_storedCalls_iff

theorem Request.calls_parsed (q : Request) (rest : List UInt8) :
    (q.parsed rest).calls db = q.answer db := by
  cases q <;> rfl

theorem Request.isFrame_answer_iff {q : Request} :
    IsFrame (sentBytes (q.answer db)) ↔ q.ReplyWhole db := by
  rw [← q.calls_parsed []]
  exact Parsed.isFrame_calls_iff

end

end EasyKeyDB
