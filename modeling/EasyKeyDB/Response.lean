import EasyKeyDB.Library.LittleEndian

/-!
# Responses

`write_dynamic_content`, the header of the zero-copy reply, and the texts of
`parse_request`. A response is framed when it is a status message and a body,
both length-prefixed; `frame` is that format and `IsResponse` recognises it.

`ClientSocket::write` takes its size as a `uint32_t`, and the size field of a
response is 32 bits wide. `Fits` is the condition on the length of a body under
which the two cuts agree (`isResponse_text_iff`).
-/

namespace EasyKeyDB

open LittleEndian

inductive ResponseStatus
  | ok
  | clientError
  | serverError
deriving DecidableEq, Repr

def ResponseStatus.code : ResponseStatus → UInt8
  | .ok => 0x01
  | .clientError => 0x02
  | .serverError => 0x03

theorem ResponseStatus.code_injective : Function.Injective ResponseStatus.code := by
  intro a b h
  cases a <;> cases b <;> first | rfl | cases h

def ascii (s : String) : List UInt8 := s.toUTF8.data.toList

def writeDynamicContent (status : ResponseStatus) (content : List UInt8) : List UInt8 :=
  -- version, number of messages, size of the status message, status
  [0x01, 2, 1, 0, 0, 0, status.code] ++
  [UInt8.ofNat content.length, UInt8.ofNat (content.length >>> 8),
    UInt8.ofNat (content.length >>> 16), UInt8.ofNat (content.length >>> 24)] ++
  content

def successHeader : List UInt8 := [0x01, 0x02, 0x01, 0x00, 0x00, 0x00, 0x01]

/-! ## The texts -/

def onlyFirstVersion : List UInt8 :=
  ascii "Only the first version of Know Nothing is supported!"

def oneOrTwoMessages : List UInt8 :=
  ascii "Invalid EasyKey Message! Allowed is 1 or 2 Messages!"

def keyNotValid (key : List UInt8) : List UInt8 :=
  ascii "The key: " ++ key ++ ascii " is not valid! Must be alphanumeric!"

def keyNotFound (key : List UInt8) : List UInt8 :=
  ascii "The key " ++ key ++ ascii " was not found!"

def keyWritten (key : List UInt8) : List UInt8 :=
  ascii "The key: " ++ key ++ ascii " was successfully written!"

def doesNotFollow : List UInt8 :=
  ascii "Message does not follow KnowNothing Protocol Specification!"

theorem length_keyNotValid (key : List UInt8) :
    (keyNotValid key).length = key.length + 45 := by
  have hpre : (ascii "The key: ").length = 9 := by decide
  have hpost : (ascii " is not valid! Must be alphanumeric!").length = 36 := by decide
  simp only [keyNotValid, List.length_append, hpre, hpost]
  omega

theorem length_keyNotFound (key : List UInt8) :
    (keyNotFound key).length = key.length + 23 := by
  have hpre : (ascii "The key ").length = 8 := by decide
  have hpost : (ascii " was not found!").length = 15 := by decide
  simp only [keyNotFound, List.length_append, hpre, hpost]
  omega

theorem length_keyWritten (key : List UInt8) :
    (keyWritten key).length = key.length + 35 := by
  have hpre : (ascii "The key: ").length = 9 := by decide
  have hpost : (ascii " was successfully written!").length = 26 := by decide
  simp only [keyWritten, List.length_append, hpre, hpost]
  omega

/-! ## Frames -/

def frame (status : ResponseStatus) (body : List UInt8) : List UInt8 :=
  [0x01, 2] ++ field 4 [status.code] ++ field 4 body

def IsResponse (status : ResponseStatus) (body bytes : List UInt8) : Prop :=
  bytes = frame status body ∧ body.length < 2 ^ 32

theorem frame_eq (status : ResponseStatus) (body : List UInt8) :
    frame status body =
      [0x01, 2] ++ field 4 [status.code] ++ encode 4 body.length ++ body :=
  (List.append_assoc _ _ _).symm

theorem field_status (status : ResponseStatus) :
    field 4 [status.code] = [1, 0, 0, 0, status.code] := by
  cases status <;> decide

theorem writeDynamicContent_eq (status : ResponseStatus) (content : List UInt8) :
    writeDynamicContent status content = frame status content := by
  rw [writeDynamicContent, List.append_assoc, frame, field_status]
  rfl

/-- The header and a stored value make the response the encoder would make. -/
theorem successHeader_append (body : List UInt8) :
    successHeader ++ field 4 body = frame .ok body := by
  rw [frame, field_status]
  rfl

@[simp] theorem length_frame (status : ResponseStatus) (body : List UInt8) :
    (frame status body).length = body.length + 11 := by
  simp [frame]
  omega

/-- Responses are a prefix code. -/
theorem frame_append_inj {a b : ResponseStatus} {u v s t : List UInt8}
    (hu : u.length < 2 ^ 32) (hv : v.length < 2 ^ 32)
    (h : frame a u ++ s = frame b v ++ t) : a = b ∧ u = v ∧ s = t := by
  have hstatus : ∀ c : UInt8, [c].length < 256 ^ 4 := fun _ => by
    rw [List.length_singleton]
    decide
  simp only [frame, List.append_assoc, List.cons_append, List.nil_append,
    List.cons.injEq, true_and] at h
  obtain ⟨hcode, h⟩ := field_append_inj (hstatus _) (hstatus _) h
  obtain ⟨hbody, hrest⟩ := field_append_inj hu hv h
  exact ⟨ResponseStatus.code_injective (List.singleton_injective hcode), hbody, hrest⟩

/-! ## Text replies -/

/-- What `socket.write(response.data(), response.size(), false)` hands to
`::send`: the size is cut to 32 bits on the way. -/
def textReply (status : ResponseStatus) (text : List UInt8) : List UInt8 :=
  let response := writeDynamicContent status text
  response.take (UInt32.ofNat response.length).toNat

/-- The size field of a body of this length and the cut of the whole response
agree. -/
def Fits (length : Nat) : Prop := length % 2 ^ 32 + 11 < 2 ^ 32

instance (n : Nat) : Decidable (Fits n) := inferInstanceAs (Decidable (_ < _))

theorem textReply_eq (status : ResponseStatus) (text : List UInt8) :
    textReply status text = (frame status text).take ((text.length + 11) % 2 ^ 32) := by
  simp only [textReply, writeDynamicContent_eq, length_frame, UInt32.toNat_ofNat']

theorem take_frame (status : ResponseStatus) (text : List UInt8) (n : Nat) :
    (frame status text).take (n + 11) =
      [0x01, 2] ++ field 4 [status.code] ++ encode 4 text.length ++ text.take n := by
  have hhead : ([0x01, 2] ++ field 4 [status.code] ++ encode 4 text.length).length = 11 := by
    simp
  rw [frame_eq, List.take_append, hhead, List.take_of_length_le (by omega)]
  rfl

theorem isResponse_textReply {status : ResponseStatus} {text : List UInt8}
    (h : Fits text.length) :
    IsResponse status (text.take (text.length % 2 ^ 32)) (textReply status text) := by
  have hcut : (text.length + 11) % 2 ^ 32 = text.length % 2 ^ 32 + 11 := by
    rw [Nat.add_mod, Nat.mod_eq_of_lt (a := 11) (by omega), Nat.mod_eq_of_lt h]
  have hbody : (text.take (text.length % 2 ^ 32)).length = text.length % 2 ^ 32 := by
    rw [List.length_take]
    exact Nat.min_eq_left (Nat.mod_le _ _)
  refine ⟨?_, by rw [hbody]; exact Nat.mod_lt _ (by omega)⟩
  rw [textReply_eq, hcut, take_frame, frame_eq, hbody]
  rw [show encode 4 (text.length % 2 ^ 32) = encode 4 text.length from encode_mod 4 _]

theorem textReply_of_lt {status : ResponseStatus} {text : List UInt8}
    (h : text.length + 11 < 2 ^ 32) : textReply status text = frame status text := by
  rw [textReply_eq, Nat.mod_eq_of_lt h, List.take_of_length_le]
  rw [length_frame]

theorem isResponse_text_iff {status : ResponseStatus} {text : List UInt8} :
    (∃ status' body, IsResponse status' body (textReply status text)) ↔
      Fits text.length := by
  constructor
  · rintro ⟨status', body, hframe, -⟩
    have hlen := congrArg List.length hframe
    rw [textReply_eq, List.length_take, length_frame, length_frame] at hlen
    have hmod := Nat.add_mod text.length 11 (2 ^ 32)
    have hlt := Nat.mod_lt text.length (show 2 ^ 32 > 0 by omega)
    unfold Fits
    omega
  · exact fun h => ⟨status, _, isResponse_textReply h⟩

/-- A text reply that is a whole frame has the status and the beginning of the
text of that frame. -/
theorem textReply_eq_frame {a b : ResponseStatus} {u v : List UInt8}
    (h : textReply a u = frame b v) : a = b ∧ v <+: u := by
  have hcut := List.take_append_drop ((u.length + 11) % 2 ^ 32) (frame a u)
  rw [← textReply_eq, h] at hcut
  have hstatus : ∀ c w s, (frame c w ++ s)[6]? = some c.code := by
    intro c w s
    rw [frame, field_status]
    rfl
  have hbody : ∀ c w s, (frame c w ++ s).drop 11 = w ++ s := by
    intro c w s
    rw [frame, field_status]
    rfl
  constructor
  · have hcode := hstatus a u []
    rw [List.append_nil, ← hcut, hstatus] at hcode
    exact ResponseStatus.code_injective (Option.some.inj hcode).symm
  · have hwhole := hbody a u []
    rw [List.append_nil, ← hcut, hbody, List.append_nil] at hwhole
    exact ⟨_, hwhole⟩

end EasyKeyDB
