import EasyKeyDB.Client
import EasyKeyDB.Serving

/-!
# Responses of the client library

`read_response` takes a frame with two `read` calls and does not look at how
much either returned. What a short read leaves in its zeroed buffer passes for
zeros, and what it leaves in the stream passes for the beginning of the next
frame (`readResponse_leftover`). So successive calls return successive frames
exactly when every frame but the last is read in full, and what is missing of
the last one is zeros (`decoded_iff`).

With full reads the client gets from the zero-copy reply the value that the
index entry of the key stands for (`storedReply_agrees`).
-/

namespace EasyKeyDB.Client

open LittleEndian FixedBuffer Throwing

/-! ## The header -/

def header (status : ResponseStatus) (size : Nat) : List UInt8 :=
  [0x01, 2, 1, 0, 0, 0, status.code] ++ encode 4 size

theorem length_header (status : ResponseStatus) (size : Nat) : (header status size).length = 11 :=
  rfl

theorem frame_eq_header (status : ResponseStatus) (body : List UInt8) :
    frame status body = header status body.length ++ body := by
  rw [frame, field_status, header, field, List.append_assoc, List.append_assoc]
  rfl

/-- The first read has returned `count` bytes of a header. -/
def padded (status : ResponseStatus) (size count : Nat) : List UInt8 :=
  (header status size).take count ++ List.replicate (11 - count) 0

theorem getD_padded (status : ResponseStatus) (size : Nat) {count i : Nat} (hcount : count ≤ 11) :
    (padded status size count).getD i 0 =
      if i < count then (header status size).getD i 0 else 0 := by
  have htaken : ((header status size).take count).length = count := by
    rw [List.length_take, length_header]
    omega
  rw [padded]
  by_cases hi : i < count
  · rw [if_pos hi, List.getD_append _ _ _ _ (by omega), List.getD_eq_getElem?_getD,
      List.getElem?_take_of_lt hi, ← List.getD_eq_getElem?_getD]
  · rw [if_neg hi, List.getD_append_right _ _ _ _ (by omega), List.getD_eq_getElem?_getD,
      List.getElem?_replicate]
    split_ifs <;> rfl

/-- Of the size, the client sees the bytes that were returned. -/
theorem toNat_valueSize_padded (status : ResponseStatus) (size : Nat) {count : Nat}
    (hlow : 7 ≤ count) (hhigh : count ≤ 11) :
    (valueSize (padded status size count)).toNat = size % 256 ^ (count - 7) := by
  obtain ⟨k, rfl⟩ := Nat.exists_eq_add_of_le hlow
  have hdrop : (padded status size (7 + k)).drop 7 =
      encode k size ++ List.replicate (4 - k) 0 := by
    rw [padded, header, List.take_append, List.take_of_length_le (by simp),
      show 7 + k - [0x01, 2, 1, 0, 0, 0, status.code].length = k by simp,
      take_encode (by omega), List.append_assoc, show 11 - (7 + k) = 4 - k by omega]
    rfl
  have hlength : (padded status size (7 + k)).length = 11 := by
    simp only [padded, List.length_append, List.length_take, length_header,
      List.length_replicate]
    omega
  have hbytes : [(padded status size (7 + k)).getD 7 0, (padded status size (7 + k)).getD 8 0,
      (padded status size (7 + k)).getD 9 0, (padded status size (7 + k)).getD 10 0] =
        (padded status size (7 + k)).drop 7 := by
    apply List.ext_getElem
    · rw [List.length_drop, hlength]
      rfl
    · intro i hi _
      rw [List.getElem_drop]
      rcases i with _ | _ | _ | _ | i
      iterate 4 · simp [hlength]
      · exact absurd hi (by simp)
  rw [toNat_valueSize, hbytes, hdrop, decode_append_zeros, decode_encode, Nat.add_sub_cancel_left]

/-! ## One call -/

/-- A `read` that finds something to read returns some of it. -/
def Serves (r : IoResult) : Prop := r ≠ .failed ∧ r.transferred 1 = 1

instance (r : IoResult) : Decidable (Serves r) := inferInstanceAs (Decidable (_ ∧ _))

theorem Serves.pos {r : IoResult} (h : Serves r) {n : Nat} (hn : 0 < n) :
    0 < r.transferred n := by
  rcases h with ⟨hfailed, hone⟩
  cases r with
  | complete => exact hn
  | short m =>
      simp only [IoResult.transferred] at hone ⊢
      omega
  | failed => exact absurd rfl hfailed

theorem readInto_run {r : IoResult} (hr : r ≠ .failed) (n : Nat) (s : List UInt8) :
    readInto n r s = .ok
      ⟨overlay (List.replicate n 0) (s.take (r.transferred (min n s.length))),
        length_readInto n r s⟩ (s.drop (r.transferred (min n s.length))) := by
  cases r with
  | complete => rfl
  | short m => rfl
  | failed => exact absurd rfl hr

theorem readResponse_run {h b : IoResult} (hh : h ≠ .failed) {s rest buffer : List UInt8}
    (hrest : s.drop (h.transferred (min 11 s.length)) = rest)
    (hbuffer : overlay (List.replicate 11 0) (s.take (h.transferred (min 11 s.length))) =
      buffer) :
    readResponse h b s =
      if buffer.getD 1 0 ≠ 2 then
        .error "Server returned an invalid number of messages!\n" rest
      else
        (do
          let array ← readInto (valueSize buffer).toNat b
          return ⟨(buffer.getD 0 0).toUInt32, (buffer.getD 6 0).toUInt32,
            ⟨valueSize buffer, array.1, array.2⟩⟩ : SocketM EasyKeyV1Response) rest := by
  subst hrest hbuffer
  rw [readResponse, bind_ok (readInto_run hh 11 s)]
  split_ifs <;> rfl

theorem take_append_zeros_iff (v : List UInt8) (n : Nat) :
    v.take n ++ List.replicate (v.length - n) 0 = v ↔ ∀ byte ∈ v.drop n, byte = 0 := by
  conv_lhs => rhs; rw [← List.take_append_drop n v]
  rw [List.append_cancel_left_eq, eq_comm, List.eq_replicate_iff]
  exact and_iff_right (List.length_drop ..)

/-- A list that is its own beginning behind some zeros consists of zeros. -/
theorem zeros_of_shifted {v t : List UInt8} {z taken : Nat} (hz : 0 < z)
    (htaken : taken ≤ v.length)
    (h : (List.replicate z 0 ++ (v ++ t)).take taken ++
      List.replicate (v.length - taken) 0 = v) : ∀ byte ∈ v, byte = 0 := by
  have hlength : ((List.replicate z 0 ++ (v ++ t)).take taken).length = taken := by
    rw [List.length_take, List.length_append, List.length_append]
    omega
  have hget : ∀ i, v.getD i 0 = 0 := by
    intro i
    induction i using Nat.strong_induction_on with
    | _ i ih =>
        rw [← h]
        by_cases hi : i < taken
        · rw [List.getD_append _ _ _ _ (by omega), List.getD_eq_getElem?_getD,
            List.getElem?_take_of_lt hi, ← List.getD_eq_getElem?_getD]
          by_cases hiz : i < z
          · rw [List.getD_append _ _ _ _ (by rwa [List.length_replicate]),
              List.getD_eq_getElem?_getD, List.getElem?_replicate_of_lt hiz]
            rfl
          · -- Here the byte is one that comes `z` places earlier in `v`.
            rw [List.getD_append_right _ _ _ _ (by rw [List.length_replicate]; omega),
              List.length_replicate, List.getD_append _ _ _ _ (by omega)]
            exact ih (i - z) (by omega)
        · rw [List.getD_append_right _ _ _ _ (by omega), List.getD_eq_getElem?_getD,
            List.getElem?_replicate]
          split_ifs <;> rfl
  intro byte hbyte
  obtain ⟨i, hi, rfl⟩ := List.mem_iff_getElem.mp hbyte
  rw [← List.getD_eq_getElem _ 0 hi]
  exact hget i

/-! ## Frames and reads -/

/-- A response on the stream, and what the two reads of the call that takes it
do. -/
structure Delivery where
  status : ResponseStatus
  value : Value
  header : IoResult
  body : IoResult
  headerServed : Serves header
  bodyServed : Serves body

namespace Delivery

def frame (x : Delivery) : List UInt8 := EasyKeyDB.frame x.status x.value.bytes

def response (x : Delivery) : EasyKeyV1Response where
  version := protocolV1
  statusCode := x.status.code.toUInt32
  value := Array.of x.value.bytes x.value.short

def headerCount (x : Delivery) : Nat := x.header.transferred 11

def bodyCount (x : Delivery) : Nat := x.body.transferred x.value.bytes.length

/-- Both reads return all they are asked for. -/
def Full (x : Delivery) : Prop :=
  x.headerCount = 11 ∧ x.bodyCount = x.value.bytes.length

instance (x : Delivery) : Decidable x.Full := inferInstanceAs (Decidable (_ ∧ _))

/-- What the reads do not return is zeros: the end of the value; or, behind the
status, the end of the header and the whole value. -/
def Recovered (x : Delivery) : Prop :=
  (x.headerCount = 11 ∧ ∀ byte ∈ x.value.bytes.drop x.bodyCount, byte = 0) ∨
    (7 ≤ x.headerCount ∧ x.headerCount < 11 ∧
      x.value.bytes.length < 256 ^ (x.headerCount - 7) ∧ ∀ byte ∈ x.value.bytes, byte = 0)

theorem headerCount_pos (x : Delivery) : 0 < x.headerCount := x.headerServed.pos (by decide)

theorem headerCount_le (x : Delivery) : x.headerCount ≤ 11 := x.header.transferred_le 11

theorem bodyCount_le (x : Delivery) : x.bodyCount ≤ x.value.bytes.length :=
  x.body.transferred_le _

theorem Full.recovered {x : Delivery} (h : x.Full) : x.Recovered := by
  left
  refine ⟨h.1, ?_⟩
  rw [h.2, List.drop_length]
  exact fun _ => False.elim ∘ List.not_mem_nil

/-- What the first read leaves of the stream. -/
def behindHeader (x : Delivery) (t : List UInt8) : List UInt8 :=
  (Client.header x.status x.value.bytes.length).drop x.headerCount ++ (x.value.bytes ++ t)

theorem length_behindHeader (x : Delivery) (t : List UInt8) :
    (x.behindHeader t).length = 11 - x.headerCount + (x.value.bytes.length + t.length) := by
  rw [behindHeader, List.length_append, List.length_append, List.length_drop, length_header]

theorem readResponse_eq (x : Delivery) (t : List UInt8) :
    readResponse x.header x.body (x.frame ++ t) =
      if x.headerCount = 1 then
        .error "Server returned an invalid number of messages!\n" (x.behindHeader t)
      else
        (do
          let array ← readInto
            (valueSize (padded x.status x.value.bytes.length x.headerCount)).toNat x.body
          return ⟨protocolV1,
            if 7 ≤ x.headerCount then x.status.code.toUInt32 else 0,
            ⟨_, array.1, array.2⟩⟩ : SocketM EasyKeyV1Response) (x.behindHeader t) := by
  have hstream : x.frame ++ t =
      Client.header x.status x.value.bytes.length ++ (x.value.bytes ++ t) := by
    rw [frame, frame_eq_header, List.append_assoc]
  have hcount : x.header.transferred (min 11 (x.frame ++ t).length) = x.headerCount := by
    rw [hstream, List.length_append, length_header, Nat.min_eq_left (Nat.le_add_right _ _)]
    rfl
  have hle := x.headerCount_le
  have hpos := x.headerCount_pos
  have hrest : (x.frame ++ t).drop (x.header.transferred (min 11 (x.frame ++ t).length)) =
      x.behindHeader t := by
    rw [hcount, hstream, List.drop_append_of_le_length hle]
    rfl
  have hbuffer : overlay (List.replicate 11 0)
      ((x.frame ++ t).take (x.header.transferred (min 11 (x.frame ++ t).length))) =
        padded x.status x.value.bytes.length x.headerCount := by
    rw [hcount, hstream, List.take_append_of_le_length hle, overlay_replicate,
      List.length_take, length_header, Nat.min_eq_left hle]
    rfl
  -- The fields are taken from the buffer whether or not they have arrived.
  have hversion : (padded x.status x.value.bytes.length x.headerCount).getD 0 0 = 1 := by
    rw [getD_padded _ _ hle, if_pos hpos]
    rfl
  have hnumber : (padded x.status x.value.bytes.length x.headerCount).getD 1 0 =
      if 1 < x.headerCount then 2 else 0 := getD_padded _ _ hle
  have hstatus : (padded x.status x.value.bytes.length x.headerCount).getD 6 0 =
      if 7 ≤ x.headerCount then x.status.code else 0 := getD_padded _ _ hle
  rw [readResponse_run x.headerServed.1 hrest hbuffer, hversion, hnumber, hstatus]
  by_cases hone : x.headerCount = 1
  · rw [if_pos hone, hone]
    rfl
  · rw [if_neg hone, if_pos (show 1 < x.headerCount by omega)]
    by_cases hseven : 7 ≤ x.headerCount
    · rw [if_pos hseven, if_pos hseven]
      rfl
    · rw [if_neg hseven, if_neg hseven]
      rfl

/-- What the client takes for the value: bytes of the stream behind the header it
has read, as many as the size it has read says, or fewer and then zeros. -/
theorem readResponse_value (x : Delivery) (t : List UInt8) (hseven : 7 ≤ x.headerCount)
    {size taken : Nat} (hsize : x.value.bytes.length % 256 ^ (x.headerCount - 7) = size)
    (htaken : x.body.transferred size = taken) :
    ∃ array : Array, readResponse x.header x.body (x.frame ++ t) =
        .ok ⟨protocolV1, x.status.code.toUInt32, array⟩ ((x.behindHeader t).drop taken) ∧
      array.array = (x.behindHeader t).take taken ++ List.replicate (size - taken) 0 := by
  have hvalue := toNat_valueSize_padded x.status x.value.bytes.length hseven x.headerCount_le
  rw [hsize] at hvalue
  have hlong : size ≤ (x.behindHeader t).length := by
    have hle := Nat.mod_le x.value.bytes.length (256 ^ (x.headerCount - 7))
    rw [x.length_behindHeader]
    omega
  have htook : ((x.behindHeader t).take taken).length = taken := by
    rw [List.length_take, ← htaken]
    exact Nat.min_eq_left ((x.body.transferred_le size).trans hlong)
  have hread : x.body.transferred (min
      (valueSize (padded x.status x.value.bytes.length x.headerCount)).toNat
        (x.behindHeader t).length) = taken := by
    rw [hvalue, Nat.min_eq_left hlong, htaken]
  refine ⟨⟨valueSize (padded x.status x.value.bytes.length x.headerCount), _,
    length_readInto _ x.body (x.behindHeader t)⟩, ?_, ?_⟩
  · rw [x.readResponse_eq, if_neg (by omega), if_pos hseven]
    rw [bind_ok (readInto_run x.bodyServed.1 _ _)]
    simp only [hread]
    rfl
  · show overlay _ _ = _
    rw [overlay_replicate, hread, htook, hvalue]

theorem behindHeader_of_whole (x : Delivery) (t : List UInt8) (h : x.headerCount = 11) :
    x.behindHeader t = x.value.bytes ++ t := by
  rw [behindHeader, h, ← length_header x.status x.value.bytes.length, List.drop_length,
    List.nil_append]

theorem behindHeader_of_short (x : Delivery) (t : List UInt8) (hseven : 7 ≤ x.headerCount)
    (hsize : x.value.bytes.length < 256 ^ (x.headerCount - 7)) :
    x.behindHeader t = List.replicate (11 - x.headerCount) 0 ++ (x.value.bytes ++ t) := by
  have hle := x.headerCount_le
  obtain ⟨k, hk⟩ := Nat.exists_eq_add_of_le hseven
  rw [hk, Nat.add_sub_cancel_left] at hsize
  have hdrop : (Client.header x.status x.value.bytes.length).drop (7 + k) =
      (encode (k + (4 - k)) x.value.bytes.length).drop k := by
    rw [show k + (4 - k) = 4 by omega, ← List.drop_drop]
    rfl
  rw [behindHeader, hk, hdrop, drop_encode, Nat.div_eq_of_lt hsize, encode_of_zero,
    show 11 - (7 + k) = 4 - k by omega]

/-- The header has been read: the end of the value is missing. -/
theorem value_eq_iff_of_whole {x : Delivery} (hwhole : x.headerCount = 11) (t : List UInt8)
    {size taken : Nat} (hsize : x.value.bytes.length % 256 ^ (x.headerCount - 7) = size)
    (htaken : x.body.transferred size = taken) :
    (x.behindHeader t).take taken ++ List.replicate (size - taken) 0 = x.value.bytes ↔
      ∀ byte ∈ x.value.bytes.drop x.bodyCount, byte = 0 := by
  have hmod : size = x.value.bytes.length := by
    rw [← hsize, hwhole]
    exact Nat.mod_eq_of_lt x.value.short
  obtain rfl : x.bodyCount = taken := by
    rw [← htaken, hmod]
    rfl
  rw [x.behindHeader_of_whole t hwhole, List.take_append_of_le_length x.bodyCount_le, hmod]
  exact take_append_zeros_iff x.value.bytes x.bodyCount

/-- The header has been cut: bytes of the size are missing, and what the second
read returns begins with them. -/
theorem value_eq_iff_of_cut {x : Delivery} (hseven : 7 ≤ x.headerCount)
    (hcut : x.headerCount < 11) (t : List UInt8) {size taken : Nat}
    (hsize : x.value.bytes.length % 256 ^ (x.headerCount - 7) = size)
    (htaken : x.body.transferred size = taken) :
    (x.behindHeader t).take taken ++ List.replicate (size - taken) 0 = x.value.bytes ↔
      x.value.bytes.length < 256 ^ (x.headerCount - 7) ∧ ∀ byte ∈ x.value.bytes, byte = 0 := by
  have hbody : taken ≤ size := by
    rw [← htaken]
    exact x.body.transferred_le size
  have hless : size ≤ x.value.bytes.length := by
    rw [← hsize]
    exact Nat.mod_le _ _
  constructor
  · intro h
    have hlength := congrArg List.length h
    rw [List.length_append, List.length_replicate, List.length_take,
      x.length_behindHeader] at hlength
    have hsame : size = x.value.bytes.length := by omega
    have hlt : x.value.bytes.length < 256 ^ (x.headerCount - 7) := by
      rw [← hsame, ← hsize]
      exact Nat.mod_lt _ (Nat.pow_pos (show 256 > 0 by decide))
    -- With all of the size's lower bytes there, the missing ones are zeros.
    rw [x.behindHeader_of_short t hseven hlt, hsame] at h
    exact ⟨hlt, zeros_of_shifted (by omega) (by omega) h⟩
  · rintro ⟨hlt, hzeros⟩
    obtain rfl : x.value.bytes.length = size := by
      rw [← hsize, Nat.mod_eq_of_lt hlt]
    have hbytes := List.eq_replicate_of_mem hzeros
    have hlong : taken ≤
        (List.replicate (11 - x.headerCount + x.value.bytes.length) (0 : UInt8)).length := by
      rw [List.length_replicate]
      omega
    rw [x.behindHeader_of_short t hseven hlt, hbytes, ← List.append_assoc,
      List.replicate_append_replicate, List.length_replicate,
      List.take_append_of_le_length hlong, List.take_replicate,
      List.replicate_append_replicate]
    congr 1
    omega

/-- The value comes out right exactly when nothing but zeros is missing. -/
theorem value_eq_iff (x : Delivery) (t : List UInt8) (hseven : 7 ≤ x.headerCount)
    {size taken : Nat} (hsize : x.value.bytes.length % 256 ^ (x.headerCount - 7) = size)
    (htaken : x.body.transferred size = taken) :
    (x.behindHeader t).take taken ++ List.replicate (size - taken) 0 = x.value.bytes ↔
      x.Recovered := by
  rcases Nat.lt_or_eq_of_le x.headerCount_le with hcut | hwhole
  · rw [value_eq_iff_of_cut hseven hcut t hsize htaken]
    constructor
    · rintro ⟨hlt, hzeros⟩
      exact Or.inr ⟨hseven, hcut, hlt, hzeros⟩
    · rintro (⟨hwhole, -⟩ | ⟨-, -, hlt, hzeros⟩)
      · exact absurd hwhole (Nat.ne_of_lt hcut)
      · exact ⟨hlt, hzeros⟩
  · rw [value_eq_iff_of_whole hwhole t hsize htaken]
    constructor
    · intro hzeros
      exact Or.inl ⟨hwhole, hzeros⟩
    · rintro (⟨-, hzeros⟩ | ⟨-, hcut, -⟩)
      · exact hzeros
      · exact absurd hwhole (Nat.ne_of_lt hcut)

theorem drop_behindHeader (x : Delivery) (t : List UInt8) (h : x.Recovered) :
    ∃ z, (x.behindHeader t).drop x.bodyCount = List.replicate z 0 ++ t ∧ (z = 0 ↔ x.Full) := by
  have hbody := x.bodyCount_le
  rcases h with ⟨hwhole, hzeros⟩ | ⟨hseven, hcut, hlt, hzeros⟩
  · refine ⟨x.value.bytes.length - x.bodyCount, ?_, ?_⟩
    · rw [x.behindHeader_of_whole t hwhole, List.drop_append_of_le_length hbody,
        List.eq_replicate_of_mem hzeros, List.length_drop]
    · constructor
      · exact fun hnone => ⟨hwhole, by omega⟩
      · rintro ⟨-, hall⟩
        omega
  · refine ⟨11 - x.headerCount + x.value.bytes.length - x.bodyCount, ?_, ?_⟩
    · rw [x.behindHeader_of_short t hseven hlt, List.eq_replicate_of_mem hzeros,
        ← List.append_assoc, List.replicate_append_replicate, List.length_replicate,
        List.drop_append_of_le_length (by rw [List.length_replicate]; omega),
        List.drop_replicate]
    · constructor
      · intro hnone
        omega
      · rintro ⟨hwhole, -⟩
        omega

theorem readResponse_of_recovered {x : Delivery} (h : x.Recovered) (t : List UInt8) :
    ∃ z, readResponse x.header x.body (x.frame ++ t) =
        .ok x.response (List.replicate z 0 ++ t) ∧ (z = 0 ↔ x.Full) := by
  have hsize : 7 ≤ x.headerCount ∧
      x.value.bytes.length % 256 ^ (x.headerCount - 7) = x.value.bytes.length := by
    rcases h with ⟨hwhole, -⟩ | ⟨hseven, -, hlt, -⟩
    · rw [hwhole]
      exact ⟨by decide, Nat.mod_eq_of_lt x.value.short⟩
    · exact ⟨hseven, Nat.mod_eq_of_lt hlt⟩
  obtain ⟨array, hread, harray⟩ := x.readResponse_value t hsize.1 hsize.2 rfl
  rw [(x.value_eq_iff t hsize.1 hsize.2 rfl).mpr h] at harray
  obtain ⟨z, hleft, hfull⟩ := x.drop_behindHeader t h
  refine ⟨z, ?_, hfull⟩
  have hvalue : array = Array.of x.value.bytes x.value.short := Array.ext_array harray
  rw [← hleft, hread, hvalue]
  rfl

theorem recovered_of_readResponse {x : Delivery} {t s : List UInt8}
    (h : readResponse x.header x.body (x.frame ++ t) = .ok x.response s) : x.Recovered := by
  by_cases hseven : 7 ≤ x.headerCount
  · obtain ⟨array, hread, harray⟩ := x.readResponse_value t hseven rfl rfl
    rw [hread] at h
    have hvalue : array = Array.of x.value.bytes x.value.short :=
      congrArg EasyKeyV1Response.value (EStateM.Result.ok.inj h).1
    rw [hvalue] at harray
    exact (x.value_eq_iff t hseven rfl rfl).mp harray.symm
  · -- The status byte has not been read, and zero is no status.
    exfalso
    rw [x.readResponse_eq, if_neg hseven] at h
    split_ifs at h
    rw [bind_ok (readInto_run x.bodyServed.1 _ _)] at h
    have hstatus : (0 : UInt32) = x.status.code.toUInt32 :=
      congrArg EasyKeyV1Response.statusCode (EStateM.Result.ok.inj h).1
    cases hcode : x.status <;> rw [hcode] at hstatus <;> revert hstatus <;> decide

/-- On what a short read has left in front of a frame, a call returns `NULL`. -/
theorem readResponse_leftover (x y : Delivery) (t : List UInt8) {z : Nat} (hz : z ≠ 0) :
    ∃ rest, readResponse y.header y.body (List.replicate z 0 ++ (x.frame ++ t)) =
      .error "Server returned an invalid number of messages!\n" rest := by
  obtain ⟨z, rfl⟩ := Nat.exists_eq_succ_of_ne_zero hz
  rw [readResponse_run y.headerServed.1 rfl rfl]
  refine ⟨_, if_pos ?_⟩
  generalize y.header.transferred _ = count
  -- The second byte is a zero, or the version of the frame behind one zero.
  rw [overlay_replicate, List.replicate_succ, List.cons_append]
  rcases count with _ | _ | count
  · show (0 : UInt8) ≠ 2
    decide
  · show (0 : UInt8) ≠ 2
    decide
  · rw [List.take_succ_cons]
    rcases z with _ | z
    · show (1 : UInt8) ≠ 2
      decide
    · show (0 : UInt8) ≠ 2
      decide

end Delivery

/-! ## Successive calls -/

def wire (xs : List Delivery) : List UInt8 := xs.flatMap Delivery.frame

def readResponses (xs : List Delivery) : SocketM (List EasyKeyV1Response) :=
  xs.mapM fun x => readResponse x.header x.body

/-- The calls return the responses, and each begins where its frame begins. -/
structure Decoded (xs : List Delivery) : Prop where
  responses : ∃ s, readResponses xs (wire xs) = .ok (xs.map Delivery.response) s
  boundaries : ∀ pre x post, xs = pre ++ x :: post →
    readResponses pre (wire xs) = .ok (pre.map Delivery.response) (wire (x :: post))

/-- All frames but the last are read in full, and the last is recovered. -/
def ReadWhole (xs : List Delivery) : Prop :=
  (∀ x ∈ xs.dropLast, x.Full) ∧ ∀ x ∈ xs.getLast?, x.Recovered

theorem readResponse_of_full {x : Delivery} (h : x.Full) (t : List UInt8) :
    readResponse x.header x.body (x.frame ++ t) = .ok x.response t := by
  obtain ⟨z, hread, hz⟩ := Delivery.readResponse_of_recovered h.recovered t
  rw [hz.mpr h] at hread
  exact hread

theorem readWhole_cons {x y : Delivery} {xs : List Delivery} :
    ReadWhole (x :: y :: xs) ↔ x.Full ∧ ReadWhole (y :: xs) := by
  simp only [ReadWhole, List.dropLast_cons_cons, List.forall_mem_cons, List.getLast?_cons_cons,
    and_assoc]

theorem readWhole_of_responses {xs : List Delivery} {s : List UInt8}
    (h : readResponses xs (wire xs) = .ok (xs.map Delivery.response) s) : ReadWhole xs := by
  induction xs with
  | nil => exact ⟨nofun, nofun⟩
  | cons x xs ih =>
      obtain ⟨response, m, rest, hread, hrest, heq⟩ := mapM_cons_eq_ok h
      rw [List.map_cons, List.cons.injEq] at heq
      rcases heq with ⟨rfl, rfl⟩
      have hrecovered := Delivery.recovered_of_readResponse hread
      rcases xs with _ | ⟨y, ys⟩
      · exact ⟨nofun, by rintro _ ⟨⟩; exact hrecovered⟩
      · obtain ⟨z, hread', hfull⟩ := Delivery.readResponse_of_recovered hrecovered
          (wire (y :: ys))
        obtain rfl := end_unique hread hread'
        -- A frame that is not read to its end makes the next call fail.
        have hnone : z = 0 := by
          by_contra hz
          obtain ⟨_, _, _, hnext, -, -⟩ := mapM_cons_eq_ok hrest
          obtain ⟨_, herror⟩ := Delivery.readResponse_leftover y y (wire ys) hz
          cases hnext.symm.trans herror
        subst hnone
        exact readWhole_cons.mpr ⟨hfull.mp rfl, ih hrest⟩

theorem responses_of_readWhole {xs : List Delivery} (h : ReadWhole xs) :
    ∃ s, readResponses xs (wire xs) = .ok (xs.map Delivery.response) s := by
  induction xs with
  | nil => exact ⟨[], rfl⟩
  | cons x xs ih =>
      rcases xs with _ | ⟨y, ys⟩
      · obtain ⟨z, hread, -⟩ := Delivery.readResponse_of_recovered (h.2 x rfl) []
        exact ⟨_, mapM_cons_ok hread rfl⟩
      · obtain ⟨hfull, hrest⟩ := readWhole_cons.mp h
        obtain ⟨s, hs⟩ := ih hrest
        exact ⟨s, mapM_cons_ok (readResponse_of_full hfull _) hs⟩

/-- As long as frames are read in full, each call begins where its frame
begins. -/
theorem boundaries_of_full {pre : List Delivery} (h : ∀ x ∈ pre, x.Full) (t : List UInt8) :
    readResponses pre (wire pre ++ t) = .ok (pre.map Delivery.response) t := by
  induction pre with
  | nil => rfl
  | cons x pre ih =>
      rw [List.forall_mem_cons] at h
      have hfirst := readResponse_of_full h.1 (wire pre ++ t)
      rw [← List.append_assoc] at hfirst
      exact mapM_cons_ok hfirst (ih h.2)

/-- **Decoding a stream of responses.** However the reads are served, the calls
return the responses, frame by frame, exactly when all frames but the last are
read in full and nothing but zeros is missing of the last. -/
theorem decoded_iff (xs : List Delivery) : Decoded xs ↔ ReadWhole xs := by
  constructor
  · rintro ⟨⟨s, hs⟩, -⟩
    exact readWhole_of_responses hs
  · intro h
    refine ⟨responses_of_readWhole h, ?_⟩
    rintro pre x post rfl
    have hfull : ∀ y ∈ pre, y.Full := by
      intro y hy
      apply h.1
      rw [List.dropLast_append_of_ne_nil (by simp)]
      exact List.mem_append_left _ hy
    rw [wire, List.flatMap_append]
    exact boundaries_of_full hfull _

/-- A value of one byte, and a first read that stops short of its size. -/
def shortHeader : Delivery where
  status := .ok
  value := ⟨[9], by decide⟩
  header := .short 7
  body := .complete
  headerServed := by decide
  bodyServed := by decide

theorem shortHeader_not_decoded : ¬ Decoded [shortHeader] := by
  rintro ⟨⟨s, hs⟩, -⟩
  rcases (readWhole_of_responses hs).2 shortHeader rfl with ⟨hwhole, -⟩ | ⟨-, -, hlt, -⟩
  · exact absurd hwhole (by decide)
  · exact absurd hlt (by decide)

/-! ## The zero-copy reply -/

/-- The index entry of `k` stands for the write `w`: it points to where `w` was
appended. -/
def RecordedBy (calls : List Call) (k : List UInt8) (storage : FileStorage) (w : WriteOp) :
    Prop :=
  w.key = k ∧ ∃ pre post, writes calls = pre ++ w :: post ∧
    storage = { size := w.image.length
                offset := (bucketLog pre (bucket w.key)).length
                file := bucket w.key }

/-- **The zero-copy reply and the encoder.** After whole appends, the header and
the file range sent for a key are what the encoder makes of the value its entry
stands for, and with full reads the client gets that value. -/
theorem storedReply_agrees {calls : List Call} (hwhole : ∀ w ∈ writes calls, w.Whole)
    {k : List UInt8} {storage : FileStorage}
    (h : (Database.run calls).read k = some storage) :
    (∃ w, RecordedBy calls k storage w) ∧ ∀ w, RecordedBy calls k storage w →
      sentBytes (storedCalls (Database.run calls) storage) = writeDynamicContent .ok w.data ∧
      (∀ (key : Key) append socket t, key.bytes = k →
        socket.readBuffer.unread = (Request.read key).encode ++ t →
        ∃ after, parseRequest append ⟨Database.run calls, socket⟩ = .ok () after ∧
          after.socket.sent = socket.sent ++ storedCalls (Database.run calls) storage) ∧
      ∀ (hshort : w.data.length < 2 ^ 32) t,
        readResponse .complete .complete
            (sentBytes (storedCalls (Database.run calls) storage) ++ t) =
          .ok ⟨protocolV1, ResponseStatus.ok.code.toUInt32, Array.of w.data hshort⟩ t := by
  constructor
  · obtain ⟨pre, w, post, hsplit, -, rfl, hstorage⟩ := read_split h
    exact ⟨w, rfl, pre, post, hsplit, hstorage⟩
  · rintro w ⟨rfl, pre, post, hsplit, hstorage⟩
    have hw : w.Whole := hwhole w (by simp [hsplit])
    have hrange : (Database.run calls).range storage = w.image := by
      rw [hstorage]
      exact range_of_split hsplit hw
    have hbytes : sentBytes (storedCalls (Database.run calls) storage) = frame .ok w.data := by
      show successHeader ++ ((Database.run calls).range storage ++ []) = _
      rw [hrange, List.append_nil, WriteOp.image, successHeader_append]
    refine ⟨hbytes.trans (writeDynamicContent_eq .ok w.data).symm, ?_, ?_⟩
    · intro key append socket t hkey hunread
      obtain ⟨b', -, -, hrun⟩ := parseRequest_complete append (Database.run calls) hunread
      refine ⟨_, hrun, ?_⟩
      show socket.sent ++ readCalls (Database.run calls) key.bytes = _
      rw [readCalls, hkey, h]
    · intro hshort t
      rw [hbytes]
      exact readResponse_of_full (x := ⟨.ok, ⟨w.data, hshort⟩, .complete, .complete,
        by decide, by decide⟩) ⟨rfl, rfl⟩ t

theorem storedReply_sharedBucket :
    readResponse .complete .complete
        (sentBytes (storedCalls (Database.run sharedBucket)
          { size := 5, offset := 0, file := bucket [97] })) =
      .ok ⟨protocolV1, 1, Array.of [1] (by decide)⟩ [] := by
  have hread : (Database.run sharedBucket).read [97] =
      some { size := 5, offset := 0, file := bucket [97] } := by decide +kernel
  obtain ⟨-, hreply⟩ := storedReply_agrees (by decide) hread
  have hrecorded : RecordedBy sharedBucket [97] { size := 5, offset := 0, file := bucket [97] }
      ⟨[97], [1], .complete⟩ := ⟨rfl, [], _, rfl, rfl⟩
  obtain ⟨-, -, hclient⟩ := hreply _ hrecorded
  have hresponse := hclient (by decide) []
  rw [List.append_nil] at hresponse
  exact hresponse

end EasyKeyDB.Client
