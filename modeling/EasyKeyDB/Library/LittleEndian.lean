import Mathlib.Data.List.Basic
import Mathlib.Data.Nat.Bitwise
import Mathlib.Tactic.Ring

/-!
# Little-endian integers and length-prefixed fields

Two codecs over byte lists. `encode w n` lays an integer out in `w` bytes,
least significant first; `decode` reads it back. `field w v` puts the length
of `v` in front of it as such an integer, and `readField` takes one field off
the front of a stream or says which bytes it could not use.

A field delimits itself (`readField_field`, `field_append_inj`), which is all a
format built from fields needs in order to be unambiguous.
-/

namespace LittleEndian

/-! ## Integers -/

/-- The `w` little-endian bytes of `n`: byte `i` is `n >> (8 * i)`, cut to
eight bits. -/
def encode (w n : Nat) : List UInt8 :=
  (List.range w).map fun i => UInt8.ofNat (n >>> (8 * i))

/-- The integer with the given little-endian bytes. -/
def decode : List UInt8 → Nat
  | [] => 0
  | b :: bs => b.toNat + 256 * decode bs

@[simp] theorem encode_zero (n : Nat) : encode 0 n = [] := rfl

theorem encode_succ (w n : Nat) :
    encode (w + 1) n = UInt8.ofNat n :: encode w (n / 256) := by
  have shift : ∀ i, n >>> (8 * (i + 1)) = (n / 256) >>> (8 * i) := by
    intro i
    rw [Nat.mul_add, Nat.add_comm, Nat.shiftRight_add,
      Nat.shiftRight_eq_div_pow n]
  simp only [encode, List.range_succ_eq_map, List.map_cons, List.map_map]
  refine congrArg₂ _ rfl (List.map_congr_left ?_)
  intro i _
  exact congrArg UInt8.ofNat (shift i)

@[simp] theorem length_encode (w n : Nat) : (encode w n).length = w := by
  simp [encode]

@[simp] theorem decode_nil : decode [] = 0 := rfl

@[simp] theorem decode_cons (b : UInt8) (bs : List UInt8) :
    decode (b :: bs) = b.toNat + 256 * decode bs := rfl

/-- Decoding an encoded integer loses exactly what did not fit. -/
theorem decode_encode (w n : Nat) : decode (encode w n) = n % 256 ^ w := by
  induction w generalizing n with
  | zero => simp [Nat.mod_one]
  | succ w ih =>
      have low : (UInt8.ofNat n).toNat = n % 256 := by simp
      rw [encode_succ, decode_cons, ih, low, Nat.pow_succ', Nat.mod_mul]

theorem decode_encode_of_lt {w n : Nat} (h : n < 256 ^ w) :
    decode (encode w n) = n := by
  rw [decode_encode, Nat.mod_eq_of_lt h]

theorem decode_lt (bs : List UInt8) : decode bs < 256 ^ bs.length := by
  induction bs with
  | nil => simp
  | cons b bs ih =>
      have hb : b.toNat < 256 := b.toNat_lt
      rw [decode_cons, List.length_cons, Nat.pow_succ]
      omega

theorem encode_decode (bs : List UInt8) : encode bs.length (decode bs) = bs := by
  induction bs with
  | nil => rfl
  | cons b bs ih =>
      have hb : b.toNat < 256 := b.toNat_lt
      have quotient : (b.toNat + 256 * decode bs) / 256 = decode bs := by omega
      have low : UInt8.ofNat (b.toNat + 256 * decode bs) = b := by
        apply UInt8.toNat_inj.mp
        simp only [UInt8.toNat_ofNat']
        omega
      rw [List.length_cons, decode_cons, encode_succ, quotient, ih, low]

theorem decode_append (bs cs : List UInt8) :
    decode (bs ++ cs) = decode bs + 256 ^ bs.length * decode cs := by
  induction bs with
  | nil => rw [List.nil_append, decode_nil, List.length_nil, Nat.pow_zero, Nat.zero_add,
      Nat.one_mul]
  | cons b bs ih =>
      rw [List.cons_append, decode_cons, decode_cons, ih, List.length_cons, Nat.pow_succ]
      ring

/-- Wider than it needs to be or not, the encoding only sees `n` modulo its
range. -/
theorem encode_mod (w n : Nat) : encode w (n % 256 ^ w) = encode w n := by
  have h := encode_decode (encode w n)
  rwa [length_encode, decode_encode] at h

theorem take_encode {w k : Nat} (h : k ≤ w) (n : Nat) : (encode w n).take k = encode k n := by
  induction k generalizing w n with
  | zero => rfl
  | succ k ih =>
      obtain ⟨v, rfl⟩ := Nat.exists_eq_add_of_lt h
      rw [encode_succ, encode_succ, List.take_succ_cons, ih (Nat.le_add_right k v)]

theorem drop_encode (w k n : Nat) :
    (encode (k + w) n).drop k = encode w (n / 256 ^ k) := by
  induction k generalizing n with
  | zero => rw [Nat.zero_add, Nat.pow_zero, Nat.div_one, List.drop_zero]
  | succ k ih =>
      rw [Nat.add_right_comm, encode_succ, List.drop_succ_cons, ih, Nat.div_div_eq_div_mul,
        Nat.pow_succ']

theorem encode_of_zero (w : Nat) : encode w 0 = List.replicate w 0 := by
  induction w with
  | zero => rfl
  | succ w ih => rw [encode_succ, Nat.zero_div, ih, List.replicate_succ]; rfl

theorem decode_append_zeros (bs : List UInt8) (n : Nat) :
    decode (bs ++ List.replicate n 0) = decode bs := by
  induction bs with
  | nil =>
      rw [List.nil_append, ← encode_of_zero, decode_encode, Nat.zero_mod]
      rfl
  | cons b bs ih => rw [List.cons_append, decode_cons, decode_cons, ih]

/-! ## Length-prefixed fields -/

/-- `v` behind its own length in `w` bytes. -/
def field (w : Nat) (v : List UInt8) : List UInt8 :=
  encode w v.length ++ v

@[simp] theorem length_field (w : Nat) (v : List UInt8) :
    (field w v).length = w + v.length := by
  simp [field]

/-- Take one field off the front of `s`: its bytes and what follows it. On a
stream that ends too early, the bytes that are left once a complete length has
been taken. -/
def readField (w : Nat) (s : List UInt8) :
    Except (List UInt8) (List UInt8 × List UInt8) :=
  if s.length < w then .error s
  else
    let size := decode (s.take w)
    let body := s.drop w
    if body.length < size then .error body
    else .ok (body.take size, body.drop size)

theorem readField_append {w : Nat} {len : List UInt8} (hlen : len.length = w)
    (body : List UInt8) :
    readField w (len ++ body) =
      if body.length < decode len then .error body
      else .ok (body.take (decode len), body.drop (decode len)) := by
  have htake : (len ++ body).take w = len := by rw [← hlen, List.take_left]
  have hdrop : (len ++ body).drop w = body := by rw [← hlen, List.drop_left]
  have hlong : ¬ (len ++ body).length < w := by
    rw [List.length_append]; omega
  simp only [readField, if_neg hlong, htake, hdrop]

theorem readField_field {w : Nat} {v : List UInt8} (hv : v.length < 256 ^ w)
    (t : List UInt8) : readField w (field w v ++ t) = .ok (v, t) := by
  have hlong : ¬ (v ++ t).length < v.length := by
    rw [List.length_append]; omega
  rw [field, List.append_assoc, readField_append (length_encode w _),
    decode_encode_of_lt hv, if_neg hlong, List.take_left, List.drop_left]

theorem readField_ok {w : Nat} {s v t : List UInt8}
    (h : readField w s = .ok (v, t)) :
    s = field w v ++ t ∧ v.length < 256 ^ w := by
  unfold readField at h
  split at h
  · cases h
  · rename_i hlen
    simp only at h
    split at h
    · cases h
    · rename_i hbody
      simp only [Except.ok.injEq, Prod.mk.injEq] at h
      obtain ⟨rfl, rfl⟩ := h
      have htake : (s.take w).length = w := by
        rw [List.length_take]; omega
      have hsize : ((s.drop w).take (decode (s.take w))).length
          = decode (s.take w) := by
        rw [List.length_take]; omega
      have hdecode := encode_decode (s.take w)
      rw [htake] at hdecode
      constructor
      · rw [field, hsize, hdecode, List.append_assoc, List.take_append_drop,
          List.take_append_drop]
      · have hlt := decode_lt (s.take w)
        rw [htake] at hlt
        omega

theorem readField_ok_length {w : Nat} {s v t : List UInt8} (h : readField w s = .ok (v, t)) :
    t.length ≤ s.length := by
  obtain ⟨rfl, -⟩ := readField_ok h
  rw [List.length_append]
  exact Nat.le_add_left _ _

theorem readField_error_length {w : Nat} {s t : List UInt8} (h : readField w s = .error t) :
    t.length ≤ s.length := by
  unfold readField at h
  simp only at h
  split_ifs at h <;> cases h
  · exact Nat.le_refl _
  · rw [List.length_drop]
    exact Nat.sub_le _ _

theorem readField_extend {w : Nat} {s v t : List UInt8} (h : readField w s = .ok (v, t))
    (more : List UInt8) : readField w (s ++ more) = .ok (v, t ++ more) := by
  obtain ⟨rfl, hv⟩ := readField_ok h
  rw [List.append_assoc, readField_field hv]

/-- Fields are a prefix code: the first field of a stream and the rest of it
are determined by the bytes. -/
theorem field_append_inj {w : Nat} {u v s t : List UInt8}
    (hu : u.length < 256 ^ w) (hv : v.length < 256 ^ w)
    (h : field w u ++ s = field w v ++ t) : u = v ∧ s = t := by
  have hread := readField_field hu s
  rw [h, readField_field hv t] at hread
  simp only [Except.ok.injEq, Prod.mk.injEq] at hread
  exact ⟨hread.1.symm, hread.2.symm⟩

end LittleEndian
