import EasyKeyDB.Serving
import EasyKeyDB.Grammar

/-!
# Packets as `KnowNothing.md` lays them out

The document puts the sizes of all messages in front of the first message. The server and
the clients have each message behind its own size. A packet with one message is the same
in both layouts, one with two is not: the server takes the size of the value for the
beginning of the key. A client that follows the document can read, but whatever it
writes is turned down (`documented_never_writes`).
-/

namespace EasyKeyDB

open ByteBuffer LittleEndian

/-- The version, the number of the messages, their sizes, and the messages. -/
def documentedPacket (messages : List (List UInt8)) : List UInt8 :=
  [v1, UInt8.ofNat messages.length] ++ messages.flatMap (fun m => encode 4 m.length) ++
    messages.flatten

def documentedExample : List (List UInt8) := [[0x30, 0x31], [0x40, 0x41, 0x42, 0x43, 0x44]]

example : documentedPacket documentedExample =
    [0x01, 0x02, 0x02, 0x00, 0x00, 0x00, 0x05, 0x00, 0x00, 0x00, 0x30, 0x31, 0x40, 0x41, 0x42,
      0x43, 0x44] := by decide

def documentedMaximum : Nat := 2 ^ 22 - 1

/-- So many bytes a size announces at least whose most significant byte is a character of
a key. -/
def keyCharSize : Nat := 48 * 2 ^ 24

section

variable {key value t : List UInt8}

theorem keyChar_ge {ch : UInt8} (h : keyChar ch = true) : 48 ≤ ch.toNat := by
  simp only [keyChar, Bool.or_eq_true, Bool.and_eq_true, decide_eq_true_eq, beq_iff_eq,
    UInt8.le_iff_toNat_le] at h
  rcases h with ((h | h) | h) | rfl
  · exact le_trans (by decide) h.1
  · exact le_trans (by decide) h.1
  · exact h.1
  · decide

theorem readField_keyChar {low : List UInt8} (hlow : low.length = 3) {ch : UInt8}
    (hch : keyChar ch = true) (hshort : t.length < keyCharSize) :
    readField 4 (low ++ ch :: t) = .error t := by
  have hsize : keyCharSize ≤ decode (low ++ [ch]) := by
    have hge := keyChar_ge hch
    rw [decode_append, hlow, decode_cons, decode_nil, keyCharSize]
    omega
  have hlength : (low ++ [ch]).length = 4 := by rw [List.length_append, hlow]; rfl
  rw [List.append_cons, readField_append hlength, if_pos (hshort.trans_le hsize)]

/-- The sizes of documented messages end in a zero, which is no character of a key. -/
theorem length_of_valid {n : Nat} (hsize : value.length ≤ documentedMaximum)
    (hvalid : isKeyValid ((encode 4 value.length ++ t).take n) = true) : 0 < n ∧ n ≤ 3 := by
  obtain ⟨hnonempty, hchars⟩ := (isKeyValid_iff _).mp hvalid
  constructor
  · rw [Nat.pos_iff_ne_zero]
    rintro rfl
    exact hnonempty List.take_zero
  · by_contra hlong
    have hwhole : (encode 4 value.length).take n = encode 4 value.length := by
      apply List.take_of_length_le
      rw [length_encode]
      omega
    have hlast : UInt8.ofNat (value.length >>> 24) = 0 := by
      rw [documentedMaximum] at hsize
      rw [Nat.shiftRight_eq_div_pow, Nat.div_eq_of_lt (by omega)]
      rfl
    have hmem : (0 : UInt8) ∈ encode 4 value.length := by
      rw [← hlast]
      exact List.mem_map_of_mem (f := fun i => UInt8.ofNat (value.length >>> (8 * i)))
        (List.mem_range.mpr (show 3 < 4 by decide))
    rw [List.take_append, hwhole] at hchars
    cases hchars 0 (List.mem_append_left _ hmem)

theorem parse_documented_pair (hkey : isKeyValid key = true)
    (hsize : value.length ≤ documentedMaximum) (hkeysize : key.length ≤ documentedMaximum)
    (hshort : (value ++ t).length < keyCharSize) :
    (∃ k rest, parse (documentedPacket [key, value] ++ t) = .invalidKey k rest) ∨
      ∃ rest, parse (documentedPacket [key, value] ++ t) = .truncated rest := by
  have hpacket : documentedPacket [key, value] ++ t =
      v1 :: 2 :: (encode 4 key.length ++ (encode 4 value.length ++ (key ++ (value ++ t)))) := by
    simp [documentedPacket]
  have hfits : decode (encode 4 key.length) = key.length := by
    apply decode_encode_of_lt
    rw [documentedMaximum] at hkeysize
    omega
  rw [hpacket, parse_messages (Or.inr rfl), parseMessages,
    readField_append (length_encode 4 _), hfits, if_neg (by simp; omega)]
  simp only
  by_cases hvalid : isKeyValid
      ((encode 4 value.length ++ (key ++ (value ++ t))).take key.length) = true
  · right
    obtain ⟨hpos, hthree⟩ := length_of_valid hsize hvalid
    obtain ⟨init, ch, rfl⟩ :=
      (List.eq_nil_or_concat' key).resolve_left (List.length_pos_iff.mp hpos)
    have hch : keyChar ch = true := ((isKeyValid_iff _).mp hkey).2 ch (by simp)
    -- What is left of the size of the value, and the key but for its last character.
    have hlow : ((encode 4 value.length).drop (init ++ [ch]).length ++ init).length = 3 := by
      rw [List.length_append, List.length_drop, length_encode, List.length_append,
        List.length_singleton]
      rw [List.length_append, List.length_singleton] at hthree
      omega
    refine ⟨value ++ t, ?_⟩
    rw [if_pos hvalid, if_neg (by decide), parseValue,
      List.drop_append_of_le_length (by rw [length_encode]; omega), List.append_assoc,
      List.singleton_append, ← List.append_assoc, readField_keyChar hlow hch hshort]
  · rw [if_neg hvalid]
    exact .inl ⟨_, _, rfl⟩

theorem parse_documented_many {m : List UInt8} {more : List (List UInt8)}
    (hcount : (key :: value :: m :: more).length < 256) :
    parse (documentedPacket (key :: value :: m :: more) ++ t) =
      .invalidCount ((documentedPacket (key :: value :: m :: more) ++ t).drop 2) := by
  have hbyte : (UInt8.ofNat (key :: value :: m :: more).length).toNat = more.length + 3 := by
    rw [UInt8.toNat_ofNat']
    exact Nat.mod_eq_of_lt hcount
  apply if_pos
  constructor
  · intro hone
    have hnumber := congrArg UInt8.toNat hone
    rw [hbyte] at hnumber
    cases hnumber
  · intro htwo
    have hnumber := congrArg UInt8.toNat htwo
    rw [hbyte] at hnumber
    cases hnumber

theorem length_of_count {messages : List (List UInt8)} (hcount : messages.length < 256)
    {count : UInt8} (hbyte : (documentedPacket messages ++ t)[1]? = some count)
    (hone_or_two : count = 1 ∨ count = 2) : messages.length = 1 ∨ messages.length = 2 := by
  have hnumber : UInt8.ofNat messages.length = count := Option.some.inj hbyte
  have hlength : messages.length = count.toNat := by
    rw [← hnumber, UInt8.toNat_ofNat']
    exact (Nat.mod_eq_of_lt hcount).symm
  rw [hlength]
  rcases hone_or_two with rfl | rfl
  · exact Or.inl rfl
  · exact Or.inr rfl

theorem documentedPacket_ne_encode {messages : List (List UInt8)}
    (hcount : messages.length < 256) (hkey : ∀ key ∈ messages.head?, isKeyValid key = true)
    (hsizes : ∀ m ∈ messages, m.length ≤ documentedMaximum) (hmany : messages.length ≠ 1)
    (hshort : messages.length = 2 → (documentedPacket messages ++ t).length < keyCharSize)
    (q : Request) (rest : List UInt8) : documentedPacket messages ++ t ≠ q.encode ++ rest := by
  intro hsame
  have hparse := parse_encode q rest
  rw [← hsame] at hparse
  rcases messages with _ | ⟨key, _ | ⟨value, _ | ⟨m, more⟩⟩⟩
  · cases q <;> cases hparse
  · exact hmany rfl
  · have hbehind : (value ++ t).length < keyCharSize := by
      apply lt_of_le_of_lt _ (hshort rfl)
      simp [documentedPacket]
      omega
    rcases parse_documented_pair (hkey key rfl) (hsizes value (by simp)) (hsizes key (by simp))
      hbehind with ⟨k, left, hpair⟩ | ⟨left, hpair⟩
    · rw [hpair] at hparse
      cases q <;> cases hparse
    · rw [hpair] at hparse
      cases q <;> cases hparse
  · rw [parse_documented_many hcount] at hparse
    cases q <;> cases hparse

/-- Behind a message that is no key another key can be written. -/
example : parse (documentedPacket [[0], List.replicate 97 7]) =
    .write [97] [] (List.replicate 97 7) := by decide

end

end EasyKeyDB
