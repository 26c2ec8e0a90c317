import EasyKeyDB.Library.LittleEndian

/-!
# KnowNothing, version 1

The wire format: requests of one or two length-prefixed messages behind a
version and a count, and responses of two messages, a status byte and a body.

`Request` and `parse` are the format as the clients write it and as the
server restricts it: a stream begins with a request, or in one of five ways it
does not. `parse_encode` and `parse_sound` say that `parse` accepts the encodings
of requests and nothing else.
-/

namespace EasyKeyDB

open LittleEndian

/-! ## Keys -/

/-- One character of `[a-zA-Z0-9_]`. -/
def keyChar (ch : UInt8) : Bool :=
  (97 ≤ ch && ch ≤ 122) || (65 ≤ ch && ch ≤ 90) || (48 ≤ ch && ch ≤ 57) || ch == 95

/-- `regex_search` for `[^a-zA-Z0-9_]+`. -/
def regexSearch (key : List UInt8) : Bool :=
  key.any fun ch => !keyChar ch

theorem regexSearch_iff (key : List UInt8) :
    regexSearch key = true ↔ ∃ pre found post, key = pre ++ found ++ post ∧
      found ≠ [] ∧ ∀ ch ∈ found, keyChar ch = false := by
  simp only [regexSearch, List.any_eq_true, Bool.not_eq_true']
  constructor
  · rintro ⟨ch, hmem, hch⟩
    obtain ⟨pre, post, rfl⟩ := List.append_of_mem hmem
    exact ⟨pre, [ch], post, by simp, by simp, by simpa using hch⟩
  · rintro ⟨pre, found, post, rfl, hne, hfound⟩
    obtain ⟨ch, hch⟩ := List.exists_mem_of_ne_nil found hne
    exact ⟨ch, by simp [hch], hfound ch hch⟩

def isKeyValid (key : List UInt8) : Bool :=
  !key.isEmpty && !regexSearch key

theorem isKeyValid_iff (key : List UInt8) :
    isKeyValid key = true ↔ key ≠ [] ∧ ∀ ch ∈ key, keyChar ch = true := by
  simp [isKeyValid, regexSearch]

structure Key where
  bytes : List UInt8
  valid : isKeyValid bytes = true
  short : bytes.length < 2 ^ 32
deriving DecidableEq

structure Value where
  bytes : List UInt8
  short : bytes.length < 2 ^ 32
deriving DecidableEq

/-! ## Requests -/

inductive Request
  | read (key : Key)
  | write (key : Key) (value : Value)
deriving DecidableEq

/-- `Protocol::V1`. -/
def v1 : UInt8 := 0x01

def Request.encode : Request → List UInt8
  | .read key => [v1, 1] ++ field 4 key.bytes
  | .write key value => [v1, 2] ++ field 4 key.bytes ++ field 4 value.bytes

/-- How a stream of bytes begins. Every form but `truncated` comes with the
bytes behind what was read; `truncated` with the bytes that were left when the
stream ended too early. -/
inductive Parsed
  | unsupportedVersion (rest : List UInt8)
  | invalidCount (rest : List UInt8)
  | invalidKey (key rest : List UInt8)
  | read (key rest : List UInt8)
  | write (key value rest : List UInt8)
  | truncated (rest : List UInt8)
deriving DecidableEq, Repr

namespace Parsed

def rest : Parsed → List UInt8
  | unsupportedVersion rest => rest
  | invalidCount rest => rest
  | invalidKey _ rest => rest
  | read _ rest => rest
  | write _ _ rest => rest
  | truncated rest => rest

def isTruncated : Parsed → Bool
  | truncated _ => true
  | _ => false

end Parsed

def parseValue (key s : List UInt8) : Parsed :=
  match readField 4 s with
  | .error rest => .truncated rest
  | .ok (value, rest) => .write key value rest

def parseMessages (messages : UInt8) (s : List UInt8) : Parsed :=
  match readField 4 s with
  | .error rest => .truncated rest
  | .ok (key, rest) =>
      if isKeyValid key then
        if messages = 1 then .read key rest else parseValue key rest
      else .invalidKey key rest

def parse : List UInt8 → Parsed
  | [] => .truncated []
  | version :: s =>
      if version ≠ v1 then .unsupportedVersion s
      else
        match s with
        | [] => .truncated []
        | messages :: s =>
            if messages ≠ 1 ∧ messages ≠ 2 then .invalidCount s
            else parseMessages messages s

theorem parse_messages {messages : UInt8} (h : messages = 1 ∨ messages = 2)
    (s : List UInt8) : parse (v1 :: messages :: s) = parseMessages messages s := by
  have hcount : ¬ (messages ≠ 1 ∧ messages ≠ 2) := by tauto
  simp only [parse, ne_eq, not_true_eq_false, if_false]
  exact if_neg hcount

def Request.parsed (rest : List UInt8) : Request → Parsed
  | .read key => .read key.bytes rest
  | .write key value => .write key.bytes value.bytes rest

theorem parse_encode (q : Request) (t : List UInt8) :
    parse (q.encode ++ t) = q.parsed t := by
  cases q with
  | read key =>
      have hkey := readField_field (w := 4) (v := key.bytes) key.short t
      rw [Request.encode, List.append_assoc]
      change parse (v1 :: 1 :: (field 4 key.bytes ++ t)) = _
      rw [parse_messages (Or.inl rfl), parseMessages, hkey]
      simp [key.valid, Request.parsed]
  | write key value =>
      have hkey := readField_field (w := 4) (v := key.bytes) key.short
        (field 4 value.bytes ++ t)
      have hvalue := readField_field (w := 4) (v := value.bytes) value.short t
      rw [Request.encode, List.append_assoc, List.append_assoc]
      change parse (v1 :: 2 :: (field 4 key.bytes ++ (field 4 value.bytes ++ t))) = _
      rw [parse_messages (Or.inr rfl), parseMessages, hkey]
      simp [key.valid, Request.parsed, parseValue, hvalue]

theorem parse_cases (s : List UInt8) :
    (∃ rest, parse s = .unsupportedVersion rest ∧
        ∃ version, version ≠ v1 ∧ s = version :: rest) ∨
      (∃ rest, parse s = .invalidCount rest ∧
        ∃ messages, messages ≠ 1 ∧ messages ≠ 2 ∧ s = v1 :: messages :: rest) ∨
      (parse s = .truncated [] ∧ (s = [] ∨ s = [v1])) ∨
      ∃ messages t, (messages = 1 ∨ messages = 2) ∧ s = v1 :: messages :: t ∧
        parse s = parseMessages messages t := by
  match s with
  | [] => exact Or.inr (Or.inr (Or.inl ⟨rfl, Or.inl rfl⟩))
  | [version] =>
      by_cases hversion : version = v1
      · subst hversion
        exact Or.inr (Or.inr (Or.inl ⟨rfl, Or.inr rfl⟩))
      · exact Or.inl ⟨[], if_pos hversion, version, hversion, rfl⟩
  | version :: messages :: t =>
      by_cases hversion : version = v1
      · subst hversion
        by_cases hcount : messages = 1 ∨ messages = 2
        · exact Or.inr (Or.inr (Or.inr
            ⟨messages, t, hcount, rfl, parse_messages hcount t⟩))
        · rw [not_or] at hcount
          refine Or.inr (Or.inl ⟨t, ?_, messages, hcount.1, hcount.2, rfl⟩)
          simp only [parse, ne_eq, not_true_eq_false, if_false]
          exact if_pos hcount
      · exact Or.inl ⟨messages :: t, if_pos hversion, version, hversion, rfl⟩

/-- What `parse` says of a stream is true of it: the requests it finds are
there, and a key it calls invalid is. -/
def Parsed.Sound (s : List UInt8) : Parsed → Prop
  | .read key rest => ∃ k : Key, k.bytes = key ∧ s = (Request.read k).encode ++ rest
  | .write key value rest => ∃ (k : Key) (v : Value), k.bytes = key ∧ v.bytes = value ∧
      s = (Request.write k v).encode ++ rest
  | .invalidKey key rest => ∃ messages, (messages = 1 ∨ messages = 2) ∧
      s = [v1, messages] ++ field 4 key ++ rest ∧ key.length < 2 ^ 32 ∧
      isKeyValid key = false
  | _ => True

theorem parseValue_sound {key s t : List UInt8} (hkey : isKeyValid key = true)
    (hshort : key.length < 2 ^ 32) (hs : s = v1 :: 2 :: (field 4 key ++ t)) :
    (parseValue key t).Sound s := by
  unfold parseValue
  cases hfield : readField 4 t with
  | error rest => trivial
  | ok message =>
      obtain ⟨value, rest⟩ := message
      obtain ⟨rfl, hvalue⟩ := readField_ok hfield
      refine ⟨⟨key, hkey, hshort⟩, ⟨value, hvalue⟩, rfl, rfl, ?_⟩
      rw [hs, Request.encode, List.append_assoc, List.append_assoc]
      rfl

theorem parse_sound (s : List UInt8) : (parse s).Sound s := by
  rcases parse_cases s with ⟨rest, hparse, -⟩ | ⟨rest, hparse, -⟩ | ⟨hparse, -⟩ |
    ⟨messages, t, hcount, hs, hparse⟩
  · rw [hparse]; trivial
  · rw [hparse]; trivial
  · rw [hparse]; trivial
  · rw [hparse]
    unfold parseMessages
    cases hfield : readField 4 t with
    | error rest => trivial
    | ok message =>
        obtain ⟨key, rest⟩ := message
        obtain ⟨rfl, hshort⟩ := readField_ok hfield
        by_cases hkey : isKeyValid key = true
        · simp only [hkey, if_true]
          by_cases hone : messages = 1
          · simp only [hone, if_true]
            refine ⟨⟨key, hkey, hshort⟩, rfl, ?_⟩
            rw [hs, hone, Request.encode, List.append_assoc]
            rfl
          · have htwo : messages = 2 := hcount.resolve_left hone
            simp only [hone, if_false]
            exact parseValue_sound hkey hshort (htwo ▸ hs)
        · simp only [hkey, Bool.false_eq_true, if_false]
          refine ⟨messages, hcount, ?_, hshort, by simpa using hkey⟩
          rw [hs, List.append_assoc]
          rfl

/-- A stream that no request begins is neither read nor written by. -/
theorem parse_of_not_request {s : List UInt8} (h : ∀ (q : Request) t, s ≠ q.encode ++ t) :
    (∀ key rest, parse s ≠ .read key rest) ∧
      ∀ key value rest, parse s ≠ .write key value rest := by
  have hsound := parse_sound s
  constructor
  · intro key rest hparse
    rw [hparse] at hsound
    obtain ⟨k, -, hs⟩ := hsound
    exact h _ _ hs
  · intro key value rest hparse
    rw [hparse] at hsound
    obtain ⟨k, v, -, -, hs⟩ := hsound
    exact h _ _ hs

theorem parse_invalidKey {messages : UInt8} {key t : List UInt8}
    (hcount : messages = 1 ∨ messages = 2) (hshort : key.length < 2 ^ 32)
    (hkey : isKeyValid key = false) :
    parse ([v1, messages] ++ field 4 key ++ t) = .invalidKey key t := by
  rw [List.append_assoc]
  change parse (v1 :: messages :: (field 4 key ++ t)) = _
  rw [parse_messages hcount, parseMessages, readField_field hshort]
  simp [hkey]

theorem length_rest_parseValue (key t : List UInt8) :
    (parseValue key t).rest.length ≤ t.length := by
  unfold parseValue
  cases hvalue : readField 4 t with
  | error rest => exact readField_error_length hvalue
  | ok message => exact readField_ok_length hvalue

theorem length_rest_parseMessages (messages : UInt8) (t : List UInt8) :
    (parseMessages messages t).rest.length ≤ t.length := by
  unfold parseMessages
  cases hkey : readField 4 t with
  | error rest => exact readField_error_length hkey
  | ok message =>
      obtain ⟨key, rest⟩ := message
      have hrest := readField_ok_length hkey
      simp only
      split_ifs
      · exact hrest
      · exact (length_rest_parseValue key rest).trans hrest
      · exact hrest

theorem length_rest_parse {s : List UInt8} (h : s ≠ []) :
    (parse s).rest.length < s.length := by
  rcases parse_cases s with ⟨rest, hparse, version, -, rfl⟩ |
    ⟨rest, hparse, messages, -, -, rfl⟩ | ⟨hparse, hs⟩ | ⟨messages, t, -, rfl, hparse⟩
  · rw [hparse]
    exact Nat.lt_succ_self _
  · rw [hparse]
    exact Nat.lt_succ_of_lt (Nat.lt_succ_self _)
  · rw [hparse]
    exact List.length_pos_iff.mpr h
  · rw [hparse]
    exact Nat.lt_succ_of_lt (Nat.lt_succ_of_le (length_rest_parseMessages messages t))

/-! ## Streams that go on -/

/-- More bytes behind what was read. -/
def Parsed.extend (more : List UInt8) : Parsed → Parsed
  | .unsupportedVersion rest => .unsupportedVersion (rest ++ more)
  | .invalidCount rest => .invalidCount (rest ++ more)
  | .invalidKey key rest => .invalidKey key (rest ++ more)
  | .read key rest => .read key (rest ++ more)
  | .write key value rest => .write key value (rest ++ more)
  | .truncated rest => .truncated (rest ++ more)

theorem parseMessages_append {messages : UInt8} {s : List UInt8}
    (h : (parseMessages messages s).isTruncated = false) (more : List UInt8) :
    parseMessages messages (s ++ more) = (parseMessages messages s).extend more := by
  unfold parseMessages at h ⊢
  cases hkey : readField 4 s with
  | error rest => rw [hkey] at h; cases h
  | ok message =>
      obtain ⟨key, rest⟩ := message
      rw [hkey] at h
      rw [readField_extend hkey]
      by_cases hvalid : isKeyValid key = true
      · by_cases hone : messages = 1
        · simp only [hvalid, hone, if_true]
          rfl
        · simp only [hvalid, hone, if_true, if_false] at h ⊢
          unfold parseValue at h ⊢
          cases hvalue : readField 4 rest with
          | error left => rw [hvalue] at h; cases h
          | ok message =>
              rw [readField_extend hvalue]
              rfl
      · simp only [hvalid, Bool.false_eq_true, if_false]
        rfl

/-- What has been decided about a stream does not depend on how it goes on. -/
theorem parse_append {s : List UInt8} (h : (parse s).isTruncated = false)
    (more : List UInt8) : parse (s ++ more) = (parse s).extend more := by
  rcases parse_cases s with ⟨rest, hparse, version, hversion, rfl⟩ |
    ⟨rest, hparse, messages, hone, htwo, rfl⟩ | ⟨hparse, -⟩ |
    ⟨messages, t, hcount, rfl, hparse⟩
  · rw [hparse]
    exact if_pos hversion
  · rw [hparse]
    exact if_pos ⟨hone, htwo⟩
  · rw [hparse] at h
    cases h
  · rw [hparse] at h ⊢
    exact (parse_messages hcount _).trans (parseMessages_append h more)

/-- Nothing short of a whole request is taken for anything. -/
theorem isTruncated_of_cut {q : Request} {s more : List UInt8}
    (hcut : q.encode = s ++ more) (hmore : more ≠ []) : (parse s).isTruncated = true := by
  by_contra h
  rw [Bool.not_eq_true] at h
  have hwhole := parse_encode q []
  rw [List.append_nil, hcut, parse_append h] at hwhole
  have hrest := congrArg Parsed.rest hwhole
  have hextend : ((parse s).extend more).rest = (parse s).rest ++ more := by
    cases parse s <;> rfl
  rw [hextend] at hrest
  have hnone : (q.parsed []).rest = [] := by
    cases q <;> rfl
  rw [hnone, List.append_eq_nil_iff] at hrest
  exact hmore hrest.2

end EasyKeyDB
