import EasyKeyDB.Library.LittleEndian
import EasyKeyDB.Library.Throwing

/-!
# The read buffer

`ByteBuffer` of `byte_buffer.cpp`: a queue of bytes in front of a
`source_trigger` that is called when the queue is too short. The state behind
the trigger is a type `σ`; a source is any function on it that returns some
bytes. A failed read throws `EmptyBufferException` and keeps what it pulled.

The second half specifies the three reads over a source that is a list of
chunks, in terms of `unread`: the queued bytes followed by all chunks up to the
first empty one. A read of `n` bytes succeeds exactly when `unread` has `n`
bytes, and takes them from its front; how the bytes were cut into chunks does
not matter.
-/

namespace EasyKeyDB

/-- What stands behind a `std::function<std::vector<std::uint8_t>(void)>`. -/
class SourceTrigger (σ : Type) where
  trigger : σ → List UInt8 × σ

structure EmptyBufferException where
  message : String
deriving DecidableEq, Repr

structure ByteBuffer (σ : Type) where
  buffer : List UInt8
  source : σ
deriving DecidableEq, Repr

/-- Code that reads from a buffer and may throw. An exception does not undo
what was done to the buffer. -/
abbrev ReadM (σ α : Type) := EStateM EmptyBufferException (ByteBuffer σ) α

namespace ByteBuffer

def requestExceeds (available requested : Nat) : EmptyBufferException where
  message := "Requested amount exceed the available in the buffer ...! Buffer " ++
    "size: " ++ toString available ++ " requested: " ++ toString requested

section Operations

variable {σ : Type} [SourceTrigger σ]

/-- The `while (true)` of `ensure_has_requested`. Each round that goes on has
queued at least one byte, so the number of `missing` bytes bounds the rounds. -/
def refill (size : Nat) : (missing : Nat) → ByteBuffer σ → ByteBuffer σ
  | 0, b => b
  | missing + 1, b =>
      match SourceTrigger.trigger b.source with
      | ([], source) => { b with source }
      | (result, source) =>
          let b := { buffer := b.buffer ++ result, source }
          if size ≤ b.buffer.length then b else refill size missing b

def ensureHasRequested (size : Nat) : ReadM σ Unit := fun b =>
  if size ≤ b.buffer.length then .ok () b
  else
    let b := refill size (size - b.buffer.length) b
    if b.buffer.length < size then
      .error (requestExceeds b.buffer.length size) b
    else .ok () b

/-- `buffer.front()` and `buffer.pop()`. -/
def popFront : ReadM σ UInt8 := fun b =>
  .ok (b.buffer.headD 0) { b with buffer := b.buffer.tail }

def getInteger1 : ReadM σ UInt8 := do
  ensureHasRequested 1
  popFront

/-- `rounds` iterations of `value |= temp << (8 * index)`, from `index` on. -/
def shiftIn (index : UInt32) : (rounds : Nat) → UInt32 → ReadM σ UInt32
  | 0, value => pure value
  | rounds + 1, value => do
      let temp ← popFront
      shiftIn (index + 1) rounds (value ||| temp.toUInt32 <<< (8 * index))

def getInteger4 : ReadM σ UInt32 := do
  ensureHasRequested 4
  shiftIn 0 4 0

/-- The loop of `get_next` pops until it has `size` bytes or the queue is
empty. -/
def getNext (size : Nat) : ReadM σ (List UInt8) := do
  ensureHasRequested size
  fun b => .ok (b.buffer.take size) { b with buffer := b.buffer.drop size }

end Operations

/-! ## Sources given as chunks -/

/-- The vectors that successive calls of the trigger return; the empty vector
ever after. -/
abbrev Chunks := List (List UInt8)

instance : SourceTrigger Chunks where
  trigger
    | [] => ([], [])
    | chunk :: chunks => (chunk, chunks)

/-- The bytes a source delivers before its first empty result. -/
def arriving : Chunks → List UInt8
  | [] => []
  | [] :: _ => []
  | (x :: xs) :: chunks => (x :: xs) ++ arriving chunks

/-- What a source holds behind its first empty result. -/
def afterEmpty : Chunks → Chunks
  | [] => []
  | [] :: chunks => chunks
  | (_ :: _) :: chunks => afterEmpty chunks

/-- The bytes that can be read without meeting an empty result. -/
def unread (b : ByteBuffer Chunks) : List UInt8 :=
  b.buffer ++ arriving b.source

def later (b : ByteBuffer Chunks) : Chunks := afterEmpty b.source

theorem length_buffer_le (b : ByteBuffer Chunks) :
    b.buffer.length ≤ b.unread.length := by
  rw [unread, List.length_append]
  exact Nat.le_add_right _ _

theorem arriving_append {chunks : Chunks} (h : [] ∉ chunks) (more : Chunks) :
    arriving (chunks ++ more) = chunks.flatten ++ arriving more := by
  induction chunks with
  | nil => rfl
  | cons chunk chunks ih =>
      rw [List.mem_cons, not_or] at h
      cases chunk with
      | nil => exact absurd rfl h.1
      | cons x xs =>
          rw [List.cons_append, arriving, ih h.2, List.flatten_cons,
            List.append_assoc]

theorem arriving_eq_flatten {chunks : Chunks} (h : [] ∉ chunks) :
    arriving chunks = chunks.flatten := by
  have happend := arriving_append h []
  rwa [List.append_nil, arriving, List.append_nil] at happend

theorem afterEmpty_append {chunks : Chunks} (h : [] ∉ chunks) (more : Chunks) :
    afterEmpty (chunks ++ more) = afterEmpty more := by
  induction chunks with
  | nil => rfl
  | cons chunk chunks ih =>
      rw [List.mem_cons, not_or] at h
      cases chunk with
      | nil => exact absurd rfl h.1
      | cons x xs => exact ih h.2

theorem afterEmpty_eq_nil {chunks : Chunks} (h : [] ∉ chunks) :
    afterEmpty chunks = [] := by
  have happend := afterEmpty_append h []
  rwa [List.append_nil] at happend

/-! ## The reads over chunks -/

open Throwing

/-- The refill loop stops with enough bytes queued, or with everything queued
that came before the first empty result. -/
theorem refill_chunks (size : Nat) : ∀ (missing : Nat) (b : ByteBuffer Chunks),
    b.buffer.length < size → size - b.buffer.length ≤ missing →
    (size ≤ b.unread.length →
      (refill size missing b).unread = b.unread ∧
      (refill size missing b).later = b.later ∧
      size ≤ (refill size missing b).buffer.length) ∧
    (b.unread.length < size →
      refill size missing b = ⟨b.unread, b.later⟩)
  | 0, b, hshort, hmissing => by omega
  | missing + 1, ⟨buffer, []⟩, hshort, _ => by
      simp only at hshort
      have hunread : unread ⟨buffer, []⟩ = buffer := by simp [unread, arriving]
      rw [hunread]
      exact ⟨fun h => by omega, fun _ => rfl⟩
  | missing + 1, ⟨buffer, [] :: chunks⟩, hshort, _ => by
      simp only at hshort
      have hunread : unread ⟨buffer, [] :: chunks⟩ = buffer := by
        simp [unread, arriving]
      rw [hunread]
      exact ⟨fun h => by omega, fun _ => rfl⟩
  | missing + 1, ⟨buffer, (x :: xs) :: chunks⟩, hshort, hmissing => by
      -- The chunk moves from the source to the queue: together they stay the same.
      simp only at hshort hmissing
      have hunread : unread ⟨buffer, (x :: xs) :: chunks⟩
          = unread ⟨buffer ++ x :: xs, chunks⟩ := by
        simp [unread, arriving]
      have hlater : later ⟨buffer, (x :: xs) :: chunks⟩
          = later ⟨buffer ++ x :: xs, chunks⟩ := rfl
      have hlen : (buffer ++ x :: xs).length = buffer.length + (xs.length + 1) := by
        simp
      rw [hunread, hlater]
      by_cases henough : size ≤ (buffer ++ x :: xs).length
      · have hstop : refill size (missing + 1) ⟨buffer, (x :: xs) :: chunks⟩
            = ⟨buffer ++ x :: xs, chunks⟩ := if_pos henough
        rw [hstop]
        refine ⟨fun _ => ⟨rfl, rfl, henough⟩, fun h => ?_⟩
        have hqueued := length_buffer_le ⟨buffer ++ x :: xs, chunks⟩
        exact absurd (le_trans henough hqueued) (Nat.not_le_of_lt h)
      · have hgo : refill size (missing + 1) ⟨buffer, (x :: xs) :: chunks⟩
            = refill size missing ⟨buffer ++ x :: xs, chunks⟩ := if_neg henough
        rw [hgo]
        exact refill_chunks size missing ⟨buffer ++ x :: xs, chunks⟩
          (by simp only; omega) (by simp only; omega)

/-- `ensure_has_requested` succeeds when enough bytes are to come, and changes
nothing that can be observed. -/
theorem ensureHasRequested_ok {size : Nat} {b : ByteBuffer Chunks}
    (h : size ≤ b.unread.length) :
    ∃ b' : ByteBuffer Chunks, ensureHasRequested size b = .ok () b' ∧
      b'.unread = b.unread ∧ b'.later = b.later ∧ size ≤ b'.buffer.length := by
  by_cases hqueued : size ≤ b.buffer.length
  · exact ⟨b, if_pos hqueued, rfl, rfl, hqueued⟩
  · obtain ⟨hunread, hlater, hlen⟩ :=
      (refill_chunks size _ b (by omega) (Nat.le_refl _)).1 h
    refine ⟨_, ?_, hunread, hlater, hlen⟩
    rw [ensureHasRequested, if_neg hqueued]
    exact if_neg (by omega)

theorem ensureHasRequested_error {size : Nat} {b : ByteBuffer Chunks}
    (h : b.unread.length < size) :
    ensureHasRequested size b =
      .error (requestExceeds b.unread.length size) ⟨b.unread, b.later⟩ := by
  have hqueued : ¬ size ≤ b.buffer.length := fun hle =>
    absurd (le_trans hle (length_buffer_le b)) (Nat.not_le_of_lt h)
  have hrefill := (refill_chunks size _ b (by omega) (Nat.le_refl _)).2 h
  rw [ensureHasRequested, if_neg hqueued, hrefill]
  exact if_pos h

theorem unread_drop {size : Nat} {b : ByteBuffer Chunks}
    (h : size ≤ b.buffer.length) :
    b.buffer.take size = b.unread.take size ∧
      unread { b with buffer := b.buffer.drop size } = b.unread.drop size := by
  rw [unread, List.take_append_of_le_length h, List.drop_append_of_le_length h]
  exact ⟨rfl, rfl⟩

theorem getNext_ok {size : Nat} {b : ByteBuffer Chunks}
    (h : size ≤ b.unread.length) :
    ∃ b' : ByteBuffer Chunks, getNext size b = .ok (b.unread.take size) b' ∧
      b'.unread = b.unread.drop size ∧ b'.later = b.later := by
  obtain ⟨b', hrun, hunread, hlater, hlen⟩ := ensureHasRequested_ok h
  obtain ⟨htake, hdrop⟩ := unread_drop hlen
  refine ⟨{ b' with buffer := b'.buffer.drop size }, ?_, ?_, hlater⟩
  · refine (bind_ok hrun).trans ?_
    show EStateM.Result.ok (b'.buffer.take size) _ = _
    rw [htake, hunread]
  · rw [hdrop, hunread]

theorem getNext_error {size : Nat} {b : ByteBuffer Chunks}
    (h : b.unread.length < size) :
    getNext size b =
      .error (requestExceeds b.unread.length size) ⟨b.unread, b.later⟩ :=
  bind_error (ensureHasRequested_error h)

theorem getInteger1_ok {x : UInt8} {s : List UInt8} {b : ByteBuffer Chunks}
    (h : b.unread = x :: s) :
    ∃ b' : ByteBuffer Chunks, getInteger1 b = .ok x b' ∧
      b'.unread = s ∧ b'.later = b.later := by
  have hone : 1 ≤ b.unread.length := by simp [h]
  obtain ⟨b', hrun, hunread, hlater, hlen⟩ := ensureHasRequested_ok hone
  obtain ⟨htake, hdrop⟩ := unread_drop hlen
  rw [hunread, h] at htake hdrop
  obtain ⟨y, ys, hbuffer⟩ := List.exists_cons_of_length_pos hlen
  rw [hbuffer] at htake hdrop
  obtain rfl : y = x := by simpa using htake
  refine ⟨{ b' with buffer := ys }, ?_, by simpa using hdrop, hlater⟩
  rw [getInteger1, bind_ok hrun, popFront, hbuffer]
  rfl

theorem getInteger1_error {b : ByteBuffer Chunks} (h : b.unread = []) :
    getInteger1 b = .error (requestExceeds 0 1) ⟨[], b.later⟩ := by
  have hnone : b.unread.length < 1 := by simp [h]
  rw [getInteger1, bind_error (ensureHasRequested_error hnone), h]
  rfl

theorem toNat_shifted (b : UInt8) {k : UInt32} (hk : k.toNat ≤ 24) :
    (b.toUInt32 <<< k).toNat = b.toNat * 2 ^ k.toNat := by
  have hb : b.toNat ≤ 255 := Nat.le_of_lt_succ b.toNat_lt
  have hfits : b.toNat * 2 ^ k.toNat < 2 ^ 32 :=
    calc b.toNat * 2 ^ k.toNat
        ≤ 255 * 2 ^ 24 := Nat.mul_le_mul hb (Nat.pow_le_pow_right (by omega) hk)
      _ < 2 ^ 32 := by omega
  rw [UInt32.toNat_shiftLeft, UInt8.toNat_toUInt32,
    Nat.mod_eq_of_lt (a := k.toNat) (by omega), Nat.shiftLeft_eq,
    Nat.mod_eq_of_lt hfits]

theorem toNat_or_shifted (value : UInt32) (b : UInt8) {k : UInt32}
    (hk : k.toNat ≤ 24) (hvalue : value.toNat < 2 ^ k.toNat) :
    (value ||| b.toUInt32 <<< k).toNat = value.toNat + b.toNat * 2 ^ k.toNat := by
  have hadd := Nat.shiftLeft_add_eq_or_of_lt hvalue b.toNat
  rw [Nat.shiftLeft_eq] at hadd
  rw [UInt32.toNat_or, toNat_shifted b hk, Nat.or_comm, ← hadd, Nat.add_comm]

/-- The loop of `get_integer4` adds the remaining bytes in above the `index`
bytes it has. -/
theorem shiftIn_ok {σ : Type} [SourceTrigger σ] : ∀ (rounds : Nat) (index value : UInt32)
    (b : ByteBuffer σ), index.toNat + rounds ≤ 4 → value.toNat < 2 ^ (8 * index.toNat) →
    rounds ≤ b.buffer.length →
    ∃ n, shiftIn index rounds value b
        = .ok n { b with buffer := b.buffer.drop rounds } ∧
      n.toNat = value.toNat +
        2 ^ (8 * index.toNat) * LittleEndian.decode (b.buffer.take rounds)
  | 0, _, value, _, _, _, _ => ⟨value, rfl, by simp⟩
  | rounds + 1, index, value, ⟨x :: xs, source⟩, hindex, hvalue, hlen => by
      simp only [List.length_cons] at hlen
      -- With an index of at most 4 neither the shift nor the counter wraps.
      have hplace : (8 * index).toNat = 8 * index.toNat := by
        rw [UInt32.toNat_mul]
        change 8 * index.toNat % 2 ^ 32 = 8 * index.toNat
        omega
      have hnext : (index + 1).toNat = index.toNat + 1 := by
        rw [UInt32.toNat_add]
        change (index.toNat + 1) % 2 ^ 32 = index.toNat + 1
        omega
      have hor := toNat_or_shifted value x (k := 8 * index)
        (by omega) (by rwa [hplace])
      rw [hplace] at hor
      have hpow : (2 : Nat) ^ (8 * (index.toNat + 1)) = 2 ^ (8 * index.toNat) * 256 := by
        rw [Nat.mul_add, Nat.pow_add]
      have hx : 2 ^ (8 * index.toNat) * x.toNat ≤ 2 ^ (8 * index.toNat) * 255 :=
        Nat.mul_le_mul_left _ (Nat.le_of_lt_succ x.toNat_lt)
      obtain ⟨n, hrun, hn⟩ := shiftIn_ok rounds (index + 1)
        (value ||| x.toUInt32 <<< (8 * index)) ⟨xs, source⟩
        (by omega) (by rw [hnext, hpow, hor, Nat.mul_comm x.toNat]; omega)
        (Nat.le_of_succ_le_succ hlen)
      refine ⟨n, hrun, ?_⟩
      rw [hn, hor, hnext, hpow, List.take_succ_cons, LittleEndian.decode_cons]
      ring

theorem getInteger4_ok {b : ByteBuffer Chunks} (h : 4 ≤ b.unread.length) :
    ∃ (n : UInt32) (b' : ByteBuffer Chunks), getInteger4 b = .ok n b' ∧
      n.toNat = LittleEndian.decode (b.unread.take 4) ∧
      b'.unread = b.unread.drop 4 ∧ b'.later = b.later := by
  obtain ⟨b', hrun, hunread, hlater, hlen⟩ := ensureHasRequested_ok h
  obtain ⟨htake, hdrop⟩ := unread_drop hlen
  rw [hunread] at htake hdrop
  obtain ⟨n, hshift, hn⟩ := shiftIn_ok 4 0 0 b' (by decide) (by decide) hlen
  refine ⟨n, { b' with buffer := b'.buffer.drop 4 }, ?_, ?_, hdrop, hlater⟩
  · rw [getInteger4, bind_ok hrun, hshift]
  · rw [hn, htake]
    change 0 + 2 ^ (8 * 0) * _ = _
    omega

theorem getInteger4_error {b : ByteBuffer Chunks} (h : b.unread.length < 4) :
    getInteger4 b =
      .error (requestExceeds b.unread.length 4) ⟨b.unread, b.later⟩ := by
  rw [getInteger4, bind_error (ensureHasRequested_error h)]

/-! ## Length-prefixed fields -/

theorem readField_ok {b : ByteBuffer Chunks} {v t : List UInt8}
    (h : LittleEndian.readField 4 b.unread = .ok (v, t)) :
    ∃ (n : UInt32) (b₁ b₂ : ByteBuffer Chunks), getInteger4 b = .ok n b₁ ∧
      getNext n.toNat b₁ = .ok v b₂ ∧ b₂.unread = t ∧ b₂.later = b.later := by
  unfold LittleEndian.readField at h
  split at h
  · cases h
  · rename_i hlen
    obtain ⟨n, b₁, hrun, hn, hunread, hlater⟩ := getInteger4_ok (b := b) (by omega)
    simp only at h
    rw [← hn, ← hunread] at h
    split at h
    · cases h
    · rename_i hbody
      simp only [Except.ok.injEq, Prod.mk.injEq] at h
      obtain ⟨b₂, hnext, hunread₂, hlater₂⟩ :=
        getNext_ok (b := b₁) (show n.toNat ≤ _ by omega)
      exact ⟨n, b₁, b₂, hrun, by rw [hnext, h.1], by rw [hunread₂, h.2],
        hlater₂.trans hlater⟩

/-- On a stream that ends inside the field, one of the two reads throws. -/
theorem readField_error {b : ByteBuffer Chunks} {rest : List UInt8}
    (h : LittleEndian.readField 4 b.unread = .error rest) :
    (∃ e, getInteger4 b = .error e ⟨rest, b.later⟩) ∨
      ∃ (n : UInt32) (b₁ : ByteBuffer Chunks) (e : EmptyBufferException),
        getInteger4 b = .ok n b₁ ∧ getNext n.toNat b₁ = .error e ⟨rest, b.later⟩ := by
  unfold LittleEndian.readField at h
  split at h
  · rename_i hlen
    cases h
    exact Or.inl ⟨_, getInteger4_error hlen⟩
  · rename_i hlen
    obtain ⟨n, b₁, hrun, hn, hunread, hlater⟩ := getInteger4_ok (b := b) (by omega)
    simp only at h
    rw [← hn, ← hunread] at h
    split at h
    · rename_i hbody
      cases h
      exact Or.inr ⟨n, b₁, _, hrun, by rw [getNext_error hbody, hlater]⟩
    · cases h

end ByteBuffer

end EasyKeyDB
