import EasyKeyDB.ByteBuffer
import EasyKeyDB.Library.Runs

/-!
# The read buffer as a queue

Calls of the three reads on one buffer, in any order, over a source that may
return anything at any time. A call that throws is followed by further calls.

The loop of `ensure_has_requested` is given here as the code has it, without a
bound on its rounds (`Loop`); it ends over every source, and `refill` is where it
ends (`loop_refill`). Of what a call pulls nothing is lost: what it hands out and
what is left in the queue are what was queued and what it has pulled
(`Served.queue`), so over all calls nothing is lost either.
-/

namespace EasyKeyDB

inductive ReadCall
  | integer1
  | integer4
  | next (size : UInt32)
deriving DecidableEq, Repr

inductive ReadOutcome
  | integer1 (value : UInt8)
  | integer4 (value : UInt32)
  | bytes (output : List UInt8)
  | thrown (e : EmptyBufferException)
deriving DecidableEq, Repr

def ReadCall.size : ReadCall → Nat
  | integer1 => 1
  | integer4 => 4
  | next size => size.toNat

def ReadOutcome.consumed : ReadOutcome → List UInt8
  | integer1 value => [value]
  | integer4 value => LittleEndian.encode 4 value.toNat
  | bytes output => output
  | thrown _ => []

def ReadOutcome.isThrown : ReadOutcome → Bool
  | thrown _ => true
  | _ => false

namespace ByteBuffer

open Throwing

variable {σ : Type} [SourceTrigger σ]

def outcome {α : Type} (returned : α → ReadOutcome) (read : ReadM σ α) (b : ByteBuffer σ) :
    ReadOutcome × ByteBuffer σ :=
  match read b with
  | .ok value b' => (returned value, b')
  | .error e b' => (.thrown e, b')

def perform (b : ByteBuffer σ) : ReadCall → ReadOutcome × ByteBuffer σ
  | .integer1 => outcome .integer1 getInteger1 b
  | .integer4 => outcome .integer4 getInteger4 b
  | .next size => outcome .bytes (getNext size.toNat) b

def afterCalls (b : ByteBuffer σ) : List ReadCall → ByteBuffer σ
  | [] => b
  | call :: calls => afterCalls (b.perform call).2 calls

def consumed (b : ByteBuffer σ) : List ReadCall → List UInt8
  | [] => []
  | call :: calls => (b.perform call).1.consumed ++ consumed (b.perform call).2 calls

def Pull (s : σ) (chunk : List UInt8) (s' : σ) : Prop :=
  SourceTrigger.trigger s = (chunk, s')

/-- One round of the loop: the source is called, and what it returns is queued. -/
def Round (b : ByteBuffer σ) (chunk : List UInt8) (b' : ByteBuffer σ) : Prop :=
  Pull b.source chunk b'.source ∧ b'.buffer = b.buffer ++ chunk

/-- The `while (true)` of `ensure_has_requested`, with the results of the source:
a round that queues nothing ends it, and so does one with which enough is
queued. -/
inductive Loop (size : Nat) :
    ByteBuffer σ → List (List UInt8) → ByteBuffer σ → Prop
  | noMore {b b' : ByteBuffer σ} : Round b [] b' → Loop size b [[]] b'
  | enough {b b' : ByteBuffer σ} {chunk : List UInt8} : Round b chunk b' → chunk ≠ [] →
      size ≤ b'.buffer.length → Loop size b [chunk] b'
  | again {b m b' : ByteBuffer σ} {chunk : List UInt8} {chunks : List (List UInt8)} :
      Round b chunk m → chunk ≠ [] → m.buffer.length < size → Loop size m chunks b' →
      Loop size b (chunk :: chunks) b'

/-- What has to come of one call: `chunks` is what the source returns to it. -/
structure Served (call : ReadCall) (b : ByteBuffer σ) (chunks : List (List UInt8)) :
    Prop where
  /-- The source is not called, or its loop ends. -/
  ends : (call.size ≤ b.buffer.length ∧ chunks = []) ∨
    (b.buffer.length < call.size ∧ ∃ m, Loop call.size b chunks m)
  pulls : Run Pull b.source chunks (b.perform call).2.source
  queue : (b.perform call).1.consumed ++ (b.perform call).2.buffer =
    b.buffer ++ chunks.flatten
  /-- The source is called while too few bytes are queued. -/
  needed : ∀ pre chunk post, chunks = pre ++ chunk :: post →
    (b.buffer ++ pre.flatten).length < call.size
  whole : (b.perform call).1.isThrown = false →
    (b.perform call).1.consumed.length = call.size
  /-- It throws behind an empty result with too few bytes queued, and takes none. -/
  thrown : (b.perform call).1.isThrown = true →
    (∃ pre, chunks = pre ++ [[]]) ∧ (b.buffer ++ chunks.flatten).length < call.size ∧
      (b.perform call).2.buffer = b.buffer ++ chunks.flatten

/-! ## The loop -/

/-- The loop ends over every source: each round that goes on queues a byte. -/
theorem loop_refill {size : Nat} : ∀ (missing : Nat) (b : ByteBuffer σ),
    b.buffer.length < size → size - b.buffer.length ≤ missing →
    ∃ chunks, Loop size b chunks (refill size missing b)
  | 0, b, hshort, hmissing => by omega
  | missing + 1, b, hshort, hmissing => by
      obtain ⟨chunk, source, htrigger⟩ : ∃ chunk source,
          SourceTrigger.trigger b.source = (chunk, source) := ⟨_, _, rfl⟩
      cases chunk with
      | nil =>
          refine ⟨[[]], ?_⟩
          simp only [refill, htrigger]
          exact .noMore ⟨htrigger, (List.append_nil _).symm⟩
      | cons x xs =>
          have hround : Round b (x :: xs) ⟨b.buffer ++ x :: xs, source⟩ := ⟨htrigger, rfl⟩
          by_cases henough : size ≤ (b.buffer ++ x :: xs).length
          · refine ⟨[x :: xs], ?_⟩
            simp only [refill, htrigger, if_pos henough]
            exact .enough hround (List.cons_ne_nil x xs) henough
          · have hlength : (b.buffer ++ x :: xs).length = b.buffer.length + (xs.length + 1) := by
              rw [List.length_append, List.length_cons]
            -- At least one byte has come, so fewer are missing.
            have hstill : (b.buffer ++ x :: xs).length < size := Nat.lt_of_not_le henough
            have hfewer : size - (b.buffer ++ x :: xs).length ≤ missing := by omega
            obtain ⟨chunks, hloop⟩ :=
              loop_refill missing ⟨b.buffer ++ x :: xs, source⟩ hstill hfewer
            refine ⟨(x :: xs) :: chunks, ?_⟩
            simp only [refill, htrigger, if_neg henough]
            exact .again hround (List.cons_ne_nil x xs) hstill hloop

section

variable {size : Nat} {b b' : ByteBuffer σ} {chunks : List (List UInt8)}

theorem Loop.queued (h : Loop size b chunks b') :
    b'.buffer = b.buffer ++ chunks.flatten := by
  induction h with
  | noMore hround => exact hround.2
  | enough hround _ _ =>
      rw [List.flatten_singleton]
      exact hround.2
  | again hround _ _ _ ih => rw [ih, hround.2, List.flatten_cons, List.append_assoc]

theorem Loop.pulls (h : Loop size b chunks b') : Run Pull b.source chunks b'.source := by
  induction h with
  | noMore hround => exact Run.single hround.1
  | enough hround _ _ => exact Run.single hround.1
  | again hround _ _ _ ih => exact Run.cons_iff.mpr ⟨_, hround.1, ih⟩

theorem Loop.needed (h : Loop size b chunks b') (hshort : b.buffer.length < size)
    {pre post : List (List UInt8)} {chunk : List UInt8} (hsplit : chunks = pre ++ chunk :: post) :
    (b.buffer ++ pre.flatten).length < size := by
  cases pre with
  | nil =>
      rw [List.flatten_nil, List.append_nil]
      exact hshort
  | cons first pre =>
      induction h generalizing first pre with
      | noMore _ => simp at hsplit
      | enough _ _ _ => simp at hsplit
      | again hround _ hmore _ ih =>
          rw [List.cons_append, List.cons.injEq] at hsplit
          rcases hsplit with ⟨rfl, hrest⟩
          rw [List.flatten_cons, ← List.append_assoc, ← hround.2]
          cases pre with
          | nil =>
              rw [List.flatten_nil, List.append_nil]
              exact hmore
          | cons second pre => exact ih hmore second pre hrest

theorem Loop.short (h : Loop size b chunks b') (hshort : b'.buffer.length < size) :
    ∃ pre, chunks = pre ++ [[]] := by
  induction h with
  | noMore _ => exact ⟨[], rfl⟩
  | enough _ _ henough => exact absurd hshort (Nat.not_lt_of_le henough)
  | @again _ _ _ chunk _ _ _ _ _ ih =>
      obtain ⟨pre, rfl⟩ := ih hshort
      exact ⟨chunk :: pre, rfl⟩

/-! ## One call -/

/-- How `ensure_has_requested` ends: with enough bytes queued, or in an
exception. -/
theorem ensureHasRequested_cases (size : Nat) (b : ByteBuffer σ) :
    (size ≤ b.buffer.length ∧ ensureHasRequested size b = .ok () b) ∨
    b.buffer.length < size ∧ ∃ chunks m, Loop size b chunks m ∧
      ((size ≤ m.buffer.length ∧ ensureHasRequested size b = .ok () m) ∨
        (m.buffer.length < size ∧ ∃ e, ensureHasRequested size b = .error e m)) := by
  by_cases hqueued : size ≤ b.buffer.length
  · exact Or.inl ⟨hqueued, if_pos hqueued⟩
  · have hshort := Nat.lt_of_not_le hqueued
    obtain ⟨chunks, hloop⟩ := loop_refill _ b hshort (Nat.le_refl _)
    refine Or.inr ⟨hshort, chunks, _, hloop, ?_⟩
    rw [ensureHasRequested, if_neg hqueued]
    by_cases henough : size ≤ (refill size (size - b.buffer.length) b).buffer.length
    · exact Or.inl ⟨henough, if_neg (Nat.not_lt_of_le henough)⟩
    · have hless := Nat.lt_of_not_le henough
      exact Or.inr ⟨hless, _, if_pos hless⟩

theorem perform_of_ok {call : ReadCall} {m : ByteBuffer σ}
    (henough : call.size ≤ m.buffer.length) (hok : ensureHasRequested call.size b = .ok () m) :
    (b.perform call).1.isThrown = false ∧
      (b.perform call).1.consumed = m.buffer.take call.size ∧
      (b.perform call).2 = { m with buffer := m.buffer.drop call.size } := by
  cases call with
  | integer1 =>
      change ensureHasRequested 1 b = .ok () m at hok
      obtain ⟨x, xs, hbuffer⟩ := List.exists_cons_of_length_pos henough
      have hread : getInteger1 b = .ok x { m with buffer := xs } := by
        rw [getInteger1, bind_ok hok, popFront, hbuffer]
        rfl
      rw [perform, outcome, hread, hbuffer]
      exact ⟨rfl, rfl, rfl⟩
  | integer4 =>
      change ensureHasRequested 4 b = .ok () m at hok
      obtain ⟨n, hshift, hn⟩ := shiftIn_ok 4 0 0 m (by decide) (by decide) henough
      have hread : getInteger4 b = .ok n { m with buffer := m.buffer.drop 4 } := by
        rw [getInteger4, bind_ok hok, hshift]
      have hvalue : n.toNat = LittleEndian.decode (m.buffer.take 4) := by
        rw [hn]
        change 0 + 2 ^ (8 * 0) * _ = _
        omega
      have hfour : (m.buffer.take 4).length = 4 := by
        rw [List.length_take]
        exact Nat.min_eq_left henough
      -- The bytes that went into the integer can be read off it again.
      have hencode := LittleEndian.encode_decode (m.buffer.take 4)
      rw [hfour, ← hvalue] at hencode
      rw [perform, outcome, hread]
      exact ⟨rfl, hencode, rfl⟩
  | next size =>
      have hread : getNext size.toNat b = .ok (m.buffer.take size.toNat)
          { m with buffer := m.buffer.drop size.toNat } := by
        rw [getNext]
        exact bind_ok hok
      rw [perform, outcome, hread]
      exact ⟨rfl, rfl, rfl⟩

theorem perform_of_error {call : ReadCall} {m : ByteBuffer σ} {e : EmptyBufferException}
    (herror : ensureHasRequested call.size b = .error e m) :
    b.perform call = (.thrown e, m) := by
  cases call with
  | integer1 =>
      have hread : getInteger1 b = .error e m := bind_error herror
      rw [perform, outcome, hread]
  | integer4 =>
      have hread : getInteger4 b = .error e m := bind_error herror
      rw [perform, outcome, hread]
  | next size =>
      have hread : getNext size.toNat b = .error e m := bind_error herror
      rw [perform, outcome, hread]

theorem served_of_ok {call : ReadCall} {m : ByteBuffer σ}
    (hends : (call.size ≤ b.buffer.length ∧ chunks = []) ∨
      (b.buffer.length < call.size ∧ ∃ m, Loop call.size b chunks m))
    (hpulls : Run Pull b.source chunks m.source) (hqueue : m.buffer = b.buffer ++ chunks.flatten)
    (hneeded : ∀ pre chunk post, chunks = pre ++ chunk :: post →
      (b.buffer ++ pre.flatten).length < call.size)
    (henough : call.size ≤ m.buffer.length) (hok : ensureHasRequested call.size b = .ok () m) :
    Served call b chunks := by
  obtain ⟨hreturns, hconsumed, hafter⟩ := perform_of_ok henough hok
  refine ⟨hends, ?_, ?_, hneeded, ?_, ?_⟩
  · rw [hafter]
    exact hpulls
  · rw [hconsumed, hafter, ← hqueue]
    exact List.take_append_drop call.size m.buffer
  · intro _
    rw [hconsumed, List.length_take]
    exact Nat.min_eq_left henough
  · intro hthrown
    cases hreturns.symm.trans hthrown

/-- **One call** of a read, on any buffer. -/
theorem served (call : ReadCall) (b : ByteBuffer σ) : ∃ chunks, Served call b chunks := by
  rcases ensureHasRequested_cases call.size b with ⟨hqueued, hok⟩ |
    ⟨hshort, chunks, m, hloop, ⟨henough, hok⟩ | ⟨hless, e, herror⟩⟩
  · refine ⟨[], served_of_ok (Or.inl ⟨hqueued, rfl⟩) .nil ?_ ?_ hqueued hok⟩
    · exact (List.append_nil b.buffer).symm
    · intro pre chunk post hsplit
      simp at hsplit
  · refine ⟨chunks, served_of_ok (Or.inr ⟨hshort, m, hloop⟩) hloop.pulls hloop.queued ?_
      henough hok⟩
    intro pre chunk post hsplit
    exact hloop.needed hshort hsplit
  · have hperform := perform_of_error herror
    refine ⟨chunks, Or.inr ⟨hshort, m, hloop⟩, ?_, ?_, ?_, ?_, ?_⟩
    · rw [hperform]
      exact hloop.pulls
    · rw [hperform]
      exact hloop.queued
    · intro pre chunk post hsplit
      exact hloop.needed hshort hsplit
    · intro hreturns
      rw [hperform] at hreturns
      cases hreturns
    · intro _
      rw [hperform, ← hloop.queued]
      exact ⟨hloop.short hless, hless, rfl⟩

end

/-! ## All calls -/

/-- What has been handed out and what is queued is what the source has returned
since `start`. -/
def Conserved (start : σ) (handed : List UInt8) (b : ByteBuffer σ) : Prop :=
  ∃ returned, Run Pull start returned b.source ∧ handed ++ b.buffer = returned.flatten

section

variable {start : σ} {handed : List UInt8} {b : ByteBuffer σ}

theorem Conserved.round (h : Conserved start handed b) {m : ByteBuffer σ} {chunk : List UInt8}
    (hround : Round b chunk m) : Conserved start handed m := by
  obtain ⟨returned, hrun, hall⟩ := h
  refine ⟨returned ++ [chunk], hrun.snoc hround.1, ?_⟩
  rw [hround.2, ← List.append_assoc, hall, List.flatten_append, List.flatten_singleton]

theorem Conserved.rounds (h : Conserved start handed b) {m : ByteBuffer σ}
    {chunks : List (List UInt8)} (hrounds : Run Round b chunks m) : Conserved start handed m :=
  hrounds.invariant h fun _ _ _ hm hround => hm.round hround

theorem Conserved.perform (h : Conserved start handed b) (call : ReadCall) :
    Conserved start (handed ++ (b.perform call).1.consumed) (b.perform call).2 := by
  obtain ⟨returned, hrun, hall⟩ := h
  obtain ⟨chunks, hserved⟩ := served call b
  refine ⟨returned ++ chunks, hrun.append hserved.pulls, ?_⟩
  rw [List.append_assoc, hserved.queue, ← List.append_assoc, hall, List.flatten_append]

theorem Conserved.afterCalls (h : Conserved start handed b) (calls : List ReadCall) :
    Conserved start (handed ++ b.consumed calls) (b.afterCalls calls) := by
  induction calls generalizing handed b with
  | nil =>
      rw [consumed, List.append_nil]
      exact h
  | cons call calls ih =>
      rw [consumed, ← List.append_assoc]
      exact ih (h.perform call)

end

/-- **The read buffer loses nothing.** After any calls, and after any rounds of
the loop of the next one, what the calls have handed out and what is queued is
what the source has returned; and each call is served from the buffer's front, or
throws and takes nothing. -/
theorem buffer_lossless (source : σ) (calls : List ReadCall) :
    (∀ chunks m, Run Round (afterCalls ⟨[], source⟩ calls) chunks m →
      Conserved source (consumed ⟨[], source⟩ calls) m) ∧
    ∀ call, ∃ chunks, Served call (afterCalls ⟨[], source⟩ calls) chunks := by
  constructor
  · intro chunks m hrounds
    have hstart : Conserved source [] ⟨[], source⟩ := ⟨[], .nil, rfl⟩
    exact (hstart.afterCalls calls).rounds hrounds
  · intro call
    exact served call _

end ByteBuffer

end EasyKeyDB
