import EasyKeyDB.BufferCalls
import EasyKeyDB.Replies

/-!
# How much a connection may hold

A read of `n` bytes goes on calling the source until it has them, and one call returns
at most what fits in the lambda's buffer. What a read leaves queued is therefore less
than such a buffer, or less than the `n` bytes it has not got, or less than there was
(`Holdable.perform`).

So whatever clients send, between events the queue of a connection stays below the 2 ^ 32 - 1
bytes that a message may announce (`memory_bounded`), and `ByteBuffer::size`, which is cut
to 32 bits, is true.
-/

namespace EasyKeyDB

open ByteBuffer Throwing

namespace ByteBuffer

variable {σ : Type}

def size (b : ByteBuffer σ) : UInt32 := UInt32.ofNat b.buffer.length

def hasContent (b : ByteBuffer σ) : Bool := !b.buffer.isEmpty

theorem toNat_size {b : ByteBuffer σ} (h : b.buffer.length < 2 ^ 32) :
    b.size.toNat = b.buffer.length := by
  rw [size, UInt32.toNat_ofNat']
  exact Nat.mod_eq_of_lt h

theorem hasContent_iff {b : ByteBuffer σ} (h : b.buffer.length < 2 ^ 32) :
    b.hasContent = true ↔ b.size ≠ 0 := by
  have hzero : b.size = 0 ↔ b.buffer.length = 0 := by
    rw [← toNat_size h, ← UInt32.toNat_inj]
    rfl
  rw [ne_eq, hzero, List.length_eq_zero_iff, hasContent, Bool.not_eq_true',
    List.isEmpty_eq_false_iff]

/-- The size of the array that the lambda reads into. -/
def readSize : Nat := 1024 * 1024 * 1

/-- The queue is short, and so is what may still come in one piece. -/
structure Holdable (b : ByteBuffer Chunks) : Prop where
  queued : b.buffer.length < 2 ^ 32 - 1
  coming : ∀ chunk ∈ b.source, chunk.length ≤ readSize

section

variable {b : ByteBuffer Chunks} {s t : Chunks} {chunks : List (List UInt8)}

theorem coming_pulls (h : Run Pull s chunks t) (hs : ∀ chunk ∈ s, chunk.length ≤ readSize) :
    (∀ chunk ∈ chunks, chunk.length ≤ readSize) ∧ ∀ chunk ∈ t, chunk.length ≤ readSize := by
  induction h with
  | nil => exact ⟨nofun, hs⟩
  | @snoc chunks m chunk t _ hpull ih =>
      obtain ⟨hchunks, hm⟩ := ih
      have hlast : chunk.length ≤ readSize ∧ ∀ chunk ∈ t, chunk.length ≤ readSize := by
        cases m with
        | nil =>
            cases hpull
            exact ⟨Nat.zero_le _, nofun⟩
        | cons first m =>
            cases hpull
            exact List.forall_mem_cons.mp hm
      refine ⟨?_, hlast.2⟩
      intro piece hpiece
      rcases List.mem_append.mp hpiece with hpiece | hpiece
      · exact hchunks piece hpiece
      · rw [List.mem_singleton.mp hpiece]
        exact hlast.1

/-- **A read** leaves a queue that is short. -/
theorem Holdable.perform (h : Holdable b) (call : ReadCall) : Holdable (b.perform call).2 := by
  obtain ⟨chunks, hserved⟩ := served call b
  obtain ⟨hchunks, hcoming⟩ := coming_pulls hserved.pulls h.coming
  refine ⟨?_, hcoming⟩
  have hcall : call.size ≤ 2 ^ 32 - 1 := by
    cases call with
    | integer1 => decide
    | integer4 => decide
    | next size => exact Nat.le_sub_one_of_lt size.toNat_lt
  cases hthrown : (b.perform call).1.isThrown with
  | true =>
      obtain ⟨-, hshort, hqueue⟩ := hserved.thrown hthrown
      rw [hqueue]
      exact hshort.trans_le hcall
  | false =>
      have hlength := congrArg List.length hserved.queue
      rw [List.length_append, hserved.whole hthrown, List.length_append] at hlength
      rcases List.eq_nil_or_concat' chunks with rfl | ⟨pre, last, rfl⟩
      · -- Nothing has been pulled.
        have hqueued := h.queued
        rw [List.flatten_nil, List.length_nil] at hlength
        omega
      · have hneeded := hserved.needed pre last [] rfl
        have hlast := hchunks last (List.mem_append_right _ List.mem_cons_self)
        rw [List.length_append] at hneeded
        rw [List.flatten_append, List.length_append, List.flatten_singleton] at hlength
        rw [readSize] at hlast
        omega

end

end ByteBuffer

section

variable {append : IoResult}

def Short (s : HandlerState Chunks) : Prop := s.socket.readBuffer.Holdable

theorem keeps_reading {α : Type} {read : ReadM Chunks α} {returned : α → ReadOutcome}
    (call : ReadCall) (hcall : ∀ b : ByteBuffer Chunks, outcome returned read b = b.perform call) :
    Keeps Short (reading read) := by
  intro s hs
  have hafter := hs.perform call
  rw [← hcall, outcome] at hafter
  rw [reading]
  cases h : read s.socket.readBuffer with
  | ok a b =>
      rw [h] at hafter
      exact hafter
  | error e b =>
      rw [h] at hafter
      exact hafter

theorem keeps_reply (status : ResponseStatus) (text : List UInt8) :
    Keeps Short (reply status text) := fun _ hs => hs

theorem keeps_replyStored (value : FileStorage) : Keeps Short (replyStored value) :=
  fun _ hs => hs

theorem keeps_writeOperation (key : List UInt8) : Keeps Short (writeOperation append key) := by
  unfold writeOperation
  refine (keeps_reading .integer4 fun _ => rfl).bind fun size => ?_
  refine (keeps_reading (.next size) fun _ => rfl).bind fun value => ?_
  have hwrite : Keeps Short (modify fun s : HandlerState Chunks =>
      { s with database := s.database.write key value append } : HandlerM Chunks Unit) :=
    fun _ hs => hs
  exact hwrite.bind fun _ => keeps_reply _ _

theorem keeps_messagesBlock (messages : UInt8) : Keeps Short (messagesBlock append messages) := by
  unfold messagesBlock
  refine (keeps_reading .integer4 fun _ => rfl).bind fun size => ?_
  refine (keeps_reading (.next size) fun _ => rfl).bind fun key => ?_
  split_ifs
  · exact keeps_reply _ _
  · have hget : Keeps Short (get : HandlerM Chunks (HandlerState Chunks)) := fun _ hs => hs
    refine hget.bind fun s => ?_
    cases s.database.read key with
    | none => exact keeps_reply _ _
    | some value => exact keeps_replyStored value
  · exact keeps_writeOperation key

theorem keeps_requestBlock : Keeps Short (requestBlock append) := by
  unfold requestBlock
  refine (keeps_reading .integer1 fun _ => rfl).bind fun protocol => ?_
  split_ifs
  · exact keeps_reply _ _
  · refine (keeps_reading .integer1 fun _ => rfl).bind fun messages => ?_
    split_ifs
    · exact keeps_reply _ _
    · exact keeps_messagesBlock messages

theorem keeps_parseRequest : Keeps Short (parseRequest append) :=
  keeps_requestBlock.catch fun _ => keeps_reply _ _

end

/-- The bound is reached: behind the announcement of the longest message everything is
held, up to its last byte but one. -/
theorem held_of_announced (db : Database) {more : Chunks} (hmore : [] ∉ more)
    (hlength : more.flatten.length < 2 ^ 32 - 1) :
    ∃ after, parseRequest .complete
        ⟨db, ClientSocket.new 5 0 ([0x01, 0x01, 0xff, 0xff, 0xff, 0xff] :: more)⟩ = .ok () after ∧
      after.socket.readBuffer.buffer = more.flatten := by
  let socket : ClientSocket Chunks :=
    ClientSocket.new 5 0 ([0x01, 0x01, 0xff, 0xff, 0xff, 0xff] :: more)
  have hunread : socket.readBuffer.unread =
      v1 :: 1 :: ([0xff, 0xff, 0xff, 0xff] ++ more.flatten) := by
    change [] ++ ([0x01, 0x01, 0xff, 0xff, 0xff, 0xff] ++ arriving more) = _
    rw [arriving_eq_flatten hmore]
    rfl
  have hparse : parse socket.readBuffer.unread = .truncated more.flatten := by
    have hfour : ([0xff, 0xff, 0xff, 0xff] : List UInt8).length = 4 := rfl
    have hsize : LittleEndian.decode [0xff, 0xff, 0xff, 0xff] = 2 ^ 32 - 1 := by decide
    rw [hunread, parse_messages (Or.inl rfl), parseMessages, LittleEndian.readField_append hfour,
      hsize, if_pos hlength]
  obtain ⟨b', hleft, hrun⟩ := parseRequest_run .complete db socket
  rw [hparse] at hleft
  obtain rfl : b' = ⟨more.flatten, _⟩ := hleft
  exact ⟨_, hrun, rfl⟩

namespace Server

/-- The reads that a step makes return no more than fits in the lambda's array. -/
def ReadsFit : Label → Prop
  | .dispatch _ reads _ _ => ∀ r ∈ reads, (sourceTrigger r).length ≤ readSize
  | .setUp | .wait _ _ | .endOfBatch _ | .connect | .stop => True

/-- No connection holds more than it may between two events. -/
def Holds (s : Server) : Prop :=
  ∀ fd c, s.entry fd = some c → c.client.readBuffer.buffer.length < 2 ^ 32 - 1

section

variable {s s' : Server} {x : Label} {c : Connection} {reads : List ReadResult} {append : IoResult}

theorem reads_of_handles (hhandles : s.handles x = some (c, reads, append)) (hfit : ReadsFit x) :
    ∀ chunk ∈ reads.map sourceTrigger, chunk.length ≤ readSize := by
  unfold handles at hhandles
  split at hhandles
  · split at hhandles
    · split_ifs at hhandles
      obtain ⟨c', -, hsame⟩ := Option.map_eq_some_iff.mp hhandles
      cases hsame
      rintro chunk hchunk
      obtain ⟨r, hr, rfl⟩ := List.mem_map.mp hchunk
      exact hfit r hr
    · cases hhandles
  · cases hhandles

theorem Holds.step (hholds : s.Holds) (h : s.Invariant) (hstep : Step s x s')
    (hfit : ReadsFit x) : s'.Holds := by
  intro fd d hd
  cases step_effect h hstep with
  | leaves _ honly => exact hholds fd d (honly.entries fd d hd)
  | @enters fd' _ _ _ hentries =>
      rw [hentries] at hd
      split_ifs at hd
      · obtain rfl := Option.some.inj hd
        change 0 < 2 ^ 32 - 1
        omega
      · exact hholds fd d hd
  | @serves fd' c reads append client hhandles hc _ hentries =>
      by_cases hsame : fd' = fd
      · subst hsame
        obtain ⟨now, after, hcall, hafter⟩ := Network.called_of_handles h hstep hhandles
        have hshort : Short ⟨s.database, Network.announced c reads now⟩ :=
          ⟨hholds _ c hc, reads_of_handles hhandles hfit⟩
        have hkeeps : Keeps Short (parseRequest append) := keeps_parseRequest
        have hend := hkeeps _ hshort
        rw [hcall] at hend
        rw [(h.table.sockets _ _ hc).1] at hafter
        obtain rfl := Option.some.inj (hafter.symm.trans hd)
        exact hend.queued
      · rw [hentries, if_neg hsame] at hd
        exact hholds fd d hd

/-- **The memory of a connection is bounded.** Whatever the clients send, in every state of
every run each connection holds less than 2 ^ 32 - 1 bytes, and its `size` is the number
of the bytes it holds. -/
theorem memory_bounded {socket : Int} {connected disconnected : Bool} {others : Finset Int}
    {count : UInt32} {db : Database} {xs : List Label}
    (h : Run Step (starting socket connected disconnected others count db) xs s)
    (hfit : ∀ x ∈ xs, ReadsFit x) {fd : Int} (hc : s.currentConnections.find? fd = some c) :
    c.client.readBuffer.buffer.length < 2 ^ 32 - 1 ∧
      c.client.readBuffer.size.toNat = c.client.readBuffer.buffer.length := by
  have hend : s.Invariant ∧ s.Holds := by
    clear hc
    induction h with
    | nil =>
        refine ⟨invariant_starting .., ?_⟩
        intro fd c hc
        rw [entry_starting] at hc
        cases hc
    | @snoc xs m x t _ hstep ih =>
        obtain ⟨hm, hholds⟩ := ih fun y hy => hfit y (List.mem_append_left _ hy)
        exact ⟨(run_invariant hm (Run.single hstep)).1, hholds.step hm hstep
          (hfit x (List.mem_append_right _ List.mem_cons_self))⟩
  have hshort := hend.2 fd c hc
  exact ⟨hshort, toNat_size (hshort.trans (by decide))⟩

/-- A client has announced nine bytes and sent two. -/
def heldBack : List Label :=
  [.setUp, .connect, .wait [⟨0x001, 3⟩] 0, .dispatch (some 5) [] .complete 0, .endOfBatch 0,
    .wait [⟨0x005, 5⟩] 1, .dispatch none [.bytes [1, 1, 9, 0, 0, 0, 97, 98]] .complete 1]

theorem heldBack_memory_bounded :
    ∃ s c, Run Step (starting 3 true true {0, 1, 2} 0 Database.new) heldBack s ∧
      s.currentConnections.find? 5 = some c ∧ c.client.readBuffer.buffer = [97, 98] ∧
      c.client.readBuffer.size.toNat = 2 := by
  have hcall : (heldBack.foldlM (attempt Enabled next)
      (starting 3 true true {0, 1, 2} 0 Database.new)).map
        (fun s => (s.currentConnections.find? 5).map fun c => c.client.readBuffer.buffer) =
      some (some [97, 98]) := by
    decide +kernel
  obtain ⟨s, hrun, hbuffer⟩ := Run.of_view hcall
  obtain ⟨c, hc, hbuffer⟩ := Option.map_eq_some_iff.mp hbuffer
  have hfit : ∀ x ∈ heldBack, ReadsFit x := by
    simp [heldBack, ReadsFit, sourceTrigger, readSize]
  have hsize := (memory_bounded hrun hfit hc).2
  rw [hbuffer] at hsize
  exact ⟨s, c, hrun, hc, hbuffer, hsize⟩

end

end Server

end EasyKeyDB
