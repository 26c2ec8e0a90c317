import EasyKeyDB.Connection
import EasyKeyDB.ReplyFrames

/-!
# Replies on a socket that may take less

Neither `write` of `ClientSocket` looks at how much the kernel took. After a
reply that was taken in part, the next one follows in the middle of its frame.
A connection is followed through its events with what the kernel takes of every call
that `parse_request` makes (`Transmits`); the database may have been changed by other
clients in between. What arrives at the client is framed as long as the replies are
whole and one that is cut is the last of which anything is taken
(`framed_of_undamaged`).
-/

namespace EasyKeyDB

open LittleEndian ByteBuffer

/-- `bytes` are complete responses, and perhaps the beginning of one more. In
that case it has to be all that ever arrives, so `later` is empty. -/
def Framed (bytes later : List UInt8) : Prop :=
  ∃ frames rest, bytes = List.flatten frames ++ rest ∧ (∀ f ∈ frames, IsFrame f) ∧
    (rest = [] ∨ (∃ more, more ≠ [] ∧ IsFrame (rest ++ more)) ∧ later = [])

/-! ## What the kernel takes -/

def SocketCall.moved : SocketCall → IoResult → Nat
  | .send data _, r => r.transferred data.length
  | .sendfile data, r => min sendfileLimit (r.transferred data.length)

theorem SocketCall.acceptedBy_eq (call : SocketCall) (r : IoResult) :
    call.acceptedBy r = call.data.take (call.moved r) := by
  cases call <;> rfl

def takenBy (calls : List (SocketCall × IoResult)) : List UInt8 :=
  calls.flatMap fun c => c.1.acceptedBy c.2

theorem takenBy_append (calls more : List (SocketCall × IoResult)) :
    takenBy (calls ++ more) = takenBy calls ++ takenBy more :=
  List.flatMap_append

def AllTaken (calls : List (SocketCall × IoResult)) : Prop :=
  ∀ c ∈ calls, c.1.moved c.2 = c.1.data.length

def NoneTaken (calls : List (SocketCall × IoResult)) : Prop := ∀ c ∈ calls, c.1.moved c.2 = 0

section

variable {calls : List (SocketCall × IoResult)}

theorem takenBy_of_allTaken (h : AllTaken calls) :
    takenBy calls = sentBytes (calls.map Prod.fst) := by
  rw [takenBy, sentBytes, List.flatMap_map]
  refine List.flatMap_congr fun c hc => ?_
  rw [SocketCall.acceptedBy_eq, h c hc, List.take_length]

theorem takenBy_of_noneTaken (h : NoneTaken calls) : takenBy calls = [] := by
  refine List.flatMap_eq_nil_iff.mpr fun c hc => ?_
  rw [SocketCall.acceptedBy_eq, h c hc, List.take_zero]

theorem takenBy_of_cut {pre post : List (SocketCall × IoResult)} {c : SocketCall × IoResult}
    (hpre : AllTaken pre) (hpost : NoneTaken post) :
    takenBy (pre ++ c :: post) <+: sentBytes ((pre ++ c :: post).map Prod.fst) := by
  have hcut : takenBy (pre ++ c :: post) =
      sentBytes (pre.map Prod.fst) ++ c.1.acceptedBy c.2 := by
    rw [takenBy_append, takenBy_of_allTaken hpre]
    change _ ++ (c.1.acceptedBy c.2 ++ takenBy post) = _
    rw [takenBy_of_noneTaken hpost, List.append_nil]
  have hsent : sentBytes ((pre ++ c :: post).map Prod.fst) =
      sentBytes (pre.map Prod.fst) ++ (c.1.data ++ sentBytes (post.map Prod.fst)) := by
    rw [List.map_append]
    exact List.flatMap_append
  rw [hcut, hsent, SocketCall.acceptedBy_eq]
  refine (List.prefix_append_right_inj _).mpr ?_
  exact (List.take_prefix _ _).trans (List.prefix_append _ _)

end

/-! ## Transmissions -/

/-- One event on a connection: the database that `parse_request` finds, the bytes that
are there for its reads, and what the kernel takes of each of the calls that it makes. -/
structure Transmission where
  database : Database
  found : List UInt8
  round : Round
  outcomes : List IoResult

namespace Transmission

def calls (x : Transmission) : List (SocketCall × IoResult) :=
  ((parse x.found).calls x.database).zip x.outcomes

def ReplyWhole (x : Transmission) : Prop := (parse x.found).ReplyWhole x.database

/-- The first call of which not all is taken is the last of which anything is. -/
def CutOnce (x : Transmission) : Prop :=
  ∃ pre c post, x.calls = pre ++ c :: post ∧ AllTaken pre ∧ NoneTaken post

end Transmission

/-- A connection, and the bytes that the kernel has taken on it. -/
structure Line where
  socket : ClientSocket Chunks
  taken : List UInt8

def Line.new (fd : Int) (now : UInt64) : Line := ⟨ClientSocket.new fd now [], []⟩

/-- An event is handled, and the kernel takes what it takes. -/
inductive Transmits (l : Line) (x : Transmission) : Line → Prop
  | call {after : HandlerState Chunks} {calls : List SocketCall} :
      l.socket.readBuffer.unread ++ x.round.bytes = x.found →
      Handled ⟨x.database, l.socket⟩ x.round after →
      after.socket.sent = l.socket.sent ++ calls → x.outcomes.length = calls.length →
      Transmits l x ⟨after.socket, l.taken ++ takenBy (calls.zip x.outcomes)⟩

/-- Every reply is whole, and is taken whole or not at all, except that one may be cut
once and for all. -/
def Undamaged (xs : List Transmission) : Prop :=
  (∀ x ∈ xs, x.ReplyWhole) ∧
    ∀ pre x post, xs = pre ++ x :: post →
      AllTaken x.calls ∨ NoneTaken x.calls ∨
        x.CutOnce ∧ ∀ y ∈ post, NoneTaken y.calls

section

variable {l l' : Line} {x : Transmission} {xs ys : List Transmission}

theorem Transmits.spec (h : Transmits l x l') :
    l'.taken = l.taken ++ takenBy x.calls ∧
      x.calls.map Prod.fst = (parse x.found).calls x.database := by
  rcases h with ⟨hfound, hhandled, hsent, hlength⟩
  obtain ⟨p, rfl, -, hcalls, -⟩ := hhandled.spec
  change _ = l.socket.sent ++ (parse (l.socket.readBuffer.unread ++ x.round.bytes)).calls
    x.database at hcalls
  rw [hsent, hfound, List.append_cancel_left_eq] at hcalls
  subst hcalls
  exact ⟨rfl, List.map_fst_zip hlength.ge⟩

theorem taken_of_run (h : Run Transmits l xs l') :
    l'.taken = l.taken ++ xs.flatMap fun x => takenBy x.calls := by
  induction h with
  | nil => exact (List.append_nil _).symm
  | snoc _ hlast ih =>
      rw [hlast.spec.1, ih, List.flatMap_append, List.flatMap_singleton, List.append_assoc]

theorem taken_of_none (h : ∀ x ∈ xs, NoneTaken x.calls) :
    (xs.flatMap fun x => takenBy x.calls) = [] :=
  List.flatMap_eq_nil_iff.mpr fun x hx => takenBy_of_noneTaken (h x hx)

/-- A state in which the stream ends with a complete response goes on with one
reply. -/
theorem Framed.transmit {bytes later : List UInt8} (hx : Transmits l x l')
    (h : Framed bytes (takenBy x.calls ++ later)) (hwhole : x.ReplyWhole)
    (htaken : AllTaken x.calls ∨ NoneTaken x.calls ∨ x.CutOnce ∧ later = []) :
    Framed (bytes ++ takenBy x.calls) later := by
  have hframe : IsFrame (sentBytes (x.calls.map Prod.fst)) := by
    rw [hx.spec.2]
    exact Parsed.isFrame_calls_iff.mpr hwhole
  obtain ⟨frames, rest, rfl, hframes, hrest⟩ := h
  rcases hrest with rfl | ⟨hcut, hlater⟩
  · rw [List.append_nil]
    have hgrown : IsFrame (takenBy x.calls) →
        Framed (frames.flatten ++ takenBy x.calls) later := by
      intro htaken
      refine ⟨frames ++ [takenBy x.calls], [], by simp, ?_, Or.inl rfl⟩
      intro f hf
      rcases List.mem_append.mp hf with hf | hf
      · exact hframes f hf
      · rw [List.mem_singleton.mp hf]
        exact htaken
    rcases htaken with hall | hnone | ⟨⟨pre, c, post, hcalls, hpre, hpost⟩, hlater⟩
    · apply hgrown
      rw [takenBy_of_allTaken hall]
      exact hframe
    · refine ⟨frames, [], ?_, hframes, Or.inl rfl⟩
      rw [takenBy_of_noneTaken hnone]
    · obtain ⟨more, hmore⟩ := takenBy_of_cut (c := c) hpre hpost
      rw [← hcalls] at hmore
      by_cases hnone : more = []
      · apply hgrown
        rw [hnone, List.append_nil] at hmore
        rw [hmore]
        exact hframe
      · refine ⟨frames, takenBy x.calls, rfl, hframes, Or.inr ⟨⟨more, hnone, ?_⟩, hlater⟩⟩
        rw [hmore]
        exact hframe
  · -- Nothing is taken after a cut: this reply was refused.
    obtain ⟨hnone, hlater⟩ := List.append_eq_nil_iff.mp hlater
    refine ⟨frames, rest, ?_, hframes, Or.inr ⟨hcut, hlater⟩⟩
    rw [hnone, List.append_nil]

/-- **Framing of the response stream.** In every state of an undamaged run the
kernel has taken complete responses, and at most the beginning of one more,
behind which nothing is taken. -/
theorem framed_of_undamaged {fd : Int} {now : UInt64} (hpre : Run Transmits (.new fd now) xs l)
    (hpost : Run Transmits l ys l') (h : Undamaged (xs ++ ys)) :
    ∃ later, l'.taken = l.taken ++ later ∧ Framed l.taken later := by
  refine ⟨_, taken_of_run hpost, ?_⟩
  clear hpost
  induction hpre generalizing ys with
  | nil => exact ⟨[], [], rfl, by simp, Or.inl rfl⟩
  | @snoc xs l x l' _ hx ih =>
      rw [List.append_assoc] at h
      have htaken := h.2 xs x ys rfl
      rw [hx.spec.1]
      refine (ih h).transmit hx (h.1 x (by simp)) ?_
      rcases htaken with hall | hnone | ⟨hcut, hrefused⟩
      · exact Or.inl hall
      · exact Or.inr (Or.inl hnone)
      · exact Or.inr (Or.inr ⟨hcut, taken_of_none hrefused⟩)

/-- An event that brings one request and no byte more. -/
def Transmission.Alone (x : Transmission) : Prop :=
  x.round.bytes = x.found ∧ (parse x.found).rest = [] ∧
    x.outcomes.length = ((parse x.found).calls x.database).length

theorem transmits_exists (hidle : l.socket.readBuffer.unread = []) (hx : x.Alone) :
    ∃ l', Transmits l x l' ∧ l'.socket.readBuffer.unread = [] := by
  obtain ⟨hbytes, hrest, hlength⟩ := hx
  have hfound : l.socket.readBuffer.unread ++ x.round.bytes = x.found := by
    rw [hidle, hbytes, List.nil_append]
  obtain ⟨after, hhandled⟩ := event_exists ⟨x.database, l.socket⟩ x.round
  obtain ⟨p, rfl, -, hsent, hunread⟩ := hhandled.spec
  change _ = (parse (l.socket.readBuffer.unread ++ x.round.bytes)).rest at hunread
  change _ = l.socket.sent ++ (parse (l.socket.readBuffer.unread ++ x.round.bytes)).calls
    x.database at hsent
  rw [hfound] at hunread hsent
  exact ⟨_, .call hfound hhandled hsent hlength, hunread.trans hrest⟩

theorem run_of_alone (fd : Int) (now : UInt64) (h : ∀ x ∈ xs, x.Alone) :
    ∃ l, Run Transmits (.new fd now) xs l ∧ l.socket.readBuffer.unread = [] := by
  induction xs using List.reverseRecOn with
  | nil => exact ⟨_, .nil, rfl⟩
  | append_singleton xs x ih =>
      obtain ⟨l, hrun, hidle⟩ := ih fun y hy => h y (List.mem_append_left _ hy)
      obtain ⟨l', hx, hidle'⟩ := transmits_exists hidle (h x (by simp))
      exact ⟨l', hrun.snoc hx, hidle'⟩

end

/-! ## A reply cut in its header -/

/-- A byte that is no version, and the outcome of the `send` that says so. -/
def garbled (r : IoResult) : Transmission := ⟨Database.new, [7], announcing [7], [r]⟩

/-- A read of three bytes, of which the last two are not taken. -/
def readCut : Transmission :=
  ⟨Database.new.write keyA.bytes [1, 2, 3] .complete, (Request.read keyA).encode,
    announcing (Request.read keyA).encode, [.complete, .short 5]⟩

/-- A reply taken whole, one cut, and one refused. -/
theorem cut_last_framed :
    ∃ l l', Run Transmits (.new 5 0) [garbled .complete, readCut] l ∧
      Run Transmits l [garbled .failed] l' ∧
      ∃ later, l'.taken = l.taken ++ later ∧ Framed l.taken later := by
  have halone : ∀ x ∈ [garbled .complete, readCut] ++ [garbled .failed], x.Alone := by
    intro x hx
    simp only [List.cons_append, List.nil_append, List.mem_cons, List.not_mem_nil,
      or_false] at hx
    rcases hx with rfl | rfl | rfl
    · exact ⟨rfl, rfl, rfl⟩
    · exact ⟨rfl, rfl, rfl⟩
    · exact ⟨rfl, rfl, rfl⟩
  obtain ⟨l', hrun, -⟩ := run_of_alone 5 0 halone
  obtain ⟨l, hpre, hpost⟩ := hrun.of_append
  refine ⟨l, l', hpre, hpost, framed_of_undamaged hpre hpost ⟨?_, ?_⟩⟩
  · intro x hx
    simp only [List.cons_append, List.nil_append, List.mem_cons, List.not_mem_nil,
      or_false] at hx
    rcases hx with rfl | rfl | rfl
    · trivial
    · refine ⟨fun hnone => absurd hnone (by decide), fun storage hread => ?_⟩
      refine ⟨⟨[1, 2, 3], by decide⟩, ?_⟩
      cases hread
      rfl
    · trivial
  · rintro pre x post hsplit
    rcases pre with _ | ⟨a, _ | ⟨b, _ | ⟨c, pre⟩⟩⟩
    · cases hsplit
      exact Or.inl (by unfold AllTaken; decide +kernel)
    · cases hsplit
      refine Or.inr (Or.inr ⟨⟨[_], _, [], rfl, ?_, nofun⟩, ?_⟩)
      · unfold AllTaken
        decide +kernel
      · intro y hy
        rw [List.mem_singleton.mp hy]
        unfold NoneTaken
        decide +kernel
    · cases hsplit
      exact Or.inr (Or.inl (by unfold NoneTaken; decide +kernel))
    · simp at hsplit

/-- Five bytes of one reply, and then another reply: no frame begins like
this. -/
theorem cut_header_not_framed :
    ∃ l, Run Transmits (.new 5 0) [garbled (.short 5), garbled .complete] l ∧
      ¬ Framed l.taken [] := by
  have halone : ∀ x ∈ [garbled (.short 5), garbled .complete], x.Alone := by
    intro x hx
    rcases List.mem_pair.mp hx with rfl | rfl
    · exact ⟨rfl, rfl, rfl⟩
    · exact ⟨rfl, rfl, rfl⟩
  obtain ⟨l, hrun, -⟩ := run_of_alone 5 0 halone
  refine ⟨l, hrun, ?_⟩
  have hbyte : ∀ f s, IsFrame f → (f ++ s)[5]? = some 0 := by
    rintro f s ⟨status, body, rfl, -⟩
    rw [frame, field_status]
    rfl
  have hversion : l.taken[5]? = some 1 := by
    rw [taken_of_run hrun]
    decide +kernel
  rintro ⟨frames, rest, hbytes, hframes, hrest⟩
  rw [hbytes] at hversion
  rcases frames with _ | ⟨f, frames⟩
  · rcases hrest with rfl | ⟨⟨more, -, hframe⟩, -⟩
    · cases hversion
    · have hzero := hbyte (rest ++ more) [] hframe
      have hlong : 5 < rest.length := (List.getElem?_eq_some_iff.mp hversion).1
      rw [List.append_nil, List.getElem?_append_left hlong] at hzero
      exact absurd (hversion.symm.trans hzero) (by decide)
  · rw [List.flatten_cons, List.append_assoc, hbyte f _ (hframes f (by simp))] at hversion
    exact absurd hversion (by decide)

end EasyKeyDB
