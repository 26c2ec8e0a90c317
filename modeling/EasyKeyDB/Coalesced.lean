import EasyKeyDB.Connection
import EasyKeyDB.ReplyFrames

/-!
# Requests sent ahead

A client that sends requests without waiting for replies. However TCP groups
the bytes, one event makes one `parse_request` call, and one call takes one
request. The requests are answered one by one exactly when there is one event
for each, none comes before its request, and each reply is a complete response
(`answeredInOrder_iff`): a second request that arrives together with the first stays
behind with no event to come (`stranded`), and an event whose bytes were read along
with an earlier request is answered with a complaint.
-/

namespace EasyKeyDB

open ByteBuffer

/-- The read timeout only expires where no request has begun. -/
def NoTimeoutInside (s : HandlerState Chunks) (r : Round) : Prop :=
  (parse (s.socket.readBuffer.unread ++ r.bytes)).isTruncated = true →
    s.socket.readBuffer.unread ++ r.bytes = []

/-- An event in a run without timeouts inside a request. -/
def Announced (s : HandlerState Chunks) (r : Round) (s' : HandlerState Chunks) : Prop :=
  Handled s r s' ∧ NoTimeoutInside s r

/-- The database serves a request, and the reply is made. -/
def Performs (s : Database × List SocketCall) (x : Request × IoResult)
    (s' : Database × List SocketCall) : Prop :=
  s' = (s.1.call (x.1.call x.2), s.2 ++ x.1.answer s.1)

/-- A request is answered: the bytes of its reply are one response. -/
def Answering (s : Database × List SocketCall) (q : Request)
    (s' : Database × List SocketCall) : Prop :=
  ∃ append, Performs s (q, append) s' ∧ IsFrame (sentBytes (q.answer s.1))

/-- The calls have sent one response for each request, in the order of the
requests. -/
def AnsweredInOrder (db : Database) (qs : List Request) (calls : List SocketCall) : Prop :=
  ∃ db', Run Answering (db, []) qs (db', calls)

/-- The reply to each request is a complete response in the database that the requests
before it, with these outcomes of their appends, leave. -/
def RepliesWhole (db : Database) : List (Request × IoResult) → Prop
  | [] => True
  | x :: xs => x.1.ReplyWhole db ∧ RepliesWhole (db.call (x.1.call x.2)) xs

/-- Some requests, each with the outcome of the append at its event. -/
def withAppends (qs : List Request) (rounds : List Round) : List (Request × IoResult) :=
  qs.zip (rounds.map Round.append)

def stream (qs : List Request) : List UInt8 := qs.flatMap Request.encode

/-- There is one event for each request, and at every one of them the request
it is for has arrived. -/
def InStep (qs : List Request) (rounds : List Round) : Prop :=
  rounds.length = qs.length ∧
    ∀ pre post done todo, rounds = pre ++ post → qs = done ++ todo →
      pre.length = done.length → (stream done).length ≤ (delivered pre).length

theorem stream_append (qs rs : List Request) : stream (qs ++ rs) = stream qs ++ stream rs :=
  List.flatMap_append

@[simp] theorem stream_singleton (q : Request) : stream [q] = q.encode :=
  List.append_nil _

/-! ## Counting replies -/

def SocketCall.isLast : SocketCall → Bool
  | .send _ more => !more
  | .sendfile _ => true

/-- The number of replies that the calls make up, whatever their bytes are. -/
def replyCount (calls : List SocketCall) : Nat := calls.countP SocketCall.isLast

theorem replyCount_append (calls more : List SocketCall) :
    replyCount (calls ++ more) = replyCount calls + replyCount more :=
  List.countP_append

theorem replyCount_answer (q : Request) (db : Database) : replyCount (q.answer db) = 1 := by
  cases q with
  | write key value => rfl
  | read key =>
      show replyCount (readCalls db key.bytes) = 1
      unfold readCalls
      cases db.read key.bytes <;> rfl

theorem answering_facts {db : Database} {qs : List Request}
    {s : Database × List SocketCall} (h : Run Answering (db, []) qs s) :
    replyCount s.2 = qs.length ∧ complaint ∉ s.2 := by
  induction h with
  | nil => exact ⟨rfl, List.not_mem_nil⟩
  | snoc _ hanswer ih =>
      obtain ⟨append, rfl, -⟩ := hanswer
      constructor
      · rw [replyCount_append, replyCount_answer, ih.1, List.length_append]
        rfl
      · rw [List.mem_append, not_or]
        exact ⟨ih.2, complaint_notMem_answer _ _⟩

/-! ## Requests and the bytes of their replies -/

section

variable {db : Database} {xs : List (Request × IoResult)} {s : Database × List SocketCall}

theorem repliesWhole_append {ys : List (Request × IoResult)} :
    RepliesWhole db (xs ++ ys) ↔ RepliesWhole db xs ∧
      RepliesWhole (xs.foldl (fun db x => db.call (x.1.call x.2)) db) ys := by
  induction xs generalizing db with
  | nil => exact (iff_of_eq (true_and _)).symm
  | cons x xs ih => exact (and_congr_right fun _ => ih).trans and_assoc.symm

theorem database_of_performs (h : Run Performs (db, []) xs s) :
    s.1 = xs.foldl (fun db x => db.call (x.1.call x.2)) db := by
  induction h with
  | nil => rfl
  | snoc _ hperforms ih =>
      obtain rfl := hperforms
      rw [List.foldl_append, ← ih]
      rfl

/-- The request tells how many calls before the end its reply begins. -/
theorem append_answer_inj {q : Request} {db db' : Database} {calls calls' : List SocketCall}
    (h : calls ++ q.answer db = calls' ++ q.answer db') :
    calls = calls' ∧ q.answer db = q.answer db' := by
  cases q with
  | write key value => exact ⟨List.append_cancel_right h, rfl⟩
  | read key =>
      simp only [Request.answer, readCalls] at h ⊢
      cases hread : db.read key.bytes <;> cases hread' : db'.read key.bytes <;>
        simp only [hread, hread'] at h ⊢
      · exact ⟨List.append_cancel_right h, trivial⟩
      · exact absurd (congrArg List.getLast? h) (by simp [textCalls, storedCalls])
      · exact absurd (congrArg List.getLast? h) (by simp [textCalls, storedCalls])
      · exact List.append_inj' h rfl

theorem repliesWhole_of_answering (h : Run Performs (db, []) xs s)
    (hanswered : ∃ db', Run Answering (db, []) (xs.map Prod.fst) (db', s.2)) :
    RepliesWhole db xs := by
  induction h with
  | nil => trivial
  | @snoc xs m x s hrun hperforms ih =>
      obtain rfl := hperforms
      obtain ⟨db', hanswered⟩ := hanswered
      rw [List.map_append, List.map_singleton] at hanswered
      obtain ⟨m', hrun', append, hperforms', hframe⟩ := Run.snoc_iff.mp hanswered
      obtain ⟨hcalls, hanswer⟩ := append_answer_inj (congrArg Prod.snd hperforms')
      refine repliesWhole_append.mpr ⟨?_, ?_, trivial⟩
      · rw [hcalls] at ih
        exact ih ⟨m'.1, hrun'⟩
      · rw [← database_of_performs hrun, ← Request.isFrame_answer_iff, hanswer]
        exact hframe

theorem answering_of_repliesWhole (h : Run Performs (db, []) xs s) (hwhole : RepliesWhole db xs) :
    Run Answering (db, []) (xs.map Prod.fst) s := by
  induction h with
  | nil => exact .nil
  | @snoc xs m x s hrun hperforms ih =>
      obtain ⟨hbefore, hlast, -⟩ := repliesWhole_append.mp hwhole
      rw [← database_of_performs hrun, ← Request.isFrame_answer_iff] at hlast
      rw [List.map_append]
      exact (ih hbefore).snoc ⟨x.2, hperforms, hlast⟩

end

theorem withAppends_append {done more : List Request} {rounds post : List Round}
    (h : done.length = rounds.length) :
    withAppends (done ++ more) (rounds ++ post) =
      withAppends done rounds ++ withAppends more post := by
  rw [withAppends, List.map_append, List.zip_append (by rw [h, List.length_map])]
  rfl

theorem map_fst_withAppends {qs : List Request} {rounds : List Round}
    (h : qs.length ≤ rounds.length) : (withAppends qs rounds).map Prod.fst = qs :=
  List.map_fst_zip (by rwa [List.length_map])

/-! ## What an event finds -/

/-- Without a timeout inside a request, an event finds nothing at all or a
complete request. -/
theorem complete_or_nothing {s : HandlerState Chunks} {r : Round} {todo : List Request}
    (hinitial : s.socket.readBuffer.unread ++ r.bytes <+: stream todo)
    (htimeout : NoTimeoutInside s r) :
    s.socket.readBuffer.unread ++ r.bytes = [] ∨
      ∃ q rest t, todo = q :: rest ∧
        s.socket.readBuffer.unread ++ r.bytes = q.encode ++ t := by
  by_cases hnothing : s.socket.readBuffer.unread ++ r.bytes = []
  · exact Or.inl hnothing
  · right
    obtain ⟨more, hmore⟩ := hinitial
    rcases todo with _ | ⟨q, rest⟩
    · exact absurd (List.append_eq_nil_iff.mp hmore).1 hnothing
    · rw [stream, List.flatMap_cons] at hmore
      rcases List.append_eq_append_iff.mp hmore with ⟨x, hq, -⟩ | ⟨x, hu, -⟩
      · by_cases hx : x = []
        · subst hx
          exact ⟨q, rest, [], rfl, by rw [hq, List.append_nil, List.append_nil]⟩
        · exact absurd (htimeout (isTruncated_of_cut hq hx)) hnothing
      · exact ⟨q, rest, x, rfl, hu⟩

/-- Where a connection stands: every event so far has been answered; unless one
has been answered with a complaint, each has served one request. -/
structure Progress (db : Database) (rounds : List Round) (s : HandlerState Chunks)
    (done : List Request) : Prop where
  bytes : delivered rounds = stream done ++ s.socket.readBuffer.unread
  replies : replyCount s.socket.sent = rounds.length
  few : done.length ≤ rounds.length
  served : complaint ∈ s.socket.sent ∨
    done.length = rounds.length ∧
      Run Performs (db, []) (withAppends done rounds) (s.database, s.socket.sent)

section

variable {db : Database} {fd : Int} {start : UInt64} {qs : List Request}
  {rounds : List Round} {s : HandlerState Chunks}

theorem Progress.step {m m' : HandlerState Chunks} {r : Round} {done todo : List Request}
    (h : Progress db rounds m done) (hqs : qs = done ++ todo)
    (hinitial : delivered (rounds ++ [r]) <+: stream qs) (hevent : Announced m r m') :
    ∃ done' todo', qs = done' ++ todo' ∧ Progress db (rounds ++ [r]) m' done' := by
  have hbytes : delivered (rounds ++ [r]) =
      stream done ++ (m.socket.readBuffer.unread ++ r.bytes) := by
    rw [delivered_append, h.bytes, delivered_singleton, List.append_assoc]
  have hfound := hinitial
  rw [hbytes, hqs, stream_append, List.prefix_append_right_inj] at hfound
  rcases complete_or_nothing hfound hevent.2 with hnothing | ⟨q, rest, t, rfl, hq⟩
  -- Nothing is complete: the event ends in a complaint, which stays on the socket.
  · have hcut : (parse (m.socket.readBuffer.unread ++ r.bytes)).isTruncated = true := by
      rw [hnothing]
      rfl
    obtain ⟨-, hsent⟩ := hevent.1.complains hcut
    obtain ⟨p, hp, -, -, hrest⟩ := hevent.1.spec
    refine ⟨done, todo, hqs, ?_, ?_, ?_, Or.inl ?_⟩
    · rw [hbytes, hrest, hp, hnothing]
      rfl
    · rw [hsent, replyCount_append, h.replies, List.length_append]
      rfl
    · rw [List.length_append]
      exact Nat.le_add_right_of_le h.few
    · rw [hsent]
      exact List.mem_append_right _ (List.mem_singleton_self _)
  -- One request is served, and those behind it wait for another event.
  · obtain ⟨hdb, hsent, hrest⟩ := hevent.1.served hq
    refine ⟨done ++ [q], rest, by rw [hqs, List.append_cons], ?_, ?_, ?_, ?_⟩
    · rw [hbytes, hq, hrest, stream_append, stream_singleton, List.append_assoc]
    · rw [hsent, replyCount_append, replyCount_answer, h.replies, List.length_append]
      rfl
    · rw [List.length_append, List.length_append]
      exact Nat.add_le_add_right h.few 1
    · rcases h.served with hcomplaint | ⟨hlength, hrun⟩
      · left
        rw [hsent]
        exact List.mem_append_left _ hcomplaint
      · right
        refine ⟨by rw [List.length_append, List.length_append, hlength]; rfl, ?_⟩
        rw [hdb, hsent, withAppends_append hlength]
        exact hrun.snoc rfl

theorem progress (h : Run Announced (newConnection db fd start) rounds s)
    (hinitial : delivered rounds <+: stream qs) :
    ∃ done todo, qs = done ++ todo ∧ Progress db rounds s done := by
  induction h with
  | nil => exact ⟨[], qs, rfl, rfl, rfl, Nat.le_refl _, Or.inr ⟨rfl, .nil⟩⟩
  | snoc _ hevent ih =>
      have hbefore := hinitial
      rw [delivered_append] at hbefore
      obtain ⟨done, todo, hqs, hprogress⟩ :=
        ih ((List.prefix_append _ _).trans hbefore)
      exact hprogress.step hqs hinitial hevent

theorem announced_events {m : HandlerState Chunks} (h : Run Announced m rounds s) :
    Run Handled m rounds s := by
  induction h with
  | nil => exact .nil
  | snoc _ hevent ih => exact ih.snoc hevent.1

/-- With fewer events than requests, a complete request is left on the
connection and no event is to come. -/
theorem stranded (h : Run Announced (newConnection db fd start) rounds s)
    (hall : delivered rounds = stream qs) (hfew : rounds.length < qs.length) :
    ∃ (q : Request) (t : List UInt8), s.socket.readBuffer.unread = q.encode ++ t := by
  have hinitial : delivered rounds <+: stream qs := by rw [hall]
  obtain ⟨done, todo, hqs, hprogress⟩ := progress h hinitial
  rcases todo with _ | ⟨q, todo⟩
  · have hfew' := hprogress.few
    rw [hqs, List.append_nil] at hfew
    exact absurd hfew (Nat.not_lt_of_le hfew')
  · have hbytes := hprogress.bytes
    rw [hall, hqs, stream_append, List.append_cancel_left_eq] at hbytes
    exact ⟨q, stream todo, hbytes.symm⟩

theorem inStep_of_answered (h : Run Announced (newConnection db fd start) rounds s)
    (hall : delivered rounds = stream qs)
    (hanswered : AnsweredInOrder db qs s.socket.sent) : InStep qs rounds := by
  obtain ⟨db', hrun⟩ := hanswered
  obtain ⟨hcount, hclean⟩ := answering_facts hrun
  have hinitial : delivered rounds <+: stream qs := by rw [hall]
  obtain ⟨_, _, _, hprogress⟩ := progress h hinitial
  refine ⟨hprogress.replies.symm.trans hcount, ?_⟩
  rintro pre post done todo rfl hqs hlength
  obtain ⟨m, hpre, hpost⟩ := h.of_append
  have hsofar : delivered pre <+: stream qs := by
    rw [← hall, delivered_append]
    exact List.prefix_append _ _
  obtain ⟨done', todo', hqs', hprogress'⟩ := progress hpre hsofar
  -- A complaint by now would still be among the replies at the end.
  have hserved := hprogress'.served.resolve_left fun hcomplaint =>
    hclean ((sent_grows (announced_events hpost)).subset hcomplaint)
  obtain ⟨rfl, -⟩ := List.append_inj (hqs.symm.trans hqs') (by rw [hserved.1, hlength])
  rw [hprogress'.bytes, List.length_append]
  exact Nat.le_add_right _ _

theorem served_in_step {pre post : List Round} {m : HandlerState Chunks}
    (h : Run Announced (newConnection db fd start) pre m)
    (hall : delivered (pre ++ post) = stream qs) (hstep : InStep qs (pre ++ post))
    {done todo : List Request} (hqs : qs = done ++ todo) (hlength : pre.length = done.length) :
    delivered pre = stream done ++ m.socket.readBuffer.unread ∧
      Run Performs (db, []) (withAppends done pre) (m.database, m.socket.sent) := by
  induction h generalizing post done todo with
  | nil =>
      obtain rfl := List.length_eq_zero_iff.mp hlength.symm
      exact ⟨rfl, .nil⟩
  | @snoc pre m r m' _ hevent ih =>
      rcases List.eq_nil_or_concat done with rfl | ⟨before, q, rfl⟩
      · simp at hlength
      rw [List.concat_eq_append] at hqs hlength ⊢
      simp only [List.length_append, List.length_singleton, Nat.add_right_cancel_iff]
        at hlength
      rw [List.append_assoc] at hall hstep hqs
      obtain ⟨hbytes, hserved⟩ := ih hall hstep hqs hlength
      -- What is there now begins with `q`, because enough of the stream is there.
      have harrived : delivered (pre ++ [r]) =
          stream before ++ (m.socket.readBuffer.unread ++ r.bytes) := by
        rw [delivered_append, hbytes, delivered_singleton, List.append_assoc]
      have henough : q.encode.length ≤
          (m.socket.readBuffer.unread ++ r.bytes).length := by
        have hsofar := hstep.2 (pre ++ [r]) post (before ++ [q]) todo
          (List.append_assoc _ _ _).symm (by rw [hqs, List.append_assoc])
          (by simp [hlength])
        rw [harrived, stream_append, stream_singleton, List.length_append,
          List.length_append] at hsofar
        exact Nat.le_of_add_le_add_left hsofar
      have hstream : m.socket.readBuffer.unread ++ r.bytes ++ delivered post =
          q.encode ++ stream todo := by
        rw [← List.append_assoc, delivered_append, harrived, hqs, stream_append,
          stream_append, stream_singleton, List.append_assoc] at hall
        exact List.append_cancel_left hall
      obtain ⟨t, ht⟩ := List.prefix_of_prefix_length_le
        ⟨_, rfl⟩ ⟨_, hstream⟩ henough
      obtain ⟨hdb, hsent, hrest⟩ := hevent.1.served ht.symm
      constructor
      · rw [harrived, ← ht, hrest, stream_append, stream_singleton, List.append_assoc]
      · rw [hdb, hsent, withAppends_append hlength.symm]
        exact hserved.snoc rfl

/-- **Requests sent ahead** are answered one by one, in their order, exactly
when the events keep in step with the requests and their replies are whole; in step,
nothing is then left unread. -/
theorem answeredInOrder_iff (h : Run Announced (newConnection db fd start) rounds s)
    (hall : delivered rounds = stream qs) :
    (AnsweredInOrder db qs s.socket.sent ↔
      InStep qs rounds ∧ RepliesWhole db (withAppends qs rounds)) ∧
      (InStep qs rounds → s.socket.readBuffer.unread = []) := by
  have hserved : InStep qs rounds → delivered rounds = stream qs ++ s.socket.readBuffer.unread ∧
      Run Performs (db, []) (withAppends qs rounds) (s.database, s.socket.sent) := by
    intro hstep
    rw [← List.append_nil rounds] at hall hstep
    exact served_in_step h hall hstep (List.append_nil qs).symm (by simpa using hstep.1)
  have hrequests : InStep qs rounds → (withAppends qs rounds).map Prod.fst = qs :=
    fun hstep => map_fst_withAppends hstep.1.ge
  refine ⟨⟨?_, ?_⟩, ?_⟩
  · intro hanswered
    have hstep := inStep_of_answered h hall hanswered
    refine ⟨hstep, repliesWhole_of_answering (hserved hstep).2 ?_⟩
    rw [hrequests hstep]
    exact hanswered
  · rintro ⟨hstep, hwhole⟩
    have hrun := answering_of_repliesWhole (hserved hstep).2 hwhole
    rw [hrequests hstep] at hrun
    exact ⟨_, hrun⟩
  · intro hstep
    have hbytes := (hserved hstep).1
    rw [hall] at hbytes
    exact List.self_eq_append_right.mp hbytes

end

/-! ## One by one, and together -/

/-- An event that brings complete requests has no timeout in it. -/
theorem announced_exists {s : HandlerState Chunks} (hidle : s.socket.readBuffer.unread = [])
    (q : Request) (t : List UInt8) :
    ∃ s', Announced s (announcing (q.encode ++ t)) s' ∧
      s'.socket.readBuffer.unread = t := by
  obtain ⟨s', hevent⟩ := event_exists s (announcing (q.encode ++ t))
  have hfound : s.socket.readBuffer.unread ++ (announcing (q.encode ++ t)).bytes =
      q.encode ++ t := by
    rw [hidle]
    exact List.append_nil _
  refine ⟨s', ⟨hevent, ?_⟩, (hevent.served hfound).2.2⟩
  intro hcut
  rw [hfound, parse_encode] at hcut
  cases q <;> cases hcut

/-- Each request with an event of its own. -/
def oneByOne (qs : List Request) : List Round := qs.map fun q => announcing q.encode

theorem delivered_oneByOne (qs : List Request) : delivered (oneByOne qs) = stream qs := by
  rw [delivered, oneByOne, List.flatMap_map]
  exact List.flatMap_congr fun q _ => List.append_nil q.encode

theorem inStep_oneByOne (qs : List Request) : InStep qs (oneByOne qs) := by
  refine ⟨List.length_map _, ?_⟩
  rintro pre post done todo hrounds rfl hlength
  rw [oneByOne, List.map_append] at hrounds
  obtain ⟨rfl, -⟩ := List.append_inj hrounds (by rw [List.length_map, hlength])
  exact (congrArg List.length (delivered_oneByOne done)).ge

theorem run_oneByOne (db : Database) (qs : List Request) :
    ∃ s, Run Announced (newConnection db 5 0) (oneByOne qs) s ∧
      s.socket.readBuffer.unread = [] := by
  induction qs using List.reverseRecOn with
  | nil => exact ⟨_, .nil, rfl⟩
  | append_singleton qs q ih =>
      obtain ⟨m, hrun, hidle⟩ := ih
      obtain ⟨s, hevent, hleft⟩ := announced_exists hidle q []
      rw [List.append_nil] at hevent
      refine ⟨s, ?_, hleft⟩
      rw [oneByOne, List.map_append]
      exact hrun.snoc hevent

/-- A write and a read, each with an event of its own. -/
theorem one_by_one_answered :
    ∃ s, Run Announced (newConnection Database.new 5 0)
        (oneByOne [.write keyA ⟨[1], by decide⟩, .read keyA]) s ∧
      AnsweredInOrder Database.new [.write keyA ⟨[1], by decide⟩, .read keyA]
        s.socket.sent := by
  obtain ⟨s, hrun, -⟩ :=
    run_oneByOne Database.new [.write keyA ⟨[1], by decide⟩, .read keyA]
  refine ⟨s, hrun,
    (answeredInOrder_iff hrun (delivered_oneByOne _)).1.mpr ⟨inStep_oneByOne _, ?_, ?_, trivial⟩⟩
  · show Fits 36
    decide
  · refine ⟨fun hnone => absurd hnone (by decide), fun storage hread => ⟨⟨[1], by decide⟩, ?_⟩⟩
    cases hread
    rfl

/-- The same requests in one segment: one event, one answer. -/
theorem coalesced_not_answered :
    ∃ s, Run Announced (newConnection Database.new 5 0)
        [announcing ((Request.write keyA ⟨[1], by decide⟩).encode ++
          (Request.read keyA).encode)] s ∧
      EdgeTriggered [announcing ((Request.write keyA ⟨[1], by decide⟩).encode ++
        (Request.read keyA).encode)] ∧
      s.socket.readBuffer.unread = (Request.read keyA).encode ∧
      ¬ AnsweredInOrder Database.new [.write keyA ⟨[1], by decide⟩, .read keyA]
        s.socket.sent := by
  obtain ⟨s, hevent, hleft⟩ := announced_exists
    (show (newConnection Database.new 5 0).socket.readBuffer.unread = [] from rfl)
    (.write keyA ⟨[1], by decide⟩) (Request.read keyA).encode
  refine ⟨s, Run.single hevent, ⟨?_, ?_, ?_⟩, hleft, ?_⟩
  · rintro r post hsplit
    cases hsplit
    decide
  · rintro pre r r' post hsplit
    have hlength := congrArg List.length hsplit
    simp at hlength
    omega
  · rintro pre r hsplit
    obtain ⟨-, hr⟩ := List.append_inj' (show [] ++ [_] = pre ++ [r] from hsplit) rfl
    cases hr
    rfl
  · intro hanswered
    have hstep := inStep_of_answered (Run.single hevent) (by decide) hanswered
    exact absurd hstep.1 (by decide)

end EasyKeyDB
