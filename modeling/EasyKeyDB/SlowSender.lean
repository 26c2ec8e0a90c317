import EasyKeyDB.Connection
import EasyKeyDB.ReplyFrames

/-!
# A slow sender

A request that arrives in several attempts: the read timeout expires between
them, each attempt finds the bytes that have arrived since the last one, and
each is a `parse_request` call of its own. An attempt that runs out of bytes
has already taken the fields it read off the buffer and answers with a
complaint, so a request is served as if it had arrived in one piece, with one
complete response, exactly when one attempt sees all of it and its reply is whole
(`asInOnePiece_iff`).
-/

namespace EasyKeyDB

open ByteBuffer

/-- From `s`, with nothing unread, the connection has come to `t` as it would
have if `q` had arrived in one piece: the same database, the same replies, the
same bytes left behind. The bytes that have been sent are one response. -/
def AsInOnePiece (q : Request) (s t : HandlerState Chunks) : Prop :=
  (∃ r one, r.bytes = q.encode ∧ Handled s r one ∧
    t.database = one.database ∧ t.socket.sent = one.socket.sent ∧
    t.socket.readBuffer.unread = one.socket.readBuffer.unread) ∧
  ∃ status, Answered s.socket t.socket status

section

variable {q : Request} {s t : HandlerState Chunks} {attempts : List Round}

/-- With a timeout inside the request, the first reply is a complaint. -/
theorem not_asInOnePiece {first second : Round} {more : List Round}
    (hidle : s.socket.readBuffer.unread = [])
    (hpieces : delivered (first :: second :: more) = q.encode)
    (hsecond : second.bytes ≠ []) (h : Run Handled s (first :: second :: more) t) :
    ¬ AsInOnePiece q s t := by
  rintro ⟨⟨r, one, hr, hone, -, hsent, -⟩, -⟩
  obtain ⟨m, hevent, hrest⟩ := Run.cons_iff.mp h
  have hcut : q.encode = first.bytes ++ delivered (second :: more) := hpieces.symm
  have hmissing : delivered (second :: more) ≠ [] := by
    intro hnone
    exact hsecond (List.append_eq_nil_iff.mp hnone).1
  have hparse : (parse (s.socket.readBuffer.unread ++ first.bytes)).isTruncated = true := by
    rw [hidle]
    exact isTruncated_of_cut hcut hmissing
  have hwhole : s.socket.readBuffer.unread ++ r.bytes = q.encode ++ [] := by
    rw [hidle, hr, List.append_nil, List.nil_append]
  -- The complaint is in what was sent, but it is not part of the answer.
  obtain ⟨later, hlater⟩ := sent_grows hrest
  rw [hsent, (hevent.complains hparse).2, (hone.served hwhole).2.1, List.append_assoc,
    List.append_cancel_left_eq] at hlater
  apply complaint_notMem_answer q s.database
  rw [← hlater]
  exact List.mem_append_left _ (List.mem_singleton_self _)

theorem answered_iff {r : Round} (hidle : s.socket.readBuffer.unread = [])
    (hbytes : r.bytes = q.encode) (h : Handled s r t) :
    (∃ status, Answered s.socket t.socket status) ↔ q.ReplyWhole s.database := by
  have hfound : s.socket.readBuffer.unread ++ r.bytes = q.encode ++ [] := by
    rw [hidle, hbytes, List.append_nil, List.nil_append]
  have hsent := (h.served hfound).2.1
  rw [← Request.isFrame_answer_iff]
  constructor
  · rintro ⟨status, calls, body, hcalls, hresponse⟩
    rw [hsent, List.append_cancel_left_eq] at hcalls
    rw [hcalls]
    exact ⟨status, body, hresponse⟩
  · rintro ⟨status, body, hresponse⟩
    exact ⟨status, _, body, hsent, hresponse⟩

/-- **A slow sender** gets the service of a fast one exactly when the read
timeout never expires inside the request and the reply to it is whole. -/
theorem asInOnePiece_iff (hidle : s.socket.readBuffer.unread = [])
    (hpieces : delivered attempts = q.encode)
    (hnonempty : ∀ r ∈ attempts, r.bytes ≠ []) (h : Run Handled s attempts t) :
    AsInOnePiece q s t ↔ attempts.length = 1 ∧ q.ReplyWhole s.database := by
  rcases attempts with _ | ⟨first, _ | ⟨second, more⟩⟩
  · have hsome : q.encode ≠ [] := by
      cases q <;> exact List.cons_ne_nil _ _
    exact absurd hpieces.symm hsome
  · obtain ⟨m, hevent, hrest⟩ := Run.cons_iff.mp h
    obtain rfl := Run.nil_iff.mp hrest
    have hbytes : first.bytes = q.encode := by
      rw [← hpieces]
      exact (List.append_nil _).symm
    constructor
    · rintro ⟨-, hanswered⟩
      exact ⟨rfl, (answered_iff hidle hbytes hevent).mp hanswered⟩
    · rintro ⟨-, hwhole⟩
      exact ⟨⟨first, m, hbytes, hevent, rfl, rfl, rfl⟩,
        (answered_iff hidle hbytes hevent).mpr hwhole⟩
  · constructor
    · intro hone
      exact absurd hone (not_asInOnePiece hidle hpieces (hnonempty second (by simp)) h)
    · rintro ⟨hlength, -⟩
      simp at hlength

end

/-! ## A pause inside a request -/

theorem run_event_exists (s : HandlerState Chunks) (rounds : List Round) :
    ∃ t, Run Handled s rounds t := by
  induction rounds using List.reverseRecOn with
  | nil => exact ⟨s, .nil⟩
  | append_singleton rounds r ih =>
      obtain ⟨m, hrun⟩ := ih
      obtain ⟨t, hevent⟩ := event_exists m r
      exact ⟨t, hrun.snoc hevent⟩

/-- A read request in one piece. -/
theorem whole_request_as_in_one_piece :
    ∃ t, Run Handled (newConnection Database.new 5 0)
        [announcing (Request.read keyA).encode] t ∧
      AsInOnePiece (.read keyA) (newConnection Database.new 5 0) t := by
  obtain ⟨t, hrun⟩ := run_event_exists (newConnection Database.new 5 0)
    [announcing (Request.read keyA).encode]
  refine ⟨t, hrun, (asInOnePiece_iff rfl rfl ?_ hrun).mpr ⟨rfl, ?_, nofun⟩⟩
  · intro r hr
    rw [List.mem_singleton.mp hr]
    decide
  · intro _
    show Fits 24
    decide

/-- The version byte of the same request, a pause, and the rest. -/
theorem paused_request_not_in_one_piece :
    ∃ t, Run Handled (newConnection Database.new 5 0)
        [announcing [1], announcing [1, 1, 0, 0, 0, 97]] t ∧
      delivered [announcing [1], announcing [1, 1, 0, 0, 0, 97]] =
        (Request.read keyA).encode ∧
      ¬ AsInOnePiece (.read keyA) (newConnection Database.new 5 0) t := by
  obtain ⟨t, hrun⟩ := run_event_exists (newConnection Database.new 5 0)
    [announcing [1], announcing [1, 1, 0, 0, 0, 97]]
  exact ⟨t, hrun, by decide, not_asInOnePiece rfl (by decide) (by decide) hrun⟩

end EasyKeyDB
