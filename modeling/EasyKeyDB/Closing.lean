import EasyKeyDB.Network

/-!
# Requests sent before a close

A client sends requests and closes. `wait_for_events` turns a report of input and
hang-up into a hang-up alone, and the loop then removes the connection without
calling `parse_request`; whatever has arrived since the last call goes with it.
A call takes one request at most, so the requests that arrived together stay
behind as well.

The requests on a connection are all handled before it goes exactly when each
has a call in time (`Prompt`, `losesNothing_iff`).
-/

namespace EasyKeyDB

/-- The call finds something on the connection. -/
def Handling.finds (n : Nat) (h : Handling) : Bool := h.number = n && h.found ≠ []

namespace Network

variable {db : Database} {net : Network} {n : Nat}

/-- A call has found `q` on the connection, behind the requests `pre`, and has
had it performed. -/
def HasHandled (db : Database) (net : Network) (n : Nat) (pre : List Request)
    (q : Request) : Prop :=
  ∃ before h later, net.handled = before ++ h :: later ∧ h.number = n ∧
    (arrivals n (before ++ [h])).flatten = stream pre ++ h.found ∧
    (∃ t, h.found = q.encode ++ t) ∧
    performed db (before ++ [h]) = (performed db before).call (q.call h.append)

/-- When a connection whose client has closed is gone, each complete request
that had arrived has been handled, and the database has what these calls made
of it. -/
def LosesNothing (db : Database) (net : Network) (n : Nat) : Prop :=
  net.hungUp n = true → net.Removed n →
    net.server.database = performed db net.handled ∧
    ∀ pre q t, net.received n = stream pre ++ (q.encode ++ t) → net.HasHandled db n pre q

/-- Of the calls that find something on the connection, the one behind as many as
there are requests in `pre` comes when these and `q` have arrived. -/
def CallInTime (net : Network) (n : Nat) (pre : List Request) (q : Request) : Prop :=
  ∃ before h later, net.handled = before ++ h :: later ∧ Handling.finds n h = true ∧
    before.countP (Handling.finds n) = pre.length ∧
    (stream (pre ++ [q])).length ≤ (arrivals n (before ++ [h])).flatten.length

/-- There is a call in time for each complete request that has arrived. -/
def Prompt (net : Network) (n : Nat) : Prop :=
  ∀ pre q t, net.received n = stream pre ++ (q.encode ++ t) → net.CallInTime n pre q

/-! ## One connection's calls among all -/

theorem split_arrivals {handled : List Handling} {before later : List (List UInt8)}
    {portion : List UInt8} (h : arrivals n handled = before ++ portion :: later) :
    ∃ b c l, handled = b ++ c :: l ∧ c.number = n ∧ arrivals n b = before ∧
      c.arrived = portion := by
  obtain ⟨b, rest, hb, rfl, hrest⟩ := List.map_eq_append_iff.mp h
  obtain ⟨c, l, rfl, rfl, -⟩ := List.map_eq_cons_iff.mp hrest
  obtain ⟨b', rest', rfl, rfl, hrest'⟩ := List.filter_eq_append_iff.mp hb
  obtain ⟨skipped, l', rfl, hskipped, hc, -⟩ := List.filter_eq_cons_iff.mp hrest'
  refine ⟨b' ++ skipped, c, l', (List.append_assoc _ _ _).symm, of_decide_eq_true hc, ?_, rfl⟩
  have hnone : skipped.filter (fun h => h.number = n) = [] :=
    List.filter_eq_nil_iff.mpr hskipped
  rw [arrivals_append, arrivals, arrivals, hnone]
  exact List.append_nil _

theorem arrivals_split {c : Handling} (hc : c.number = n) (before later : List Handling) :
    arrivals n (before ++ c :: later) =
      arrivals n before ++ c.arrived :: arrivals n later := by
  rw [← List.singleton_append, arrivals_append, arrivals_append, arrivals_singleton, if_pos hc]
  rfl

theorem flatten_arrivals_snoc {c : Handling} (hc : c.number = n) (before : List Handling) :
    (arrivals n (before ++ [c])).flatten = (arrivals n before).flatten ++ c.arrived := by
  rw [arrivals_split hc, List.flatten_append, List.flatten_cons]
  exact congrArg _ (List.append_nil _)

/-- The calls that find something are counted on the connection alone. -/
theorem busy_arrivals {handled : List Handling} (hs : Chained handled) :
    Consumer.busy restOf [] (arrivals n handled) = handled.countP (Handling.finds n) := by
  induction handled using List.reverseRecOn with
  | nil => rfl
  | append_singleton handled h ih =>
      have hfound := hs handled h [] rfl
      rw [arrivals_append, arrivals_singleton, List.countP_append, ← ih hs.before,
        List.countP_singleton]
      by_cases hn : h.number = n
      · subst hn
        rw [if_pos rfl, Consumer.busy_append, Consumer.busy, ← hfound]
        by_cases hempty : h.found = []
        · simp [Consumer.busy, Handling.finds, hempty]
        · simp [Consumer.busy, Handling.finds, hempty]
      · simp [Handling.finds, hn]

theorem takes_iff_hasHandled (db : Database) (hs : Chained net.handled)
    (pre : List Request) (q : Request) :
    Consumer.Takes restOf Request.encode (arrivals n net.handled) pre q ↔
      net.HasHandled db n pre q := by
  constructor
  · rintro ⟨before, portion, later, hsplit, htaken, t, hq⟩
    obtain ⟨b, c, l, hb, rfl, rfl, rfl⟩ := split_arrivals hsplit
    have hfound := hs b c l hb
    refine ⟨b, c, l, hb, rfl, ?_, ⟨t, hfound.trans hq⟩, ?_⟩
    · rw [flatten_arrivals_snoc rfl, htaken, hfound, List.append_assoc]
      rfl
    · rw [performed_append]
      change (parse c.found).database c.append _ = _
      rw [hfound, hq, parse_encode]
      cases q <;> rfl
  · rintro ⟨b, c, l, hb, rfl, hplace, ⟨t, hq⟩, -⟩
    have hfound := hs b c l hb
    refine ⟨arrivals c.number b, c.arrived, arrivals c.number l, ?_, ?_, t,
      hfound.symm.trans hq⟩
    · rw [hb, arrivals_split rfl]
    · rw [flatten_arrivals_snoc rfl, hfound, ← List.append_assoc] at hplace
      exact List.append_cancel_right hplace

theorem inTime_iff_callInTime (hs : Chained net.handled) (pre : List Request) (q : Request) :
    Consumer.InTime restOf Request.encode (arrivals n net.handled) pre q ↔
      net.CallInTime n pre q := by
  have hlength : (stream (pre ++ [q])).length =
      (pre.flatMap Request.encode ++ q.encode).length := by
    rw [stream_append, stream_singleton]
    rfl
  constructor
  · rintro ⟨before, portion, later, hsplit, hbusy, hfinds, henough⟩
    obtain ⟨b, c, l, hb, rfl, rfl, rfl⟩ := split_arrivals hsplit
    have hfound := hs b c l hb
    rw [hb] at hs
    refine ⟨b, c, l, hb, ?_, ?_, ?_⟩
    · rw [Handling.finds, hfound, decide_eq_true rfl, Bool.true_and]
      exact decide_eq_true hfinds
    · rw [← busy_arrivals hs.before, hbusy]
    · rw [hlength, flatten_arrivals_snoc rfl]
      exact henough
  · rintro ⟨b, c, l, hb, hfinds, hcount, henough⟩
    rw [Handling.finds, Bool.and_eq_true, decide_eq_true_eq, decide_eq_true_eq] at hfinds
    rcases hfinds with ⟨rfl, hsome⟩
    have hfound := hs b c l hb
    rw [hb] at hs
    refine ⟨arrivals c.number b, c.arrived, arrivals c.number l, ?_, ?_, ?_, ?_⟩
    · rw [hb, arrivals_split rfl]
    · rw [busy_arrivals hs.before, hcount]
    · rwa [← hfound]
    · rw [← hlength, ← flatten_arrivals_snoc rfl]
      exact henough

theorem Tracks.allHandled_iff (h : Tracks db net) (n : Nat) :
    (∀ pre q t, net.received n = stream pre ++ (q.encode ++ t) →
      net.HasHandled db n pre q) ↔ net.Prompt n := by
  have hkeeping := Consumer.takes_iff_inTime consumes (arrivals n net.handled) (net.waiting n)
  simp only [takes_iff_hasHandled db h.chained, inTime_iff_callInTime h.chained]
    at hkeeping
  exact hkeeping

/-- **Requests sent before a close** are handled before the connection goes
exactly when each of them has a call in time. -/
theorem losesNothing_iff {socket : Int} {connected disconnected : Bool}
    {others : Finset Int} {count : UInt32} {xs : List NetworkLabel}
    (h : Run Step (beside (Server.starting socket connected disconnected others count db))
      xs net) (n : Nat) :
    LosesNothing db net n ↔ (net.hungUp n = true → net.Removed n → net.Prompt n) := by
  have htracks := tracks h
  constructor
  · intro hnothing hclosed hremoved
    exact (htracks.allHandled_iff n).mp (hnothing hclosed hremoved).2
  · intro hprompt hclosed hremoved
    exact ⟨htracks.database, (htracks.allHandled_iff n).mpr (hprompt hclosed hremoved)⟩

/-! ## One write and a close -/

def sending : List NetworkLabel :=
  [.server .setUp, .server .connect, .server (.wait [⟨0x001, 3⟩] 0),
    .server (.dispatch (some 5) [] .complete 0), .server (.endOfBatch 0),
    .receive 0 (Request.write keyA ⟨[1], by decide⟩).encode]

/-- The write is reported, and later the close. -/
def closingLater : List NetworkLabel :=
  sending ++ [.server (.wait [⟨0x005, 5⟩] 1),
    .server (.dispatch none [.bytes (Request.write keyA ⟨[1], by decide⟩).encode] .complete 1),
    .server (.endOfBatch 1), .hangUp 0, .server (.wait [⟨0x2005, 5⟩] 2),
    .server (.dispatch none [] .complete 2)]

/-- Both are reported by one event. -/
def closingAtOnce : List NetworkLabel :=
  sending ++ [.hangUp 0, .server (.wait [⟨0x2005, 5⟩] 1),
    .server (.dispatch none [] .complete 1)]

def view (net : Network) : List Handling × List UInt8 × Bool × Bool :=
  (net.handled, net.waiting 0, net.hungUp 0, decide (net.Removed 0))

/-- A server on descriptor 3 that is about to start. -/
def fresh : Network := beside (Server.starting 3 true true {0, 1, 2} 0 Database.new)

theorem eq_nil_of_encode_eq {q r : Request} {pre : List Request} {t : List UInt8}
    (h : q.encode = stream pre ++ (r.encode ++ t)) : pre = [] := by
  by_contra hpre
  obtain ⟨first, pre, rfl⟩ := List.exists_cons_of_ne_nil hpre
  rw [stream, List.flatMap_cons, List.append_assoc] at h
  have hrest := congrArg restOf ((List.append_nil q.encode).trans h)
  rw [consumes.item, consumes.item] at hrest
  have hnone := List.append_eq_nil_iff.mp (List.append_eq_nil_iff.mp hrest.symm).2
  exact consumes.nonempty r hnone.1

theorem closingLater_losesNothing :
    ∃ net, Run Step fresh closingLater net ∧ net.hungUp 0 = true ∧ net.Removed 0 ∧
      LosesNothing Database.new net 0 := by
  have hcall : (closingLater.foldlM (attempt Enabled next) fresh).map view =
      some ([⟨0, (Request.write keyA ⟨[1], by decide⟩).encode,
        (Request.write keyA ⟨[1], by decide⟩).encode, .complete⟩], [], true, true) := by
    decide +kernel
  obtain ⟨net, hrun, hview⟩ := Run.of_view hcall
  simp only [view, Prod.mk.injEq, decide_eq_true_eq] at hview
  rcases hview with ⟨hhandled, hwaiting, hclosed, hremoved⟩
  refine ⟨net, hrun, hclosed, hremoved, (losesNothing_iff hrun 0).mpr fun _ _ => ?_⟩
  intro pre q t hreceived
  rw [received, hhandled, hwaiting] at hreceived
  change (Request.write keyA ⟨[1], by decide⟩).encode = _ at hreceived
  obtain rfl := eq_nil_of_encode_eq hreceived
  refine ⟨[], _, [], hhandled, rfl, rfl, ?_⟩
  have hlength := congrArg List.length hreceived
  rw [List.length_append, List.length_append] at hlength
  rw [List.nil_append, stream_singleton]
  change _ ≤ (Request.write keyA ⟨[1], by decide⟩).encode.length
  rw [hlength]
  change q.encode.length ≤ 0 + (q.encode.length + t.length)
  omega

theorem closingAtOnce_not_losesNothing :
    ∃ net, Run Step fresh closingAtOnce net ∧ net.hungUp 0 = true ∧ net.Removed 0 ∧
      ¬ LosesNothing Database.new net 0 := by
  have hnone : (closingAtOnce.foldlM (attempt Enabled next) fresh).map view =
      some ([], (Request.write keyA ⟨[1], by decide⟩).encode, true, true) := by
    decide +kernel
  obtain ⟨net, hrun, hview⟩ := Run.of_view hnone
  simp only [view, Prod.mk.injEq, decide_eq_true_eq] at hview
  rcases hview with ⟨hhandled, hwaiting, hclosed, hremoved⟩
  refine ⟨net, hrun, hclosed, hremoved, fun hnothing => ?_⟩
  have hreceived : net.received 0 =
      stream [] ++ ((Request.write keyA ⟨[1], by decide⟩).encode ++ []) := by
    rw [received, hhandled, hwaiting]
    rfl
  obtain ⟨before, h, later, hsplit, -⟩ := (hnothing hclosed hremoved).2 _ _ _ hreceived
  rw [hhandled] at hsplit
  simp at hsplit

end Network

end EasyKeyDB
