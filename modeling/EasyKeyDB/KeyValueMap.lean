import EasyKeyDB.Serving

/-!
# The server as a key-value map

What clients see of a run of requests. With whole appends the server is a map
whose entries are never replaced: a read is answered with the first value that
was written under its key (`sentBytes_readCalls`), although every later write is
acknowledged too. So it agrees with a map of the latest values exactly where
the first value and the latest are the same (`refinesMap_iff`).
-/

namespace EasyKeyDB

open Database

/-- The client was told that its write took effect. -/
def Exchange.Acknowledged (x : Exchange) : Prop :=
  ∃ body, IsResponse .ok body (sentBytes x.calls)

/-- `v` is the value of the latest write of `k` that was acknowledged. -/
def LatestAcknowledged (xs : List Exchange) (k : Key) (v : Value) : Prop :=
  ∃ pre x post, xs = pre ++ x :: post ∧ x.request = .write k v ∧ x.Acknowledged ∧
    ∀ y ∈ post, ∀ u, y.request = .write k u → ¬ y.Acknowledged

/-- What a map answers to a read of `k` after the exchanges `before`. -/
structure AnswersAsMap (before : List Exchange) (k : Key) (calls : List SocketCall) :
    Prop where
  notFound : IsResponse .clientError (keyNotFound k.bytes) (sentBytes calls) ↔
    ∀ x ∈ before, ∀ v, x.request ≠ .write k v
  found : (∃ x ∈ before, ∃ v, x.request = .write k v) →
    ∃ v, LatestAcknowledged before k v ∧ IsResponse .ok v.bytes (sentBytes calls)

/-- Every read of the history is answered as by a map. -/
def RefinesMap (xs : List Exchange) : Prop :=
  ∀ pre x post k, xs = pre ++ x :: post → x.request = .read k → AnswersAsMap pre k x.calls

def valuesOf (k : Key) (qs : List Request) : List Value :=
  qs.filterMap fun
    | .read _ => none
    | .write key value => if key = k then some value else none

/-- When a read of `k` behind the requests `qs` is answered as by a map: the
texts fit into their frames, and the first value under `k` is also the last. -/
def ReadsLatest (qs : List Request) (k : Key) : Prop :=
  (valuesOf k qs = [] → k.bytes.length + 34 < 2 ^ 32) ∧
  (valuesOf k qs ≠ [] → Fits (k.bytes.length + 35) ∧
    (valuesOf k qs).head? = (valuesOf k qs).getLast?)

/-! ## Values and writes -/

theorem Key.bytes_injective : Function.Injective Key.bytes := by
  intro a b h
  cases a
  cases b
  congr

theorem Value.bytes_injective : Function.Injective Value.bytes := by
  intro a b h
  cases a
  cases b
  congr

theorem valuesOf_append (k : Key) (qs rs : List Request) :
    valuesOf k (qs ++ rs) = valuesOf k qs ++ valuesOf k rs :=
  List.filterMap_append

theorem mem_valuesOf {k : Key} {qs : List Request} {v : Value} :
    v ∈ valuesOf k qs ↔ Request.write k v ∈ qs := by
  simp only [valuesOf, List.mem_filterMap]
  constructor
  · rintro ⟨q, hq, hv⟩
    cases q with
    | read key => cases hv
    | write key value =>
        simp only [Option.ite_none_right_eq_some, Option.some.injEq] at hv
        obtain ⟨rfl, rfl⟩ := hv
        exact hq
  · intro h
    exact ⟨_, h, by simp⟩

theorem valuesOf_eq_nil {k : Key} {xs : List Exchange} :
    valuesOf k (requests xs) = [] ↔ ∀ x ∈ xs, ∀ v, x.request ≠ .write k v := by
  rw [List.eq_nil_iff_forall_not_mem]
  simp only [mem_valuesOf, requests, List.mem_map, not_exists, not_and]
  exact forall_comm.trans (forall_congr' fun x => forall_comm)

theorem valuesOf_ne_nil {k : Key} {xs : List Exchange} :
    valuesOf k (requests xs) ≠ [] ↔ ∃ x ∈ xs, ∃ v, x.request = .write k v := by
  rw [Ne, valuesOf_eq_nil]
  simp

theorem data_valuesOf (k : Key) (xs : List Exchange) :
    ((writes (history xs)).filter fun w => w.key = k.bytes).map WriteOp.data =
      (valuesOf k (requests xs)).map Value.bytes := by
  induction xs with
  | nil => rfl
  | cons x xs ih =>
      have hcons : history (x :: xs) = history [x] ++ history xs := rfl
      have hsplit : valuesOf k (requests (x :: xs)) =
          valuesOf k [x.request] ++ valuesOf k (requests xs) := valuesOf_append k [x.request] _
      rw [hcons, writes_append, List.filter_append, List.map_append, ih, hsplit,
        List.map_append]
      congr 1
      obtain ⟨client, q, append, calls⟩ := x
      cases q with
      | read key => rfl
      | write key value =>
          by_cases hk : key = k
          · subst hk
            simp [history, Request.call, valuesOf]
          · have hbytes : key.bytes ≠ k.bytes := fun h => hk (Key.bytes_injective h)
            simp [history, Request.call, valuesOf, hk, hbytes]

/-! ## The reply to a read -/

theorem read_history_eq_none {xs : List Exchange} {k : Key} :
    (run (history xs)).read k.bytes = none ↔ valuesOf k (requests xs) = [] := by
  rw [read_eq_none_iff, ← List.map_eq_nil_iff (f := Value.bytes), ← data_valuesOf,
    List.map_eq_nil_iff, List.filter_eq_nil_iff]
  simp

/-- **First write wins.** A read is answered with the first value that was
written under its key. -/
theorem sentBytes_readCalls {xs : List Exchange}
    (hwhole : ∀ op ∈ writes (history xs), op.Whole) {k : Key} {v : Value}
    (hfirst : (valuesOf k (requests xs)).head? = some v) :
    sentBytes (readCalls (run (history xs)) k.bytes) = frame .ok v.bytes := by
  cases hread : (run (history xs)).read k.bytes with
  | none => rw [read_history_eq_none.mp hread] at hfirst; cases hfirst
  | some storage =>
      obtain ⟨pre, w, post, hsplit, hpre, hkey, rfl⟩ := read_split hread
      have hw : w.Whole := hwhole w (by simp [hsplit])
      have hdata : w.data = v.bytes := by
        have hvalues := data_valuesOf k xs
        rw [hsplit, List.filter_append, List.filter_cons_of_pos (by simpa using hkey),
          List.filter_eq_nil_iff.mpr (by simpa using hpre)] at hvalues
        have hhead := congrArg List.head? hvalues
        rw [List.head?_map, List.head?_map, hfirst] at hhead
        exact Option.some.inj hhead
      rw [← hkey, readCalls, hkey, hread]
      show successHeader ++ ((run (history xs)).range _ ++ []) = _
      rw [← hkey, range_of_split hsplit hw, List.append_nil, WriteOp.image, hdata,
        successHeader_append]

theorem isResponse_keyNotFound_iff (k : Key) :
    IsResponse .clientError (keyNotFound k.bytes)
        (sentBytes (textCalls .clientError (keyNotFound k.bytes))) ↔
      k.bytes.length + 34 < 2 ^ 32 := by
  have hlen := length_keyNotFound k.bytes
  rw [sentBytes_textCalls]
  constructor
  · rintro ⟨hframe, -⟩
    have hbytes := congrArg List.length hframe
    rw [textReply_eq, List.length_take, length_frame, hlen] at hbytes
    have hmod := Nat.mod_lt (k.bytes.length + 23 + 11) (show 2 ^ 32 > 0 by decide)
    omega
  · intro hshort
    exact ⟨textReply_of_lt (by omega), by omega⟩

/-! ## Acknowledged writes -/

/-- Writes are answered without looking at what became of them. -/
def WritesAnswered (xs : List Exchange) : Prop :=
  ∀ x ∈ xs, ∀ k v, x.request = .write k v → x.calls = textCalls .ok (keyWritten k.bytes)

theorem acknowledged_iff {xs : List Exchange} (h : WritesAnswered xs) {x : Exchange}
    (hx : x ∈ xs) {k : Key} {v : Value} (hq : x.request = .write k v) :
    x.Acknowledged ↔ Fits (k.bytes.length + 35) := by
  have hcalls : sentBytes x.calls = textReply .ok (keyWritten k.bytes) := by
    rw [h x hx k v hq, sentBytes_textCalls]
  rw [Exchange.Acknowledged, hcalls, ← length_keyWritten]
  constructor
  · rintro ⟨body, hbody⟩
    exact isResponse_text_iff.mp ⟨_, _, hbody⟩
  · exact fun hfits => ⟨_, isResponse_textReply hfits⟩

/-- If anything under a key is acknowledged, the latest acknowledged value is
the last one. -/
theorem latestAcknowledged_iff {xs : List Exchange} (h : WritesAnswered xs) {k : Key}
    {v : Value} : LatestAcknowledged xs k v ↔
      Fits (k.bytes.length + 35) ∧ (valuesOf k (requests xs)).getLast? = some v := by
  constructor
  · rintro ⟨pre, x, post, rfl, hq, hack, hpost⟩
    have hfits := (acknowledged_iff h (by simp) hq).mp hack
    have hnone : valuesOf k (requests post) = [] := by
      rw [valuesOf_eq_nil]
      intro y hy u hu
      exact hpost y hy u hu ((acknowledged_iff h (by simp [hy]) hu).mpr hfits)
    refine ⟨hfits, ?_⟩
    have hlast : valuesOf k (requests (pre ++ x :: post)) =
        valuesOf k (requests pre) ++ [v] := by
      rw [List.append_cons, requests_append, valuesOf_append, hnone, List.append_nil,
        requests_append, valuesOf_append]
      simp [requests, valuesOf, hq]
    rw [hlast, List.getLast?_append_cons]
    rfl
  · rintro ⟨hfits, hlast⟩
    -- The latest write is searched from the end.
    induction xs using List.reverseRecOn with
    | nil => cases hlast
    | append_singleton xs x ih =>
        have hinitial : WritesAnswered xs := fun y hy => h y (List.mem_append_left _ hy)
        rw [requests_append, valuesOf_append] at hlast
        by_cases hx : ∃ u, x.request = .write k u
        · obtain ⟨u, hu⟩ := hx
          have hvalue : valuesOf k (requests [x]) = [u] := by
            simp [requests, valuesOf, hu]
          rw [hvalue, List.getLast?_append_cons] at hlast
          obtain rfl : u = v := Option.some.inj hlast
          exact ⟨xs, x, [], rfl, hu, (acknowledged_iff h (by simp) hu).mpr hfits,
            by simp⟩
        · have hnone : valuesOf k (requests [x]) = [] :=
            valuesOf_eq_nil.mpr (by simpa using hx)
          rw [hnone, List.append_nil] at hlast
          obtain ⟨pre, y, post, rfl, hy, hack, hpost⟩ := ih hinitial hlast
          refine ⟨pre, y, post ++ [x], by simp, hy, hack, ?_⟩
          intro z hz u hu
          rcases List.mem_append.mp hz with hz | hz
          · exact hpost z hz u hu
          · rw [List.mem_singleton.mp hz] at hu
            exact absurd ⟨u, hu⟩ hx

/-! ## Refinement -/

section

variable {sockets : Nat → ClientSocket ByteBuffer.Chunks} {xs : List Exchange} {w : World}

theorem Serving.writesAnswered (h : Serving ⟨Database.new, sockets⟩ xs w) :
    WritesAnswered xs := by
  intro x hx k v hq
  obtain ⟨pre, post, hsplit⟩ := List.append_of_mem hx
  rw [h.answers hsplit, hq]
  rfl

theorem isResponse_frame_iff {u v : Value} :
    IsResponse .ok u.bytes (frame .ok v.bytes) ↔ u = v := by
  constructor
  · rintro ⟨hframe, -⟩
    have hsame := frame_append_inj v.short u.short (congrArg (· ++ []) hframe)
    exact Value.bytes_injective hsame.2.1.symm
  · rintro rfl
    exact ⟨rfl, u.short⟩

theorem answersAsMap_iff_of_never {before : List Exchange} {k : Key}
    (hnil : valuesOf k (requests before) = []) :
    AnswersAsMap before k (readCalls (run (history before)) k.bytes) ↔
      ReadsLatest (requests before) k := by
  have hreply : readCalls (run (history before)) k.bytes =
      textCalls .clientError (keyNotFound k.bytes) := by
    rw [readCalls, read_history_eq_none.mpr hnil]
  have hnever := valuesOf_eq_nil.mp hnil
  rw [hreply]
  constructor
  · intro hmap
    refine ⟨fun _ => ?_, fun hne => absurd hnil hne⟩
    exact (isResponse_keyNotFound_iff k).mp (hmap.notFound.mpr hnever)
  · intro hlatest
    refine ⟨⟨fun _ => hnever, fun _ => ?_⟩, ?_⟩
    · exact (isResponse_keyNotFound_iff k).mpr (hlatest.1 hnil)
    · intro hwritten
      exact absurd hnil (valuesOf_ne_nil.mpr hwritten)

theorem answersAsMap_iff_of_first {before : List Exchange} (hanswered : WritesAnswered before)
    (hwhole : ∀ op ∈ writes (history before), op.Whole) {k : Key} {v : Value}
    (hvalues : (valuesOf k (requests before)).head? = some v) :
    AnswersAsMap before k (readCalls (run (history before)) k.bytes) ↔
      ReadsLatest (requests before) k := by
  have hne : valuesOf k (requests before) ≠ [] := by
    intro hnil
    rw [hnil] at hvalues
    cases hvalues
  have hreply := sentBytes_readCalls hwhole hvalues
  constructor
  · intro hmap
    refine ⟨fun hnil => absurd hnil hne, fun _ => ?_⟩
    obtain ⟨u, hlatest, hresponse⟩ := hmap.found (valuesOf_ne_nil.mp hne)
    rw [hreply, isResponse_frame_iff] at hresponse
    obtain ⟨hfits, hlast⟩ := (latestAcknowledged_iff hanswered).mp hlatest
    exact ⟨hfits, by rw [hvalues, hlast, hresponse]⟩
  · intro hlatest
    obtain ⟨hfits, hsame⟩ := hlatest.2 hne
    refine ⟨⟨?_, ?_⟩, fun _ => ⟨v, ?_, ?_⟩⟩
    · rw [hreply]
      rintro ⟨hframe, -⟩
      have hstatus := congrArg (fun bytes => bytes.getD 6 0) hframe
      cases hstatus
    · exact fun hnever => absurd (valuesOf_eq_nil.mpr hnever) hne
    · exact (latestAcknowledged_iff hanswered).mpr ⟨hfits, by rw [← hsame, hvalues]⟩
    · rw [hreply, isResponse_frame_iff]

/-- One read is answered as by a map when it reads the latest value. -/
theorem answersAsMap_iff {before : List Exchange} (hanswered : WritesAnswered before)
    (hwhole : ∀ op ∈ writes (history before), op.Whole) (k : Key) :
    AnswersAsMap before k (readCalls (run (history before)) k.bytes) ↔
      ReadsLatest (requests before) k := by
  cases hvalues : (valuesOf k (requests before)).head? with
  | none => exact answersAsMap_iff_of_never (List.head?_eq_none_iff.mp hvalues)
  | some v => exact answersAsMap_iff_of_first hanswered hwhole hvalues

theorem Serving.answersAsMap_iff (h : Serving ⟨Database.new, sockets⟩ xs w)
    (hwhole : ∀ op ∈ writes (history xs), op.Whole) {pre post : List Exchange}
    {x : Exchange} {k : Key} (hsplit : xs = pre ++ x :: post) (hq : x.request = .read k) :
    AnswersAsMap pre k x.calls ↔ ReadsLatest (requests pre) k := by
  have hcalls : x.calls = readCalls (run (history pre)) k.bytes := by
    rw [h.answers hsplit, hq]
    rfl
  rw [hcalls]
  apply EasyKeyDB.answersAsMap_iff
  · intro y hy
    exact h.writesAnswered y (by simp [hsplit, hy])
  · intro op hop
    apply hwhole op
    rw [hsplit, history_append, writes_append]
    exact List.mem_append_left _ hop

/-- **The server as a map.** In a run with whole appends every read is answered
as by a map of the latest acknowledged values exactly when, at every read, the
key's first value is its last and its texts fit. -/
theorem refinesMap_iff (h : Serving ⟨Database.new, sockets⟩ xs w)
    (hwhole : ∀ op ∈ writes (history xs), op.Whole) :
    RefinesMap xs ↔ ∀ pre k post, requests xs = pre ++ .read k :: post →
      ReadsLatest pre k := by
  constructor
  · intro hmap pre k post hsplit
    obtain ⟨before, later, hxs, rfl, hlater⟩ := List.map_eq_append_iff.mp hsplit
    obtain ⟨x, after, rfl, hq, -⟩ := List.map_eq_cons_iff.mp hlater
    exact (h.answersAsMap_iff hwhole hxs hq).mp (hmap _ _ _ _ hxs hq)
  · intro hlatest pre x post k hsplit hq
    apply (h.answersAsMap_iff hwhole hsplit hq).mpr
    apply hlatest (requests pre) k (requests post)
    rw [hsplit, requests, List.map_append, List.map_cons, hq]
    rfl

end

/-! ## A key written twice -/

theorem written_once_map :
    ∃ xs w, Serving World.start xs w ∧
      requests xs = [.write keyA ⟨[1], by decide⟩, .read keyA] ∧ RefinesMap xs := by
  obtain ⟨xs, w, hrun, hqs⟩ := serving_exists
    [(.write keyA ⟨[1], by decide⟩, .complete), (.read keyA, .complete)]
  have hwhole : ∀ op ∈ writes (history xs), op.Whole := by
    rw [history_eq hqs]
    decide
  refine ⟨xs, w, hrun, requests_eq hqs, (refinesMap_iff hrun hwhole).mpr ?_⟩
  intro pre k post hsplit
  rw [requests_eq hqs] at hsplit
  rcases pre with _ | ⟨q, _ | ⟨r, pre⟩⟩
  · cases hsplit
  · cases hsplit
    exact ⟨by decide, by decide⟩
  · simp at hsplit

/-- Two writes of one key, both acknowledged, and a read: the second value is
not what is read. -/
theorem written_twice_not_map :
    ∃ xs w, Serving World.start xs w ∧ (∀ op ∈ writes (history xs), op.Whole) ∧
      requests xs = [.write keyA ⟨[1], by decide⟩, .write keyA ⟨[2], by decide⟩,
        .read keyA] ∧ ¬ RefinesMap xs := by
  obtain ⟨xs, w, hrun, hqs⟩ := serving_exists
    [(.write keyA ⟨[1], by decide⟩, .complete), (.write keyA ⟨[2], by decide⟩, .complete),
      (.read keyA, .complete)]
  have hwhole : ∀ op ∈ writes (history xs), op.Whole := by
    rw [history_eq hqs]
    decide
  refine ⟨xs, w, hrun, hwhole, requests_eq hqs, ?_⟩
  intro hmap
  have hsplit := requests_eq hqs
  change requests xs = [_, _] ++ [.read keyA] at hsplit
  obtain ⟨pre, later, rfl, hpre, hlater⟩ := List.map_eq_append_iff.mp hsplit
  obtain ⟨x, rfl, hq⟩ := List.map_eq_singleton_iff.mp hlater
  have hlatest := (hrun.answersAsMap_iff hwhole rfl hq).mp (hmap _ _ _ _ rfl hq)
  rw [requests, hpre] at hlatest
  exact absurd (hlatest.2 (by decide)).2 (by decide)

end EasyKeyDB
