import EasyKeyDB.Commuting
import EasyKeyDB.KeyValueMap
import EasyKeyDB.Library.WriteOnce

/-!
# The server as a write-once map

With whole appends the server is exactly a write-once map. `Represents` relates a
database to the contents of such a map, every call of the handler keeps the relation
(`Represents.call`), and the bytes of every reply are those of the map's result
(`Represents.answer`).

So a run of requests is a run of the map (`Serving.replies_eq`), what other clients can
find out about a run are the first values of its keys (`indistinguishable_iff`), and
requests that are sent again go unnoticed (`resent_unnoticed`).
-/

namespace EasyKeyDB

open Database LittleEndian

def Request.op : Request → WriteOnce.Op Key Value
  | .read key => .get key
  | .write key value => .put key value

def Request.reply : Request → WriteOnce.Result Value → List UInt8
  | .read _, .found value => frame .ok value.bytes
  | .read key, _ => textReply .clientError (keyNotFound key.bytes)
  | .write key _, _ => textReply .ok (keyWritten key.bytes)

/-- The append that a request makes, if it makes one, is whole. -/
def Request.Appends (append : IoResult) : Request → Prop
  | .read _ => True
  | .write _ value => append.Whole (field 4 value.bytes).length

instance (append : IoResult) (q : Request) : Decidable (q.Appends append) :=
  match q with
  | .read _ => isTrue trivial
  | .write _ _ => inferInstanceAs (Decidable (IoResult.Whole _ _))

theorem Request.appends_complete (q : Request) : q.Appends .complete := by
  cases q with
  | read key => trivial
  | write key value => rfl

/-- The database holds the contents `m`. -/
structure Represents (db : Database) (m : WriteOnce.Contents Key Value) : Prop where
  answers : ∀ k : Key, db.answer k.bytes = (m k).map fun v => field 4 v.bytes
  inside : ∀ k storage, db.read k = some storage →
    storage.offset + storage.size ≤ (db.openedFiles storage.file).contents.length

section

variable {db : Database} {m : WriteOnce.Contents Key Value}

theorem represents_new : Represents Database.new WriteOnce.empty where
  answers k := by
    rw [Database.answer, Database.read, Database.new, UnorderedMap.find?_empty]
    rfl
  inside k storage h := by
    rw [Database.read, Database.new, UnorderedMap.find?_empty] at h
    cases h

theorem range_write_new (db : Database) (key data : List UInt8) {append : IoResult}
    (hwhole : append.Whole (field 4 data).length) :
    (db.write key data append).range
        { size := (field 4 data).length
          offset := (db.openedFiles (bucket key)).contents.length
          file := bucket key } = field 4 data := by
  have hmoved : append.transferred (field 4 data).length = (field 4 data).length := hwhole
  rw [Database.range, File.range, contents_write, if_pos rfl, hmoved, List.take_length]
  exact (AppendLog.slice_length_append _ _ _).trans (List.take_length)

/-- Nothing moves under the ranges that have been recorded before. -/
theorem range_write_old (db : Database) (key data : List UInt8) (append : IoResult)
    {storage : FileStorage}
    (h : storage.offset + storage.size ≤ (db.openedFiles storage.file).contents.length) :
    (db.write key data append).range storage = db.range storage := by
  rw [Database.range, File.range, contents_write]
  exact AppendLog.slice_append_left h _

theorem length_contents_le (db : Database) (key data : List UInt8) (append : IoResult)
    (i : Fin numberOfFiles) : (db.openedFiles i).contents.length ≤
      ((db.write key data append).openedFiles i).contents.length := by
  rw [contents_write, List.length_append]
  exact Nat.le_add_right _ _

/-- What has been recorded lies in the files. -/
def Database.Inside (db : Database) : Prop := ∀ k storage, db.read k = some storage →
  storage.offset + storage.size ≤ (db.openedFiles storage.file).contents.length

theorem Database.Inside.write (h : db.Inside) (key data : List UInt8) {append : IoResult}
    (hwhole : append.Whole (field 4 data).length) : (db.write key data append).Inside := by
  intro k storage hstorage
  rw [read_write] at hstorage
  cases hread : db.read k with
  | some old =>
      rw [hread, Option.some_or, Option.some.injEq] at hstorage
      subst hstorage
      exact (h k old hread).trans (length_contents_le db _ _ _ _)
  | none =>
      rw [hread, Option.none_or] at hstorage
      split_ifs at hstorage
      obtain rfl := Option.some.inj hstorage
      have hmoved : append.transferred (field 4 data).length = (field 4 data).length := hwhole
      rw [contents_write, if_pos rfl, hmoved, List.take_length, List.length_append]

/-- A whole append answers for its key, unless the key has been written before. -/
theorem Database.Inside.answer_write (h : db.Inside) (key data : List UInt8)
    {append : IoResult} (hwhole : append.Whole (field 4 data).length) (k : List UInt8) :
    (db.write key data append).answer k =
      (db.answer k).or (if key = k then some (field 4 data) else none) := by
  rw [Database.answer, read_write, Database.answer]
  cases hread : db.read k with
  | some storage =>
      rw [Option.some_or, Option.map_some, Option.map_some, Option.some_or,
        range_write_old db _ _ _ (h _ _ hread)]
  | none =>
      rw [Option.none_or, Option.map_none, Option.none_or]
      by_cases hk : key = k
      · rw [if_pos hk, if_pos hk, Option.map_some, range_write_new db _ _ hwhole]
      · rw [if_neg hk, if_neg hk, Option.map_none]

theorem Represents.write (h : Represents db m) (key : Key) (value : Value)
    {append : IoResult} (hwhole : append.Whole (field 4 value.bytes).length) :
    Represents (db.write key.bytes value.bytes append)
      (WriteOnce.step m (.put key value)) where
  answers k := by
    have hinside : db.Inside := h.inside
    rw [hinside.answer_write _ _ hwhole, h.answers, WriteOnce.step_apply, WriteOnce.Op.puts,
      Option.map_or]
    congr 1
    by_cases hk : key = k
    · rw [if_pos hk, if_pos (congrArg Key.bytes hk)]
      rfl
    · rw [if_neg hk, if_neg fun hbytes => hk (Key.bytes_injective hbytes)]
      rfl
  inside := Database.Inside.write h.inside _ _ hwhole

theorem Represents.call (h : Represents db m) {q : Request} {append : IoResult}
    (happend : q.Appends append) :
    Represents (db.call (q.call append)) (WriteOnce.step m q.op) := by
  cases q with
  | read key => exact h
  | write key value => exact h.write key value happend

theorem Represents.answer (h : Represents db m) (q : Request) :
    sentBytes (q.answer db) = q.reply (WriteOnce.result m q.op) := by
  cases q with
  | write key value => exact sentBytes_textCalls _ _
  | read key =>
      have hanswer := h.answers key
      rw [Database.answer] at hanswer
      change sentBytes (readCalls db key.bytes) = Request.reply _ ((m key).elim .absent .found)
      rw [readCalls]
      cases hread : db.read key.bytes with
      | none =>
          rw [hread] at hanswer
          rw [Option.map_eq_none_iff.mp hanswer.symm]
          exact sentBytes_textCalls _ _
      | some storage =>
          rw [hread] at hanswer
          obtain ⟨v, hv, hrange⟩ := Option.map_eq_some_iff.mp hanswer.symm
          rw [hv]
          change successHeader ++ (db.range storage ++ []) = frame .ok v.bytes
          rw [List.append_nil, ← hrange, successHeader_append]

/-- Each value can be sent by one `sendfile`. -/
def Sendable (m : WriteOnce.Contents Key Value) : Prop :=
  ∀ k v, m k = some v → 4 + v.bytes.length ≤ sendfileLimit

theorem acceptedBy_send (data : List UInt8) (more : Bool) :
    (SocketCall.send data more).acceptedBy .complete = data := List.take_length

theorem acceptedBy_textCalls (status : ResponseStatus) (text : List UInt8) :
    (textCalls status text).flatMap (fun call => call.acceptedBy .complete) =
      textReply status text := by
  rw [textCalls, List.flatMap_singleton, acceptedBy_send]

theorem Represents.acceptedBy (hm : Represents db m) (hsmall : Sendable m) (q : Request) :
    (q.answer db).flatMap (fun call => call.acceptedBy .complete) = sentBytes (q.answer db) := by
  cases q with
  | write key value => exact (acceptedBy_textCalls _ _).trans (sentBytes_textCalls _ _).symm
  | read key =>
      change (readCalls db key.bytes).flatMap _ = sentBytes (readCalls db key.bytes)
      unfold readCalls
      cases hread : db.read key.bytes with
      | none => exact (acceptedBy_textCalls _ _).trans (sentBytes_textCalls _ _).symm
      | some storage =>
          have hanswer := hm.answers key
          rw [Database.answer, hread] at hanswer
          obtain ⟨v, hv, hrange⟩ := Option.map_eq_some_iff.mp hanswer.symm
          have hlength : (db.range storage).length ≤ sendfileLimit := by
            rw [← hrange, LittleEndian.length_field]
            exact hsmall key v hv
          have hfile : (SocketCall.sendfile (db.range storage)).acceptedBy .complete =
              db.range storage := by
            apply List.take_of_length_le
            rw [IoResult.transferred_complete, Nat.min_eq_right hlength]
          change (SocketCall.send successHeader true).acceptedBy .complete ++
            ((SocketCall.sendfile (db.range storage)).acceptedBy .complete ++ []) =
              successHeader ++ (db.range storage ++ [])
          rw [acceptedBy_send, hfile]

end

/-! ## Runs -/

def replies (xs : List Exchange) : List (List UInt8) := xs.map fun x => sentBytes x.calls

def repliesFrom (m : WriteOnce.Contents Key Value) (qs : List Request) : List (List UInt8) :=
  List.zipWith Request.reply qs (WriteOnce.results m (qs.map Request.op))

def WholeAppends (xs : List Exchange) : Prop := ∀ x ∈ xs, x.request.Appends x.append

section

variable {w w' : World} {xs ys : List Exchange} {m : WriteOnce.Contents Key Value}

theorem Serving.contents (h : Serving w xs w') (hwhole : WholeAppends xs)
    (hm : Represents w.database m) :
    Represents w'.database (WriteOnce.after m ((requests xs).map Request.op)) := by
  induction h with
  | nil => exact hm
  | @snoc xs w₁ x w₂ _ hserved ih =>
      rw [requests_append, List.map_append, WriteOnce.after_append, hserved.spec.1]
      exact (ih fun y hy => hwhole y (List.mem_append_left _ hy)).call (hwhole x (by simp))

theorem Serving.sends (h : Serving w xs w') (hwhole : WholeAppends xs)
    (hm : Represents w.database m) : replies xs = repliesFrom m (requests xs) := by
  induction h with
  | nil => rfl
  | @snoc xs w₁ x w₂ hrun hserved ih =>
      have hbefore : WholeAppends xs := fun y hy => hwhole y (List.mem_append_left _ hy)
      have hlength : (requests xs).length =
          (WriteOnce.results m ((requests xs).map Request.op)).length := by
        rw [WriteOnce.length_results, List.length_map]
      rw [requests_append, repliesFrom, List.map_append, WriteOnce.results_append,
        List.zipWith_append hlength, replies, List.map_append]
      congr 1
      · exact ih hbefore
      · change [sentBytes x.calls] = [x.request.reply _]
        rw [hserved.spec.2, (Serving.contents hrun hbefore hm).answer]

/-- **The server is a write-once map.** From a database that holds some contents, every
run sends what the map would, and ends with a database that holds what is then in the
map. -/
theorem Serving.replies_eq (h : Serving w xs w') (hwhole : WholeAppends xs)
    (hm : Represents w.database m) :
    replies xs = repliesFrom m (requests xs) ∧
      Represents w'.database (WriteOnce.after m ((requests xs).map Request.op)) :=
  ⟨h.sends hwhole hm, h.contents hwhole hm⟩

theorem wholeAppends_of_map {qs : List (Request × IoResult)}
    (h : xs.map (fun x => (x.request, x.append)) = qs) (hqs : ∀ q ∈ qs, q.1.Appends q.2) :
    WholeAppends xs := by
  intro x hx
  apply hqs (x.request, x.append)
  rw [← h]
  exact List.mem_map_of_mem (f := fun x : Exchange => (x.request, x.append)) hx

theorem one_short : ([1] : List UInt8).length < 2 ^ 32 := by decide

theorem two_short : ([2] : List UInt8).length < 2 ^ 32 := by decide

def valueOne : Value := ⟨[1], one_short⟩

def valueTwo : Value := ⟨[2], two_short⟩

/-- The second value of a key is acknowledged and dropped. -/
theorem second_value_dropped :
    ∃ xs w, Serving World.start xs w ∧ replies xs =
      [frame .ok (keyWritten keyA.bytes), frame .ok (keyWritten keyA.bytes),
        frame .ok [1], frame .clientError (keyNotFound keyB.bytes)] := by
  obtain ⟨xs, w, hrun, hqs⟩ := serving_exists
    [(.write keyA valueOne, .complete), (.write keyA valueTwo, .complete),
      (.read keyA, .complete), (.read keyB, .complete)]
  obtain ⟨hreplies, -⟩ :=
    Serving.replies_eq hrun (wholeAppends_of_map hqs (by decide)) represents_new
  refine ⟨xs, w, hrun, ?_⟩
  rw [hreplies, requests_eq hqs]
  decide +kernel

theorem after_empty (qs : List Request) (k : Key) :
    WriteOnce.after WriteOnce.empty (qs.map Request.op) k = (valuesOf k qs).head? := by
  rw [WriteOnce.after_apply, valuesOf, List.head?_filterMap, List.findSome?_map]
  change (none : Option Value).or _ = _
  rw [Option.none_or]
  congr 1
  funext q
  cases q <;> rfl

theorem value_of_reply_read {k : Key} {r r' : WriteOnce.Result Value}
    (h : (Request.read k).reply r = (Request.read k).reply r') : r.value = r'.value := by
  have hneq : ∀ v : Value, frame .ok v.bytes ≠
      textReply .clientError (keyNotFound k.bytes) := by
    intro v hsame
    cases (textReply_eq_frame hsame.symm).1
  cases r <;> cases r' <;> simp only [Request.reply] at h <;>
    first
    | rfl
    | exact absurd h (hneq _)
    | exact absurd h.symm (hneq _)
    | exact congrArg some (isResponse_frame_iff.mp ⟨h.symm, Value.short _⟩)

/-! ## What tells runs apart -/

theorem served_of_idle {client : Nat} (hidle : (w.sockets client).readBuffer = ⟨[], []⟩)
    (q : Request) (append : IoResult) :
    ∃ x w', Served w x w' ∧ x.request = q ∧ x.append = append := by
  have hunread := unread_deliver q hidle
  obtain ⟨b', -, -, hrun⟩ := parseRequest_complete append w.database hunread
  exact ⟨_, _, .call hunread hrun rfl, rfl, rfl⟩

/-- After any run there is a client who has not taken part in it. -/
theorem Serving.idle (h : Serving World.start xs w) :
    ∃ client, (w.sockets client).readBuffer = ⟨[], []⟩ := by
  obtain ⟨client, hclient⟩ := Infinite.exists_notMem_finset (xs.map Exchange.client).toFinset
  refine ⟨client, ?_⟩
  rw [h.unused client (by simpa using hclient)]
  rfl

/-- The same requests get the same replies in `w` as in `w'`. -/
def Indistinguishable (w w' : World) : Prop :=
  ∀ zs zs' v v', Serving w zs v → Serving w' zs' v' → WholeAppends zs → WholeAppends zs' →
    requests zs = requests zs' → replies zs = replies zs'

/-- Worlds are told apart by the contents of their databases and by nothing else. -/
theorem indistinguishable_iff_contents {m' : WriteOnce.Contents Key Value}
    (hm : Represents w.database m) (hm' : Represents w'.database m') {client client' : Nat}
    (hidle : (w.sockets client).readBuffer = ⟨[], []⟩)
    (hidle' : (w'.sockets client').readBuffer = ⟨[], []⟩) :
    Indistinguishable w w' ↔ m = m' := by
  constructor
  · intro hsame
    funext k
    obtain ⟨x, v, hx, hq, happend⟩ := served_of_idle hidle (.read k) .complete
    obtain ⟨x', v', hx', hq', happend'⟩ := served_of_idle hidle' (.read k) .complete
    have hwhole : ∀ y : Exchange, y.request = .read k → WholeAppends [y] := by
      intro y hy z hz
      rw [List.mem_singleton.mp hz, hy]
      trivial
    have hrequests : requests [x] = requests [x'] := congrArg (fun q => [q]) (hq.trans hq'.symm)
    have hreplies := hsame _ _ _ _ (Run.single hx) (Run.single hx') (hwhole x hq)
      (hwhole x' hq') hrequests
    have hreply : sentBytes x.calls = sentBytes x'.calls := List.head_eq_of_cons_eq hreplies
    rw [hx.spec.2, hx'.spec.2, hm.answer, hm'.answer, hq, hq'] at hreply
    rw [← WriteOnce.value_result_get m k, ← WriteOnce.value_result_get m' k]
    exact value_of_reply_read hreply
  · rintro rfl zs zs' v v' hzs hzs' hwhole hwhole' hrequests
    rw [hzs.sends hwhole hm, hzs'.sends hwhole' hm', hrequests]

/-- **What a run leaves behind** for others to find out are the first values of its
keys. -/
theorem indistinguishable_iff (h : Serving World.start xs w) (h' : Serving World.start ys w')
    (hwhole : WholeAppends xs) (hwhole' : WholeAppends ys) :
    Indistinguishable w w' ↔
      ∀ k, (valuesOf k (requests xs)).head? = (valuesOf k (requests ys)).head? := by
  obtain ⟨client, hidle⟩ := h.idle
  obtain ⟨client', hidle'⟩ := h'.idle
  rw [indistinguishable_iff_contents (h.contents hwhole represents_new)
    (h'.contents hwhole' represents_new) hidle hidle', funext_iff]
  exact forall_congr' fun k => by rw [after_empty, after_empty]

/-- A second value leaves nothing behind. -/
theorem second_value_indistinguishable :
    ∃ xs ys w w', Serving World.start xs w ∧ Serving World.start ys w' ∧
      requests xs = [.write keyA valueOne, .write keyA valueTwo] ∧
      requests ys = [.write keyA valueOne] ∧ Indistinguishable w w' := by
  obtain ⟨xs, w, hrun, hqs⟩ := serving_exists
    [(.write keyA valueOne, .complete), (.write keyA valueTwo, .complete)]
  obtain ⟨ys, w', hrun', hqs'⟩ := serving_exists [(.write keyA valueOne, .complete)]
  refine ⟨xs, ys, w, w', hrun, hrun', requests_eq hqs, requests_eq hqs', ?_⟩
  apply (indistinguishable_iff hrun hrun' (wholeAppends_of_map hqs (by decide))
    (wholeAppends_of_map hqs' (by decide))).mpr
  intro k
  rw [requests_eq hqs, requests_eq hqs']
  by_cases hk : keyA = k <;> simp [valuesOf, hk]

/-! ## Requests sent again -/

/-- The exchanges that are marked repeat a request that has been served before. -/
def Resends (marked : List (Exchange × Bool)) : Prop :=
  ∀ pre x post, marked = pre ++ (x, true) :: post → ∃ y ∈ pre, y.1.request = x.request

/-- The requests that are marked have been performed by the map before. -/
theorem Resends.resent {marked : List (Exchange × Bool)} (h : Resends marked) :
    WriteOnce.Resent (marked.map fun x => (x.1.request.op, x.2)) := by
  intro pre op post hsplit
  obtain ⟨before, later, rfl, rfl, hlater⟩ := List.map_eq_append_iff.mp hsplit
  obtain ⟨⟨x, again⟩, after, rfl, hx, -⟩ := List.map_eq_cons_iff.mp hlater
  obtain ⟨rfl, rfl⟩ := Prod.mk.inj hx
  obtain ⟨y, hy, hrequest⟩ := h before x after rfl
  refine ⟨y.2, ?_⟩
  rw [← hrequest]
  exact List.mem_map_of_mem (f := fun x => (x.1.request.op, x.2)) hy

/-- **Requests sent again go unnoticed.** A run in which requests are repeated sends
the same replies to all the others as a run without the repetitions, and leaves the same
contents. -/
theorem resent_unnoticed {marked : List (Exchange × Bool)} {v v' : World}
    (h : Serving w (marked.map Prod.fst) v) (h' : Serving w' ys v')
    (hm : Represents w.database m) (hm' : Represents w'.database m)
    (hwhole : WholeAppends (marked.map Prod.fst)) (hwhole' : WholeAppends ys)
    (hresends : Resends marked)
    (honce : requests ys = requests (WriteOnce.unmarked marked)) :
    replies ys = replies (WriteOnce.unmarked marked) ∧
      ∃ m', Represents v.database m' ∧ Represents v'.database m' := by
  have hreplies := h.sends hwhole hm
  have hreplies' := h'.sends hwhole' hm'
  have hend := h.contents hwhole hm
  have hend' := h'.contents hwhole' hm'
  have hops : (requests (marked.map Prod.fst)).map Request.op =
      (marked.map fun x => (x.1.request.op, x.2)).map Prod.fst := by
    simp only [requests, List.map_map]
    rfl
  have hmarks : marked.map Prod.snd =
      (marked.map fun x => (x.1.request.op, x.2)).map Prod.snd := by
    rw [List.map_map]
    rfl
  have honceOps : (requests ys).map Request.op =
      WriteOnce.unmarked (marked.map fun x => (x.1.request.op, x.2)) := by
    rw [honce, requests, List.map_map]
    exact (WriteOnce.unmarked_map (fun x : Exchange => x.request.op) marked).symm
  obtain ⟨hresults, hafter⟩ := WriteOnce.results_resent hresends.resent m
  refine ⟨?_, _, ?_, hend'⟩
  · -- Both sides are made of the requests and the results that are not marked.
    have hboth : replies (WriteOnce.unmarked marked) = List.zipWith Request.reply
        (WriteOnce.unmarked ((requests (marked.map Prod.fst)).zip (marked.map Prod.snd)))
        (WriteOnce.unmarked ((WriteOnce.results m
          ((requests (marked.map Prod.fst)).map Request.op)).zip (marked.map Prod.snd))) := by
      rw [← WriteOnce.unmarked_zipWith, ← repliesFrom, ← hreplies]
      · exact (WriteOnce.unmarked_zip_map _ marked).symm
      · simp [requests]
      · simp [requests, WriteOnce.length_results]
    rw [hboth, hreplies', repliesFrom, honceOps, ← hresults, hops, ← hmarks, honce]
    congr 1
    exact (WriteOnce.unmarked_zip_map Exchange.request marked).symm
  · rw [honceOps, ← hafter, ← hops]
    exact hend

/-- A write that is sent again behind the write of another value. -/
theorem write_resent_unnoticed :
    ∃ (a b c d : Exchange) (ys : List Exchange) (v v' : World),
      Serving World.start [a, b, c, d] v ∧ Serving World.start ys v' ∧
      requests [a, b, c, d] = [.write keyA valueOne, .write keyA valueTwo,
        .write keyA valueOne, .read keyA] ∧ replies ys = replies [a, b, d] := by
  obtain ⟨xs, v, hrun, hqs⟩ := serving_exists
    [(.write keyA valueOne, .complete), (.write keyA valueTwo, .complete),
      (.write keyA valueOne, .complete), (.read keyA, .complete)]
  obtain ⟨ys, v', hrun', hqs'⟩ := serving_exists
    [(.write keyA valueOne, .complete), (.write keyA valueTwo, .complete),
      (.read keyA, .complete)]
  have hwhole := wholeAppends_of_map hqs (by decide)
  have hwhole' := wholeAppends_of_map hqs' (by decide)
  have hrequests := requests_eq hqs
  obtain ⟨a, t, rfl, ha, ht⟩ := List.map_eq_cons_iff.mp hqs
  obtain ⟨b, t, rfl, hb, ht⟩ := List.map_eq_cons_iff.mp ht
  obtain ⟨c, t, rfl, hc, ht⟩ := List.map_eq_cons_iff.mp ht
  obtain ⟨d, rfl, hd⟩ := List.map_eq_singleton_iff.mp ht
  have hresends : Resends [(a, false), (b, false), (c, true), (d, false)] := by
    intro pre x post hsplit
    rcases pre with _ | ⟨p, _ | ⟨q, _ | ⟨r, _ | ⟨s, pre⟩⟩⟩⟩ <;>
      simp only [List.nil_append, List.cons_append, List.cons.injEq, Prod.mk.injEq] at hsplit
    · exact absurd hsplit.1.2 nofun
    · exact absurd hsplit.2.1.2 nofun
    · obtain ⟨rfl, -, ⟨rfl, -⟩, -⟩ := hsplit
      exact ⟨_, List.mem_cons_self, (congrArg Prod.fst ha).trans (congrArg Prod.fst hc).symm⟩
    · exact absurd hsplit.2.2.2.1.2 nofun
    · simp at hsplit
  have honce : requests ys =
      requests (WriteOnce.unmarked [(a, false), (b, false), (c, true), (d, false)]) := by
    have hsame := hrequests
    simp only [requests, List.map_cons, List.cons.injEq] at hsame
    obtain ⟨ha, hb, -, hd, -⟩ := hsame
    rw [requests_eq hqs', requests]
    simp [WriteOnce.unmarked, ha, hb, hd]
  have hmarked : Serving World.start
      ([(a, false), (b, false), (c, true), (d, false)].map Prod.fst) v := hrun
  exact ⟨a, b, c, d, ys, v, v', hrun, hrun', hrequests,
    (resent_unnoticed hmarked hrun' represents_new represents_new hwhole hwhole' hresends
      honce).1⟩

end

end EasyKeyDB
