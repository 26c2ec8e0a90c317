import EasyKeyDB.Serving

/-!
# What a read shows when appends fail

An index entry is made for every write of a new key, whatever became of its
append. Under an entry whose append was cut short lie, after the bytes that did
arrive, the bytes of later writes to the same file. A run therefore keeps the
bytes of different keys apart exactly when the append that goes with every new
entry is whole (`showsOwnValue_iff`); appends for keys that have an entry may
fail.
-/

namespace EasyKeyDB

open Database LittleEndian

/-- For each byte that a read of `k` shows, the key it was appended for. -/
def shownOwners (before : List Exchange) (k : Key) : List (List UInt8) :=
  match (run (history before)).read k.bytes with
  | none => []
  | some storage =>
      AppendLog.slice (bucketOwners (writes (history before)) storage.file)
        storage.offset storage.size

/-- A read of `k` that is answered with OK shows one value written under `k`,
and only bytes appended for `k`. -/
structure ShowsOwnValue (before : List Exchange) (k : Key) (calls : List SocketCall) :
    Prop where
  value : ∀ shown, calls = [.send successHeader true, .sendfile shown] →
    ∃ w ∈ writes (history before), w.key = k.bytes ∧ shown = field 4 w.data
  owners : ∀ owner ∈ shownOwners before k, owner = k.bytes

/-- At every point of the run, every read that is or could be served next shows
a value of its own key. -/
def ShowsOwnValues (xs : List Exchange) : Prop :=
  ∀ pre post x w k, xs = pre ++ post → Serving World.start (pre ++ [x]) w →
    x.request = .read k → ShowsOwnValue pre k x.calls

/-- The first append for every key is whole. -/
def FirstAppendsWhole (ws : List WriteOp) : Prop :=
  ∀ pre w post, ws = pre ++ w :: post → (∀ v ∈ pre, v.key ≠ w.key) → w.Whole

theorem FirstAppendsWhole.of_append {ws vs : List WriteOp}
    (h : FirstAppendsWhole (ws ++ vs)) : FirstAppendsWhole ws := by
  intro pre w post hsplit hfirst
  apply h pre w (post ++ vs) _ hfirst
  rw [hsplit, List.append_assoc, List.cons_append]

/-! ## Under one entry -/

theorem owners_of_whole {pre post : List WriteOp} {w : WriteOp} (hwhole : w.Whole) :
    ∀ owner ∈ AppendLog.slice (bucketOwners (pre ++ w :: post) (bucket w.key))
      (bucketLog pre (bucket w.key)).length w.image.length, owner = w.key := by
  have howners : w.owners = w.image.map fun _ => w.key := by
    rw [WriteOp.owners, WriteOp.appended_eq_image hwhole]
  have hlog : bucketOwners (pre ++ w :: post) (bucket w.key) =
      bucketOwners pre (bucket w.key) ++ (w.owners ++ bucketOwners post (bucket w.key)) :=
    AppendLog.log_split pre post w rfl
  have hshown : AppendLog.slice (bucketOwners (pre ++ w :: post) (bucket w.key))
      (bucketLog pre (bucket w.key)).length w.image.length = w.owners := by
    rw [hlog, ← length_bucketOwners, AppendLog.slice_length_append]
    apply List.take_left'
    rw [howners, List.length_map]
  intro owner howner
  rw [hshown, howners, List.mem_map] at howner
  obtain ⟨-, -, rfl⟩ := howner
  rfl

/-- Right after a write the entry of a new key shows what was appended, which
is a value only if the append was whole. -/
theorem range_of_last {calls : List Call} {pre : List WriteOp} {w : WriteOp}
    (hsplit : writes calls = pre ++ [w]) :
    (run calls).range { size := w.image.length
                        offset := (bucketLog pre (bucket w.key)).length
                        file := bucket w.key } = w.appended := by
  rw [range_run, hsplit, bucketLog_append, bucketLog_singleton, if_pos rfl,
    AppendLog.slice_length_append, List.take_of_length_le]
  rw [WriteOp.length_appended]
  exact IoResult.transferred_le _ _

theorem showsOwnValue_of_first {before : List Exchange} {k : Key}
    (hfirst : FirstAppendsWhole (writes (history before))) :
    ShowsOwnValue before k (readCalls (run (history before)) k.bytes) := by
  unfold readCalls
  cases hread : (run (history before)).read k.bytes with
  | none =>
      refine ⟨?_, ?_⟩
      · intro shown hshown
        simp [textCalls] at hshown
      · intro owner howner
        rw [shownOwners, hread] at howner
        cases howner
  | some storage =>
      obtain ⟨pre, w, post, hsplit, hpre, hkey, rfl⟩ := read_split hread
      rw [← hkey] at hpre hread ⊢
      have hwhole := hfirst pre w post hsplit hpre
      refine ⟨?_, ?_⟩
      · intro shown hshown
        refine ⟨w, by simp [hsplit], hkey, ?_⟩
        simp only [storedCalls, List.cons.injEq, SocketCall.sendfile.injEq, true_and,
          and_true] at hshown
        rw [← hshown]
        exact range_of_split hsplit hwhole
      · intro owner howner
        rw [shownOwners, ← hkey, hread, hsplit] at howner
        rw [← hkey]
        exact owners_of_whole hwhole owner howner

/-! ## Over runs -/

theorem writes_history_split {xs : List Exchange} {ws vs : List WriteOp}
    (h : writes (history xs) = ws ++ vs) :
    ∃ pre post, xs = pre ++ post ∧ writes (history pre) = ws := by
  obtain ⟨calls, later, hcalls, hws, -⟩ := List.filterMap_eq_append_iff.mp h
  obtain ⟨pre, post, rfl, rfl, -⟩ := List.map_eq_append_iff.mp hcalls
  exact ⟨pre, post, rfl, hws⟩

theorem key_of_mem_writes {xs : List Exchange} {w : WriteOp}
    (h : w ∈ writes (history xs)) : ∃ k : Key, k.bytes = w.key := by
  obtain ⟨c, hc, hw⟩ := List.mem_filterMap.mp h
  obtain ⟨x, -, rfl⟩ := List.mem_map.mp hc
  obtain ⟨client, q, append, calls⟩ := x
  cases q with
  | read key => cases hw
  | write key value =>
      obtain rfl := Option.some.inj hw
      exact ⟨key, rfl⟩

theorem not_showsOwnValue {before : List Exchange} {pre : List WriteOp} {w : WriteOp}
    (hsplit : writes (history before) = pre ++ [w]) (hpre : ∀ v ∈ pre, v.key ≠ w.key)
    (hcut : ¬ w.Whole) {k : Key} (hk : k.bytes = w.key) :
    ¬ ShowsOwnValue before k (readCalls (run (history before)) k.bytes) := by
  intro hshows
  have hread : (run (history before)).read w.key = some
      { size := w.image.length
        offset := (bucketLog pre (bucket w.key)).length
        file := bucket w.key } := by
    rw [read_run, hsplit, logEntry, AppendLog.entry_of_split hpre rfl]
    rfl
  have hcalls : readCalls (run (history before)) k.bytes =
      [.send successHeader true, .sendfile w.appended] := by
    simp only [readCalls, hk, hread, storedCalls, range_of_last hsplit]
  obtain ⟨v, hv, hkey, hshown⟩ := hshows.value _ hcalls
  rw [hsplit, List.mem_append, List.mem_singleton] at hv
  rcases hv with hv | rfl
  · exact hpre v hv (hkey.trans hk)
  · apply hcut
    have hlength := congrArg List.length hshown
    rw [WriteOp.length_appended] at hlength
    exact hlength

/-- **Bytes of different keys stay apart** throughout a run exactly when the
first append for every key is whole. -/
theorem showsOwnValues_iff {xs : List Exchange} {w : World}
    (h : Serving World.start xs w) :
    ShowsOwnValues xs ↔ FirstAppendsWhole (writes (history xs)) := by
  constructor
  · intro hshows pre op post hsplit hpre
    by_contra hcut
    rw [List.append_cons] at hsplit
    obtain ⟨before, later, rfl, hbefore⟩ := writes_history_split hsplit
    have hmem : op ∈ writes (history before) := by simp [hbefore]
    obtain ⟨k, hk⟩ := key_of_mem_writes hmem
    obtain ⟨m, hrun, -⟩ := h.of_append
    obtain ⟨x, w', hnext, hq, -⟩ := Serving.next hrun (.read k) .complete
    have hvalue := hshows before later x w' k rfl hnext hq
    rw [Serving.answers hnext rfl, hq] at hvalue
    exact not_showsOwnValue hbefore hpre hcut hk hvalue
  · intro hfirst pre post x w' k hsplit hnext hq
    rw [hsplit, history_append, writes_append] at hfirst
    rw [Serving.answers hnext rfl, hq]
    exact showsOwnValue_of_first hfirst.of_append

theorem firstAppendsWhole_of_whole {ws : List WriteOp} (h : ∀ w ∈ ws, w.Whole) :
    FirstAppendsWhole ws := by
  intro pre w post hsplit _
  exact h w (by simp [hsplit])

/-! ## Two keys in one file -/

theorem whole_appends_show_own_values :
    ∃ xs w, Serving World.start xs w ∧
      requests xs = [.write keyA ⟨[1], by decide⟩, .write keyB ⟨[2], by decide⟩] ∧
      ShowsOwnValues xs := by
  obtain ⟨xs, w, hrun, hqs⟩ := serving_exists
    [(.write keyA ⟨[1], by decide⟩, .complete), (.write keyB ⟨[2], by decide⟩, .complete)]
  refine ⟨xs, w, hrun, requests_eq hqs, (showsOwnValues_iff hrun).mpr ?_⟩
  apply firstAppendsWhole_of_whole
  rw [history_eq hqs]
  decide

/-- The append for one key fails, another key is written to the same file: the
first key shows the second key's value. -/
theorem failed_append_shows_foreign :
    ∃ xs x w, Serving World.start (xs ++ [x]) w ∧
      (xs ++ [x]).map (fun x => (x.request, x.append)) =
        [(.write keyA ⟨[1], by decide⟩, .failed),
          (.write keyB ⟨[2], by decide⟩, .complete), (.read keyA, .complete)] ∧
      x.calls = [.send successHeader true, .sendfile (field 4 [2])] ∧
      shownOwners xs keyA = List.replicate 5 keyB.bytes ∧
      ¬ ShowsOwnValues xs := by
  obtain ⟨xs, w, hrun, hqs⟩ := serving_exists
    [(.write keyA ⟨[1], by decide⟩, .failed), (.write keyB ⟨[2], by decide⟩, .complete)]
  obtain ⟨x, w', hnext, hq, happend⟩ := hrun.next (.read keyA) .complete
  have hcalls : x.calls = [.send successHeader true, .sendfile (field 4 [2])] := by
    rw [Serving.answers hnext rfl, hq, history_eq hqs]
    rfl
  have howners : shownOwners xs keyA = List.replicate 5 keyB.bytes := by
    rw [shownOwners, history_eq hqs]
    rfl
  refine ⟨xs, x, w', hnext, ?_, hcalls, howners, ?_⟩
  · rw [List.map_append, hqs, List.map_singleton, hq, happend]
    rfl
  · intro hshows
    have hread := hshows xs [] x w' keyA (List.append_nil _).symm hnext hq
    have howner := hread.owners keyB.bytes (by simp [howners])
    exact absurd howner (by decide)

end EasyKeyDB
