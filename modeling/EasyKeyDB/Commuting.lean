import EasyKeyDB.Storage

/-!
# Independent writes

Two databases may differ in every offset and in the order of every file and
still answer the same to every read. After whole appends an answer is a matter
of the writes of its key, in their order (`answer_run`, `answer_congr`); so the
order of two writes of different keys does not show (`writes_commute`).
-/

namespace EasyKeyDB

open Database

/-- What a client sees of `Database::read`: nothing, or the bytes that the entry
designates. -/
def Database.answer (db : Database) (k : List UInt8) : Option (List UInt8) :=
  (db.read k).map db.range

theorem answer_run {calls : List Call} (hwhole : ∀ w ∈ writes calls, w.Whole)
    (k : List UInt8) :
    (run calls).answer k =
      (((writes calls).filter fun w => w.key = k).head?).map WriteOp.image := by
  have hrange : (fun e => (run calls).range (storageAt k e)) = fun e =>
      AppendLog.slice (bucketLog (writes calls) (bucket k)) e.offset e.size := by
    ext1 e
    exact range_run calls (storageAt k e)
  rw [answer, read_run, Option.map_map]
  show (logEntry (writes calls) k).map (fun e => (run calls).range (storageAt k e)) = _
  rw [hrange, ← AppendLog.firstRecord_eq_head?]
  apply AppendLog.slice_entry_eq
  intro w hw
  exact WriteOp.appended_eq_image (hwhole w hw)

/-- Histories with the same writes of each key, in the same order, are answered
alike. -/
theorem answer_congr {calls calls' : List Call} (hwhole : ∀ w ∈ writes calls, w.Whole)
    (hwhole' : ∀ w ∈ writes calls', w.Whole)
    (h : ∀ k, ((writes calls).filter fun w => w.key = k) =
      (writes calls').filter fun w => w.key = k) :
    (run calls).answer = (run calls').answer := by
  ext1 k
  rw [answer_run hwhole, answer_run hwhole', h]

def written (ops : List WriteOp) : Database := run (ops.map Call.write)

theorem writes_map_write (ops : List WriteOp) : writes (ops.map Call.write) = ops := by
  induction ops with
  | nil => rfl
  | cons op ops ih =>
      rw [List.map_cons, ← List.singleton_append, writes_append, ih]
      rfl

theorem filter_swap {a b : WriteOp} (hab : a.key ≠ b.key) (pre post : List WriteOp)
    (k : List UInt8) :
    ((pre ++ a :: b :: post).filter fun w => w.key = k) =
      (pre ++ b :: a :: post).filter fun w => w.key = k := by
  rw [List.filter_append, List.filter_append]
  apply congrArg
  by_cases ha : a.key = k
  · have hb : b.key ≠ k := fun hb => hab (ha.trans hb.symm)
    simp [ha, hb]
  · simp [List.filter_cons, ha]

/-- **Independent writes commute.** Exchanging two adjacent writes of different
keys changes no answer. -/
theorem writes_commute {pre post : List WriteOp} {a b : WriteOp} (hab : a.key ≠ b.key)
    (hwhole : ∀ w ∈ pre ++ a :: b :: post, w.Whole) (k : List UInt8) :
    (written (pre ++ a :: b :: post)).answer k = (written (pre ++ b :: a :: post)).answer k := by
  have hperm : (pre ++ b :: a :: post).Perm (pre ++ a :: b :: post) :=
    (List.Perm.swap a b post).append_left pre
  apply congrFun
  apply answer_congr
  · rwa [writes_map_write]
  · rw [writes_map_write]
    intro w hw
    exact hwhole w (hperm.subset hw)
  · intro k
    rw [writes_map_write, writes_map_write]
    exact filter_swap hab pre post k

/-- Two keys of one bucket, in both orders: the offsets differ, the answers do
not. -/
theorem writes_commute_sharedBucket :
    (written [⟨[97], [1], .complete⟩, ⟨[98], [2, 3], .complete⟩]).read [98] ≠
        (written [⟨[98], [2, 3], .complete⟩, ⟨[97], [1], .complete⟩]).read [98] ∧
      (written [⟨[97], [1], .complete⟩, ⟨[98], [2, 3], .complete⟩]).answer [98] =
        (written [⟨[98], [2, 3], .complete⟩, ⟨[97], [1], .complete⟩]).answer [98] :=
  ⟨by decide +kernel, @writes_commute [] [] _ _ (by decide) (by decide) [98]⟩

end EasyKeyDB
