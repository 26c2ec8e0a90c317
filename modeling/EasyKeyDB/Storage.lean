import EasyKeyDB.Database
import Mathlib.Data.List.Induction

/-!
# Histories of the database

A history of `Database::write` and `Database::read` calls, each append with an
outcome of its own. The database after a history refines the bucketed log of
`AppendLog`: every file is the log of its bucket (`contents_run`) and the index
is the first-write index (`read_run`). What the log theory says about entries
then holds of the files, with whole appends (`storage_invariant`) and, as far
as it does, with appends that fail.
-/

namespace EasyKeyDB

open LittleEndian

/-- One `Database::write` call and the outcome of its append. -/
structure WriteOp where
  key : List UInt8
  data : List UInt8
  append : IoResult
deriving DecidableEq, Repr

namespace WriteOp

/-- What the call should append: `LE32(length(v)) ++ v`. -/
def image (w : WriteOp) : List UInt8 := field 4 w.data

def appended (w : WriteOp) : List UInt8 :=
  w.image.take (w.append.transferred w.image.length)

def owners (w : WriteOp) : List (List UInt8) :=
  w.appended.map fun _ => w.key

/-- The append transferred all its bytes. -/
def Whole (w : WriteOp) : Prop := w.append.Whole w.image.length

instance (w : WriteOp) : Decidable w.Whole :=
  inferInstanceAs (Decidable (IoResult.Whole _ _))

theorem appended_eq_image {w : WriteOp} (h : w.Whole) : w.appended = w.image := by
  rw [appended, show w.append.transferred w.image.length = w.image.length from h,
    List.take_length]

theorem length_appended (w : WriteOp) :
    w.appended.length = w.append.transferred w.image.length := by
  rw [appended, List.length_take]
  exact Nat.min_eq_left (IoResult.transferred_le _ _)

end WriteOp

inductive Call
  | write (op : WriteOp)
  | read (key : List UInt8)
deriving DecidableEq, Repr

def writes (calls : List Call) : List WriteOp :=
  calls.filterMap fun
    | .write op => some op
    | .read _ => none

@[simp] theorem writes_write (op : WriteOp) : writes [.write op] = [op] := rfl

@[simp] theorem writes_read (k : List UInt8) : writes [.read k] = [] := rfl

@[simp] theorem writes_append (cs ds : List Call) :
    writes (cs ++ ds) = writes cs ++ writes ds := by
  simp [writes]

namespace Database

/-- `read` is a `const` method. -/
def call (db : Database) : Call → Database
  | .write op => db.write op.key op.data op.append
  | .read _ => db

/-- The database after a history of calls on a new one. -/
def run (calls : List Call) : Database := calls.foldl call new

theorem run_append_singleton (calls : List Call) (c : Call) :
    run (calls ++ [c]) = (run calls).call c := by
  simp [run]

end Database

open Database

/-! ## The log behind the files -/

def bucketLog (ws : List WriteOp) (i : Fin numberOfFiles) : List UInt8 :=
  AppendLog.log WriteOp.key bucket WriteOp.appended ws i

def bucketOwners (ws : List WriteOp) (i : Fin numberOfFiles) : List (List UInt8) :=
  AppendLog.log WriteOp.key bucket WriteOp.owners ws i

def logEntry (ws : List WriteOp) (k : List UInt8) : Option AppendLog.Extent :=
  AppendLog.entry WriteOp.key bucket WriteOp.image WriteOp.appended ws k

/-- An extent in the file of `k`, as the database records it. -/
def storageAt (k : List UInt8) (e : AppendLog.Extent) : FileStorage :=
  { size := e.size, offset := e.offset, file := bucket k }

theorem bucketLog_append (ws vs : List WriteOp) (i : Fin numberOfFiles) :
    bucketLog (ws ++ vs) i = bucketLog ws i ++ bucketLog vs i :=
  AppendLog.log_append ws vs i

theorem bucketLog_singleton (w : WriteOp) (i : Fin numberOfFiles) :
    bucketLog [w] i = if bucket w.key = i then w.appended else [] :=
  AppendLog.log_singleton w i

theorem logEntry_append_singleton (ws : List WriteOp) (w : WriteOp) (k : List UInt8) :
    logEntry (ws ++ [w]) k =
      (logEntry ws k).or
        (if w.key = k then some ⟨(bucketLog ws (bucket k)).length, w.image.length⟩
        else none) :=
  AppendLog.entry_append_singleton ws w k

theorem contents_run (calls : List Call) (i : Fin numberOfFiles) :
    ((run calls).openedFiles i).contents = bucketLog (writes calls) i := by
  induction calls using List.reverseRecOn with
  | nil => rfl
  | append_singleton calls c ih =>
      rw [run_append_singleton, writes_append, bucketLog_append, ← ih]
      cases c with
      | read k => rw [writes_read, call]; exact (List.append_nil _).symm
      | write op =>
          rw [writes_write, bucketLog_singleton, call, contents_write]
          rfl

theorem read_run (calls : List Call) (k : List UInt8) :
    (run calls).read k = (logEntry (writes calls) k).map (storageAt k) := by
  induction calls using List.reverseRecOn with
  | nil => exact UnorderedMap.find?_empty k
  | append_singleton calls c ih =>
      rw [run_append_singleton, writes_append]
      cases c with
      | read k' => rw [writes_read, List.append_nil]; exact ih
      | write op =>
          rw [writes_write, logEntry_append_singleton, call, read_write, ih,
            contents_run]
          cases hentry : logEntry (writes calls) k with
          | some e => rfl
          | none =>
              by_cases hk : op.key = k
              · subst hk
                simp [storageAt, WriteOp.image]
              · simp [hk]

/-- The owners of the bytes of a file line up with the bytes. -/
theorem length_bucketOwners (ws : List WriteOp) (i : Fin numberOfFiles) :
    (bucketOwners ws i).length = (bucketLog ws i).length := by
  simp [bucketOwners, bucketLog, AppendLog.log, WriteOp.owners, List.length_flatMap]

theorem read_isSome_iff (calls : List Call) (k : List UInt8) :
    (∃ storage, (run calls).read k = some storage) ↔
      ∃ w ∈ writes calls, w.key = k := by
  have hnone : (run calls).read k = none ↔ ∀ w ∈ writes calls, w.key ≠ k := by
    rw [read_run, Option.map_eq_none_iff, logEntry, AppendLog.entry_eq_none]
  rw [← Option.ne_none_iff_exists', Ne, hnone]
  simp

theorem read_eq_none_iff (calls : List Call) (k : List UInt8) :
    (run calls).read k = none ↔ ∀ w ∈ writes calls, w.key ≠ k := by
  rw [read_run, Option.map_eq_none_iff, logEntry, AppendLog.entry_eq_none]

/-- The history around the write that an index entry records: the first write
of its key. -/
theorem read_split {calls : List Call} {k : List UInt8} {storage : FileStorage}
    (h : (run calls).read k = some storage) :
    ∃ pre w post, writes calls = pre ++ w :: post ∧ (∀ x ∈ pre, x.key ≠ k) ∧
      w.key = k ∧ storage = { size := w.image.length
                              offset := (bucketLog pre (bucket k)).length
                              file := bucket k } := by
  rw [read_run, Option.map_eq_some_iff] at h
  obtain ⟨e, he, rfl⟩ := h
  obtain ⟨pre, w, post, hsplit, hpre, hkey, rfl⟩ := AppendLog.entry_split he
  exact ⟨pre, w, post, hsplit, hpre, hkey, rfl⟩

theorem range_run (calls : List Call) (storage : FileStorage) :
    (run calls).range storage =
      AppendLog.slice (bucketLog (writes calls) storage.file)
        storage.offset storage.size := by
  rw [Database.range, File.range, contents_run]

theorem range_of_split {calls : List Call} {pre post : List WriteOp} {w : WriteOp}
    (hsplit : writes calls = pre ++ w :: post) (hwhole : w.Whole) :
    (run calls).range { size := w.image.length
                        offset := (bucketLog pre (bucket w.key)).length
                        file := bucket w.key } = w.image := by
  rw [range_run, hsplit]
  exact AppendLog.slice_entry rfl (WriteOp.appended_eq_image hwhole)

/-! ## The storage invariant -/

/-- What holds of a database `db` whose writes so far are `ws`. -/
structure StorageInvariant (ws : List WriteOp) (db : Database) : Prop where
  /-- The index has the keys that were written. -/
  keys : ∀ k, (∃ storage, db.read k = some storage) ↔ ∃ w ∈ ws, w.key = k
  /-- A file is the concatenation of what was written to its bucket. -/
  contents : ∀ i : Fin numberOfFiles, (db.openedFiles i).contents =
    (ws.filter fun w => w.key.length % numberOfFiles = i.val).flatMap
      fun w => field 4 w.data
  /-- A recorded range lies in the file of its key and is one written value. -/
  ranges : ∀ k storage, db.read k = some storage →
    storage.file.val = k.length % numberOfFiles ∧
    storage.offset + storage.size ≤ (db.openedFiles storage.file).contents.length ∧
    ∃ w ∈ ws, w.key = k ∧ db.range storage = field 4 w.data
  /-- The ranges of different keys do not meet. -/
  disjoint : ∀ j k a b, j ≠ k → db.read j = some a → db.read k = some b →
    a.file = b.file → a.offset + a.size ≤ b.offset ∨ b.offset + b.size ≤ a.offset

theorem log_of_whole {ws : List WriteOp} (hwhole : ∀ w ∈ ws, w.Whole)
    (i : Fin numberOfFiles) :
    bucketLog ws i = (ws.filter fun w => w.key.length % numberOfFiles = i.val).flatMap
      fun w => field 4 w.data := by
  have hfilter : (ws.filter fun w => bucket w.key = i)
      = ws.filter fun w => w.key.length % numberOfFiles = i.val := by
    refine List.filter_congr fun w _ => ?_
    rw [← bucket_val, decide_eq_decide]
    exact Fin.ext_iff
  rw [bucketLog, AppendLog.log, hfilter]
  refine List.flatMap_congr fun w hw => ?_
  exact WriteOp.appended_eq_image (hwhole w (List.mem_of_mem_filter hw))

theorem ranges_of_whole {calls : List Call} (hwhole : ∀ w ∈ writes calls, w.Whole)
    {k : List UInt8} {storage : FileStorage} (h : (run calls).read k = some storage) :
    storage.offset + storage.size ≤
        ((run calls).openedFiles storage.file).contents.length ∧
      ∃ w ∈ writes calls, w.key = k ∧ (run calls).range storage = field 4 w.data := by
  obtain ⟨pre, w, post, hsplit, -, rfl, rfl⟩ := read_split h
  have hmem : w ∈ writes calls := by simp [hsplit]
  have himage := WriteOp.appended_eq_image (hwhole w hmem)
  refine ⟨?_, w, hmem, rfl, range_of_split hsplit (hwhole w hmem)⟩
  rw [contents_run, hsplit]
  exact AppendLog.entry_inside pre post rfl himage

theorem disjoint_of_whole {calls : List Call} (hwhole : ∀ w ∈ writes calls, w.Whole)
    {j k : List UInt8} {a b : FileStorage} (hjk : j ≠ k)
    (ha : (run calls).read j = some a) (hb : (run calls).read k = some b)
    (hfile : a.file = b.file) :
    a.offset + a.size ≤ b.offset ∨ b.offset + b.size ≤ a.offset := by
  rw [read_run, Option.map_eq_some_iff] at ha hb
  obtain ⟨d, hd, rfl⟩ := ha
  obtain ⟨e, he, rfl⟩ := hb
  exact AppendLog.entry_disjoint
    (fun w hw => WriteOp.appended_eq_image (hwhole w hw)) hjk hfile hd he

theorem range_stable {calls : List Call} (hwhole : ∀ w ∈ writes calls, w.Whole)
    {k : List UInt8} {storage : FileStorage} (h : (run calls).read k = some storage)
    (more : List Call) :
    (run (calls ++ more)).read k = some storage ∧
      (run (calls ++ more)).range storage = (run calls).range storage := by
  constructor
  · rw [read_run, Option.map_eq_some_iff] at h
    obtain ⟨e, he, rfl⟩ := h
    have hstable := AppendLog.entry_stable he (writes more)
    rw [read_run, writes_append, logEntry, hstable]
    rfl
  · have hinside := (ranges_of_whole hwhole h).1
    rw [contents_run] at hinside
    rw [range_run, range_run, writes_append]
    exact AppendLog.slice_stable hinside (writes more)

/-- **Storage invariant.** After any history of calls whose appends are whole,
and whatever calls follow it. -/
theorem storage_invariant (calls more : List Call)
    (hwhole : ∀ w ∈ writes (calls ++ more), w.Whole) :
    StorageInvariant (writes calls) (run calls) ∧
      ∀ k storage, (run calls).read k = some storage →
        (run (calls ++ more)).read k = some storage ∧
          (run (calls ++ more)).range storage = (run calls).range storage := by
  have hcalls : ∀ w ∈ writes calls, w.Whole := fun w hw =>
    hwhole w (by rw [writes_append]; exact List.mem_append_left _ hw)
  refine ⟨⟨read_isSome_iff calls, ?_, ?_, ?_⟩, ?_⟩
  · intro i
    rw [contents_run, log_of_whole hcalls]
  · intro k storage h
    refine ⟨?_, ranges_of_whole hcalls h⟩
    obtain ⟨-, -, -, -, -, -, rfl⟩ := read_split h
    exact bucket_val k
  · intro j k a b hjk ha hb hfile
    exact disjoint_of_whole hcalls hjk ha hb hfile
  · intro k storage h
    exact range_stable hcalls h more

/-- Two keys in one bucket, one of them written twice. -/
def sharedBucket : List Call :=
  [.write ⟨[97], [1], .complete⟩, .write ⟨[98], [], .complete⟩,
    .write ⟨[97], [2, 3], .complete⟩, .read [97]]

theorem storage_invariant_sharedBucket :
    StorageInvariant (writes sharedBucket) (run sharedBucket) ∧
      ∀ k storage, (run sharedBucket).read k = some storage →
        (run (sharedBucket ++ [.write ⟨[98], [4], .complete⟩])).read k = some storage ∧
          (run (sharedBucket ++ [.write ⟨[98], [4], .complete⟩])).range storage =
            (run sharedBucket).range storage :=
  storage_invariant sharedBucket [.write ⟨[98], [4], .complete⟩] (by decide)

end EasyKeyDB
