import EasyKeyDB.Commuting
import EasyKeyDB.Grammar
import EasyKeyDB.Serving

/-!
# Writes whose append fails

`Database::write` prints an error when its append fails and goes on to the
index; `parse_request` is not told and answers OK. A write is therefore reported
truthfully only if what the entry of its key then points to is the value, for
which a new key needs a whole append (`writeReported_iff`). A key that is in the
index keeps its entry, so what counts there is whether the value it has recorded is
the one that is written, or lacks just what the append brings.
-/

namespace EasyKeyDB

open LittleEndian ByteBuffer

/-- The value behind its size is in the file, at the offset recorded for the
key. -/
def StoredAt (db : Database) (k : Key) (v : Value) : Prop :=
  ∃ storage, db.read k.bytes = some storage ∧
    AppendLog.slice (db.openedFiles storage.file).contents storage.offset
      (field 4 v.bytes).length = field 4 v.bytes

/-- A write is answered OK only if its value is stored; otherwise it leaves the
index alone, and every key reads as before. -/
structure WriteReported (db : Database) (k : Key) (v : Value) (socket : ClientSocket Chunks)
    (after : HandlerState Chunks) : Prop where
  stored : Answered socket after.socket .ok → StoredAt after.database k v
  unchanged : ¬ Answered socket after.socket .ok →
    after.database.stored = db.stored ∧ after.database.answer = db.answer

def moved (v : Value) (append : IoResult) : Nat :=
  append.transferred (field 4 v.bytes).length

/-- The value that is recorded in the entry is `v`, and all of it is in the file. -/
def Recorded (db : Database) (storage : FileStorage) (v : Value) : Prop :=
  AppendLog.slice (db.openedFiles storage.file).contents storage.offset
    (field 4 v.bytes).length = field 4 v.bytes

/-- The entry is for `v`, the file ends inside of it, and the next bytes that are appended
for `v` are the ones that are missing. -/
def Completes (db : Database) (k : Key) (storage : FileStorage) (v : Value)
    (append : IoResult) : Prop :=
  let contents := (db.openedFiles storage.file).contents
  bucket k.bytes = storage.file ∧ storage.offset ≤ contents.length ∧
    ∃ missing, field 4 v.bytes = contents.drop storage.offset ++ missing ∧
      missing <+: (field 4 v.bytes).take (moved v append)

/-- No entry of the key's file reaches over its end to what the append moves. -/
def OutOfSight (db : Database) (k : Key) (v : Value) (append : IoResult) : Prop :=
  ∀ key storage, db.read key = some storage → bucket k.bytes = storage.file →
    let size := (db.openedFiles storage.file).contents.length
    min storage.size (size + moved v append - storage.offset) =
      min storage.size (size - storage.offset)

/-- When a write is reported truthfully. If its answer fits, a new key needs a whole
append, and a key in the index one that completes the value, unless that is recorded
already. If its answer does not fit, it has to leave no trace. -/
def Truthful (db : Database) (k : Key) (v : Value) (append : IoResult) : Prop :=
  if Fits (k.bytes.length + 35) then
    match db.read k.bytes with
    | none => append.Whole (field 4 v.bytes).length
    | some storage => Recorded db storage v ∨ Completes db k storage v append
  else db.read k.bytes ≠ none ∧ OutOfSight db k v append

section

variable {db : Database} {k : Key} {append : IoResult}

theorem stored_write_eq (hindexed : db.read k.bytes ≠ none) {v : Value} :
    (db.write k.bytes v.bytes append).stored = db.stored := if_neg hindexed

theorem stored_write_ne (hfresh : db.read k.bytes = none) (v : Value) :
    (db.write k.bytes v.bytes append).stored ≠ db.stored := by
  intro hsame
  have hread := Database.read_write db k.bytes v.bytes append k.bytes
  rw [Database.read, hsame, ← Database.read, hfresh, if_pos rfl] at hread
  cases hread

theorem storedAt_write_of_fresh (hfresh : db.read k.bytes = none) (v : Value) :
    StoredAt (db.write k.bytes v.bytes append) k v ↔
      append.Whole (field 4 v.bytes).length := by
  have hread : (db.write k.bytes v.bytes append).read k.bytes =
      some { size := (field 4 v.bytes).length
             offset := (db.openedFiles (bucket k.bytes)).contents.length
             file := bucket k.bytes } := by
    rw [Database.read_write, hfresh, Option.none_or, if_pos rfl]
  have hslice : AppendLog.slice
      ((db.write k.bytes v.bytes append).openedFiles (bucket k.bytes)).contents
      (db.openedFiles (bucket k.bytes)).contents.length (field 4 v.bytes).length =
        (field 4 v.bytes).take (append.transferred (field 4 v.bytes).length) := by
    rw [Database.contents_write, if_pos rfl, AppendLog.slice_length_append]
    apply List.take_of_length_le
    exact List.length_take_le' _ _
  constructor
  · rintro ⟨storage, hstorage, hvalue⟩
    obtain rfl := Option.some.inj (hread.symm.trans hstorage)
    rw [hslice] at hvalue
    have hlength := congrArg List.length hvalue
    rw [List.length_take, Nat.min_eq_left (append.transferred_le _)] at hlength
    exact hlength
  · intro hwhole
    refine ⟨_, hread, hslice.trans ?_⟩
    rw [show append.transferred _ = (field 4 v.bytes).length from hwhole, List.take_length]

theorem storedAt_write_of_indexed {storage : FileStorage}
    (hindexed : db.read k.bytes = some storage) (v : Value) :
    StoredAt (db.write k.bytes v.bytes append) k v ↔
      Recorded db storage v ∨ Completes db k storage v append := by
  have hread : (db.write k.bytes v.bytes append).read k.bytes = some storage := by
    rw [Database.read_write, hindexed, Option.some_or]
  have hshown : StoredAt (db.write k.bytes v.bytes append) k v ↔
      Recorded (db.write k.bytes v.bytes append) storage v := by
    constructor
    · rintro ⟨storage', hstorage', hvalue⟩
      obtain rfl := Option.some.inj (hread.symm.trans hstorage')
      exact hvalue
    · exact fun hvalue => ⟨storage, hread, hvalue⟩
  have himage : field 4 v.bytes ≠ [] := List.length_pos_iff.mp (by simp)
  rw [hshown, Recorded, Database.contents_write, Completes]
  by_cases hfile : bucket k.bytes = storage.file
  · rw [if_pos hfile, AppendLog.slice_append_eq_image_iff (List.take_prefix _ _) himage]
    exact or_congr_right (and_iff_right hfile).symm
  · rw [if_neg hfile, List.append_nil]
    exact (or_iff_left fun hcompletes => hfile hcompletes.1).symm

/-- Readers of other keys may see the append where an entry reaches over the end of its
file. -/
theorem answer_write_iff (hindexed : db.read k.bytes ≠ none) (v : Value) :
    (db.write k.bytes v.bytes append).answer = db.answer ↔ OutOfSight db k v append := by
  have hread : ∀ key, (db.write k.bytes v.bytes append).read key = db.read key := by
    intro key
    rw [Database.read, Database.read, stored_write_eq hindexed]
  have hmoved : ((field 4 v.bytes).take (moved v append)).length = moved v append := by
    rw [List.length_take]
    exact Nat.min_eq_left (append.transferred_le _)
  -- What an entry designates, before and after.
  have hrange : ∀ storage : FileStorage,
      (db.write k.bytes v.bytes append).range storage = db.range storage ↔
        (bucket k.bytes = storage.file →
          min storage.size ((db.openedFiles storage.file).contents.length + moved v append -
              storage.offset) =
            min storage.size ((db.openedFiles storage.file).contents.length -
              storage.offset)) := by
    intro storage
    rw [Database.range, File.range, Database.contents_write]
    by_cases hfile : bucket k.bytes = storage.file
    · rw [if_pos hfile, ← moved, Database.range, File.range, AppendLog.slice_append_eq_iff,
        hmoved]
      simp only [hfile, true_implies]
    · rw [if_neg hfile, List.append_nil]
      exact iff_of_true rfl fun h => absurd h hfile
  constructor
  · intro hsame key storage hstorage
    have hanswer := congrFun hsame key
    rw [Database.answer, Database.answer, hread, hstorage] at hanswer
    exact (hrange storage).mp (Option.some.inj hanswer)
  · intro hsight
    funext key
    rw [Database.answer, hread, Database.answer]
    exact Option.map_congr fun storage hstorage =>
      (hrange storage).mpr (hsight key storage hstorage)

end

/-- Whether the answer is OK is a matter of its length alone. -/
theorem writeReported_cases (db : Database) (k : Key) (v : Value) (append : IoResult)
    {socket : ClientSocket Chunks} {t : List UInt8}
    (hunread : socket.readBuffer.unread = (Request.write k v).encode ++ t) :
    (∃ after, parseRequest append ⟨db, socket⟩ = .ok () after ∧
      WriteReported db k v socket after) ↔
        (Fits (k.bytes.length + 35) → StoredAt (db.write k.bytes v.bytes append) k v) ∧
          (¬ Fits (k.bytes.length + 35) →
            (db.write k.bytes v.bytes append).stored = db.stored ∧
              (db.write k.bytes v.bytes append).answer = db.answer) := by
  obtain ⟨b', -, -, hrun⟩ := parseRequest_complete append db hunread
  have hanswered : Answered socket
      (replied (db.write k.bytes v.bytes append) socket b'
        (textCalls .ok (keyWritten k.bytes))).socket .ok ↔ Fits (k.bytes.length + 35) := by
    rw [← length_keyWritten]
    exact answered_text_iff rfl
  rw [← hanswered]
  constructor
  · rintro ⟨after, hafter, hstored, hunchanged⟩
    obtain rfl := Throwing.end_unique hrun hafter
    exact ⟨hstored, hunchanged⟩
  · rintro ⟨hstored, hunchanged⟩
    exact ⟨_, hrun, hstored, hunchanged⟩

/-- **A write is atomic and reported** exactly when it is truthful: for every
state of the database and every outcome of the append. -/
theorem writeReported_iff (db : Database) (k : Key) (v : Value) (append : IoResult)
    {socket : ClientSocket Chunks} {t : List UInt8}
    (hunread : socket.readBuffer.unread = (Request.write k v).encode ++ t) :
    (∃ after, parseRequest append ⟨db, socket⟩ = .ok () after ∧
      WriteReported db k v socket after) ↔ Truthful db k v append := by
  rw [writeReported_cases db k v append hunread, Truthful]
  by_cases hfits : Fits (k.bytes.length + 35)
  · simp only [hfits, true_implies, not_true_eq_false, false_implies, and_true, if_true]
    cases hread : db.read k.bytes with
    | none => exact storedAt_write_of_fresh hread v
    | some storage => exact storedAt_write_of_indexed hread v
  · simp only [hfits, false_implies, not_false_eq_true, true_implies, true_and, if_false]
    constructor
    · rintro ⟨hstored, hanswer⟩
      have hindexed : db.read k.bytes ≠ none := fun hfresh => stored_write_ne hfresh v hstored
      exact ⟨hindexed, (answer_write_iff hindexed v).mp hanswer⟩
    · rintro ⟨hindexed, hsight⟩
      exact ⟨stored_write_eq hindexed, (answer_write_iff hindexed v).mpr hsight⟩

theorem whole_writeReported :
    ∃ after, parseRequest .complete
        ⟨Database.new, connectionWith (Request.write keyA ⟨[1], by decide⟩).encode⟩ =
          .ok () after ∧
      WriteReported Database.new keyA ⟨[1], by decide⟩
        (connectionWith (Request.write keyA ⟨[1], by decide⟩).encode) after := by
  apply (writeReported_iff Database.new keyA ⟨[1], by decide⟩ .complete (t := []) rfl).mpr
  have hfits : Fits (keyA.bytes.length + 35) := by decide
  rw [Truthful, if_pos hfits]
  exact (rfl : IoResult.Whole .complete 5)

/-- A new key, and an append that fails: the write is answered OK all the
same. -/
theorem failed_not_writeReported :
    ¬ ∃ after, parseRequest .failed
        ⟨Database.new, connectionWith (Request.write keyA ⟨[1], by decide⟩).encode⟩ =
          .ok () after ∧
      WriteReported Database.new keyA ⟨[1], by decide⟩
        (connectionWith (Request.write keyA ⟨[1], by decide⟩).encode) after := by
  rw [writeReported_cases Database.new keyA ⟨[1], by decide⟩ .failed (t := []) rfl]
  rintro ⟨hstored, -⟩
  have hfresh : Database.new.read keyA.bytes = none := UnorderedMap.find?_empty _
  have hwhole := (storedAt_write_of_fresh hfresh _).mp (hstored (by decide))
  exact absurd hwhole (by decide)

end EasyKeyDB
