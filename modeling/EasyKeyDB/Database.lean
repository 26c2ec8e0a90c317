import EasyKeyDB.Library.AppendLog
import EasyKeyDB.Library.LittleEndian
import EasyKeyDB.Library.UnorderedMap

/-!
# The database

`Database` of `easykey.cpp`: `NUMBER_OF_FILES` bucket files, and an index from
keys to the stretch of a file that holds the value behind its four-byte size.
The length of the key selects the file.

System calls that move bytes report an `IoResult`, chosen by the environment.
`Database::write` looks at it only to print an error, so nothing else in its
result depends on the outcome of the append than the bytes in the file.
-/

namespace EasyKeyDB

open LittleEndian

/-- What a `write`, `send` or `sendfile` call did: all bytes moved, at most `n`
of them moved, or `-1` and none moved. -/
inductive IoResult
  | complete
  | short (n : Nat)
  | failed
deriving DecidableEq, Repr

/-- The number of bytes moved by a call that was given `requested` bytes. -/
def IoResult.transferred : IoResult → (requested : Nat) → Nat
  | .complete, requested => requested
  | .short n, requested => min n requested
  | .failed, _ => 0

@[simp] theorem IoResult.transferred_complete (n : Nat) :
    IoResult.complete.transferred n = n := rfl

theorem IoResult.transferred_le (r : IoResult) (n : Nat) : r.transferred n ≤ n := by
  cases r with
  | complete => exact Nat.le_refl n
  | short m => exact Nat.min_le_right m n
  | failed => exact Nat.zero_le n

/-- The call moved every byte it was given. -/
def IoResult.Whole (r : IoResult) (requested : Nat) : Prop :=
  r.transferred requested = requested

instance (r : IoResult) (n : Nat) : Decidable (r.Whole n) :=
  inferInstanceAs (Decidable (_ = _))

/-! ## Files -/

/-- An open bucket file: what is in it, and the offset of its descriptor. -/
structure File where
  contents : List UInt8
  position : Nat
deriving DecidableEq, Repr

namespace File

def opened : File := ⟨[], 0⟩

/-- `lseek(fd, 0, SEEK_END)`: the new offset, which is the size of the file. -/
def seekEnd (f : File) : Nat × File :=
  (f.contents.length, { f with position := f.contents.length })

/-- `write` at the descriptor's offset. -/
def write (f : File) (data : List UInt8) (r : IoResult) : File :=
  let moved := data.take (r.transferred data.length)
  { contents := f.contents.take f.position ++ moved ++
      f.contents.drop (f.position + moved.length)
    position := f.position + moved.length }

def range (f : File) (offset size : Nat) : List UInt8 :=
  AppendLog.slice f.contents offset size

theorem write_seekEnd (f : File) (data : List UInt8) (r : IoResult) :
    (f.seekEnd.2.write data r).contents =
      f.contents ++ data.take (r.transferred data.length) := by
  simp [write, seekEnd]

end File

/-! ## Database -/

def numberOfFiles : Nat := 5

/-- `hash`: it only sees the length of the key. -/
def hash (key : List UInt8) (mod : UInt8) : UInt8 :=
  UInt8.ofNat (key.length % mod.toNat)

theorem hash_lt (key : List UInt8) : (hash key 5).toNat < numberOfFiles := by
  have hmod : key.length % 5 < 5 := Nat.mod_lt _ (by omega)
  have hsmall : key.length % 5 % 2 ^ 8 = key.length % 5 := Nat.mod_eq_of_lt (by omega)
  rw [hash, UInt8.toNat_ofNat']
  change key.length % 5 % 2 ^ 8 < 5
  omega

def bucket (key : List UInt8) : Fin numberOfFiles := ⟨(hash key 5).toNat, hash_lt key⟩

theorem bucket_val (key : List UInt8) : (bucket key).val = key.length % numberOfFiles := by
  have hmod : key.length % 5 < 5 := Nat.mod_lt _ (by omega)
  change (hash key 5).toNat = key.length % 5
  rw [hash, UInt8.toNat_ofNat']
  change key.length % 5 % 2 ^ 8 = key.length % 5
  omega

structure FileStorage where
  /-- The number of bytes stored, the size in front of the value included. -/
  size : Nat
  /-- Where they start. -/
  offset : Nat
  /-- In which file. -/
  file : Fin numberOfFiles
deriving DecidableEq, Repr

structure Database where
  openedFiles : Fin numberOfFiles → File
  stored : UnorderedMap (List UInt8) FileStorage

def storedData (data : List UInt8) : List UInt8 :=
  [UInt8.ofNat data.length, UInt8.ofNat (data.length >>> 8),
    UInt8.ofNat (data.length >>> 16), UInt8.ofNat (data.length >>> 24)] ++ data

theorem storedData_eq (data : List UInt8) : storedData data = field 4 data := rfl

namespace Database

/-- The constructor truncates every file it opens. -/
def new : Database where
  openedFiles := fun _ => File.opened
  stored := .empty

/-- `Database::write`. The outcome of the append is not checked before the
index is updated, and `insert` does not replace an entry. -/
def write (db : Database) (key data : List UInt8) (append : IoResult) : Database :=
  let index := bucket key
  let (currentFileSize, file) := (db.openedFiles index).seekEnd
  let stored := storedData data
  let file := file.write stored append
  let storage : FileStorage :=
    { size := stored.length, offset := currentFileSize, file := index }
  { openedFiles := Function.update db.openedFiles index file
    stored := db.stored.insert key storage }

def read (db : Database) (key : List UInt8) : Option FileStorage :=
  db.stored.find? key

def range (db : Database) (storage : FileStorage) : List UInt8 :=
  (db.openedFiles storage.file).range storage.offset storage.size

/-! ### What one write does -/

theorem contents_write (db : Database) (key data : List UInt8) (append : IoResult)
    (i : Fin numberOfFiles) :
    ((db.write key data append).openedFiles i).contents =
      (db.openedFiles i).contents ++
        if bucket key = i then
          (field 4 data).take (append.transferred (field 4 data).length)
        else [] := by
  by_cases h : bucket key = i
  · subst h
    rw [if_pos rfl]
    simp only [write, Function.update_self, File.write_seekEnd, storedData_eq]
  · rw [if_neg h, List.append_nil]
    simp only [write, Function.update_of_ne (Ne.symm h)]

theorem length_write_complete (db : Database) (key data : List UInt8)
    (i : Fin numberOfFiles) :
    ((db.write key data .complete).openedFiles i).contents.length =
      (db.openedFiles i).contents.length +
        if bucket key = i then 4 + data.length else 0 := by
  rw [contents_write]
  by_cases h : bucket key = i
  · rw [if_pos h, if_pos h, IoResult.transferred_complete, List.take_length,
      List.length_append, length_field]
  · rw [if_neg h, if_neg h, List.append_nil, Nat.add_zero]

theorem read_write (db : Database) (key data : List UInt8) (append : IoResult)
    (k : List UInt8) :
    (db.write key data append).read k =
      (db.read k).or
        (if key = k then
          some { size := (field 4 data).length
                 offset := (db.openedFiles (bucket key)).contents.length
                 file := bucket key }
        else none) :=
  UnorderedMap.find?_insert _ _ _ _

end Database

end EasyKeyDB
