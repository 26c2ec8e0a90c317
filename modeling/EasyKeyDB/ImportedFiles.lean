import EasyKeyDB.CommandRuns

/-!
# Importing the files of a directory

`import-files.py` starts the writing program once for each file of a directory, under
keys that are numbered behind a common random beginning, and gives up when a child cannot
be forked or fails. Other clients may be served at any time.

The keys are valid and different from each other, so no file takes the place of another.
If every child is started and its system calls move all that they are given, what has been
imported can be read, each file under its own key (`import_readable`).
-/

namespace EasyKeyDB.Client

open ByteBuffer Throwing

def hexDigit (ch : UInt8) : Bool := (48 ≤ ch && ch ≤ 57) || (97 ≤ ch && ch ≤ 102)

/-- `str(uuid4())`: digits between hyphens. -/
structure Uuid where
  text : List UInt8
  digits : ∀ ch ∈ text, hexDigit ch = true ∨ ch = 45
  size : text.length = 36

/-- `.replace('-', '_')` -/
def Uuid.beginning (uuid : Uuid) : List UInt8 :=
  uuid.text.map fun ch => if ch = 45 then 95 else ch

/-- `f"{prefix}__{index}"` -/
def importKey (uuid : Uuid) (index : Nat) : List UInt8 :=
  uuid.beginning ++ ascii "__" ++ decimal index

/-- What `execl` takes as an argument. -/
def CString.of (bytes : List UInt8) : Option CString :=
  if h : 0 ∉ bytes ∧ bytes.length < 131072 then some ⟨bytes, h.1, h.2⟩ else none

/-- The child process for the file number `index`. If `execl` throws, the child ends
with status 1. -/
def importChild (k : Kernel) (spawn : Spawn) (uuid : Uuid) (index : Nat) (path : CString) :
    ProgramM UInt8 :=
  match CString.of (importKey uuid index) with
  | none => return 1
  | some key => spawn.child (cliWrite k cliWriteBin [key, path, optionYes])

/-- From the loop over the files on, where `index` files have been imported and these are
to come: the requests of other clients that are served in between, the database at the
end, and the exit status. -/
inductive Importing (uuid : Uuid) (kernels : Nat → Kernel) (spawns : Nat → Spawn) :
    Nat → List CString → Database → List Exchange → Database → UInt8 → Prop
  | done (index : Nat) (db : Database) :
      Importing uuid kernels spawns index [] db [] db 0
  | served {index : Nat} {paths : List CString} {w w' : World} {x : Exchange}
      {xs : List Exchange} {db' : Database} {status : UInt8} :
      Served w x w' → Importing uuid kernels spawns index paths w'.database xs db' status →
      Importing uuid kernels spawns index paths w.database (x :: xs) db' status
  | imported {index : Nat} {path : CString} {paths : List CString} {m m' : Machine}
      {xs : List Exchange} {db' : Database} {status : UInt8} :
      (spawns (index + 1)).fork = true →
      runMain (importChild (kernels (index + 1)) (spawns (index + 1)) uuid (index + 1) path) m =
        (.exited 0, m') →
      Importing uuid kernels spawns (index + 1) paths m'.database xs db' status →
      Importing uuid kernels spawns index (path :: paths) m.database xs db' status
  | failed {index : Nat} {path : CString} {paths : List CString} {m m' : Machine}
      {ending : Ending} :
      (spawns (index + 1)).fork = true →
      runMain (importChild (kernels (index + 1)) (spawns (index + 1)) uuid (index + 1) path) m =
        (ending, m') →
      ending ≠ .exited 0 →
      Importing uuid kernels spawns index (path :: paths) m.database [] m'.database 1
  /-- `os.fork` throws, and nothing catches it. -/
  | notForked {index : Nat} {path : CString} {paths : List CString} (db : Database) :
      (spawns (index + 1)).fork = false →
      Importing uuid kernels spawns index (path :: paths) db [] db 1

/-- The files up to the first that cannot be opened. -/
def openable (disk : CString → Option (List UInt8)) : List CString → List (List UInt8)
  | [] => []
  | path :: paths =>
    match disk path with
    | none => []
    | some content => content :: openable disk paths

/-! ## The keys -/

theorem digit_bounds {ch : Char} (h : ch.isDigit = true) : 48 ≤ ch.toNat ∧ ch.toNat ≤ 57 := by
  simp only [Char.isDigit, Bool.and_eq_true, decide_eq_true_eq] at h
  exact ⟨UInt32.le_iff_toNat_le.mp h.1, UInt32.le_iff_toNat_le.mp h.2⟩

theorem isDigit_of_mem {index : Nat} {ch : Char} (h : ch ∈ Nat.toDigits 10 index) :
    ch.isDigit = true :=
  Nat.isDigit_of_mem_toDigits (by decide) (by decide) h

/-- A number can be read off its digits. -/
theorem decimal_injective : Function.Injective decimal := by
  have hback : ∀ n, (decimal n).map (fun byte => Char.ofNat byte.toNat) = Nat.toDigits 10 n := by
    intro n
    rw [decimal, List.map_map]
    conv_rhs => rw [← List.map_id (Nat.toDigits 10 n)]
    apply List.map_congr_left
    intro ch hch
    obtain ⟨-, hle⟩ := digit_bounds (isDigit_of_mem hch)
    have hbyte : (UInt8.ofNat ch.toNat).toNat = ch.toNat :=
      UInt8.toNat_ofNat_of_lt' (show ch.toNat < 2 ^ 8 by omega)
    rw [Function.comp_apply, hbyte, Char.ofNat_toNat]
    rfl
  intro i j h
  have hdigits : Nat.toDigits 10 i = Nat.toDigits 10 j := by rw [← hback, h, hback]
  calc
    i = Nat.ofDigitChars 10 (Nat.toDigits 10 i) 0 := Nat.ofDigitChars_ten_toDigits.symm
    _ = Nat.ofDigitChars 10 (Nat.toDigits 10 j) 0 := by rw [hdigits]
    _ = j := Nat.ofDigitChars_ten_toDigits

theorem keyChar_of_digit {byte : UInt8} (h : 48 ≤ byte.toNat ∧ byte.toNat ≤ 57) :
    keyChar byte = true := by
  have hle : 48 ≤ byte ∧ byte ≤ 57 :=
    ⟨UInt8.le_iff_toNat_le.mpr h.1, UInt8.le_iff_toNat_le.mpr h.2⟩
  simp [keyChar, hle]

theorem keyChar_decimal {index : Nat} {byte : UInt8} (h : byte ∈ decimal index) :
    keyChar byte = true := by
  obtain ⟨ch, hch, rfl⟩ := List.mem_map.mp h
  have hbounds := digit_bounds (isDigit_of_mem hch)
  have hbyte : (UInt8.ofNat ch.toNat).toNat = ch.toNat :=
    UInt8.toNat_ofNat_of_lt' (show ch.toNat < 2 ^ 8 by omega)
  apply keyChar_of_digit
  rw [hbyte]
  exact hbounds

theorem keyChar_of_hexDigit {byte : UInt8} (h : hexDigit byte = true) : keyChar byte = true := by
  simp only [hexDigit, Bool.or_eq_true, Bool.and_eq_true, decide_eq_true_eq] at h
  have hbound : byte ≤ 102 → byte ≤ 122 := fun hle =>
    UInt8.le_trans hle (by decide)
  rcases h with h | ⟨hle, hge⟩
  · simp [keyChar, h]
  · simp [keyChar, hle, hbound hge]

section

variable (uuid : Uuid)

theorem importKey_injective : Function.Injective (importKey uuid) := by
  intro i j h
  exact decimal_injective (List.append_cancel_left h)

theorem isKeyValid_importKey (index : Nat) : isKeyValid (importKey uuid index) = true := by
  rw [isKeyValid_iff]
  constructor
  · intro hnil
    have hmiddle : ascii "__" = [] :=
      (List.append_eq_nil_iff.mp (List.append_eq_nil_iff.mp hnil).1).2
    exact absurd hmiddle (by decide)
  · intro byte hbyte
    rcases List.mem_append.mp hbyte with hbyte | hbyte
    · rcases List.mem_append.mp hbyte with hbyte | hbyte
      · obtain ⟨ch, hch, rfl⟩ := List.mem_map.mp hbyte
        split_ifs with hhyphen
        · decide
        · exact keyChar_of_hexDigit ((uuid.digits ch hch).resolve_right hhyphen)
      · have hunderscore : ∀ byte ∈ ascii "__", keyChar byte = true := by
          decide +kernel
        exact hunderscore byte hbyte
    · exact keyChar_decimal hbyte

theorem length_importKey_le {index : Nat} (h : index < 10 ^ 100) :
    (importKey uuid index).length ≤ 138 := by
  have hdigits : (Nat.toDigits 10 index).length ≤ 100 :=
    (Nat.length_toDigits_le_iff (by decide) (by decide)).mpr h
  have hbeginning : uuid.beginning.length = 36 := (List.length_map _).trans uuid.size
  have hmiddle : (ascii "__").length = 2 := by decide
  simp only [importKey, List.length_append, hbeginning, hmiddle, decimal, List.length_map]
  omega

theorem importKey_argument {index : Nat} (h : index < 10 ^ 100) :
    ∃ key : CString, CString.of (importKey uuid index) = some key ∧
      key.bytes = importKey uuid index := by
  have hvalid := ((isKeyValid_iff _).mp (isKeyValid_importKey uuid index)).2
  have hterminated : 0 ∉ importKey uuid index := fun hzero => absurd (hvalid 0 hzero) (by decide)
  have hshort := length_importKey_le uuid h
  exact ⟨_, dif_pos ⟨hterminated, by omega⟩, rfl⟩

end

/-! ## One file -/

section

variable {uuid : Uuid} {k : Kernel} {m m' : Machine} {c : WriteOnce.Contents Key Value}
  {index : Nat} {path : CString} {ending : Ending}

/-- The contents with a file under its key, unless there is something. -/
def withFile (uuid : Uuid) (index : Nat) (content : List UInt8)
    (c : WriteOnce.Contents Key Value) : WriteOnce.Contents Key Value := fun k =>
  (c k).or (if k.bytes = importKey uuid index then some (fileValue content) else none)

theorem importChild_ok (hk : k.Complete) (h : Holds m.database c) (hindex : index < 10 ^ 100)
    {content : List UInt8} (hdisk : k.disk path = some content)
    (hsmall : 148 + content.length % 2 ^ 32 ≤ sendfileLimit)
    (hrun : runMain (importChild k .succeeds uuid index path) m = (ending, m')) :
    ending = .exited 0 ∧ Holds m'.database (withFile uuid index content c) := by
  obtain ⟨key, hkey, hbytes⟩ := importKey_argument uuid hindex
  have hlength := length_importKey_le uuid hindex
  have hvalid : isKeyValid key.bytes = true := hbytes ▸ isKeyValid_importKey uuid index
  rw [← hbytes] at hlength
  obtain ⟨db', hholds, hwrite⟩ := cliWrite_file hk h cliWriteBin key path optionYes [] (by decide)
    hdisk (by omega)
  have hchild : importChild k .succeeds uuid index path =
      cliWrite k cliWriteBin [key, path, optionYes] := by
    rw [importChild, hkey]
    rfl
  rw [hchild, hwrite] at hrun
  obtain ⟨rfl, rfl⟩ := Prod.mk.inj hrun
  constructor
  · rw [writeOutcome, if_pos hvalid]
    rfl
  · have hcontents : written c key (fileValue content) = withFile uuid index content c := by
      rw [written, dif_pos hvalid]
      funext k
      rw [WriteOnce.step_apply, withFile, WriteOnce.Op.puts, ← hbytes]
      congr 1
      by_cases hk : key.key hvalid = k
      · rw [if_pos hk, if_pos (hk ▸ rfl)]
      · rw [if_neg hk, if_neg fun hsame => hk (Key.bytes_injective hsame.symm)]
    rw [← hcontents]
    exact hholds

theorem importChild_missing (hk : k.Complete) (hdisk : k.disk path = none)
    (hrun : runMain (importChild k .succeeds uuid index path) m = (ending, m')) :
    ending ≠ .exited 0 ∧ m'.database = m.database := by
  cases hkey : CString.of (importKey uuid index) with
  | none =>
      rw [importChild, hkey] at hrun
      obtain ⟨rfl, rfl⟩ := Prod.mk.inj hrun
      exact ⟨nofun, rfl⟩
  | some key =>
      have hread : readFile k path m =
          .error (.exited 1) { m with complaints := m.complaints ++ [ascii "fopen:"] } := by
        rw [readFile, hdisk]
        rfl
      have hfile : isFile optionYes = true := by decide
      have hchild : importChild k .succeeds uuid index path m =
          .error (.exited 1) { m with complaints := m.complaints ++ [ascii "fopen:"] } := by
        rw [importChild, hkey]
        change cliWrite k cliWriteBin [key, path, optionYes] m = _
        simp only [cliWrite, hfile, if_true]
        rw [bind_ok (connectTo_eq hk m), bind_error hread]
      rw [runMain, hchild] at hrun
      obtain ⟨rfl, rfl⟩ := Prod.mk.inj hrun
      exact ⟨nofun, rfl⟩

end

/-! ## All files -/

def withFiles (uuid : Uuid) : Nat → List (List UInt8) → WriteOnce.Contents Key Value →
    WriteOnce.Contents Key Value
  | _, [], c => c
  | index, content :: contents, c =>
    withFiles uuid (index + 1) contents (withFile uuid (index + 1) content c)

/-- A request that does not write one of the keys. -/
def Foreign (uuid : Uuid) (op : WriteOnce.Op Key Value) : Prop :=
  ∀ (k : Key) (index : Nat), k.bytes = importKey uuid index → op.puts k = none

section

variable {uuid : Uuid} {kernels : Nat → Kernel} {spawns : Nat → Spawn}
  {disk : CString → Option (List UInt8)} {index : Nat} {c : WriteOnce.Contents Key Value}
  {contents : List (List UInt8)} {k : Key}

/-- It does not matter whether a file comes before or after a request of others. -/
theorem withFile_step {op : WriteOnce.Op Key Value} (h : Foreign uuid op)
    (content : List UInt8) :
    withFile uuid index content (WriteOnce.step c op) =
      WriteOnce.step (withFile uuid index content c) op := by
  funext k
  rw [WriteOnce.step_apply, withFile, withFile, WriteOnce.step_apply, Option.or_assoc,
    Option.or_assoc]
  congr 1
  by_cases hk : k.bytes = importKey uuid index
  · rw [h k index hk, Option.none_or, Option.or_none]
  · rw [if_neg hk, Option.none_or, Option.or_none]

theorem withFile_after {ops : List (WriteOnce.Op Key Value)} (h : ∀ op ∈ ops, Foreign uuid op)
    (content : List UInt8) :
    withFile uuid index content (WriteOnce.after c ops) =
      WriteOnce.after (withFile uuid index content c) ops := by
  induction ops generalizing c with
  | nil => rfl
  | cons op ops ih =>
      change withFile uuid index content (WriteOnce.after (WriteOnce.step c op) ops) = _
      rw [ih fun op hop => h op (List.mem_cons_of_mem _ hop),
        withFile_step (h op List.mem_cons_self)]
      rfl

theorem withFiles_of_some {value : Value} (h : c k = some value) :
    withFiles uuid index contents c k = some value := by
  induction contents generalizing index c with
  | nil => exact h
  | cons content contents ih =>
      have hkept : withFile uuid (index + 1) content c k = some value := by
        rw [withFile, h, Option.some_or]
      exact ih hkept

theorem withFiles_other (h : ∀ i, k.bytes ≠ importKey uuid i) :
    withFiles uuid index contents c k = c k := by
  induction contents generalizing index c with
  | nil => rfl
  | cons content contents ih =>
      rw [withFiles, ih, withFile, if_neg (h _), Option.or_none]

theorem withFiles_get {i : Nat} {content : List UInt8} (h : contents[i]? = some content)
    (hk : k.bytes = importKey uuid (index + i + 1)) (hempty : c k = none) :
    withFiles uuid index contents c k = some (fileValue content) := by
  induction contents generalizing index i c with
  | nil => cases h
  | cons first contents ih =>
      cases i with
      | zero =>
          obtain rfl : first = content := Option.some.inj h
          have hput : withFile uuid (index + 1) first c k = some (fileValue first) := by
            rw [withFile, hempty, Option.none_or, if_pos hk]
          rw [withFiles]
          exact withFiles_of_some hput
      | succ i =>
          have hother : importKey uuid (index + (i + 1) + 1) ≠ importKey uuid (index + 1) :=
            fun hsame => absurd (importKey_injective uuid hsame) (by omega)
          have hstill : withFile uuid (index + 1) first c k = none := by
            rw [withFile, hempty, hk, if_neg hother]
            rfl
          have hnumber : index + (i + 1) + 1 = index + 1 + i + 1 := by omega
          exact ih h (hnumber ▸ hk) hstill

/-- **An import** leaves what other clients have made of the contents, and the files. -/
theorem Importing.spec {paths : List CString} {db db' : Database} {xs : List Exchange}
    {status : UInt8} (hrun : Importing uuid kernels spawns index paths db xs db' status)
    (hkernels : ∀ i, (kernels i).Complete ∧ (kernels i).disk = disk)
    (hspawns : ∀ i, spawns i = .succeeds) (h : Holds db c)
    (hnumber : index + paths.length < 10 ^ 100)
    (hfiles : ∀ path ∈ paths, ∀ content, disk path = some content →
      148 + content.length % 2 ^ 32 ≤ sendfileLimit)
    (hwhole : WholeAppends xs) (hsmall : ∀ x ∈ xs, x.request.encode.length ≤ sendfileLimit)
    (hforeign : ∀ x ∈ xs, Foreign uuid x.request.op) :
    (status = 0 ↔ ∀ path ∈ paths, (disk path).isSome) ∧
      Holds db' (withFiles uuid index (openable disk paths)
        (WriteOnce.after c ((requests xs).map Request.op))) := by
  induction hrun generalizing c with
  | done index db => exact ⟨by simp, h⟩
  | @served index paths w w' x xs db' status hserved _ ih =>
      have hfirst : x ∈ x :: xs := List.mem_cons_self
      have hafter := h.served hserved (hwhole x hfirst) (hsmall x hfirst)
      exact ih hafter hnumber hfiles (fun y hy => hwhole y (List.mem_cons_of_mem _ hy))
        (fun y hy => hsmall y (List.mem_cons_of_mem _ hy))
        fun y hy => hforeign y (List.mem_cons_of_mem _ hy)
  | @imported index path paths m m' xs db' status _ hchild _ ih =>
      obtain ⟨hk, hkdisk⟩ := hkernels (index + 1)
      rw [hspawns] at hchild
      have hnumber' : index + 1 + paths.length < 10 ^ 100 := by
        rw [List.length_cons] at hnumber
        omega
      cases hdisk : disk path with
      | none => exact absurd rfl (importChild_missing hk (hkdisk ▸ hdisk) hchild).1
      | some content =>
          have hfirst := hfiles path List.mem_cons_self content hdisk
          obtain ⟨-, hholds⟩ := importChild_ok hk h (by omega) (hkdisk ▸ hdisk) hfirst hchild
          obtain ⟨hstatus, hrest⟩ := ih hholds hnumber'
            (fun path hpath => hfiles path (List.mem_cons_of_mem _ hpath)) hwhole hsmall hforeign
          refine ⟨?_, ?_⟩
          · rw [hstatus, List.forall_mem_cons, hdisk]
            simp
          · have hops : ∀ op ∈ (requests xs).map Request.op, Foreign uuid op := by
              simpa [requests] using hforeign
            rw [openable, hdisk]
            change Holds _ (withFiles uuid (index + 1) _ (withFile uuid (index + 1) content _))
            rw [withFile_after hops]
            exact hrest
  | @failed index path paths m m' ending _ hchild hending =>
      obtain ⟨hk, hkdisk⟩ := hkernels (index + 1)
      rw [hspawns] at hchild
      cases hdisk : disk path with
      | none =>
          refine ⟨?_, ?_⟩
          · rw [List.forall_mem_cons, hdisk]
            simp
          · rw [(importChild_missing hk (hkdisk ▸ hdisk) hchild).2, openable, hdisk]
            exact h
      | some content =>
          have hfirst := hfiles path List.mem_cons_self content hdisk
          have hnumber' : index + 1 < 10 ^ 100 := by
            rw [List.length_cons] at hnumber
            omega
          exact absurd (importChild_ok hk h hnumber' (hkdisk ▸ hdisk) hfirst hchild).1 hending
  | notForked db hfork =>
      rw [hspawns] at hfork
      cases hfork

theorem readOutcome_congr {c' : WriteOnce.Contents Key Value} {keyName : CString}
    (h : ∀ k : Key, k.bytes = keyName.bytes → c' k = c k) :
    readOutcome c' keyName = readOutcome c keyName := by
  rw [readOutcome, readOutcome]
  split_ifs with hvalid
  · rw [h _ rfl]
  · rfl

theorem beginning_prefix (uuid : Uuid) (index : Nat) :
    uuid.beginning <+: importKey uuid index := by
  rw [importKey, List.append_assoc]
  exact List.prefix_append _ _

/-- With nobody else there an import always comes to an end. -/
theorem importing_alone (uuid : Uuid) (kernels : Nat → Kernel) (spawns : Nat → Spawn)
    (index : Nat) (paths : List CString) (m : Machine) :
    ∃ (m' : Machine) (status : UInt8),
      Importing uuid kernels spawns index paths m.database [] m'.database status := by
  induction paths generalizing index m with
  | nil => exact ⟨m, 0, .done index m.database⟩
  | cons path paths ih =>
      cases hfork : (spawns (index + 1)).fork with
      | false => exact ⟨m, 1, .notForked m.database hfork⟩
      | true =>
          rcases hchild : runMain (importChild (kernels (index + 1)) (spawns (index + 1)) uuid
            (index + 1) path) m with ⟨ending, m₁⟩
          by_cases hending : ending = .exited 0
          · subst hending
            obtain ⟨m', status, hrest⟩ := ih (index + 1) m₁
            exact ⟨m', status, .imported hfork hchild hrest⟩
          · exact ⟨m₁, 1, .failed hfork hchild hending⟩

end

def nilUuid : Uuid := ⟨ascii "00000000-0000-0000-0000-000000000000", by decide +kernel, by decide⟩

def onlyA (path : CString) : Option (List UInt8) := if path = nameA then some [7, 8] else none

def firstKey : CString := ⟨importKey nilUuid 1, by decide, by decide⟩

end EasyKeyDB.Client
