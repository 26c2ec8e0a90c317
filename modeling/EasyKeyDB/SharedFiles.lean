import EasyKeyDB.WriteOnceMap

/-!
# Server processes on the same files

The bucket files have fixed names, every `Database` empties them when it opens them, and
with `REUSE_PORT` several servers can run beside each other. They share what is in the
files. The offsets, the index and a write that is under way are each process's own, and
between the `lseek` of a write and its append the others may do anything.

A process that starts takes from the others what they have stored
(`SharedFiles.stranded`). The one that has started last serves as if it were alone, as
long as every append finds the file as its own `lseek` has left it
(`SharedFiles.last_started_alone`).
-/

namespace EasyKeyDB

open Database

/-- `write`, if the offset may lie behind the end of the file, because it has been emptied
by another process: what is between them is filled with zeros. -/
def File.writeAt (f : File) (data : List UInt8) (r : IoResult) : File :=
  if r.transferred data.length = 0 then f
  else
    let gap := List.replicate (f.position - f.contents.length) 0
    File.write { f with contents := f.contents ++ gap } data r

theorem File.writeAt_eq {f : File} (h : f.position ≤ f.contents.length) (data : List UInt8)
    (r : IoResult) : f.writeAt data r = f.write data r := by
  by_cases hmoved : r.transferred data.length = 0
  · rw [writeAt, if_pos hmoved, write, hmoved]
    simp
  · rw [writeAt, if_neg hmoved, Nat.sub_eq_zero_of_le h]
    simp

namespace Database

/-- The first half of `write`: the offset is set to the size of the file. -/
def seek (db : Database) (key : List UInt8) : Nat × Database :=
  let index := bucket key
  let (currentFileSize, file) := (db.openedFiles index).seekEnd
  (currentFileSize, { db with openedFiles := Function.update db.openedFiles index file })

/-- The second half: the append, and the entry with the size found by the first. -/
def append (db : Database) (key data : List UInt8) (currentFileSize : Nat)
    (append : IoResult) : Database :=
  let index := bucket key
  let stored := storedData data
  let file := (db.openedFiles index).writeAt stored append
  let storage : FileStorage :=
    { size := stored.length, offset := currentFileSize, file := index }
  { openedFiles := Function.update db.openedFiles index file
    stored := db.stored.insert key storage }

theorem write_eq (db : Database) (key data : List UInt8) (append : IoResult) :
    db.write key data append = (db.seek key).2.append key data (db.seek key).1 append := by
  have hend : (db.openedFiles (bucket key)).seekEnd.2.position ≤
      (db.openedFiles (bucket key)).seekEnd.2.contents.length := Nat.le_refl _
  simp only [write, Database.append, seek, Function.update_self, Function.update_idem,
    File.writeAt_eq hend]

end Database

/-- A `Database::write` between its `lseek` and its append. -/
structure Writing where
  key : List UInt8
  data : List UInt8
  currentFileSize : Nat

/-- What a server process has for its own. -/
structure Member where
  positions : Fin numberOfFiles → Nat
  stored : UnorderedMap (List UInt8) FileStorage
  writing : Option Writing

/-- The files, and the processes that are running. -/
structure SharedFiles where
  contents : Fin numberOfFiles → List UInt8
  members : Nat → Option Member

inductive SharedLabel
  | starts (p : Nat)
  | ends (p : Nat)
  | seeks (p : Nat) (key data : List UInt8)
  | appends (p : Nat) (op : WriteOp)

namespace SharedFiles

def nobody : SharedFiles := ⟨fun _ => [], fun _ => none⟩

def database (s : SharedFiles) (m : Member) : Database where
  openedFiles i := ⟨s.contents i, m.positions i⟩
  stored := m.stored

def put (s : SharedFiles) (p : Nat) (db : Database) (writing : Option Writing) :
    SharedFiles where
  contents i := (db.openedFiles i).contents
  members := Function.update s.members p
    (some ⟨fun i => (db.openedFiles i).position, db.stored, writing⟩)

def without (s : SharedFiles) (p : Nat) : SharedFiles :=
  { s with members := Function.update s.members p none }

/-- One system call of one process. -/
inductive Step (s : SharedFiles) : SharedLabel → SharedFiles → Prop
  | starts {p : Nat} : Step s (.starts p) (s.put p Database.new none)
  | ends {p : Nat} : Step s (.ends p) (s.without p)
  | seeks {p : Nat} {key data : List UInt8} {m : Member} :
      s.members p = some m → m.writing = none →
      Step s (.seeks p key data) (s.put p ((s.database m).seek key).2
        (some ⟨key, data, ((s.database m).seek key).1⟩))
  | appends {p : Nat} {op : WriteOp} {m : Member} {size : Nat} :
      s.members p = some m → m.writing = some ⟨op.key, op.data, size⟩ →
      Step s (.appends p op)
        (s.put p ((s.database m).append op.key op.data size op.append) none)

/-- An append finds the file as its own `lseek` has left it. -/
def InTurn (s : SharedFiles) : SharedLabel → Prop
  | .appends p _ => ∀ m w, s.members p = some m → m.writing = some w →
      w.currentFileSize = (s.contents (bucket w.key)).length
  | .starts _ | .ends _ | .seeks _ _ _ => True

/-- The calls that a process has made on its database. -/
def ownCalls (p : Nat) (xs : List SharedLabel) : List Call :=
  xs.filterMap fun
    | .appends q op => if q = p then some (.write op) else none
    | .starts _ | .ends _ | .seeks _ _ _ => none

section

variable {s s' : SharedFiles} {p q : Nat} {x : SharedLabel} {xs : List SharedLabel} {m : Member}
  {alone : Database}

theorem members_put_self (db : Database) (writing : Option Writing) :
    (s.put p db writing).members p =
      some ⟨fun i => (db.openedFiles i).position, db.stored, writing⟩ :=
  Function.update_self _ _ _

theorem members_put_of_ne (h : q ≠ p) (db : Database) (writing : Option Writing) :
    (s.put p db writing).members q = s.members q := Function.update_of_ne h _ _

theorem members_without (hm : (s.without p).members q = some m) :
    q ≠ p ∧ s.members q = some m := by
  by_cases hq : q = p
  · subst hq
    have hnone : (s.without q).members q = none := Function.update_self _ _ _
    cases hnone.symm.trans hm
  · have hsame : (s.without p).members q = s.members q := Function.update_of_ne hq _ _
    exact ⟨hq, hsame.symm.trans hm⟩

theorem contents_seek (db : Database) (key : List UInt8) (i : Fin numberOfFiles) :
    ((db.seek key).2.openedFiles i).contents = (db.openedFiles i).contents := by
  by_cases h : i = bucket key
  · subst h
    simp only [seek, Function.update_self]
    rfl
  · simp only [seek, Function.update_of_ne h]

theorem append_inTurn {db : Database} {key data : List UInt8} {size : Nat} {append : IoResult}
    (hposition : (db.openedFiles (bucket key)).position = size)
    (hsize : size = (db.openedFiles (bucket key)).contents.length) :
    db.append key data size append = db.write key data append := by
  have hsought : (db.openedFiles (bucket key)).seekEnd = (size, db.openedFiles (bucket key)) := by
    rw [File.seekEnd, ← hsize, ← hposition]
  have hend : (db.openedFiles (bucket key)).position ≤
      (db.openedFiles (bucket key)).contents.length := (hposition.trans hsize).le
  simp only [write, Database.append, hsought, File.writeAt_eq hend]

/-- The descriptor of a write that is under way is where its `lseek` has set it. -/
def Sought (s : SharedFiles) : Prop := ∀ p m w, s.members p = some m → m.writing = some w →
  m.positions (bucket w.key) = w.currentFileSize

theorem sought_nobody : Sought nobody := nofun

theorem Sought.put (h : Sought s) {db : Database} {writing : Option Writing}
    (hwriting : ∀ w, writing = some w →
      (db.openedFiles (bucket w.key)).position = w.currentFileSize) :
    Sought (s.put p db writing) := by
  intro q m w hm hw
  by_cases hq : q = p
  · subst hq
    obtain rfl := Option.some.inj ((members_put_self db writing).symm.trans hm)
    exact hwriting w hw
  · rw [members_put_of_ne hq] at hm
    exact h q m w hm hw

theorem Sought.step (h : Sought s) (hstep : Step s x s') : Sought s' := by
  cases hstep with
  | starts => exact h.put nofun
  | appends _ _ => exact h.put nofun
  | ends =>
      intro q m w hm
      exact h q m w (members_without hm).2
  | seeks _ _ =>
      apply h.put
      rintro w ⟨⟩
      simp only [seek, Function.update_self]
      rfl

/-- To a reader the database of a process in `s` is like one that has the files for
itself. -/
structure Alike (alone shared : Database) : Prop where
  answers : shared.answer = alone.answer
  inside : shared.Inside
  insideAlone : alone.Inside

/-- The same index over files that have grown. -/
theorem Alike.grows {shared shared' : Database} (h : Alike alone shared)
    (hstored : shared'.stored = shared.stored)
    (hgrows : ∀ i, ∃ more, (shared'.openedFiles i).contents =
      (shared.openedFiles i).contents ++ more) : Alike alone shared' where
  answers := by
    rw [← h.answers]
    funext k
    have hread : shared'.read k = shared.read k := by rw [Database.read, hstored, Database.read]
    rw [Database.answer, hread, Database.answer]
    apply Option.map_congr
    intro storage hstorage
    obtain ⟨more, hmore⟩ := hgrows storage.file
    rw [Database.range, File.range, hmore]
    exact AppendLog.slice_append_left (h.inside k storage hstorage) _
  inside k storage hstorage := by
    obtain ⟨more, hmore⟩ := hgrows storage.file
    rw [Database.read, hstored] at hstorage
    rw [hmore, List.length_append]
    exact (h.inside k storage hstorage).trans (Nat.le_add_right _ _)
  insideAlone := h.insideAlone

theorem Alike.write {shared : Database} (h : Alike alone shared) {op : WriteOp}
    (hwhole : op.Whole) :
    Alike (alone.write op.key op.data op.append) (shared.write op.key op.data op.append) where
  answers := by
    funext k
    rw [h.inside.answer_write _ _ hwhole, h.insideAlone.answer_write _ _ hwhole, h.answers]
  inside := h.inside.write _ _ hwhole
  insideAlone := h.insideAlone.write _ _ hwhole

def Isolated (p : Nat) (alone : Database) (s : SharedFiles) : Prop :=
  ∀ m, s.members p = some m → Alike alone (s.database m)

theorem Isolated.other (h : Isolated p alone s) (hpq : p ≠ q) {db : Database}
    {writing : Option Writing} (hgrows : ∀ i, ∃ more,
      (db.openedFiles i).contents = s.contents i ++ more) :
    Isolated p alone (s.put q db writing) := by
  intro m hm
  rw [members_put_of_ne hpq] at hm
  exact (h m hm).grows rfl hgrows

theorem isolated_put {db : Database} (h : Alike alone db) (writing : Option Writing) :
    Isolated p alone (s.put p db writing) := by
  intro m hm
  obtain rfl := Option.some.inj ((members_put_self db writing).symm.trans hm)
  exact h

theorem Isolated.step (h : Isolated p alone s) (hsought : Sought s) (hstep : Step s x s')
    (hturn : InTurn s x) (hlast : ∀ q, x ≠ .starts q)
    (hwhole : ∀ op, x = .appends p op → op.Whole) :
    Isolated p ((ownCalls p [x]).foldl Database.call alone) s' := by
  cases hstep with
  | starts => exact absurd rfl (hlast _)
  | ends =>
      intro m hm
      exact h m (members_without hm).2
  | @seeks q key data n hn hidle =>
      have hgrows : ∀ i, ∃ more, (((s.database n).seek key).2.openedFiles i).contents =
          s.contents i ++ more := by
        intro i
        rw [contents_seek]
        exact ⟨[], (List.append_nil _).symm⟩
      change Isolated p alone _
      by_cases hpq : p = q
      · subst hpq
        refine isolated_put ?_ _
        exact (h n hn).grows rfl hgrows
      · exact h.other hpq hgrows
  | @appends q op n size hn hwriting =>
      rw [append_inTurn (hsought q n _ hn hwriting) (hturn n _ hn hwriting)]
      by_cases hpq : p = q
      · subst hpq
        have hown : ownCalls p [.appends p op] = [.write op] := by simp [ownCalls]
        rw [hown]
        exact isolated_put ((h n hn).write (hwhole op rfl)) _
      · have hnone : ownCalls p [.appends q op] = [] := by simp [ownCalls, Ne.symm hpq]
        rw [hnone]
        apply h.other hpq
        intro i
        rw [contents_write]
        exact ⟨_, rfl⟩

/-- A process that starts leaves to the others their entries, but nothing in the files
behind them: a key is found, and no byte of its value. -/
theorem stranded (hstep : Step s (.starts q) s') (hpq : p ≠ q) (hm : s'.members p = some m) :
    ∃ n, s.members p = some n ∧ ∀ k,
      (s'.database m).answer k = ((s.database n).read k).map fun _ => [] := by
  cases hstep
  rw [members_put_of_ne hpq] at hm
  refine ⟨m, hm, fun k => ?_⟩
  rw [Database.answer]
  congr 1
  funext storage
  exact List.take_eq_nil_of_eq_nil List.drop_nil

def StepInTurn (s : SharedFiles) (x : SharedLabel) (s' : SharedFiles) : Prop :=
  Step s x s' ∧ InTurn s x

theorem StepInTurn.appends {op : WriteOp} {size : Nat} (hm : s.members p = some m)
    (hw : m.writing = some ⟨op.key, op.data, size⟩)
    (hsize : size = (s.contents (bucket op.key)).length) : StepInTurn s (.appends p op)
      (s.put p ((s.database m).append op.key op.data size op.append) none) := by
  refine ⟨.appends hm hw, ?_⟩
  rintro m' w hm' hw'
  obtain rfl := Option.some.inj (hm.symm.trans hm')
  obtain rfl := Option.some.inj (hw.symm.trans hw')
  exact hsize

/-- **The process that has started last is alone.** Whatever the others append, and with
whatever outcome, as long as every append finds the file as its own `lseek` has left it
the readers of the process see what they would if it had the files for itself. -/
theorem last_started_alone {before after : List SharedLabel}
    (h : Run Step nobody (before ++ [.starts p]) s) (hrun : Run StepInTurn s after s')
    (hlast : ∀ q, .starts q ∉ after) (hwhole : ∀ op, .appends p op ∈ after → op.Whole)
    (hm : s'.members p = some m) :
    (s'.database m).answer = (run (ownCalls p after)).answer := by
  have hstart : Sought s ∧ Isolated p Database.new s := by
    refine ⟨h.invariant sought_nobody fun s x s' hs hstep => hs.step hstep, ?_⟩
    obtain ⟨s₀, -, hstep⟩ := Run.snoc_iff.mp h
    cases hstep
    exact isolated_put ⟨rfl, represents_new.inside, represents_new.inside⟩ none
  have hend : Sought s' ∧ Isolated p (run (ownCalls p after)) s' := by
    clear hm
    induction hrun with
    | nil => exact hstart
    | @snoc xs s₁ x s₂ _ hx ih =>
        obtain ⟨hsought, hisolated⟩ := ih
          (fun q hq => hlast q (List.mem_append_left _ hq))
          (fun op hop => hwhole op (List.mem_append_left _ hop))
        have hmem : x ∈ xs ++ [x] := List.mem_append_right _ List.mem_cons_self
        refine ⟨hsought.step hx.1, ?_⟩
        have hstep := hisolated.step hsought hx.1 hx.2 (fun q hq => hlast q (hq ▸ hmem))
          (fun op hop => hwhole op (hop ▸ hmem))
        rwa [run, ← List.foldl_append, ownCalls, ownCalls, ← List.filterMap_append] at hstep
  exact (hend.2 m hm).answers

/-- A process is in the middle of a write. -/
def interrupted : List SharedLabel := [.starts 0, .seeks 0 [97] [1]]

/-- Another one has started. The append of the first fails on the way, and both write under
the same key. -/
def bothWriting : List SharedLabel :=
  [.appends 0 ⟨[97], [1], .short 3⟩, .seeks 1 [97] [2], .appends 1 ⟨[97], [2], .complete⟩,
    .seeks 0 [97] [3], .appends 0 ⟨[97], [3], .complete⟩]

theorem interrupted_last_started_alone :
    ∃ s s' m, Run Step nobody (interrupted ++ [.starts 1]) s ∧ Run StepInTurn s bothWriting s' ∧
      s'.members 1 = some m ∧ (s'.database m).answer [97] = some [1, 0, 0, 0, 2] := by
  obtain ⟨s, s', m, hstart, hrun, hm⟩ : ∃ s s' m,
      Run Step nobody (interrupted ++ [.starts 1]) s ∧ Run StepInTurn s bothWriting s' ∧
        s'.members 1 = some m :=
    ⟨_, _, _, ((Run.nil.snoc .starts).snoc (.seeks rfl rfl)).snoc .starts,
      ((((Run.nil.snoc (.appends rfl rfl rfl)).snoc ⟨.seeks rfl rfl, trivial⟩).snoc
        (.appends rfl rfl rfl)).snoc ⟨.seeks rfl rfl, trivial⟩).snoc (.appends rfl rfl rfl), rfl⟩
  have hwhole : ∀ op, .appends 1 op ∈ bothWriting → op.Whole := by
    intro op hop
    obtain rfl : op = ⟨[97], [2], .complete⟩ := by simpa [bothWriting] using hop
    decide
  refine ⟨s, s', m, hstart, hrun, hm, ?_⟩
  rw [last_started_alone hstart hrun (by simp [bothWriting]) hwhole hm]
  decide +kernel

/-- Two writes that overlap: the value that has been appended in between is overwritten. -/
example : ∃ s m, Run Step nobody [.starts 0, .starts 1, .seeks 0 [97] [1], .seeks 1 [98] [2],
      .appends 1 ⟨[98], [2], .complete⟩, .appends 0 ⟨[97], [1], .complete⟩] s ∧
    s.members 1 = some m ∧ (s.database m).answer [98] = some [1, 0, 0, 0, 1] :=
  ⟨_, _, (((((Run.nil.snoc .starts).snoc .starts).snoc (.seeks rfl rfl)).snoc
    (.seeks rfl rfl)).snoc (.appends rfl rfl)).snoc (.appends rfl rfl), rfl, by decide +kernel⟩

end

end SharedFiles

end EasyKeyDB
