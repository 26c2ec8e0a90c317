import EasyKeyDB.CommandRuns

/-!
# The interactive client

`main` and `fork_p` of `EasyKeyV1Client-Interactive.c`: a menu that starts the reading and
the writing program for what is typed. The parent reads the number of the command and the
key; the value of a write is read by the child, which has a copy of the buffer of `stdin`.

If every child is started, the commands are carried out as they are typed on a terminal,
where each line comes with a `read` of its own (`typed_commands`). What is piped into the
menu is in the buffer of the parent too, which takes the values for the numbers of commands
(`piped_commands`).
-/

namespace EasyKeyDB.Client

open ByteBuffer Throwing

/-- `stdin`: what has been read ahead, and what `read` will return, call by call. -/
structure Stdin where
  buffer : List UInt8
  later : List (List UInt8)
deriving DecidableEq

/-- `getc`. A `read` that returns nothing is the end. -/
def Stdin.getc (stdin : Stdin) : Option (UInt8 × Stdin) :=
  match stdin.buffer, stdin.later with
  | byte :: buffer, later => some (byte, ⟨buffer, later⟩)
  | [], (byte :: buffer) :: later => some (byte, ⟨buffer, later⟩)
  | [], [] :: _ | [], [] => none

/-- Characters up to the end of the line, and not more than there is space for. -/
def Stdin.getLine : Nat → Stdin → List UInt8 × Stdin
  | 0, stdin => ([], stdin)
  | space + 1, stdin =>
    match stdin.getc with
    | none => ([], stdin)
    | some (byte, stdin) =>
      if byte = 10 then ([byte], stdin)
      else
        let (text, stdin) := stdin.getLine space
        (byte :: text, stdin)

theorem Stdin.length_getLine_le (space : Nat) (stdin : Stdin) :
    (stdin.getLine space).1.length ≤ space := by
  induction space generalizing stdin with
  | zero => exact Nat.le_refl 0
  | succ space ih =>
      rw [getLine]
      split
      · exact Nat.zero_le _
      · split_ifs
        · exact Nat.succ_le_succ (Nat.zero_le space)
        · exact Nat.succ_le_succ (ih _)

/-- The string that a function of C finds in an array. -/
def cString (text : List UInt8) : List UInt8 := text.takeWhile (· ≠ 0)

def isSpace (ch : UInt8) : Bool := ch = 32 || (9 ≤ ch && ch ≤ 13)

def isDigit (ch : UInt8) : Bool := 48 ≤ ch && ch ≤ 57

/-- `atoi`, of a few characters. -/
def atoi (text : List UInt8) : Int :=
  let digits (text : List UInt8) : Int :=
    (text.takeWhile isDigit).foldl (fun n ch => 10 * n + (ch.toNat - 48)) 0
  match text.dropWhile isSpace with
  | 45 :: text => -digits text
  | 43 :: text => digits text
  | text => digits text

/-- Where the program does not go on: it does something undefined, or leaves. -/
inductive Halt
  /-- `fgets` has read nothing, and its array is used all the same. -/
  | uninitialised
  /-- An empty string has no last character to be taken off. -/
  | outsideArray
  | exited (status : UInt8)
deriving DecidableEq, Repr

/-- The menu, with what the programs work on, and the ways they have ended, which it
waits for and ignores. -/
structure Menu where
  stdin : Stdin
  machine : Machine
  children : List Ending

abbrev MenuM := EStateM Halt Menu

def fgets (size : Nat) : MenuM { text : List UInt8 // text.length ≤ size - 1 } := do
  let menu ← get
  let text := (menu.stdin.getLine (size - 1)).1
  set { menu with stdin := (menu.stdin.getLine (size - 1)).2 }
  if text = [] then throw .uninitialised
  return ⟨text, menu.stdin.length_getLine_le (size - 1)⟩

theorem zero_notMem_cString (text : List UInt8) : 0 ∉ cString text := by
  intro hzero
  have hkept := List.mem_takeWhile_imp hzero
  simp at hkept

/-- `buffer[strlen(buffer) - 1] = 0` -/
def withoutLast (text : List UInt8) (short : text.length < 131072) : CString where
  bytes := (cString text).dropLast
  terminated := fun hzero => zero_notMem_cString text (List.dropLast_subset _ hzero)
  short := by
    have hlength : (cString text).length ≤ text.length := (List.takeWhile_sublist _).length_le
    rw [List.length_dropLast]
    omega

def readLine : MenuM CString := do
  let text ← fgets 1024
  if cString text.1 = [] then throw .outsideArray
  return withoutLast text.1 (text.2.trans_lt (by decide))

/-- The child runs a program, and the parent waits for it. -/
def Menu.child (main : ProgramM UInt8) (menu : Menu) : Menu :=
  let (ending, machine) := runMain main menu.machine
  { menu with machine, children := menu.children ++ [ending] }

def cliReadBin : CString := ⟨ascii "./cli-read.out", by decide, by decide⟩

/-- `fork`, and the way out if it fails: the state of the parent, which the child has too. -/
def fork (spawns : Nat → Spawn) : MenuM (Menu × Spawn) := do
  let parent ← get
  let spawn := spawns parent.children.length
  if !spawn.fork then
    let machine := parent.machine
    set { parent with
      machine := { machine with complaints := machine.complaints ++ [ascii "fork"] } }
    throw (.exited 1)
  return (parent, spawn)

/-- `fork_p`, where the child number `i` is started as `spawns i` says. -/
def forkP (k : Kernel) (spawns : Nat → Spawn) (read : Bool) : MenuM Unit := do
  let key ← readLine
  let (parent, spawn) ← fork spawns
  if read then modify (Menu.child (spawn.child (cliRead k cliReadBin [key])))
  else
    let value ← readLine
    -- What the child has read ahead is lost, what the parent has read ahead is not used up.
    modify fun menu => { menu with stdin := { menu.stdin with buffer := parent.stdin.buffer } }
    modify (Menu.child (spawn.child (cliWrite k cliWriteBin [key, value, optionNo])))

/-- A pass of the loop in `main`, and its condition. -/
def menuPass (k : Kernel) (spawns : Nat → Spawn) : MenuM Bool := do
  let number ← fgets 4
  let option := atoi (cString number.1)
  if option = 1 then forkP k spawns false
  else if option = 2 then forkP k spawns true
  return option ≠ 3

/-- Not more than so many passes, and whether others are to come. -/
def menuLoop (k : Kernel) (spawns : Nat → Spawn) : Nat → MenuM Bool
  | 0 => return true
  | passes + 1 => do
    if ← menuPass k spawns then menuLoop k spawns passes else return false

/-! ## Lines -/

/-- A line that fits the arrays, without its end. -/
structure Line where
  bytes : List UInt8
  terminated : 0 ∉ bytes
  single : 10 ∉ bytes
  short : bytes.length < 1023

def Line.argument (line : Line) : CString :=
  ⟨line.bytes, line.terminated, line.short.trans (by decide)⟩

def Line.typed (line : Line) : List UInt8 := line.bytes ++ [10]

theorem getLine_refill (space : Nat) {chunk : List UInt8} (h : chunk ≠ [])
    (later : List (List UInt8)) :
    Stdin.getLine (space + 1) ⟨[], chunk :: later⟩ =
      Stdin.getLine (space + 1) ⟨chunk, later⟩ := by
  cases chunk with
  | nil => exact absurd rfl h
  | cons byte chunk => rfl

theorem getLine_line {text : List UInt8} (hsingle : 10 ∉ text) {space : Nat}
    (hspace : text.length < space) (rest : List UInt8) (later : List (List UInt8)) :
    Stdin.getLine space ⟨text ++ 10 :: rest, later⟩ = (text ++ [10], ⟨rest, later⟩) := by
  induction text generalizing space with
  | nil =>
      cases space with
      | zero => exact absurd hspace (Nat.not_lt_zero _)
      | succ space => rfl
  | cons byte text ih =>
      cases space with
      | zero => exact absurd hspace (Nat.not_lt_zero _)
      | succ space =>
          obtain ⟨hbyte, htext⟩ := not_or.mp (List.mem_cons.not.mp hsingle)
          have hrest := ih htext (Nat.lt_of_succ_lt_succ hspace)
          have hgetc : Stdin.getc ⟨byte :: text ++ 10 :: rest, later⟩ =
              some (byte, ⟨text ++ 10 :: rest, later⟩) := rfl
          rw [Stdin.getLine, hgetc]
          dsimp only
          rw [if_neg (Ne.symm hbyte), hrest]
          rfl

theorem getLine_take {text : List UInt8} (hsingle : 10 ∉ text) (space : Nat) (rest : List UInt8)
    (later : List (List UInt8)) :
    (Stdin.getLine space ⟨text ++ 10 :: rest, later⟩).1 = (text ++ [10]).take space := by
  induction text generalizing space with
  | nil =>
      cases space with
      | zero => rfl
      | succ space => exact congrArg (10 :: ·) List.take_nil.symm
  | cons byte text ih =>
      cases space with
      | zero => rfl
      | succ space =>
          obtain ⟨hbyte, htext⟩ := not_or.mp (List.mem_cons.not.mp hsingle)
          have hgetc : Stdin.getc ⟨byte :: text ++ 10 :: rest, later⟩ =
              some (byte, ⟨text ++ 10 :: rest, later⟩) := rfl
          rw [Stdin.getLine, hgetc]
          dsimp only
          rw [if_neg (Ne.symm hbyte)]
          exact congrArg (byte :: ·) (ih htext space)

/-- The place where a line stands: a `read` of its own, or the front of the buffer. -/
inductive Stands (line : List UInt8) : Stdin → Stdin → Prop
  | alone (later : List (List UInt8)) : Stands line ⟨[], line :: later⟩ ⟨[], later⟩
  | ahead (rest : List UInt8) (later : List (List UInt8)) :
      Stands line ⟨line ++ rest, later⟩ ⟨rest, later⟩

section

variable {k : Kernel} {spawns : Nat → Spawn} {stdin stdin' : Stdin} {m : Machine}
  {children : List Ending}

theorem Stands.getLine {text : List UInt8} (h : Stands (text ++ [10]) stdin stdin')
    (hsingle : 10 ∉ text) {space : Nat} (hspace : text.length < space) :
    stdin.getLine space = (text ++ [10], stdin') := by
  cases h with
  | alone later =>
      obtain ⟨space, rfl⟩ := Nat.exists_eq_succ_of_ne_zero (Nat.ne_zero_of_lt hspace)
      have hline : text ++ [10] ≠ [] := List.append_ne_nil_of_right_ne_nil _ (List.cons_ne_nil _ _)
      rw [getLine_refill space hline]
      exact getLine_line hsingle hspace [] later
  | ahead rest later =>
      rw [List.append_assoc]
      exact getLine_line hsingle hspace rest later

theorem fgets_eq {size : Nat} {text : List UInt8} (h : stdin.getLine (size - 1) = (text, stdin'))
    (hsome : text ≠ []) (hshort : text.length ≤ size - 1) :
    fgets size ⟨stdin, m, children⟩ = .ok ⟨text, hshort⟩ ⟨stdin', m, children⟩ := by
  have htext : (stdin.getLine (size - 1)).1 = text := congrArg Prod.fst h
  have hstdin : (stdin.getLine (size - 1)).2 = stdin' := congrArg Prod.snd h
  subst htext hstdin
  change (if _ then _ else _ : MenuM _) _ = _
  rw [if_neg hsome]
  rfl

theorem cString_typed (line : Line) : cString line.typed = line.typed := by
  rw [cString, List.takeWhile_eq_self_iff]
  intro byte hbyte
  have hzero : byte ≠ 0 := by
    rintro rfl
    rcases List.mem_append.mp hbyte with hbyte | hbyte
    · exact line.terminated hbyte
    · exact absurd (List.mem_singleton.mp hbyte) (by decide)
  exact decide_eq_true hzero

theorem typed_ne_nil (line : Line) : line.typed ≠ [] :=
  List.append_ne_nil_of_right_ne_nil _ (List.cons_ne_nil _ _)

theorem withoutLast_typed (line : Line) (short : line.typed.length < 131072) :
    withoutLast line.typed short = line.argument := by
  rw [withoutLast, Line.argument, CString.mk.injEq, cString_typed, Line.typed,
    List.dropLast_concat]

theorem readLine_eq {line : Line} (h : Stands line.typed stdin stdin') :
    readLine ⟨stdin, m, children⟩ = .ok line.argument ⟨stdin', m, children⟩ := by
  have hlength : line.typed.length ≤ 1024 - 1 := by
    rw [Line.typed, List.length_append]
    exact line.short
  have hread : fgets 1024 ⟨stdin, m, children⟩ =
      .ok ⟨line.typed, hlength⟩ ⟨stdin', m, children⟩ :=
    fgets_eq (h.getLine line.single line.short) (typed_ne_nil line) hlength
  have hstring : cString line.typed ≠ [] := by
    rw [cString_typed]
    exact typed_ne_nil line
  rw [readLine, bind_ok hread, ← withoutLast_typed]
  exact congrFun (if_neg hstring) _

theorem menuPass_eq {text : List UInt8} (h : stdin.getLine 3 = (text, stdin'))
    (hsome : text ≠ []) : menuPass k spawns ⟨stdin, m, children⟩ =
      (do
        if atoi (cString text) = 1 then forkP k spawns false
        else if atoi (cString text) = 2 then forkP k spawns true
        return atoi (cString text) ≠ 3 : MenuM Bool) ⟨stdin', m, children⟩ := by
  have hshort : text.length ≤ 3 := by
    have hlength := stdin.length_getLine_le 3
    rwa [h] at hlength
  rw [menuPass, bind_ok (fgets_eq h hsome hshort)]

theorem fork_eq (hspawn : spawns children.length = .succeeds) :
    fork spawns ⟨stdin, m, children⟩ =
      .ok (⟨stdin, m, children⟩, .succeeds) ⟨stdin, m, children⟩ := by
  have hfork : (spawns children.length).fork = true := by rw [hspawn]; rfl
  change (if _ then _ else _ : MenuM _) _ = _
  rw [hfork, hspawn]
  rfl

theorem forkP_read (hspawn : spawns children.length = .succeeds) {key : Line}
    (hkey : Stands key.typed stdin stdin') :
    forkP k spawns true ⟨stdin, m, children⟩ =
      .ok () (Menu.child (cliRead k cliReadBin [key.argument]) ⟨stdin', m, children⟩) := by
  rw [forkP, bind_ok (readLine_eq hkey), bind_ok (fork_eq hspawn)]
  rfl

/-- What the parent has in its buffer is still there when the child has read the value. -/
theorem forkP_write (hspawn : spawns children.length = .succeeds) {key value : Line}
    {stdin'' : Stdin} (hkey : Stands key.typed stdin stdin')
    (hvalue : Stands value.typed stdin' stdin'') :
    forkP k spawns false ⟨stdin, m, children⟩ =
      .ok () (Menu.child (cliWrite k cliWriteBin [key.argument, value.argument, optionNo])
        ⟨⟨stdin'.buffer, stdin''.later⟩, m, children⟩) := by
  rw [forkP, bind_ok (readLine_eq hkey), bind_ok (fork_eq hspawn)]
  simp only [Bool.false_eq_true, if_false]
  change (readLine >>= fun value => _) _ = _
  rw [bind_ok (readLine_eq hvalue)]
  rfl

end

/-! ## Commands -/

inductive Command
  | write (key value : Line)
  | read (key : Line)

/-- The lines in which a command is typed. -/
def Command.typed : Command → List (List UInt8)
  | .write key value => [ascii "1\n", key.typed, value.typed]
  | .read key => [ascii "2\n", key.typed]

/-- The program that it is to start. -/
def Command.main (k : Kernel) : Command → ProgramM UInt8
  | .write key value => cliWrite k cliWriteBin [key.argument, value.argument, optionNo]
  | .read key => cliRead k cliReadBin [key.argument]

def script (commands : List Command) : List (List UInt8) :=
  commands.flatMap Command.typed ++ [ascii "3\n"]

def Menu.run (k : Kernel) (menu : Menu) (commands : List Command) : Menu :=
  commands.foldl (fun menu command => menu.child (command.main k)) menu

theorem Menu.run_append (k : Kernel) (menu : Menu) (commands more : List Command) :
    menu.run k (commands ++ more) = (menu.run k commands).run k more :=
  List.foldl_append

section

variable {k : Kernel} {spawns : Nat → Spawn} {stdin stdin' : Stdin} {m : Machine}
  {children : List Ending}

theorem menuPass_three {text : List UInt8} (h : stdin.getLine 3 = (text, stdin'))
    (hsome : text ≠ []) (hthree : atoi (cString text) = 3) :
    menuPass k spawns ⟨stdin, m, children⟩ = .ok false ⟨stdin', m, children⟩ := by
  rw [menuPass_eq h hsome, hthree]
  rfl

theorem menuPass_exit (h : Stands (ascii "3\n") stdin stdin') :
    menuPass k spawns ⟨stdin, m, children⟩ = .ok false ⟨stdin', m, children⟩ := by
  have hnumber : Stands ([51] ++ [10]) stdin stdin' := h
  have hline := hnumber.getLine (by decide) (show 1 < 3 by decide)
  exact menuPass_three hline (List.cons_ne_nil _ _) (by decide)

theorem menuPass_other {text : List UInt8} (h : stdin.getLine 3 = (text, stdin'))
    (hsome : text ≠ []) (hother : atoi (cString text) ∉ [1, 2, 3]) :
    menuPass k spawns ⟨stdin, m, children⟩ = .ok true ⟨stdin', m, children⟩ := by
  simp only [List.mem_cons, List.not_mem_nil, or_false, not_or] at hother
  obtain ⟨hwrite, hread, hexit⟩ := hother
  rw [menuPass_eq h hsome, if_neg hwrite, if_neg hread]
  change EStateM.Result.ok (decide (atoi (cString text) ≠ 3)) _ = _
  rw [decide_eq_true hexit]

theorem menuPass_read (hspawn : spawns children.length = .succeeds) {key : Line}
    {stdin'' : Stdin} (h : Stands (ascii "2\n") stdin stdin')
    (hkey : Stands key.typed stdin' stdin'') :
    menuPass k spawns ⟨stdin, m, children⟩ =
      .ok true (Menu.child (Command.main k (.read key)) ⟨stdin'', m, children⟩) := by
  have hnumber : Stands ([50] ++ [10]) stdin stdin' := h
  have hline := hnumber.getLine (by decide) (show 1 < 3 by decide)
  have hoption : atoi (cString ([50] ++ [10])) = 2 := by decide
  rw [menuPass_eq hline (List.cons_ne_nil _ _), hoption]
  exact bind_ok (forkP_read hspawn hkey)

theorem menuPass_write (hspawn : spawns children.length = .succeeds) {key value : Line}
    {stdin'' stdin₃ : Stdin}
    (h : Stands (ascii "1\n") stdin stdin') (hkey : Stands key.typed stdin' stdin'')
    (hvalue : Stands value.typed stdin'' stdin₃) :
    menuPass k spawns ⟨stdin, m, children⟩ =
      .ok true (Menu.child (Command.main k (.write key value))
        ⟨⟨stdin''.buffer, stdin₃.later⟩, m, children⟩) := by
  have hnumber : Stands ([49] ++ [10]) stdin stdin' := h
  have hline := hnumber.getLine (by decide) (show 1 < 3 by decide)
  have hoption : atoi (cString ([49] ++ [10])) = 1 := by decide
  rw [menuPass_eq hline (List.cons_ne_nil _ _), hoption]
  exact bind_ok (forkP_write hspawn hkey hvalue)

/-! ## On a terminal -/

theorem child_mk (main : ProgramM UInt8) : Menu.child main ⟨stdin, m, children⟩ =
    ⟨stdin, (runMain main m).2, children ++ [(runMain main m).1]⟩ := rfl

theorem menuLoop_succ {menu menu' : Menu} (h : menuPass k spawns menu = .ok true menu')
    (passes : Nat) : menuLoop k spawns (passes + 1) menu = menuLoop k spawns passes menu' := by
  rw [menuLoop, bind_ok h]
  rfl

theorem menuLoop_exit {menu menu' : Menu} (h : menuPass k spawns menu = .ok false menu')
    (passes : Nat) : menuLoop k spawns (passes + 1) menu = .ok false menu' := by
  rw [menuLoop, bind_ok h]
  rfl

theorem menuLoop_alone (hspawns : ∀ i, spawns i = .succeeds) (passes : Nat)
    (commands : List Command) (later : List (List UInt8)) :
    menuLoop k spawns (passes + commands.length)
        ⟨⟨[], commands.flatMap Command.typed ++ later⟩, m, children⟩ =
      menuLoop k spawns passes (Menu.run k ⟨⟨[], later⟩, m, children⟩ commands) := by
  induction commands generalizing m children with
  | nil => rfl
  | cons command commands ih =>
      have hpass : menuPass k spawns
          ⟨⟨[], (command :: commands).flatMap Command.typed ++ later⟩, m, children⟩ =
            .ok true (Menu.child (command.main k)
              ⟨⟨[], commands.flatMap Command.typed ++ later⟩, m, children⟩) := by
        cases command with
        | write key value =>
            exact menuPass_write (hspawns _) (.alone _) (.alone _) (.alone _)
        | read key => exact menuPass_read (hspawns _) (.alone _) (.alone _)
      rw [List.length_cons, ← Nat.add_assoc, menuLoop_succ hpass, child_mk, ih]
      rfl

/-! ## Through a pipe -/

/-- What the number of a command is read from, if the menu is given a line. -/
def pieces : List UInt8 → List (List UInt8)
  | [] => [[10]]
  | [a] => [[a, 10]]
  | [a, b] => [[a, b, 10]]
  | a :: b :: c :: text => [a, b, c] :: pieces text

/-- A value that is no command. -/
def Line.Inert (line : Line) : Prop :=
  ∀ piece ∈ pieces line.bytes, atoi (cString piece) ∉ [1, 2, 3]

theorem menuLoop_pieces (passes : Nat) {text : List UInt8} (hsingle : 10 ∉ text)
    (hinert : ∀ piece ∈ pieces text, atoi (cString piece) ∉ [1, 2, 3]) (rest : List UInt8)
    (later : List (List UInt8)) :
    menuLoop k spawns (passes + (pieces text).length) ⟨⟨text ++ 10 :: rest, later⟩, m, children⟩ =
      menuLoop k spawns passes ⟨⟨rest, later⟩, m, children⟩ := by
  fun_induction pieces text with
  | case1 =>
      have hline := getLine_line hsingle (show 0 < 3 by decide) rest later
      exact menuLoop_succ (menuPass_other hline (List.cons_ne_nil _ _)
        (hinert _ List.mem_cons_self)) passes
  | case2 a =>
      have hline := getLine_line hsingle (show 1 < 3 by decide) rest later
      exact menuLoop_succ (menuPass_other hline (List.cons_ne_nil _ _)
        (hinert _ List.mem_cons_self)) passes
  | case3 a b =>
      have hline := getLine_line hsingle (show 2 < 3 by decide) rest later
      exact menuLoop_succ (menuPass_other hline (List.cons_ne_nil _ _)
        (hinert _ List.mem_cons_self)) passes
  | case4 a b c text ih =>
      simp only [List.mem_cons, not_or] at hsingle
      obtain ⟨ha, hb, hc, htext⟩ := hsingle
      have hline : Stdin.getLine 3 ⟨a :: b :: c :: text ++ 10 :: rest, later⟩ =
          ([a, b, c], ⟨text ++ 10 :: rest, later⟩) := by
        simp [Stdin.getLine, Stdin.getc, Ne.symm ha, Ne.symm hb, Ne.symm hc]
      rw [List.length_cons, ← Nat.add_assoc, menuLoop_succ (menuPass_other hline
        (List.cons_ne_nil _ _) (hinert _ List.mem_cons_self))]
      exact ih htext fun piece hpiece => hinert piece (List.mem_cons_of_mem _ hpiece)

def Command.passes : Command → Nat
  | .write _ value => (pieces value.bytes).length + 1
  | .read _ => 1

def Command.Inert : Command → Prop
  | .write _ value => value.Inert
  | .read _ => True

theorem menuLoop_ahead (hspawns : ∀ i, spawns i = .succeeds) (passes : Nat)
    {commands : List Command} (hinert : ∀ command ∈ commands, command.Inert) (rest : List UInt8)
    (later : List (List UInt8)) :
    menuLoop k spawns (passes + (commands.map Command.passes).sum)
        ⟨⟨(commands.flatMap Command.typed).flatten ++ rest, later⟩, m, children⟩ =
      menuLoop k spawns passes (Menu.run k ⟨⟨rest, later⟩, m, children⟩ commands) := by
  induction commands generalizing m children with
  | nil => rfl
  | cons command commands ih =>
      have hrest : ∀ m children, menuLoop k spawns (passes + (commands.map Command.passes).sum)
          ⟨⟨(commands.flatMap Command.typed).flatten ++ rest, later⟩, m, children⟩ =
            menuLoop k spawns passes (Menu.run k ⟨⟨rest, later⟩, m, children⟩ commands) :=
        fun _ _ => ih fun command hcommand => hinert command (List.mem_cons_of_mem _ hcommand)
      have hfirst := hinert command List.mem_cons_self
      cases command with
      | write key value =>
          let behind := (commands.flatMap Command.typed).flatten ++ rest
          have htext :
              ((Command.write key value :: commands).flatMap Command.typed).flatten ++ rest =
                ascii "1\n" ++ (key.typed ++ (value.typed ++ behind)) := by
            simp [behind, Command.typed]
          have hpass : menuPass k spawns
              ⟨⟨ascii "1\n" ++ (key.typed ++ (value.typed ++ behind)), later⟩, m, children⟩ =
                .ok true (Menu.child (Command.main k (.write key value))
                  ⟨⟨value.typed ++ behind, later⟩, m, children⟩) :=
            menuPass_write (hspawns _) (.ahead _ _) (.ahead _ _) (.ahead _ _)
          have hvalue : value.typed ++ behind = value.bytes ++ 10 :: behind :=
            List.append_assoc _ _ _
          have hpasses : passes + ((Command.write key value :: commands).map Command.passes).sum =
              passes + (commands.map Command.passes).sum + (pieces value.bytes).length + 1 := by
            rw [List.map_cons, List.sum_cons, Command.passes]
            omega
          rw [htext, hpasses, menuLoop_succ hpass, child_mk, hvalue,
            menuLoop_pieces _ value.single hfirst]
          exact hrest _ _
      | read key =>
          let behind := (commands.flatMap Command.typed).flatten ++ rest
          have htext : ((Command.read key :: commands).flatMap Command.typed).flatten ++ rest =
              ascii "2\n" ++ (key.typed ++ behind) := by
            simp [behind, Command.typed]
          have hpass : menuPass k spawns
              ⟨⟨ascii "2\n" ++ (key.typed ++ behind), later⟩, m, children⟩ =
              .ok true (Menu.child (Command.main k (.read key)) ⟨⟨behind, later⟩, m, children⟩) :=
            menuPass_read (hspawns _) (.ahead _ _) (.ahead _ _)
          have hpasses : passes + ((Command.read key :: commands).map Command.passes).sum =
              passes + (commands.map Command.passes).sum + 1 := by
            rw [List.map_cons, List.sum_cons, Command.passes]
            omega
          rw [htext, hpasses, menuLoop_succ hpass, child_mk]
          exact hrest _ _

end

/-! ## What the commands do -/

def Command.step (c : WriteOnce.Contents Key Value) : Command → WriteOnce.Contents Key Value
  | .write key value => written c key.argument value.argument.value
  | .read _ => c

/-- The response that is printed, and the way in which the program ends. -/
def Command.told (c : WriteOnce.Contents Key Value) : Command → Outcome × Ending
  | .write key _ => (writeOutcome key.argument, .invalidFree)
  | .read key =>
    (readOutcome c key.argument, .exited (exitStatus (readOutcome c key.argument)))

def transcript (c : WriteOnce.Contents Key Value) : List Command → List (Outcome × Ending)
  | [] => []
  | command :: commands => command.told c :: transcript (command.step c) commands

section

variable {k : Kernel} {spawns : Nat → Spawn} {m : Machine}
  {c : WriteOnce.Contents Key Value}

theorem command_run (hk : k.Complete) (h : Holds m.database c) (command : Command) :
    ∃ db', Holds db' (command.step c) ∧ runMain (command.main k) m =
      ((command.told c).2, ⟨db', m.output ++ shown (command.told c).1, m.complaints⟩) := by
  cases command with
  | write key value =>
      exact cliWrite_text hk h cliWriteBin key.argument value.argument optionNo [] (by decide)
  | read key => exact ⟨m.database, h, cliRead_eq hk h cliReadBin key.argument []⟩

theorem run_eq (hk : k.Complete) (h : Holds m.database c) (commands : List Command)
    (stdin : Stdin) (children : List Ending) :
    ∃ db', Holds db' (commands.foldl Command.step c) ∧
      Menu.run k ⟨stdin, m, children⟩ commands =
        ⟨stdin, ⟨db', m.output ++ (transcript c commands).flatMap fun told => shown told.1,
          m.complaints⟩, children ++ (transcript c commands).map Prod.snd⟩ := by
  induction commands generalizing m c children with
  | nil =>
      refine ⟨m.database, h, ?_⟩
      rw [transcript, List.flatMap_nil, List.map_nil, List.append_nil, List.append_nil]
      rfl
  | cons command commands ih =>
      obtain ⟨db₁, hdb₁, hfirst⟩ := command_run hk h command
      obtain ⟨db', hdb', hrest⟩ := ih (m := ⟨db₁, m.output ++ shown (command.told c).1,
        m.complaints⟩) hdb₁ (children ++ [(command.told c).2])
      refine ⟨db', hdb', ?_⟩
      change Menu.run k (Menu.child (command.main k) ⟨stdin, m, children⟩) commands = _
      rw [child_mk, hfirst, hrest, transcript, List.flatMap_cons, List.map_cons, List.append_assoc,
        List.append_assoc]
      rfl

/-- The programs do not touch the menu's `stdin`. -/
theorem run_mk (commands : List Command) (m : Machine) (children : List Ending) :
    ∃ m' children', ∀ stdin, Menu.run k ⟨stdin, m, children⟩ commands =
      ⟨stdin, m', children'⟩ := by
  induction commands generalizing m children with
  | nil => exact ⟨m, children, fun _ => rfl⟩
  | cons command commands ih =>
      exact ih (runMain (command.main k) m).2 (children ++ [(runMain (command.main k) m).1])

/-- **What is typed on a terminal is carried out**, command by command, and the menu is
left with the last line. -/
theorem typed_commands (hk : k.Complete) (hspawns : ∀ i, spawns i = .succeeds)
    (h : Holds m.database c) (commands : List Command) :
    ∃ db', Holds db' (commands.foldl Command.step c) ∧
      menuLoop k spawns (commands.length + 1) ⟨⟨[], script commands⟩, m, []⟩ =
        .ok false ⟨⟨[], []⟩,
          ⟨db', m.output ++ (transcript c commands).flatMap fun told => shown told.1,
            m.complaints⟩, (transcript c commands).map Prod.snd⟩ := by
  obtain ⟨db', hdb', hrun⟩ := run_eq hk h commands ⟨[], [ascii "3\n"]⟩ []
  refine ⟨db', hdb', ?_⟩
  rw [Nat.add_comm, script, menuLoop_alone hspawns, hrun]
  exact menuLoop_exit (menuPass_exit (.alone [])) 0

def lineA : Line := ⟨nameA.bytes, nameA.terminated, by decide, by decide⟩

def lineThree : Line := ⟨ascii "3", by decide, by decide, by decide⟩

def writeRead (value : Line) : List Command := [.write lineA value, .read lineA]

/-- The process of the write does not get to its end, but its value is read. -/
theorem transcript_writeRead (value : Line) :
    (transcript WriteOnce.empty (writeRead value)).map Prod.snd = [.invalidFree, .exited 0] := by
  have hvalid : isKeyValid lineA.argument.bytes = true := by decide
  have hread : readOutcome (written WriteOnce.empty lineA.argument value.argument.value)
      lineA.argument = (.ok, value.argument.value) := by
    apply readOutcome_of_some hvalid
    rw [written, dif_pos hvalid, WriteOnce.step_apply, WriteOnce.Op.puts, if_pos rfl]
    rfl
  change [Ending.invalidFree, .exited (exitStatus (readOutcome _ _))] = _
  rw [Command.step, hread]
  rfl

theorem writeRead_typed_commands : ∃ menu,
    menuLoop (.on fun _ => none) (fun _ => .succeeds) ((writeRead lineThree).length + 1)
        ⟨⟨[], script (writeRead lineThree)⟩, ⟨Database.new, [], []⟩, []⟩ = .ok false menu ∧
      menu.children = [.invalidFree, .exited 0] := by
  obtain ⟨db', -, hrun⟩ := typed_commands (m := ⟨Database.new, [], []⟩)
    (Kernel.complete_on fun _ => none) (fun _ => rfl) holds_new (writeRead lineThree)
  exact ⟨_, hrun, transcript_writeRead lineThree⟩

theorem menuPass_refill {chunk : List UInt8} (hchunk : chunk ≠ []) (later : List (List UInt8))
    (children : List Ending) :
    menuPass k spawns ⟨⟨[], chunk :: later⟩, m, children⟩ =
      menuPass k spawns ⟨⟨chunk, later⟩, m, children⟩ := by
  obtain ⟨byte, chunk, rfl⟩ := List.exists_cons_of_ne_nil hchunk
  obtain ⟨text, stdin', hline⟩ : ∃ text stdin',
      Stdin.getLine 3 ⟨byte :: chunk, later⟩ = (text, stdin') := ⟨_, _, rfl⟩
  have hsome : text ≠ [] := by
    rintro rfl
    have hgetc : Stdin.getc ⟨byte :: chunk, later⟩ = some (byte, ⟨chunk, later⟩) := rfl
    rw [Stdin.getLine, hgetc] at hline
    dsimp only at hline
    split_ifs at hline <;> cases hline
  have hrefilled := (getLine_refill 2 hchunk later).trans hline
  rw [menuPass_eq hrefilled hsome, menuPass_eq hline hsome]

theorem menuLoop_refill {chunk : List UInt8} (hchunk : chunk ≠ []) (later : List (List UInt8))
    (children : List Ending) (passes : Nat) :
    menuLoop k spawns (passes + 1) ⟨⟨[], chunk :: later⟩, m, children⟩ =
      menuLoop k spawns (passes + 1) ⟨⟨chunk, later⟩, m, children⟩ := by
  rw [menuLoop]
  change EStateM.bind _ _ _ = EStateM.bind _ _ _
  rw [EStateM.bind, EStateM.bind, menuPass_refill hchunk]

theorem script_ne_nil (commands : List Command) : (script commands).flatten ≠ [] := by
  rw [script, List.flatten_append]
  exact List.append_ne_nil_of_right_ne_nil _ (List.cons_ne_nil _ _)

/-- **What is piped into the menu** is carried out as well, if no value can be taken for
the number of a command: the parent finds the values in its buffer again. -/
theorem piped_commands (hk : k.Complete) (hspawns : ∀ i, spawns i = .succeeds)
    (h : Holds m.database c) (commands : List Command)
    (hinert : ∀ command ∈ commands, command.Inert) :
    ∃ db', Holds db' (commands.foldl Command.step c) ∧
      menuLoop k spawns ((commands.map Command.passes).sum + 1)
          ⟨⟨[], [(script commands).flatten]⟩, m, []⟩ =
        .ok false ⟨⟨[], []⟩,
          ⟨db', m.output ++ (transcript c commands).flatMap fun told => shown told.1,
            m.complaints⟩, (transcript c commands).map Prod.snd⟩ := by
  obtain ⟨db', hdb', hrun⟩ := run_eq hk h commands ⟨ascii "3\n", []⟩ []
  refine ⟨db', hdb', ?_⟩
  have hscript : (script commands).flatten =
      (commands.flatMap Command.typed).flatten ++ ascii "3\n" := by
    rw [script, List.flatten_append]
    rfl
  rw [menuLoop_refill (script_ne_nil commands), Nat.add_comm, hscript,
    menuLoop_ahead hspawns 1 hinert, hrun]
  exact menuLoop_exit (menuPass_exit (.ahead [] [])) 0

theorem writeRead_piped_commands : ∃ menu,
    menuLoop (.on fun _ => none) (fun _ => .succeeds)
        (((writeRead lineA).map Command.passes).sum + 1)
        ⟨⟨[], [(script (writeRead lineA)).flatten]⟩, ⟨Database.new, [], []⟩, []⟩ =
      .ok false menu ∧ menu.children = [.invalidFree, .exited 0] := by
  have hinert : ∀ command ∈ writeRead lineA, command.Inert := by
    rintro command hcommand
    rcases List.mem_cons.mp hcommand with rfl | hcommand
    · change ∀ piece ∈ [[97, 10]], atoi (cString piece) ∉ [1, 2, 3]
      decide
    · obtain rfl := List.mem_singleton.mp hcommand
      trivial
  obtain ⟨db', -, hrun⟩ := piped_commands (m := ⟨Database.new, [], []⟩)
    (Kernel.complete_on fun _ => none) (fun _ => rfl) holds_new (writeRead lineA) hinert
  exact ⟨_, hrun, transcript_writeRead lineA⟩

/-- **A value that begins with the number 3 ends the session** if it is piped into the
menu: what comes behind it is not carried out. -/
theorem piped_exit (hk : k.Complete) (hspawns : ∀ i, spawns i = .succeeds)
    (h : Holds m.database c) {before : List Command}
    (hinert : ∀ command ∈ before, command.Inert) (key value : Line)
    (hthree : atoi (cString (value.typed.take 3)) = 3) (behind : List Command) :
    ∃ db' stdin', Holds db' ((before ++ [Command.write key value]).foldl Command.step c) ∧
      menuLoop k spawns ((before.map Command.passes).sum + 2)
          ⟨⟨[], [(script (before ++ .write key value :: behind)).flatten]⟩, m, []⟩ =
        .ok false ⟨stdin',
          ⟨db', m.output ++ (transcript c (before ++ [.write key value])).flatMap fun told =>
            shown told.1, m.complaints⟩,
          (transcript c (before ++ [.write key value])).map Prod.snd⟩ := by
  let rest := (script behind).flatten
  have hscript : (script (before ++ .write key value :: behind)).flatten =
      (before.flatMap Command.typed).flatten ++
        (ascii "1\n" ++ (key.typed ++ (value.typed ++ rest))) := by
    simp [script, rest, Command.typed]
  obtain ⟨db', hdb', hrun⟩ :=
    run_eq hk h (before ++ [.write key value]) ⟨value.typed ++ rest, []⟩ []
  obtain ⟨text, stdin', hline⟩ : ∃ text stdin',
      Stdin.getLine 3 ⟨value.typed ++ rest, []⟩ = (text, stdin') := ⟨_, _, rfl⟩
  have htext : text = value.typed.take 3 := by
    have htake := getLine_take value.single 3 rest []
    have hbuffer : value.typed ++ rest = value.bytes ++ 10 :: rest := List.append_assoc _ _ _
    rw [← hbuffer, hline] at htake
    exact htake
  have hsome : text ≠ [] := by
    rw [htext, Line.typed]
    cases value.bytes <;> exact List.cons_ne_nil _ _
  obtain ⟨m₁, children₁, hbefore⟩ := run_mk (k := k) before m []
  rw [Menu.run_append, hbefore] at hrun
  change Menu.child (Command.main k (.write key value)) _ = _ at hrun
  refine ⟨db', stdin', hdb', ?_⟩
  rw [menuLoop_refill (script_ne_nil _), Nat.add_assoc, Nat.add_comm, hscript,
    menuLoop_ahead hspawns _ hinert, hbefore,
    menuLoop_succ (menuPass_write (hspawns _) (.ahead _ _) (.ahead _ _) (.ahead _ _)), hrun]
  exact menuLoop_exit (menuPass_three hline hsome (htext ▸ hthree)) 0

/-- The read is not carried out. -/
theorem writeRead_piped_exit : ∃ menu,
    menuLoop (.on fun _ => none) (fun _ => .succeeds) 2
        ⟨⟨[], [(script (writeRead lineThree)).flatten]⟩, ⟨Database.new, [], []⟩, []⟩ =
      .ok false menu ∧ menu.children = [.invalidFree] := by
  have hnone : ∀ command ∈ ([] : List Command), command.Inert := nofun
  obtain ⟨db', stdin', -, hrun⟩ := piped_exit (m := ⟨Database.new, [], []⟩)
    (Kernel.complete_on fun _ => none) (fun _ => rfl) holds_new hnone lineA lineThree
    (by decide) [.read lineA]
  exact ⟨_, hrun, rfl⟩

end

end EasyKeyDB.Client
