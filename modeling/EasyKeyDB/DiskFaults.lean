import EasyKeyDB.AnyClients

/-!
# Appends that fail

The event loop when the bucket files take only a part of what is appended to them, or
nothing. The entry is made all the same, so the map behind the loop keeps with each first
value what became of its append (`Ledger`).

A fault stays with its key (`Network.faults_contained`). Which keys are found is as in the
map, and every call is answered as by the map but for the reads of a key whose first append
was cut. These are answered with a success, the part of the value that has arrived, and
nothing longer than the value.
-/

namespace EasyKeyDB

open LittleEndian

/-- The first value of a key, and what became of its append. -/
structure FirstAppend where
  value : Value
  outcome : IoResult
deriving DecidableEq

namespace FirstAppend

def image (a : FirstAppend) : List UInt8 := field 4 a.value.bytes

def arrived (a : FirstAppend) : List UInt8 :=
  a.image.take (a.outcome.transferred a.image.length)

def Whole (a : FirstAppend) : Prop := a.outcome.Whole a.image.length

instance (a : FirstAppend) : Decidable a.Whole := inferInstanceAs (Decidable (_ = _))

theorem Whole.arrived_eq {a : FirstAppend} (h : a.Whole) : a.arrived = a.image := by
  have hmoved : a.outcome.transferred a.image.length = a.image.length := h
  rw [arrived, hmoved, List.take_length]

theorem length_arrived_le (a : FirstAppend) : a.arrived.length ≤ a.image.length :=
  List.length_take_le' _ _

end FirstAppend

abbrev Ledger := WriteOnce.Contents Key FirstAppend

namespace Ledger

def values (l : Ledger) : WriteOnce.Contents Key Value := WriteOnce.Contents.map FirstAppend.value l

def step (l : Ledger) (h : Handling) : Ledger :=
  match h.request with
  | some (.write key value) => WriteOnce.step l (.put key ⟨value, h.append⟩)
  | some (.read _) | none => l

def after (l : Ledger) (handled : List Handling) : Ledger := handled.foldl step l

/-- Outcomes aside, the ledger is the map. -/
theorem values_step (l : Ledger) (h : Handling) :
    (l.step h).values = (parse h.found).step l.values := by
  rw [step, Handling.request, Parsed.step]
  cases (parse h.found).request with
  | none => rfl
  | some q =>
      cases q with
      | read key => rfl
      | write key value => exact WriteOnce.map_put _ _ _ _

theorem values_after (l : Ledger) (handled : List Handling) :
    (l.after handled).values = contentsAfter l.values handled := by
  induction handled generalizing l with
  | nil => rfl
  | cons h handled ih =>
      rw [after, List.foldl_cons, contentsAfter, List.foldl_cons, ← values_step]
      exact ih (l.step h)

end Ledger

/-- The key of a call that reads. -/
def Parsed.readKey (p : Parsed) : Option Key :=
  match p.request with
  | some (.read key) => some key
  | some (.write _ _) | none => none

/-- The call reads no key whose first append was cut. -/
def Parsed.Intact (p : Parsed) (l : Ledger) : Prop :=
  ∀ key ∈ p.readKey, ∀ a ∈ l key, a.Whole

instance (p : Parsed) (l : Ledger) : Decidable (p.Intact l) :=
  inferInstanceAs (Decidable (∀ key ∈ p.readKey, ∀ a ∈ l key, a.Whole))

theorem Parsed.intact_of_readKey {p : Parsed} {l : Ledger} (h : p.readKey = none) :
    p.Intact l := by
  intro key hkey
  rw [h] at hkey
  cases hkey

theorem Parsed.intact_read {p : Parsed} {l : Ledger} {key : Key} (hkey : p.readKey = some key)
    (hwhole : ∀ a ∈ l key, a.Whole) : p.Intact l := by
  intro k hk
  obtain rfl := Option.some.inj (hkey.symm.trans hk)
  exact hwhole

/-- What a call may be answered with. -/
inductive Ledger.Allows (l : Ledger) (p : Parsed) : List UInt8 → Prop
  | asMap : p.Intact l → l.Allows p (p.reply l.values)
  | cut {key : Key} {a : FirstAppend} {shown : List UInt8} :
      p.readKey = some key → l key = some a → ¬ a.Whole → a.arrived <+: shown →
      shown.length ≤ a.image.length → l.Allows p (successHeader ++ shown)

theorem Ledger.Allows.eq_of_intact {l : Ledger} {p : Parsed} {bytes : List UInt8}
    (h : l.Allows p bytes) (hintact : p.Intact l) : bytes = p.reply l.values := by
  cases h with
  | asMap _ => rfl
  | cut hkey ha hcut _ _ => exact absurd (hintact _ hkey _ ha) hcut

/-- The calls on a connection, each with the ledger that it meets. -/
def asked (n : Nat) (l : Ledger) : List Handling → List (Ledger × Parsed)
  | [] => []
  | h :: handled =>
    (if h.number = n then [(l, parse h.found)] else []) ++ asked n (l.step h) handled

/-- The database has an entry for each key of the ledger, and what has arrived of the
value lies where the entry begins. -/
structure Records (db : Database) (l : Ledger) : Prop where
  absent : ∀ k, l k = none → db.read k.bytes = none
  present : ∀ k a, l k = some a → ∃ storage, db.read k.bytes = some storage ∧
    storage.size = a.image.length ∧
    a.arrived <+: (db.openedFiles storage.file).contents.drop storage.offset

section

variable {db : Database} {l : Ledger} {m : WriteOnce.Contents Key Value}

theorem Represents.records (hm : Represents db m) : Records db (m.map (⟨·, .complete⟩)) where
  absent k hk := by
    have hanswer := hm.answers k
    rw [Option.map_eq_none_iff.mp hk] at hanswer
    exact Option.map_eq_none_iff.mp hanswer
  present k a ha := by
    obtain ⟨v, hv, rfl⟩ := Option.map_eq_some_iff.mp ha
    have hanswer := hm.answers k
    rw [hv] at hanswer
    obtain ⟨storage, hread, hrange⟩ := Option.map_eq_some_iff.mp hanswer
    change db.range storage = field 4 v.bytes at hrange
    have hsize : (db.range storage).length = storage.size := by
      have hinside := hm.inside _ _ hread
      rw [Database.range, File.range, AppendLog.slice, List.length_take, List.length_drop]
      omega
    have hwhole : FirstAppend.Whole ⟨v, .complete⟩ := rfl
    refine ⟨storage, hread, ?_, ?_⟩
    · rw [← hsize, hrange]
      rfl
    · rw [hwhole.arrived_eq]
      change field 4 v.bytes <+: _
      rw [← hrange]
      exact List.take_prefix _ _

theorem records_new : Records Database.new WriteOnce.empty := represents_new.records

namespace Records

theorem isSome_read (h : Records db l) (k : Key) :
    (db.read k.bytes).isSome = (l.values k).isSome := by
  change _ = ((l k).map FirstAppend.value).isSome
  rw [Option.isSome_map]
  cases hl : l k with
  | none =>
      rw [h.absent k hl]
      rfl
  | some a =>
      obtain ⟨storage, hread, -⟩ := h.present k a hl
      rw [hread]
      rfl

theorem write (h : Records db l) (key : Key) (value : Value) (outcome : IoResult) :
    Records (db.write key.bytes value.bytes outcome)
      (WriteOnce.step l (.put key ⟨value, outcome⟩)) where
  absent k hk := by
    rw [WriteOnce.step_apply, Option.or_eq_none_iff, WriteOnce.Op.puts] at hk
    have hkey : key.bytes ≠ k.bytes := by
      intro hbytes
      rw [if_pos (Key.bytes_injective hbytes)] at hk
      cases hk.2
    rw [Database.read_write, h.absent k hk.1, if_neg hkey]
    rfl
  present k a ha := by
    rw [WriteOnce.step_apply, WriteOnce.Op.puts] at ha
    cases hl : l k with
    | some old =>
        rw [hl, Option.some_or] at ha
        obtain rfl := Option.some.inj ha
        obtain ⟨storage, hread, hsize, harrived⟩ := h.present k old hl
        refine ⟨storage, ?_, hsize, harrived.trans ?_⟩
        · rw [Database.read_write, hread, Option.some_or]
        · rw [Database.contents_write]
          exact (List.prefix_append _ _).drop _
    | none =>
        rw [hl, Option.none_or] at ha
        split_ifs at ha with hkey
        obtain rfl := Option.some.inj ha
        subst hkey
        refine ⟨⟨(field 4 value.bytes).length, (db.openedFiles (bucket key.bytes)).contents.length,
          bucket key.bytes⟩, ?_, rfl, ?_⟩
        · rw [Database.read_write, h.absent key hl, if_pos rfl, Option.none_or]
        · rw [Database.contents_write, if_pos rfl, List.drop_left]
          exact List.prefix_rfl

theorem shown (h : Records db l) {key : Key} {a : FirstAppend} (ha : l key = some a) :
    ∃ shown, readCalls db key.bytes = [.send successHeader true, .sendfile shown] ∧
      a.arrived <+: shown ∧ shown.length ≤ a.image.length := by
  obtain ⟨storage, hread, hsize, harrived⟩ := h.present key a ha
  refine ⟨db.range storage, ?_, ?_, ?_⟩
  · rw [readCalls, hread]
    rfl
  · rw [Database.range, File.range, AppendLog.slice, List.prefix_take_iff, hsize]
    exact ⟨harrived, a.length_arrived_le⟩
  · rw [Database.range, File.range, AppendLog.slice, hsize]
    exact List.length_take_le _ _

theorem answers_read (h : Records db l) {p : Parsed} {key : Key}
    (hp : p.request = some (.read key)) :
    l.Allows p (sentBytes (readCalls db key.bytes)) := by
  have hkey : p.readKey = some key := by rw [Parsed.readKey, hp]
  have hreply : p.reply l.values =
      (Request.read key).reply (WriteOnce.result l.values (.get key)) := by
    rw [Parsed.reply, hp]
    rfl
  cases hl : l key with
  | none =>
      have hcalls : sentBytes (readCalls db key.bytes) = p.reply l.values := by
        have hvalue : l.values key = none := congrArg (Option.map FirstAppend.value) hl
        rw [hreply, WriteOnce.result, hvalue, readCalls, h.absent key hl]
        exact sentBytes_textCalls _ _
      rw [hcalls]
      refine .asMap (Parsed.intact_read hkey fun a ha => ?_)
      cases hl.symm.trans ha
  | some a =>
      obtain ⟨shown, hcalls, harrived, hlength⟩ := h.shown hl
      have hsent : sentBytes (readCalls db key.bytes) = successHeader ++ shown := by
        rw [hcalls]
        exact congrArg (successHeader ++ ·) (List.append_nil shown)
      rw [hsent]
      by_cases hwhole : a.Whole
      · -- All of the value has arrived, and no more is shown.
        rw [hwhole.arrived_eq] at harrived
        have hvalue : l.values key = some a.value := congrArg (Option.map FirstAppend.value) hl
        rw [← harrived.eq_of_length_le hlength, FirstAppend.image, successHeader_append]
        have hframe : frame .ok a.value.bytes = p.reply l.values := by
          rw [hreply, WriteOnce.result, hvalue]
          rfl
        rw [hframe]
        refine .asMap (Parsed.intact_read hkey fun b hb => ?_)
        obtain rfl := Option.some.inj (hl.symm.trans hb)
        exact hwhole
      · exact .cut hkey hl hwhole harrived hlength

theorem handled (h : Records db l) (x : Handling) :
    Records ((parse x.found).database x.append db) (l.step x) ∧
      l.Allows (parse x.found) (sentBytes ((parse x.found).calls db)) := by
  rcases request_cases x.found with ⟨q, rest, hparse⟩ | ⟨hnone, hdatabase, hcalls⟩
  · have hrequest : (parse x.found).request = some q := by rw [hparse, q.request_parsed]
    cases q with
    | read key =>
        rw [Ledger.step, Handling.request, hrequest]
        refine ⟨?_, ?_⟩
        · rw [hparse]
          exact h
        · have hanswer := h.answers_read hrequest
          rw [hparse] at hanswer ⊢
          exact hanswer
    | write key value =>
        rw [Ledger.step, Handling.request, hrequest]
        refine ⟨?_, ?_⟩
        · rw [hparse]
          exact h.write key value x.append
        · have hreply : sentBytes ((parse x.found).calls db) = (parse x.found).reply l.values := by
            rw [Parsed.reply, hrequest, hparse]
            exact sentBytes_textCalls _ _
          rw [hreply]
          refine .asMap (Parsed.intact_of_readKey ?_)
          rw [Parsed.readKey, hrequest]
  · rw [hdatabase, hcalls, Ledger.step, Handling.request, hnone]
    refine ⟨h, ?_⟩
    have hreply : (parse x.found).refusal = (parse x.found).reply l.values := by
      rw [Parsed.reply, hnone]
    rw [hreply]
    refine .asMap (Parsed.intact_of_readKey ?_)
    rw [Parsed.readKey, hnone]

theorem performed (h : Records db l) (handled : List Handling) :
    Records (performed db handled) (l.after handled) := by
  induction handled generalizing db l with
  | nil => exact h
  | cons x handled ih => exact ih (h.handled x).1

theorem callsFor (h : Records db l) (n : Nat) (handled : List Handling) :
    ∃ answers, List.Forall₂ (fun call => Ledger.Allows call.1 call.2) (asked n l handled) answers ∧
      sentBytes (callsFor n db handled) = answers.flatten := by
  induction handled generalizing db l with
  | nil => exact ⟨[], .nil, rfl⟩
  | cons x handled ih =>
      obtain ⟨hafter, hanswer⟩ := h.handled x
      obtain ⟨answers, hanswers, hsent⟩ := ih hafter
      rw [asked, EasyKeyDB.callsFor, sentBytes_append, hsent]
      by_cases hn : x.number = n
      · rw [if_pos hn, if_pos hn]
        exact ⟨_ :: answers, .cons hanswer hanswers, rfl⟩
      · rw [if_neg hn, if_neg hn]
        exact ⟨answers, hanswers, rfl⟩

end Records

theorem flatten_of_intact {n : Nat} {handled : List Handling} {answers : List (List UInt8)}
    (h : List.Forall₂ (fun call => Ledger.Allows call.1 call.2) (asked n l handled) answers)
    (hintact : ∀ call ∈ asked n l handled, call.2.Intact call.1) :
    answers.flatten = repliesTo n l.values handled := by
  induction handled generalizing l answers with
  | nil =>
      cases h
      rfl
  | cons x handled ih =>
      rw [asked] at h hintact
      rw [repliesTo, ← Ledger.values_step]
      by_cases hn : x.number = n
      · rw [if_pos hn] at h hintact
        cases h with
        | cons hanswer hanswers =>
            rw [if_pos hn, List.flatten_cons, hanswer.eq_of_intact (hintact _ List.mem_cons_self)]
            congr 1
            exact ih hanswers fun call hcall => hintact call (List.mem_cons_of_mem _ hcall)
      · rw [if_neg hn] at h hintact ⊢
        exact ih h hintact

end

namespace Network

section

variable {db : Database} {net : Network} {l : Ledger}

/-- **Faults of the disk stay with their keys.** -/
theorem faults_contained {socket : Int} {connected disconnected : Bool} {others : Finset Int}
    {count : UInt32} {xs : List NetworkLabel}
    (h : Run Step (beside (Server.starting socket connected disconnected others count db))
      xs net) (hrecords : Records db l) :
    (∀ k : Key, (net.server.database.read k.bytes).isSome =
      (contentsAfter l.values net.handled k).isSome) ∧
    ∀ fd c, net.server.entry fd = some c →
      (∃ answers, List.Forall₂ (fun call => Ledger.Allows call.1 call.2)
          (asked c.number l net.handled) answers ∧
        sentBytes c.client.sent = answers.flatten) ∧
      ((∀ call ∈ asked c.number l net.handled, call.2.Intact call.1) →
        sentBytes c.client.sent = repliesTo c.number l.values net.handled) := by
  constructor
  · intro k
    rw [(tracks h).database, ← Ledger.values_after]
    exact (hrecords.performed net.handled).isSome_read k
  · intro fd c hc
    obtain ⟨answers, hanswers, hsent⟩ := hrecords.callsFor c.number net.handled
    rw [sent_eq_callsFor h hc]
    exact ⟨⟨answers, hanswers, hsent⟩, fun hintact =>
      hsent.trans (flatten_of_intact hanswers hintact)⟩

/-- Nothing of the value that 5 stores gets into the file, and 6 stores one behind it. -/
def besideFault : List NetworkLabel :=
  accepting [5, 6] ++
    [.receive 0 (Request.write keyA valueOne).encode, .server (.wait [⟨0x001, 5⟩] 0),
      .server (.dispatch none [.bytes (Request.write keyA valueOne).encode] .failed 0),
      .server (.endOfBatch 0)] ++
    calling 1 6 (Request.write keyB valueTwo).encode ++
    calling 0 5 (Request.read keyA).encode ++ calling 1 6 (Request.read keyB).encode

/-- The client on 5 is shown the other's value for its own, and the one on 6 notices
nothing. -/
theorem besideFault_contained :
    ∃ net c, Run Step (beside (Server.starting 3 true true {0, 1, 2} 0 Database.new)) besideFault
        net ∧ net.server.entry 6 = some c ∧
      (net.server.entry 5).map (fun c => sentBytes c.client.sent) =
        some (textReply .ok (keyWritten keyA.bytes) ++ frame .ok [2]) ∧
      sentBytes c.client.sent = textReply .ok (keyWritten keyB.bytes) ++ frame .ok [2] := by
  have hcall : (besideFault.foldlM (attempt Enabled next)
      (beside (Server.starting 3 true true {0, 1, 2} 0 Database.new))).map
        (fun net : Network => ((net.server.entry 6).map Connection.number,
          (net.server.entry 5).map (fun c => sentBytes c.client.sent),
          decide (∀ call ∈ asked 1 WriteOnce.empty net.handled, call.2.Intact call.1),
          repliesTo 1 (Ledger.values WriteOnce.empty) net.handled)) =
      some (some 1, some (textReply .ok (keyWritten keyA.bytes) ++ frame .ok [2]), true,
        textReply .ok (keyWritten keyB.bytes) ++ frame .ok [2]) := by
    decide +kernel
  obtain ⟨net, hrun, hview⟩ := Run.of_view hcall
  obtain ⟨hentry, hview⟩ := Prod.mk.inj hview
  obtain ⟨hfault, hview⟩ := Prod.mk.inj hview
  obtain ⟨hintact, hreplies⟩ := Prod.mk.inj hview
  obtain ⟨c, hc, hnumber⟩ := Option.map_eq_some_iff.mp hentry
  refine ⟨net, c, hrun, hc, hfault, ?_⟩
  obtain ⟨-, hanswers⟩ := faults_contained hrun records_new
  have hsent := (hanswers 6 c hc).2
  rw [hnumber, hreplies] at hsent
  exact hsent (of_decide_eq_true hintact)

end

end Network

end EasyKeyDB
