import EasyKeyDB.Notifier

/-!
# The notifier's bookkeeping

`add_event` and `delete_event` on any descriptors. `epoll_ctl` returns 0 when it
has changed the interest list and −1 when it has not, and both methods convert
the result to a `bool` called `success`: it is true for −1. So a call returns
true exactly when nothing happened (`perform_eq_true_iff`), and the count of
tracked descriptors, which the constructor leaves as it finds it, counts the
calls that failed.
-/

namespace EasyKeyDB

inductive NotifierCall
  | addEvent (event : Event)
  | deleteEvent (event : Event)
deriving DecidableEq, Repr

namespace IONotifier

def perform (notifier : IONotifier) : NotifierCall → Bool × IONotifier
  | .addEvent event => notifier.addEvent event
  | .deleteEvent event => notifier.deleteEvent event

/-- A new notifier, with what was in the memory of its count, after some calls. -/
def afterCalls (count : UInt32) (calls : List NotifierCall) : IONotifier :=
  calls.foldl (fun notifier call => (notifier.perform call).2) (new count)

def registered (notifier : IONotifier) : Nat := notifier.interest.keys.length

def Happens (notifier : IONotifier) : NotifierCall → Prop
  | .addEvent event => ¬ notifier.Watches event.fileDescriptor ∧
      (notifier.addEvent event).2.Watches event.fileDescriptor
  | .deleteEvent event => notifier.Watches event.fileDescriptor ∧
      ¬ (notifier.deleteEvent event).2.Watches event.fileDescriptor

/-- The bookkeeping of a sequence of calls matches the interest list. -/
structure MatchesKernel (count : UInt32) (calls : List NotifierCall) : Prop where
  results : ∀ pre call post, calls = pre ++ call :: post →
    (((afterCalls count pre).perform call).1 = true ↔ (afterCalls count pre).Happens call)
  counted : ∀ pre post, calls = pre ++ post →
    (afterCalls count pre).trackedFileDescriptorsCount.toNat = (afterCalls count pre).registered
  /-- A count of zero does not go down. -/
  aboveZero : ∀ pre call post, calls = pre ++ call :: post →
    (afterCalls count pre).trackedFileDescriptorsCount = 0 →
    ((afterCalls count pre).perform call).2.trackedFileDescriptorsCount ≠ 0 - 1

theorem happens_addEvent_iff (notifier : IONotifier) (event : Event) :
    notifier.Happens (.addEvent event) ↔ ¬ notifier.Watches event.fileDescriptor := by
  have hafter := (watches_addEvent notifier event event.fileDescriptor).mpr (Or.inr rfl)
  exact and_iff_left hafter

theorem happens_deleteEvent_iff (notifier : IONotifier) (event : Event) :
    notifier.Happens (.deleteEvent event) ↔ notifier.Watches event.fileDescriptor := by
  have hafter : ¬ (notifier.deleteEvent event).2.Watches event.fileDescriptor := by
    rw [watches_deleteEvent]
    exact fun h => h.2 rfl
  exact and_iff_left hafter

theorem not_watches_iff (notifier : IONotifier) (fd : Int) :
    ¬ notifier.Watches fd ↔ notifier.interest.find? fd = none := by
  rw [Watches, ← Option.ne_none_iff_exists', not_not]

theorem perform_eq_true_iff (notifier : IONotifier) (call : NotifierCall) :
    (notifier.perform call).1 = true ↔ ¬ notifier.Happens call := by
  cases call with
  | addEvent event =>
      rw [happens_addEvent_iff, not_watches_iff]
      unfold perform addEvent epollAdd
      by_cases hnew : notifier.interest.find? event.fileDescriptor = none
      · simp [hnew]
      · simp [hnew]
  | deleteEvent event =>
      rw [happens_deleteEvent_iff, not_watches_iff]
      unfold perform deleteEvent epollDel
      by_cases hnone : notifier.interest.find? event.fileDescriptor = none
      · simp [hnone]
      · simp [hnone]

/-- **The bookkeeping of the notifier** matches the interest list as long as no
call has been made, if the count happens to be zero. -/
theorem matchesKernel_iff (count : UInt32) (calls : List NotifierCall) :
    MatchesKernel count calls ↔ calls = [] ∧ count = 0 := by
  constructor
  · intro h
    constructor
    · cases calls with
      | nil => rfl
      | cons call calls =>
          have hresult := h.results [] call calls rfl
          rw [perform_eq_true_iff] at hresult
          exact absurd hresult (iff_not_self ·.symm)
    · have hcount := h.counted [] calls rfl
      exact UInt32.toNat_inj.mp hcount
  · rintro ⟨rfl, rfl⟩
    refine ⟨?_, ?_, ?_⟩
    · intro pre call post hsplit
      simp at hsplit
    · intro pre post hsplit
      obtain ⟨rfl, rfl⟩ := List.append_eq_nil_iff.mp hsplit.symm
      rfl
    · intro pre call post hsplit
      simp at hsplit

/-- A descriptor is registered: the call returns false, and nothing is counted. -/
theorem firstAdd_not_matchesKernel :
    (((new 0).perform (.addEvent ⟨5, 0x001⟩)).1 = false ∧
      (afterCalls 0 [.addEvent ⟨5, 0x001⟩]).trackedFileDescriptorsCount = 0 ∧
      (afterCalls 0 [.addEvent ⟨5, 0x001⟩]).registered = 1) ∧
    ¬ MatchesKernel 0 [.addEvent ⟨5, 0x001⟩] := by
  have hadded : ((new 0).perform (.addEvent ⟨5, 0x001⟩)).1 = false ∧
      (afterCalls 0 [.addEvent ⟨5, 0x001⟩]).trackedFileDescriptorsCount = 0 ∧
      (afterCalls 0 [.addEvent ⟨5, 0x001⟩]).registered = 1 := by
    decide
  refine ⟨hadded, fun h => ?_⟩
  obtain ⟨-, hcount, hregistered⟩ := hadded
  have hsame := h.counted [.addEvent ⟨5, 0x001⟩] [] rfl
  rw [hcount, hregistered] at hsame
  cases hsame

end IONotifier

end EasyKeyDB
