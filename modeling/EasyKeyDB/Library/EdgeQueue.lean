import EasyKeyDB.Library.Runs

/-!
# A queue with edge-triggered reports

Elements arrive in a queue. Whoever takes them out is told by reports: a report
is possible when something has arrived since the last one, and it entitles to
take one element. A queue is `Covered` if, unless it is empty, a report is
possible or one is still to be acted on. A move leaves it so, except that taking
an element may leave others with nothing to report (`covered_take`); then nothing
happens to the queue before the next arrival (`eq_arrive_of_not_covered`).
-/

namespace EdgeQueue

structure State where
  length : Nat
  /-- Something has arrived since the last report. -/
  signalled : Bool
  /-- A report is to be acted on. -/
  due : Bool

inductive Move
  | arrive
  | report
  | take
deriving DecidableEq

inductive Step (q : State) : Move → State → Prop
  | arrive : Step q .arrive ⟨q.length + 1, true, q.due⟩
  | report : q.signalled = true → Step q .report ⟨q.length, false, true⟩
  | take : q.due = true → Step q .take ⟨q.length - 1, q.signalled, false⟩

def State.Covered (q : State) : Prop :=
  0 < q.length → q.signalled = true ∨ q.due = true

variable {q q' : State} {m : Move}

theorem covered_take (h : Step q .take q') :
    q'.Covered ↔ q.length ≤ 1 ∨ q.signalled = true := by
  rcases h with ⟨-⟩
  show (0 < q.length - 1 → q.signalled = true ∨ false = true) ↔ _
  constructor
  · intro hcovered
    by_cases hone : q.length ≤ 1
    · exact Or.inl hone
    · rcases hcovered (Nat.sub_pos_of_lt (Nat.lt_of_not_le hone)) with hsignalled | hfalse
      · exact Or.inr hsignalled
      · cases hfalse
  · rintro (hone | hsignalled) hleft
    · exact absurd (Nat.lt_of_sub_pos hleft) (Nat.not_lt_of_le hone)
    · exact Or.inl hsignalled

theorem covered_step (h : Step q m q')
    (htake : m = .take → q.length ≤ 1 ∨ q.signalled = true) : q'.Covered := by
  cases m with
  | arrive =>
      rcases h
      exact fun _ => Or.inl rfl
  | report =>
      rcases h
      exact fun _ => Or.inr rfl
  | take => exact (covered_take h).mpr (htake rfl)

/-- Only an arrival moves a queue that is not covered. -/
theorem eq_arrive_of_not_covered (h : ¬ q.Covered) (hstep : Step q m q') : m = .arrive := by
  rcases hstep with _ | hsignalled | hdue
  · rfl
  · exact absurd (fun _ => Or.inl hsignalled) h
  · exact absurd (fun _ => Or.inr hdue) h

end EdgeQueue
