import Mathlib.Data.List.Induction
import Mathlib.Logic.Function.Basic

/-!
# Write-once maps

A map in which a key keeps the first value that is put under it. Later values are
accepted and dropped.

The value of a `get` is what the map has under the key (`value_result_get`), the first
value put there (`after_apply`). An operation that has been performed once may be
performed again at any later time without a trace (`results_resent`).
-/

namespace WriteOnce

variable {κ ν : Type*}

inductive Op (κ ν : Type*)
  | get (k : κ)
  | put (k : κ) (v : ν)
deriving DecidableEq

inductive Result (ν : Type*)
  | absent
  | found (v : ν)
  | stored
deriving DecidableEq

def Result.value : Result ν → Option ν
  | .found v => some v
  | .absent | .stored => none

abbrev Contents (κ ν : Type*) := κ → Option ν

def empty : Contents κ ν := fun _ => none

/-- The contents with something made of each value. -/
def Contents.map {μ : Type*} (f : ν → μ) (m : Contents κ ν) : Contents κ μ :=
  fun k => (m k).map f

def result (m : Contents κ ν) : Op κ ν → Result ν
  | .get k => (m k).elim .absent .found
  | .put _ _ => .stored

theorem value_result_get (m : Contents κ ν) (k : κ) : (result m (.get k)).value = m k := by
  change ((m k).elim Result.absent Result.found).value = m k
  cases m k <;> rfl

section

variable [DecidableEq κ]

/-- What an operation has to put under `k`. -/
def Op.puts (k : κ) : Op κ ν → Option ν
  | .get _ => none
  | .put j v => if j = k then some v else none

def step (m : Contents κ ν) : Op κ ν → Contents κ ν
  | .get _ => m
  | .put k v => Function.update m k ((m k).or (some v))

def after (m : Contents κ ν) (ops : List (Op κ ν)) : Contents κ ν := ops.foldl step m

def results (m : Contents κ ν) : List (Op κ ν) → List (Result ν)
  | [] => []
  | op :: ops => result m op :: results (step m op) ops

variable {m : Contents κ ν}

theorem step_apply (m : Contents κ ν) (op : Op κ ν) (k : κ) :
    step m op k = (m k).or (op.puts k) := by
  cases op with
  | get j => exact (Option.or_none).symm
  | put j v =>
      by_cases hj : j = k
      · subst hj
        rw [step, Function.update_self, Op.puts, if_pos rfl]
      · rw [step, Function.update_of_ne (Ne.symm hj), Op.puts, if_neg hj, Option.or_none]

theorem map_put {μ : Type*} (f : ν → μ) (m : Contents κ ν) (k : κ) (v : ν) :
    (step m (.put k v)).map f = step (m.map f) (.put k (f v)) := by
  funext j
  rw [Contents.map, step_apply, step_apply, Option.map_or, Contents.map]
  congr 1
  exact apply_ite (Option.map f) (k = j) (some v) none

theorem after_append (m : Contents κ ν) (ops more : List (Op κ ν)) :
    after m (ops ++ more) = after (after m ops) more :=
  List.foldl_append

/-- What is under a key is what has been there before, or else the first value that
is put there. -/
theorem after_apply (m : Contents κ ν) (ops : List (Op κ ν)) (k : κ) :
    after m ops k = (m k).or (ops.findSome? fun op => op.puts k) := by
  induction ops generalizing m with
  | nil => exact (Option.or_none).symm
  | cons op ops ih =>
      rw [List.findSome?_cons]
      change after (step m op) ops k = _
      rw [ih, step_apply, Option.or_assoc]
      cases op.puts k <;> rfl

theorem length_results (m : Contents κ ν) (ops : List (Op κ ν)) :
    (results m ops).length = ops.length := by
  induction ops generalizing m with
  | nil => rfl
  | cons op ops ih => exact congrArg Nat.succ (ih _)

theorem results_append (m : Contents κ ν) (ops more : List (Op κ ν)) :
    results m (ops ++ more) = results m ops ++ results (after m ops) more := by
  induction ops generalizing m with
  | nil => rfl
  | cons op ops ih => exact congrArg (result m op :: ·) (ih _)

/-! ## Operations performed again -/

/-- An operation that would change nothing. -/
def Settled (m : Contents κ ν) (op : Op κ ν) : Prop := ∀ k, (op.puts k).isSome → (m k).isSome

theorem Settled.step_eq {op : Op κ ν} (h : Settled m op) : step m op = m := by
  funext k
  rw [step_apply]
  cases hputs : op.puts k with
  | none => exact Option.or_none
  | some v =>
      obtain ⟨u, hu⟩ := Option.isSome_iff_exists.mp (h k (by rw [hputs]; rfl))
      rw [hu, Option.some_or]

theorem Settled.step {op : Op κ ν} (h : Settled m op) (op' : Op κ ν) :
    Settled (step m op') op := by
  intro k hk
  rw [step_apply, Option.isSome_or, h k hk]
  rfl

theorem settled_step (m : Contents κ ν) (op : Op κ ν) : Settled (step m op) op := by
  intro k hk
  rw [step_apply, Option.isSome_or, hk, Bool.or_true]

/-- The operations that are marked have been performed before. -/
def Resent (sent : List (Op κ ν × Bool)) : Prop :=
  ∀ pre op post, sent = pre ++ (op, true) :: post → ∃ again, (op, again) ∈ pre

def unmarked {α : Type*} (xs : List (α × Bool)) : List α :=
  (xs.filter fun x => !x.2).map Prod.fst

theorem unmarked_cons {α : Type*} (a : α) (again : Bool) (xs : List (α × Bool)) :
    unmarked ((a, again) :: xs) = if again then unmarked xs else a :: unmarked xs := by
  cases again <;> rfl

theorem unmarked_map {α β : Type*} (f : α → β) (xs : List (α × Bool)) :
    unmarked (xs.map fun x => (f x.1, x.2)) = (unmarked xs).map f := by
  rw [unmarked, List.filter_map, List.map_map, unmarked, List.map_map]
  rfl

theorem unmarked_zip_map {α β : Type*} (f : α → β) (xs : List (α × Bool)) :
    unmarked (((xs.map Prod.fst).map f).zip (xs.map Prod.snd)) = (unmarked xs).map f := by
  rw [← unmarked_map, List.map_map, List.zip_map']
  rfl

/-- Marks that belong to two lists choose from their combination what they choose
from both. -/
theorem unmarked_zipWith {α β γ : Type*} (f : α → β → γ) {as : List α} {bs : List β}
    {marks : List Bool} (has : as.length = marks.length) (hbs : bs.length = marks.length) :
    unmarked ((List.zipWith f as bs).zip marks) =
      List.zipWith f (unmarked (as.zip marks)) (unmarked (bs.zip marks)) := by
  induction marks generalizing as bs with
  | nil =>
      obtain rfl := List.length_eq_zero_iff.mp has
      rfl
  | cons mark marks ih =>
      obtain ⟨a, as, rfl⟩ := List.exists_cons_of_length_eq_add_one has
      obtain ⟨b, bs, rfl⟩ := List.exists_cons_of_length_eq_add_one hbs
      have hrest := ih (Nat.succ.inj has) (Nat.succ.inj hbs)
      cases mark with
      | true => exact hrest
      | false => exact congrArg (f a b :: ·) hrest

/-- Behind operations `seen` that are settled, what is sent again changes nothing. -/
theorem results_resent_behind (seen : List (Op κ ν)) {sent : List (Op κ ν × Bool)}
    (hseen : ∀ op ∈ seen, Settled m op)
    (hsent : ∀ pre op post, sent = pre ++ (op, true) :: post →
      op ∈ seen ∨ ∃ again, (op, again) ∈ pre) :
    unmarked ((results m (sent.map Prod.fst)).zip (sent.map Prod.snd)) =
        results m (unmarked sent) ∧
      after m (sent.map Prod.fst) = after m (unmarked sent) := by
  induction sent generalizing m seen with
  | nil => exact ⟨rfl, rfl⟩
  | cons x sent ih =>
      obtain ⟨op, again⟩ := x
      have hsettled : ∀ op' ∈ op :: seen, Settled (step m op) op' := by
        intro op' hop'
        rcases List.mem_cons.mp hop' with rfl | hop'
        · exact settled_step m op'
        · exact (hseen op' hop').step op
      have hlater : ∀ pre op' post, sent = pre ++ (op', true) :: post →
          op' ∈ op :: seen ∨ ∃ again, (op', again) ∈ pre := by
        rintro pre op' post rfl
        rcases hsent ((op, again) :: pre) op' post rfl with hop' | ⟨again', hop'⟩
        · exact Or.inl (List.mem_cons_of_mem _ hop')
        · rcases List.mem_cons.mp hop' with hsame | hop'
          · obtain rfl := congrArg Prod.fst hsame
            exact Or.inl List.mem_cons_self
          · exact Or.inr ⟨again', hop'⟩
      have hrest := ih (op :: seen) hsettled hlater
      rw [unmarked_cons]
      cases again with
      | false => exact ⟨congrArg (result m op :: ·) hrest.1, hrest.2⟩
      | true =>
          -- An operation that is performed again is settled.
          have hop : op ∈ seen := by
            rcases hsent [] op sent rfl with hop | ⟨_, hop⟩
            · exact hop
            · cases hop
          have hstep : step m op = m := (hseen op hop).step_eq
          have hsame : results (step m op) (unmarked sent) = results m (unmarked sent) ∧
              after (step m op) (unmarked sent) = after m (unmarked sent) := by
            rw [hstep]
            exact ⟨rfl, rfl⟩
          exact ⟨hrest.1.trans hsame.1, hrest.2.trans hsame.2⟩

/-- **Exactly once from at least once.** Operations that are performed again change
no result of the others and not the contents. -/
theorem results_resent {sent : List (Op κ ν × Bool)} (h : Resent sent)
    (m : Contents κ ν) :
    unmarked ((results m (sent.map Prod.fst)).zip (sent.map Prod.snd)) =
        results m (unmarked sent) ∧
      after m (sent.map Prod.fst) = after m (unmarked sent) := by
  apply results_resent_behind []
  · exact fun _ hop => absurd hop List.not_mem_nil
  · exact fun pre op post hsplit => Or.inr (h pre op post hsplit)

end

end WriteOnce
