import Mathlib.Data.List.Count

/-!
# Objects that are opened and closed once

Objects get consecutive numbers when they are opened. A log records openings and
closings, or only one of the two kinds, or none. `Consistent` says that the log
has one opening for every number handed out, and one closing for every one of
them that is not `live` any more. Opening the next object (`Consistent.opens`)
and closing a live one (`Consistent.closes`) keep it so.
-/

namespace Lifecycle

/-- The entries of a log of type `List ε`, and which of them are made. -/
structure Notices (ε : Type*) where
  opened : Nat → ε
  closed : Nat → ε
  tellsOpened : Bool
  tellsClosed : Bool
  opened_injective : Function.Injective opened
  closed_injective : Function.Injective closed
  opened_ne_closed : ∀ m n, opened m ≠ closed n

/-- The log after something that is recorded only if `told`. -/
def record {ε : Type*} (told : Bool) (log : List ε) (e : ε) : List ε :=
  if told then log ++ [e] else log

section

variable {ε : Type*} [DecidableEq ε] {notices : Notices ε} {next : Nat}
  {live live' : Nat → Prop} {log : List ε}

structure Consistent (notices : Notices ε) (next : Nat) (live : Nat → Prop)
    (log : List ε) : Prop where
  issued : ∀ n, live n → n < next
  opened : ∀ n, log.count (notices.opened n) =
    if n < next then notices.tellsOpened.toNat else 0
  running : ∀ n, live n → log.count (notices.closed n) = 0
  ended : ∀ n, n < next → ¬ live n →
    log.count (notices.closed n) = notices.tellsClosed.toNat
  future : ∀ n, next ≤ n → log.count (notices.closed n) = 0

theorem count_record_self (told : Bool) (log : List ε) (e : ε) :
    (record told log e).count e = log.count e + told.toNat := by
  cases told with
  | false => rfl
  | true =>
      show (log ++ [e]).count e = _
      rw [List.count_append, List.count_singleton_self]
      rfl

theorem count_record_of_ne {e e' : ε} (h : e ≠ e') (told : Bool) (log : List ε) :
    (record told log e).count e' = log.count e' := by
  cases told with
  | false => rfl
  | true =>
      show (log ++ [e]).count e' = _
      have hnone : [e].count e' = 0 :=
        List.count_eq_zero_of_not_mem fun hmem => h (List.mem_singleton.mp hmem).symm
      rw [List.count_append, hnone, Nat.add_zero]

theorem Consistent.nil : Consistent notices 0 (fun _ => False) [] where
  issued := fun _ h => h.elim
  opened := fun _ => rfl
  running := fun _ h => h.elim
  ended := fun n h => absurd h (Nat.not_lt_zero n)
  future := fun _ _ => rfl

theorem Consistent.congr (h : Consistent notices next live log)
    (hlive : ∀ n, live' n ↔ live n) : Consistent notices next live' log := by
  have hsame : live' = live := by
    ext n
    exact hlive n
  rwa [hsame]

theorem Consistent.opens (h : Consistent notices next live log)
    (hlive : ∀ n, live' n ↔ live n ∨ n = next) :
    Consistent notices (next + 1) live'
      (record notices.tellsOpened log (notices.opened next)) := by
  have hclosed : ∀ n, (record notices.tellsOpened log (notices.opened next)).count
      (notices.closed n) = log.count (notices.closed n) := fun n =>
    count_record_of_ne (notices.opened_ne_closed next n) _ log
  refine ⟨?_, ?_, ?_, ?_, ?_⟩
  · intro n hn
    rcases (hlive n).mp hn with hn | rfl
    · exact Nat.lt_succ_of_lt (h.issued n hn)
    · exact Nat.lt_succ_self n
  · intro n
    by_cases hn : n = next
    · subst hn
      rw [count_record_self, h.opened, if_neg (Nat.lt_irrefl n), Nat.zero_add,
        if_pos (Nat.lt_succ_self n)]
    · have hne : notices.opened next ≠ notices.opened n := fun hsame =>
        hn (notices.opened_injective hsame).symm
      rw [count_record_of_ne hne, h.opened]
      refine if_congr ?_ rfl rfl
      exact ⟨Nat.lt_succ_of_lt, fun hlt => Nat.lt_of_le_of_ne (Nat.le_of_lt_succ hlt) hn⟩
  · intro n hn
    rw [hclosed]
    rcases (hlive n).mp hn with hn | rfl
    · exact h.running n hn
    · exact h.future n (Nat.le_refl n)
  · intro n hlt hn
    rw [hlive, not_or] at hn
    rw [hclosed]
    exact h.ended n (Nat.lt_of_le_of_ne (Nat.le_of_lt_succ hlt) hn.2) hn.1
  · intro n hle
    rw [hclosed]
    exact h.future n (Nat.le_of_succ_le hle)

theorem Consistent.closes (h : Consistent notices next live log) {m : Nat} (hm : live m)
    (hlive : ∀ n, live' n ↔ live n ∧ n ≠ m) :
    Consistent notices next live'
      (record notices.tellsClosed log (notices.closed m)) := by
  have hother : ∀ n, n ≠ m → (record notices.tellsClosed log (notices.closed m)).count
      (notices.closed n) = log.count (notices.closed n) := by
    intro n hn
    exact count_record_of_ne (fun hsame => hn (notices.closed_injective hsame).symm) _ log
  refine ⟨?_, ?_, ?_, ?_, ?_⟩
  · intro n hn
    exact h.issued n ((hlive n).mp hn).1
  · intro n
    rw [count_record_of_ne (notices.opened_ne_closed n m).symm, h.opened]
  · intro n hn
    obtain ⟨hn, hne⟩ := (hlive n).mp hn
    rw [hother n hne]
    exact h.running n hn
  · intro n hlt hn
    by_cases hne : n = m
    · subst hne
      rw [count_record_self, h.running n hm, Nat.zero_add]
    · rw [hother n hne]
      exact h.ended n hlt fun hold => hn ((hlive n).mpr ⟨hold, hne⟩)
  · intro n hle
    have hne : n ≠ m := by
      rintro rfl
      exact absurd (h.issued n hm) (Nat.not_lt_of_le hle)
    rw [hother n hne]
    exact h.future n hle

end

end Lifecycle
