import Mathlib.Data.List.Induction
import Mathlib.Tactic.TypeStar

/-!
# Runs of a labelled transition system

A system is a relation `step` between a state, a label and a next state. A run
is a list of labels with the states between them left implicit; it grows at its
end. A run can be cut anywhere (`Run.of_append`, `Run.split`), and what every
step preserves holds at its end (`Run.invariant`).
-/

section Runs

variable {σ α : Type*} {step : σ → α → σ → Prop} {s t : σ}

/-- The steps labelled `xs`, from `s`. -/
inductive Run (step : σ → α → σ → Prop) (s : σ) : List α → σ → Prop
  | nil : Run step s [] s
  | snoc {xs : List α} {m : σ} {x : α} {t : σ} :
      Run step s xs m → step m x t → Run step s (xs ++ [x]) t

namespace Run

theorem nil_iff : Run step s [] t ↔ s = t := by
  constructor
  · intro h
    generalize hxs : ([] : List α) = xs at h
    cases h with
    | nil => rfl
    | snoc _ _ => simp at hxs
  · rintro rfl
    exact .nil

theorem snoc_iff {xs : List α} {x : α} :
    Run step s (xs ++ [x]) t ↔ ∃ m, Run step s xs m ∧ step m x t := by
  constructor
  · intro h
    generalize hys : xs ++ [x] = ys at h
    cases h with
    | nil => simp at hys
    | @snoc zs m z _ hrun hstep =>
        obtain ⟨rfl, hz⟩ := List.append_inj' hys rfl
        obtain rfl := (List.cons.inj hz).1
        exact ⟨m, hrun, hstep⟩
  · rintro ⟨m, hrun, hstep⟩
    exact .snoc hrun hstep

theorem single {x : α} (h : step s x t) : Run step s [x] t := .snoc .nil h

theorem append {m : σ} {xs ys : List α} (h : Run step s xs m) (h' : Run step m ys t) :
    Run step s (xs ++ ys) t := by
  induction h' with
  | nil => rwa [List.append_nil]
  | snoc _ hstep ih =>
      rw [← List.append_assoc]
      exact .snoc ih hstep

theorem of_append {xs ys : List α} (h : Run step s (xs ++ ys) t) :
    ∃ m, Run step s xs m ∧ Run step m ys t := by
  induction ys using List.reverseRecOn generalizing t with
  | nil =>
      rw [List.append_nil] at h
      exact ⟨t, h, .nil⟩
  | append_singleton ys y ih =>
      rw [← List.append_assoc] at h
      obtain ⟨u, hrun, hstep⟩ := snoc_iff.mp h
      obtain ⟨m, hleft, hright⟩ := ih hrun
      exact ⟨m, hleft, .snoc hright hstep⟩

theorem split {pre post : List α} {x : α} (h : Run step s (pre ++ x :: post) t) :
    ∃ m m', Run step s pre m ∧ step m x m' ∧ Run step m' post t := by
  rw [List.append_cons] at h
  obtain ⟨m', hleft, hright⟩ := of_append h
  obtain ⟨m, hpre, hstep⟩ := snoc_iff.mp hleft
  exact ⟨m, m', hpre, hstep, hright⟩

theorem cons_iff {x : α} {xs : List α} :
    Run step s (x :: xs) t ↔ ∃ m, step s x m ∧ Run step m xs t := by
  constructor
  · intro h
    change Run step s ([] ++ x :: xs) t at h
    obtain ⟨m, m', hstart, hstep, hrest⟩ := h.split
    obtain rfl := nil_iff.mp hstart
    exact ⟨m', hstep, hrest⟩
  · rintro ⟨m, hstep, hrest⟩
    exact (single hstep).append hrest

/-- What holds at the start and is preserved by every step holds at the end. -/
theorem invariant {I : σ → Prop} (hstart : I s)
    (hstep : ∀ m x m', I m → step m x m' → I m') {xs : List α}
    (h : Run step s xs t) : I t := by
  induction h with
  | nil => exact hstart
  | snoc _ hlast ih => exact hstep _ _ _ ih hlast

/-- The same for a property of the labels so far and the state they led to. -/
theorem history {I : List α → σ → Prop} (hstart : I [] s)
    (hstep : ∀ xs m x m', I xs m → step m x m' → I (xs ++ [x]) m') {xs : List α}
    (h : Run step s xs t) : I xs t := by
  induction h with
  | nil => exact hstart
  | snoc _ hlast ih => exact hstep _ _ _ _ ih hlast

theorem mono {step' : σ → α → σ → Prop} (hstep : ∀ m x m', step m x m' → step' m x m')
    {xs : List α} (h : Run step s xs t) : Run step' s xs t := by
  induction h with
  | nil => exact .nil
  | snoc _ hlast ih => exact .snoc ih (hstep _ _ _ hlast)

theorem unique (hstep : ∀ m x t t', step m x t → step m x t' → t = t') {t' : σ}
    {xs : List α} (h : Run step s xs t) (h' : Run step s xs t') : t = t' := by
  induction h generalizing t' with
  | nil => exact nil_iff.mp h'
  | snoc _ hlast ih =>
      obtain ⟨m', hrun, hlast'⟩ := snoc_iff.mp h'
      obtain rfl := ih hrun
      exact hstep _ _ _ _ hlast hlast'

/-- If each step is matched by some steps of another system, so is a run. -/
theorem simulated {σ' β : Type*} {step' : σ' → β → σ' → Prop} {R : σ → σ' → Prop} {s' : σ'}
    (hstart : R s s') (hstep : ∀ m x t m', R m m' → step m x t →
      ∃ ys t', Run step' m' ys t' ∧ R t t') {xs : List α} (h : Run step s xs t) :
    ∃ ys t', Run step' s' ys t' ∧ R t t' := by
  induction h with
  | nil => exact ⟨[], s', .nil, hstart⟩
  | snoc _ hlast ih =>
      obtain ⟨ys, m', hrun, hm⟩ := ih
      obtain ⟨zs, t', hrest, ht⟩ := hstep _ _ _ m' hm hlast
      exact ⟨ys ++ zs, t', hrun.append hrest, ht⟩

end Run

/-- What every pass of a loop relates, the loop relates, if the relation is a
preorder. -/
theorem foldlM_relates {ε : Type*} {f : σ → α → Except ε σ} {R : σ → σ → Prop}
    (hrefl : ∀ s, R s s) (htrans : ∀ s m t, R s m → R m t → R s t)
    (hpass : ∀ s x s', f s x = .ok s' → R s s') {xs : List α}
    (h : xs.foldlM f s = .ok t) : R s t := by
  induction xs generalizing s with
  | nil =>
      obtain rfl := Except.ok.inj h
      exact hrefl s
  | cons x xs ih =>
      rw [List.foldlM_cons] at h
      cases hx : f s x with
      | error e =>
          rw [hx] at h
          cases h
      | ok m =>
          rw [hx] at h
          exact htrans s m t (hpass s x m hx) (ih h)

/-- What every pass of a loop commutes with, the loop commutes with. -/
theorem foldlM_commutes {ε : Type*} {f : σ → α → Except ε σ} {g : σ → σ}
    (hpass : ∀ s x, f (g s) x = (f s x).map g) (s : σ) (xs : List α) :
    xs.foldlM f (g s) = (xs.foldlM f s).map g := by
  induction xs generalizing s with
  | nil => rfl
  | cons x xs ih =>
      rw [List.foldlM_cons, List.foldlM_cons, hpass]
      cases f s x with
      | error e => rfl
      | ok m => exact ih m

section Attempts

variable {ε : Type*} {enabled : σ → α → Prop} [∀ s x, Decidable (enabled s x)]
  {next : σ → α → Except ε σ}

/-- The state after a step, if it is enabled and does not fail. -/
def attempt (enabled : σ → α → Prop) [∀ s x, Decidable (enabled s x)]
    (next : σ → α → Except ε σ) (s : σ) (x : α) : Option σ :=
  if enabled s x then (next s x).toOption else none

theorem attempt_eq_some {x : α} (h : attempt enabled next s x = some t) :
    enabled s x ∧ next s x = .ok t := by
  unfold attempt at h
  split_ifs at h with hx
  cases hnext : next s x with
  | error e =>
      rw [hnext] at h
      cases h
  | ok m =>
      rw [hnext] at h
      obtain rfl := Option.some.inj h
      exact ⟨hx, rfl⟩

theorem Run.of_attempts {xs : List α} (h : xs.foldlM (attempt enabled next) s = some t) :
    Run (fun s x t => enabled s x ∧ next s x = .ok t) s xs t := by
  induction xs generalizing s with
  | nil =>
      obtain rfl := Option.some.inj h
      exact .nil
  | cons x xs ih =>
      rw [List.foldlM_cons] at h
      obtain ⟨m, hx, hxs⟩ := Option.bind_eq_some_iff.mp h
      exact Run.cons_iff.mpr ⟨m, attempt_eq_some hx, ih hxs⟩

theorem Run.of_view {β : Type*} {xs : List α} {view : σ → β} {seen : β}
    (h : (xs.foldlM (attempt enabled next) s).map view = some seen) :
    ∃ t, Run (fun s x t => enabled s x ∧ next s x = .ok t) s xs t ∧ view t = seen := by
  obtain ⟨t, ht, hview⟩ := Option.map_eq_some_iff.mp h
  exact ⟨t, Run.of_attempts ht, hview⟩

end Attempts

end Runs
