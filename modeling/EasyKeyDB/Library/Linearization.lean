import Mathlib.Data.List.Induction
import Mathlib.Data.List.Infix

/-!
# Linearizability

Clients call operations of a shared object and are given results. The calls and
returns of all clients, in their order in time, are a history. It is linearizable when
its operations can be put into one order (`Linearizes`): one after the other they give
the same results, each client's operations are in the order of its calls, and an operation
that has returned before another was called comes before it.

To find the order, say of each operation when it takes effect. The rules `Points.call`,
`Points.effect` and `Points.ret` build the order along with the history, and
`Points.linearizes` says that real time is kept.
-/

namespace Linearization

variable {ι ο ρ σ : Type*}

/-- An object that is used by one client. -/
structure Sequential (σ ο ρ : Type*) where
  step : σ → ο → σ
  result : σ → ο → ρ

namespace Sequential

def after (O : Sequential σ ο ρ) (s : σ) (ops : List ο) : σ := ops.foldl O.step s

def results (O : Sequential σ ο ρ) (s : σ) : List ο → List ρ
  | [] => []
  | op :: ops => O.result s op :: O.results (O.step s op) ops

theorem after_append (O : Sequential σ ο ρ) (s : σ) (ops more : List ο) :
    O.after s (ops ++ more) = O.after (O.after s ops) more :=
  List.foldl_append

theorem results_append (O : Sequential σ ο ρ) (s : σ) (ops more : List ο) :
    O.results s (ops ++ more) = O.results s ops ++ O.results (O.after s ops) more := by
  induction ops generalizing s with
  | nil => rfl
  | cons op ops ih => exact congrArg (O.result s op :: ·) (ih _)

end Sequential

inductive Event (ι ο ρ : Type*)
  | call (client : ι) (op : ο)
  | ret (client : ι) (result : ρ)
deriving DecidableEq

/-- An operation that has taken effect. -/
structure Effect (ι ο ρ : Type*) where
  client : ι
  op : ο
  result : ρ
deriving DecidableEq

section

variable [DecidableEq ι]

def calls (n : ι) (history : List (Event ι ο ρ)) : List ο :=
  history.filterMap fun
    | .call m op => if m = n then some op else none
    | .ret _ _ => none

def returns (n : ι) (history : List (Event ι ο ρ)) : List ρ :=
  history.filterMap fun
    | .call _ _ => none
    | .ret m result => if m = n then some result else none

def effects (n : ι) (order : List (Effect ι ο ρ)) : List (Effect ι ο ρ) :=
  order.filter fun e => e.client = n

/-- The history is one of the object, started at `s`, and `order` shows it. -/
structure Linearizes (O : Sequential σ ο ρ) (s : σ) (history : List (Event ι ο ρ))
    (order : List (Effect ι ο ρ)) : Prop where
  legal : order.map Effect.result = O.results s (order.map Effect.op)
  /-- What takes effect has been called, in this order. -/
  called : ∀ n, (effects n order).map Effect.op <+: calls n history
  /-- What has been given to a client are the results of its operations. -/
  returned : ∀ n, returns n history <+: (effects n order).map Effect.result
  /-- If `m`'s operation `i` has returned before `n`'s operation `j` is called, it takes
  effect first. -/
  realTime : ∀ m i n j,
    (∃ h, h <+: history ∧ i < (returns m h).length ∧ (calls n h).length ≤ j) →
      ∃ o, o <+: order ∧ i < (effects m o).length ∧ (effects n o).length ≤ j

/-- At every time the operations that have taken effect are between those that have
been called and those that have returned. -/
structure Points (O : Sequential σ ο ρ) (s : σ) (history : List (Event ι ο ρ))
    (order : List (Effect ι ο ρ)) : Prop where
  legal : order.map Effect.result = O.results s (order.map Effect.op)
  called : ∀ n, (effects n order).map Effect.op <+: calls n history
  returned : ∀ n, returns n history <+: (effects n order).map Effect.result
  between : ∀ h, h <+: history → ∃ o, o <+: order ∧ ∀ n,
    (returns n h).length ≤ (effects n o).length ∧ (effects n o).length ≤ (calls n h).length

theorem calls_append (n : ι) (history more : List (Event ι ο ρ)) :
    calls n (history ++ more) = calls n history ++ calls n more :=
  List.filterMap_append

theorem returns_append (n : ι) (history more : List (Event ι ο ρ)) :
    returns n (history ++ more) = returns n history ++ returns n more :=
  List.filterMap_append

theorem effects_append (n : ι) (order more : List (Effect ι ο ρ)) :
    effects n (order ++ more) = effects n order ++ effects n more :=
  List.filter_append _ _

theorem calls_call (n m : ι) (op : ο) :
    calls n [(.call m op : Event ι ο ρ)] = if m = n then [op] else [] := by
  by_cases h : m = n <;> simp [calls, h]

theorem effects_singleton (n : ι) (e : Effect ι ο ρ) :
    effects n [e] = if e.client = n then [e] else [] := by
  by_cases h : e.client = n <;> simp [effects, h]

theorem returns_ret (n m : ι) (result : ρ) :
    returns n [(.ret m result : Event ι ο ρ)] = if m = n then [result] else [] := by
  by_cases h : m = n <;> simp [returns, h]

namespace Points

variable {O : Sequential σ ο ρ} {s : σ} {history : List (Event ι ο ρ)}
  {order : List (Effect ι ο ρ)}

theorem nil : Points O s ([] : List (Event ι ο ρ)) [] where
  legal := rfl
  called _ := List.nil_prefix
  returned _ := List.nil_prefix
  between h hh := by
    obtain rfl := List.prefix_nil.mp hh
    exact ⟨[], List.nil_prefix, fun _ => ⟨Nat.le_refl _, Nat.le_refl _⟩⟩

/-- What is true of the whole history need not be asked for. -/
theorem event {e : Event ι ο ρ}
    (hlegal : order.map Effect.result = O.results s (order.map Effect.op))
    (hcalled : ∀ n, (effects n order).map Effect.op <+: calls n (history ++ [e]))
    (hreturned : ∀ n, returns n (history ++ [e]) <+: (effects n order).map Effect.result)
    (hbetween : ∀ h, h <+: history → ∃ o, o <+: order ∧ ∀ n,
      (returns n h).length ≤ (effects n o).length ∧
        (effects n o).length ≤ (calls n h).length) :
    Points O s (history ++ [e]) order := by
  refine ⟨hlegal, hcalled, hreturned, ?_⟩
  intro h hh
  rcases List.prefix_concat_iff.mp hh with rfl | hh
  · refine ⟨order, List.prefix_refl _, fun n => ⟨?_, ?_⟩⟩
    · exact (hreturned n).length_le.trans_eq (List.length_map _)
    · exact (List.length_map _).symm.trans_le (hcalled n).length_le
  · exact hbetween h hh

theorem call (h : Points O s history order) (n : ι) (op : ο) :
    Points O s (history ++ [.call n op]) order := by
  apply event h.legal _ _ h.between
  · intro m
    rw [calls_append]
    exact (h.called m).trans (List.prefix_append _ _)
  · intro m
    have hnone : returns m [(.call n op : Event ι ο ρ)] = [] := rfl
    rw [returns_append, hnone, List.append_nil]
    exact h.returned m

theorem effect (h : Points O s history order) {n : ι} {op : ο}
    (hop : (effects n order).map Effect.op ++ [op] <+: calls n history) :
    Points O s history
      (order ++ [⟨n, op, O.result (O.after s (order.map Effect.op)) op⟩]) := by
  constructor
  · rw [List.map_append, List.map_append, O.results_append, h.legal]
    rfl
  · intro m
    rw [effects_append, effects_singleton]
    by_cases hm : n = m
    · subst hm
      rw [if_pos rfl, List.map_append]
      exact hop
    · rw [if_neg hm, List.append_nil]
      exact h.called m
  · intro m
    rw [effects_append, List.map_append]
    exact (h.returned m).trans (List.prefix_append _ _)
  · intro h' hh'
    obtain ⟨o, ho, hcounts⟩ := h.between h' hh'
    exact ⟨o, ho.trans (List.prefix_append _ _), hcounts⟩

theorem ret (h : Points O s history order) {n : ι} {result : ρ}
    (hresult : returns n history ++ [result] <+: (effects n order).map Effect.result) :
    Points O s (history ++ [.ret n result]) order := by
  apply event h.legal _ _ h.between
  · intro m
    have hnone : calls m [(.ret n result : Event ι ο ρ)] = [] := rfl
    rw [calls_append, hnone, List.append_nil]
    exact h.called m
  · intro m
    rw [returns_append, returns_ret]
    by_cases hm : n = m
    · subst hm
      rw [if_pos rfl]
      exact hresult
    · rw [if_neg hm, List.append_nil]
      exact h.returned m

/-- **Points in time make an order.** -/
theorem linearizes (h : Points O s history order) : Linearizes O s history order := by
  refine ⟨h.legal, h.called, h.returned, ?_⟩
  rintro m i n j ⟨h', hh', hi, hj⟩
  obtain ⟨o, ho, hcounts⟩ := h.between h' hh'
  exact ⟨o, ho, hi.trans_le (hcounts m).1, (hcounts n).2.trans hj⟩

end Points

end

end Linearization
