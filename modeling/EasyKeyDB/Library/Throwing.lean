import Mathlib.Data.List.Basic

/-!
# Code that carries a state and may throw

Rules for `EStateM`, one for each way in which a piece of code may end: the
next piece goes on from where the first has come to, or the exception goes
through, or it is caught. A loop that goes through has gone through its first
round and the others. What every piece keeps however it ends, the whole keeps
(`Keeps`). Code that only throws is `Except`.
-/

namespace Throwing

universe u

variable {ε σ α β : Type u} {s t m : σ} {e : ε}

section

variable {x : EStateM ε σ α} {f : α → EStateM ε σ β} {a : α} {b : β}

theorem bind_ok (h : x s = .ok a t) : (x >>= f) s = f a t := by
  simp only [bind, EStateM.bind, h]

theorem bind_error (h : x s = .error e t) : (x >>= f) s = .error e t := by
  simp only [bind, EStateM.bind, h]

theorem bind_eq_ok (h : (x >>= f) s = .ok b t) :
    ∃ a m, x s = .ok a m ∧ f a m = .ok b t := by
  cases hx : x s with
  | ok a m =>
      rw [bind_ok hx] at h
      exact ⟨a, m, rfl, h⟩
  | error e m =>
      rw [bind_error hx] at h
      cases h

theorem end_unique {a' : α} (h : x s = .ok a t) (h' : x s = .ok a' m) : t = m :=
  (EStateM.Result.ok.inj (h.symm.trans h')).2

theorem catch_ok {handle : ε → EStateM ε σ α} (h : x s = .ok a t) :
    (tryCatch x handle : EStateM ε σ α) s = .ok a t := by
  show EStateM.tryCatch x handle s = _
  simp only [EStateM.tryCatch, h]

theorem catch_error {handle : ε → EStateM ε σ α} (h : x s = .error e t) :
    (tryCatch x handle : EStateM ε σ α) s = handle e t := by
  show EStateM.tryCatch x handle s = _
  simp only [EStateM.tryCatch, h]
  rfl

end

section

variable {f : α → EStateM ε σ β} {x : α} {xs : List α} {y : β} {ys : List β}

theorem mapM_cons_ok (h : f x s = .ok y m) (hs : xs.mapM f m = .ok ys t) :
    (x :: xs).mapM f s = .ok (y :: ys) t := by
  rw [List.mapM_cons, bind_ok h, bind_ok hs]
  rfl

theorem mapM_cons_eq_ok (h : (x :: xs).mapM f s = .ok ys t) :
    ∃ y m ys', f x s = .ok y m ∧ xs.mapM f m = .ok ys' t ∧ ys = y :: ys' := by
  rw [List.mapM_cons] at h
  obtain ⟨y, m, hy, hrest⟩ := bind_eq_ok h
  obtain ⟨ys', m', hys, hpure⟩ := bind_eq_ok hrest
  cases hpure
  exact ⟨y, m, ys', hy, hys, rfl⟩

end

section

variable {I : σ → Prop} {x : EStateM ε σ α} {f : α → EStateM ε σ β}

def Keeps (I : σ → Prop) (x : EStateM ε σ α) : Prop := ∀ s, I s →
  match x s with
  | .ok _ t => I t
  | .error _ t => I t

theorem Keeps.pure (a : α) : Keeps I (pure a : EStateM ε σ α) := fun _ h => h

theorem Keeps.throw (e : ε) : Keeps I (throw e : EStateM ε σ α) := fun _ h => h

theorem Keeps.bind (hx : Keeps I x) (hf : ∀ a, Keeps I (f a)) : Keeps I (x >>= f) := by
  intro s hs
  have hfirst := hx s hs
  cases h : x s with
  | ok a m =>
      rw [h] at hfirst
      rw [bind_ok h]
      exact hf a m hfirst
  | error e m =>
      rw [h] at hfirst
      rw [bind_error h]
      exact hfirst

theorem Keeps.forM {xs : List β} {body : β → EStateM ε σ PUnit}
    (hbody : ∀ y ∈ xs, Keeps I (body y)) : Keeps I (xs.forM body) := by
  induction xs with
  | nil => exact Keeps.pure _
  | cons y xs ih =>
      exact (hbody y List.mem_cons_self).bind fun _ =>
        ih fun z hz => hbody z (List.mem_cons_of_mem _ hz)

theorem Keeps.catch {handle : ε → EStateM ε σ α} (hx : Keeps I x)
    (hhandle : ∀ e, Keeps I (handle e)) : Keeps I (tryCatch x handle : EStateM ε σ α) := by
  intro s hs
  have hfirst := hx s hs
  cases h : x s with
  | ok a m =>
      rw [h] at hfirst
      rw [catch_ok h]
      exact hfirst
  | error e m =>
      rw [h] at hfirst
      rw [catch_error h]
      exact hhandle e m hfirst

end

theorem except_bind_eq_ok {x : Except ε α} {f : α → Except ε β} {b : β}
    (h : x >>= f = .ok b) : ∃ a, x = .ok a ∧ f a = .ok b := by
  cases x with
  | error e => cases h
  | ok a => exact ⟨a, rfl, h⟩

theorem except_map_eq_ok {x : Except ε α} {f : α → β} {b : β} (h : x.map f = .ok b) :
    ∃ a, x = .ok a ∧ f a = b := by
  cases x with
  | error e => cases h
  | ok a => exact ⟨a, rfl, Except.ok.inj h⟩

theorem except_mapError_eq_ok {ε' : Type u} {f : ε → ε'} {x : Except ε α} {a : α}
    (h : x.mapError f = .ok a) : x = .ok a := by
  cases x with
  | ok b => exact congrArg Except.ok (Except.ok.inj h)
  | error e => cases h

end Throwing
