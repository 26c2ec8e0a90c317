import Mathlib.Data.List.Basic

/-!
# Buffers of a fixed size

A buffer that is allocated once and then written piece by piece. `copy` puts
some symbols at a position and is undefined where they do not fit, so that a
program written with it says where it leaves its buffer.

A buffer filled from the front is `done ++ rest`, and `copy_behind` is the rule
for the next piece. `Writes` says of a whole program what it writes behind what
is there, or else that this did not fit; it composes along sequences and loops.

`overlay` is the whole-buffer case of a transfer that may bring less than there
is room for.
-/

namespace FixedBuffer

variable {α : Type*}

/-- Put `src` at `offset`, if all of it lies in the buffer. -/
def copy (buffer : List α) (offset : Nat) (src : List α) : Option (List α) :=
  if offset + src.length ≤ buffer.length then
    some (buffer.take offset ++ src ++ buffer.drop (offset + src.length))
  else none

theorem copy_behind (done rest src : List α) :
    copy (done ++ rest) done.length src =
      if src.length ≤ rest.length then some (done ++ src ++ rest.drop src.length)
      else none := by
  have hdrop : (done ++ rest).drop (done.length + src.length) = rest.drop src.length := by
    rw [← List.drop_drop, List.drop_left]
  unfold copy
  rw [List.take_left, hdrop, List.length_append]
  by_cases hfits : src.length ≤ rest.length
  · rw [if_pos hfits, if_pos (Nat.add_le_add_left hfits _)]
  · rw [if_neg hfits, if_neg (fun h => hfits (Nat.le_of_add_le_add_left h))]

/-! ## Programs that fill a buffer -/

section Writes

variable {σ β : Type*} {filled : σ → List α → Prop} {size : Nat}

/-- From a state in which `done` has been written, `f` writes `out` behind it;
or it leaves the buffer, because `size` symbols do not hold both. -/
def Writes (filled : σ → List α → Prop) (size : Nat) (f : σ → Option σ) (out : List α) :
    Prop :=
  ∀ s done, filled s done →
    (∃ s', f s = some s' ∧ filled s' (done ++ out)) ∨
      (f s = none ∧ size < done.length + out.length)

theorem Writes.pure : Writes filled size (fun s => some s) [] := by
  intro s done h
  left
  refine ⟨s, rfl, ?_⟩
  rwa [List.append_nil]

theorem Writes.bind {f g : σ → Option σ} {out out' : List α}
    (hf : Writes filled size f out) (hg : Writes filled size g out') :
    Writes filled size (fun s => f s >>= g) (out ++ out') := by
  intro s done h
  rcases hf s done h with ⟨s', hs', h'⟩ | ⟨hnone, hlong⟩
  · have hrest := hg s' (done ++ out) h'
    rw [List.length_append, Nat.add_assoc, ← List.length_append, List.append_assoc] at hrest
    show (∃ t, f s >>= g = some t ∧ _) ∨ f s >>= g = none ∧ _
    rwa [hs']
  · right
    show f s >>= g = none ∧ _
    rw [hnone, List.length_append]
    exact ⟨rfl, by omega⟩

theorem Writes.foldlM {f : σ → β → Option σ} {out : β → List α}
    (hround : ∀ x, Writes filled size (fun s => f s x) (out x)) (xs : List β) :
    Writes filled size (fun s => xs.foldlM f s) (xs.flatMap out) := by
  induction xs with
  | nil => exact Writes.pure
  | cons x xs ih =>
      simp only [List.foldlM_cons, List.flatMap_cons]
      exact (hround x).bind ih

end Writes

/-- The buffer with `src` over its beginning. -/
def overlay (buffer src : List α) : List α := src ++ buffer.drop src.length

theorem length_overlay {buffer src : List α} (h : src.length ≤ buffer.length) :
    (overlay buffer src).length = buffer.length := by
  rw [overlay, List.length_append, List.length_drop]
  omega

/-- Over a buffer of one symbol, the source is padded with it. -/
theorem overlay_replicate (n : Nat) (a : α) (src : List α) :
    overlay (List.replicate n a) src = src ++ List.replicate (n - src.length) a := by
  rw [overlay, List.drop_replicate]

end FixedBuffer
