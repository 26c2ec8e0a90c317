import Mathlib.Data.List.Induction
import Mathlib.Tactic.TypeStar

/-!
# A consumer of a stream that arrives in portions

Items are sent one behind the other and arrive in portions, cut anywhere. After
each portion the consumer is called once. A call finds what the calls before it
have left, and the new portion behind that; if an item begins what it finds, it
takes that item, and otherwise it takes something all the same (`Consumes`).

`left` is what a sequence of calls leaves, and `busy` counts the calls that found
something. All items that arrive are taken, each from its own place in the
stream, exactly when the calls keep pace: of the calls that find something, the
`i`-th comes when the first `i` items are there (`takes_iff_inTime`).
-/

namespace Consumer

variable {α ρ : Type*}

/-- What calls, one for each portion, leave of the portions and of `u` before
them; `rest` is what one call leaves of what it finds. -/
def left (rest : List α → List α) (u : List α) (portions : List (List α)) : List α :=
  portions.foldl (fun u portion => rest (u ++ portion)) u

/-- How many of the calls find something. -/
def busy (rest : List α → List α) (u : List α) : List (List α) → Nat
  | [] => 0
  | portion :: portions =>
      (if (u ++ portion).isEmpty then 0 else 1) + busy rest (rest (u ++ portion)) portions

/-- A call takes the item at the beginning of what it finds, and something of
whatever it finds. -/
structure Consumes (rest : List α → List α) (encode : ρ → List α) : Prop where
  item : ∀ q t, rest (encode q ++ t) = t
  progress : ∀ s, s ≠ [] → (rest s).length < s.length
  idle : rest [] = []
  nonempty : ∀ q, encode q ≠ []

/-- One of the calls finds `q` at the beginning, when everything in front of it
has been taken, and that was the items `pre`. -/
def Takes (rest : List α → List α) (encode : ρ → List α) (portions : List (List α))
    (pre : List ρ) (q : ρ) : Prop :=
  ∃ before portion later, portions = before ++ portion :: later ∧
    before.flatten = pre.flatMap encode ++ left rest [] before ∧
    ∃ t, left rest [] before ++ portion = encode q ++ t

/-- Of the calls that find something, the one behind as many as there are items
in `pre` comes when these items and `q` have arrived. -/
def InTime (rest : List α → List α) (encode : ρ → List α) (portions : List (List α))
    (pre : List ρ) (q : ρ) : Prop :=
  ∃ before portion later, portions = before ++ portion :: later ∧
    busy rest [] before = pre.length ∧ left rest [] before ++ portion ≠ [] ∧
    (pre.flatMap encode ++ encode q).length ≤ (before.flatten ++ portion).length

section

variable {rest : List α → List α} {encode : ρ → List α}

theorem left_append (u : List α) (ps qs : List (List α)) :
    left rest u (ps ++ qs) = left rest (left rest u ps) qs :=
  List.foldl_append

theorem busy_append (u : List α) (ps qs : List (List α)) :
    busy rest u (ps ++ qs) = busy rest u ps + busy rest (left rest u ps) qs := by
  induction ps generalizing u with
  | nil => exact (Nat.zero_add _).symm
  | cons p ps ih =>
      rw [List.cons_append, busy, busy, ih, Nat.add_assoc]
      rfl

/-- Each call that finds something takes something. -/
theorem left_add_busy_le (h : Consumes rest encode) (u : List α) (ps : List (List α)) :
    (left rest u ps).length + busy rest u ps ≤ u.length + ps.flatten.length := by
  induction ps generalizing u with
  | nil => exact Nat.le_refl _
  | cons p ps ih =>
      have hrest := ih (rest (u ++ p))
      rw [List.flatten_cons, List.length_append]
      change (left rest (rest (u ++ p)) ps).length + (_ + busy rest (rest (u ++ p)) ps) ≤ _
      by_cases hempty : u ++ p = []
      · rw [hempty, h.idle] at hrest ⊢
        simp only [List.isEmpty_nil, if_true]
        simp only [List.length_nil] at hrest
        omega
      · have hless := h.progress (u ++ p) hempty
        rw [List.length_append] at hless
        rw [if_neg (by simpa using hempty)]
        omega

theorem left_of_idle (h : Consumes rest encode) {u : List α} {ps : List (List α)}
    (hidle : busy rest u ps = 0) : left rest u ps = u ∧ ps.flatten = [] := by
  induction ps generalizing u with
  | nil => exact ⟨rfl, rfl⟩
  | cons p ps ih =>
      rw [busy, Nat.add_eq_zero_iff] at hidle
      rcases hidle with ⟨hfirst, hlater⟩
      have hempty : u ++ p = [] := by
        by_contra hfound
        rw [if_neg (by simpa using hfound)] at hfirst
        cases hfirst
      obtain ⟨rfl, rfl⟩ := List.append_eq_nil_iff.mp hempty
      rw [List.append_nil, h.idle] at hlater
      obtain ⟨hleft, hflat⟩ := ih hlater
      refine ⟨?_, hflat⟩
      change left rest (rest ([] ++ [])) ps = []
      rw [List.append_nil, h.idle, hleft]

/-- Two places in a sequence of calls: the same, or one before the other. -/
theorem split_cases {β : Type*} {b b' l l' : List β} {p p' : β}
    (h : b ++ p :: l = b' ++ p' :: l') :
    b = b' ∨ (∃ m, b = b' ++ p' :: m) ∨ ∃ m, b' = b ++ p :: m := by
  rcases List.append_eq_append_iff.mp h with ⟨m, rfl, hm⟩ | ⟨m, rfl, hm⟩
  · rcases m with _ | ⟨x, m⟩
    · exact Or.inl (List.append_nil b).symm
    · rw [List.cons_append, List.cons.injEq] at hm
      exact Or.inr (Or.inr ⟨m, by rw [hm.1]⟩)
  · rcases m with _ | ⟨x, m⟩
    · exact Or.inl (List.append_nil b')
    · rw [List.cons_append, List.cons.injEq] at hm
      exact Or.inr (Or.inl ⟨m, by rw [hm.1]⟩)

theorem taken_behind_item {before : List (List α)} {portion t : List α} {pre : List ρ} {q : ρ}
    (hbefore : before.flatten = pre.flatMap encode ++ left rest [] before)
    (hq : left rest [] before ++ portion = encode q ++ t) :
    before.flatten ++ portion = (pre ++ [q]).flatMap encode ++ t := by
  rw [hbefore, List.append_assoc, hq, List.flatMap_append, List.flatMap_singleton,
    List.append_assoc]

theorem left_behind_item (h : Consumes rest encode) {before : List (List α)}
    {portion t : List α} {q : ρ} (hq : left rest [] before ++ portion = encode q ++ t)
    (later : List (List α)) :
    left rest [] (before ++ portion :: later) = left rest t later := by
  rw [left_append]
  change left rest (rest (left rest [] before ++ portion)) later = left rest t later
  rw [hq, h.item]

theorem busy_behind_item (h : Consumes rest encode) {before : List (List α)}
    {portion t : List α} {q : ρ} (hq : left rest [] before ++ portion = encode q ++ t)
    (later : List (List α)) :
    busy rest [] (before ++ portion :: later) =
      busy rest [] before + 1 + busy rest t later := by
  have hfull : (encode q ++ t).isEmpty = false := by
    simpa using fun hnone => absurd hnone (h.nonempty q)
  rw [busy_append, busy, hq, hfull, h.item, Nat.add_assoc]
  rfl

/-- If every item is taken, as many calls have found something by the time the
items `pre` have been taken. -/
theorem busy_of_takes (h : Consumes rest encode) {portions : List (List α)} {w : List α}
    (hall : ∀ pre q t, portions.flatten ++ w = pre.flatMap encode ++ (encode q ++ t) →
      Takes rest encode portions pre q)
    {pre : List ρ} {t : List α} (hstream : portions.flatten ++ w = pre.flatMap encode ++ t)
    {before later : List (List α)} {portion : List α}
    (hsplit : portions = before ++ portion :: later)
    (hbefore : before.flatten = pre.flatMap encode ++ left rest [] before) :
    busy rest [] before = pre.length := by
  induction pre using List.reverseRecOn generalizing before portion later t with
  | nil =>
      have hle := left_add_busy_le h [] before
      rw [hbefore] at hle
      simp only [List.flatMap_nil, List.nil_append, List.length_nil] at hle ⊢
      omega
  | append_singleton pre r ih =>
      rw [List.flatMap_append, List.flatMap_singleton, List.append_assoc] at hstream
      obtain ⟨b, p, l, hcut, hb, t', hr⟩ := hall pre r t hstream
      have hbusy := ih hstream hcut hb
      have hr0 := List.length_pos_iff.mpr (h.nonempty r)
      have hlong : ((pre ++ [r]).flatMap encode).length =
          (pre.flatMap encode).length + (encode r).length := by
        rw [List.flatMap_append, List.flatMap_singleton, List.length_append]
      have hbefore' := congrArg List.length hbefore
      have hb' := congrArg List.length hb
      rw [List.length_append] at hbefore' hb'
      rcases split_cases (hsplit.symm.trans hcut) with rfl | ⟨m, rfl⟩ | ⟨m, rfl⟩
      · omega
      · -- Between the two places nothing is taken, so nothing is found.
        have hle := left_add_busy_le h t' m
        have htaken := congrArg List.length (taken_behind_item hb hr)
        rw [left_behind_item h hr] at hbefore'
        simp only [List.flatten_append, List.flatten_cons, List.length_append] at hbefore' htaken
        rw [busy_behind_item h hr, hbusy, List.length_append, List.length_singleton]
        omega
      · have hle := left_add_busy_le h (left rest [] before) (portion :: m)
        rw [left_append] at hb'
        simp only [List.flatten_append, List.length_append] at hb'
        omega

theorem finds_item {portions : List (List α)} {w t : List α} {pre : List ρ} {q : ρ}
    (hstream : portions.flatten ++ w = pre.flatMap encode ++ (encode q ++ t))
    {before later : List (List α)} {portion : List α}
    (hsplit : portions = before ++ portion :: later)
    (hbefore : before.flatten = pre.flatMap encode ++ left rest [] before)
    (harrived : (pre.flatMap encode ++ encode q).length ≤ (before.flatten ++ portion).length) :
    ∃ t', left rest [] before ++ portion = encode q ++ t' := by
  rw [hsplit, List.flatten_append, List.flatten_cons, hbefore] at hstream
  simp only [List.append_assoc, List.append_cancel_left_eq] at hstream
  rw [hbefore] at harrived
  simp only [List.length_append] at harrived
  have hitem : encode q <+: encode q ++ t := List.prefix_append _ _
  have hfound : left rest [] before ++ portion <+: encode q ++ t := by
    refine ⟨later.flatten ++ w, ?_⟩
    rw [← hstream, List.append_assoc]
  obtain ⟨t', ht'⟩ := List.prefix_of_prefix_length_le hitem hfound (by
    rw [List.length_append]
    omega)
  exact ⟨t', ht'.symm⟩

/-- Calls that keep pace find the items one after the other. -/
theorem takes_of_inTime (h : Consumes rest encode) {portions : List (List α)} {w : List α}
    (hall : ∀ pre q t, portions.flatten ++ w = pre.flatMap encode ++ (encode q ++ t) →
      InTime rest encode portions pre q)
    {pre : List ρ} {q : ρ} {t : List α}
    (hstream : portions.flatten ++ w = pre.flatMap encode ++ (encode q ++ t)) :
    ∃ before portion later, portions = before ++ portion :: later ∧
      busy rest [] before = pre.length ∧
      before.flatten = pre.flatMap encode ++ left rest [] before ∧
      ∃ t', left rest [] before ++ portion = encode q ++ t' := by
  induction pre using List.reverseRecOn generalizing q t with
  | nil =>
      obtain ⟨before, portion, later, hsplit, hbusy, -, harrived⟩ := hall [] q t hstream
      obtain ⟨hleft, hflat⟩ := left_of_idle h hbusy
      have hbefore : before.flatten = [].flatMap encode ++ left rest [] before := by
        rw [hflat, hleft]
        rfl
      exact ⟨before, portion, later, hsplit, hbusy, hbefore,
        finds_item hstream hsplit hbefore harrived⟩
  | append_singleton pre r ih =>
      obtain ⟨before, portion, later, hsplit, hbusy, hfound, harrived⟩ := hall _ q t hstream
      have hstream' := hstream
      rw [List.flatMap_append, List.flatMap_singleton, List.append_assoc] at hstream'
      obtain ⟨b, p, l, hcut, hbusy', hb, t', hr⟩ := ih hstream'
      rw [List.length_append, List.length_singleton] at hbusy
      rcases split_cases (hsplit.symm.trans hcut) with rfl | ⟨m, rfl⟩ | ⟨m, rfl⟩
      · omega
      · -- No call between the two finds anything.
        have hcount := busy_behind_item h hr m
        obtain ⟨hleft, hflat⟩ := left_of_idle h (show busy rest t' m = 0 by omega)
        have hbefore : (b ++ p :: m).flatten =
            (pre ++ [r]).flatMap encode ++ left rest [] (b ++ p :: m) := by
          rw [left_behind_item h hr, hleft, List.flatten_append, List.flatten_cons, hflat,
            List.append_nil, taken_behind_item hb hr]
        refine ⟨b ++ p :: m, portion, later, hsplit, ?_, hbefore,
          finds_item hstream hsplit hbefore harrived⟩
        rw [hbusy, List.length_append, List.length_singleton]
      · -- The call found something, so the place behind it comes later.
        rw [busy_append, busy, if_neg (by simpa using hfound)] at hbusy'
        omega

/-- **Keeping pace.** Every item that arrives is taken, in its place, exactly
when there is a call in time for each. -/
theorem takes_iff_inTime (h : Consumes rest encode) (portions : List (List α)) (w : List α) :
    (∀ pre q t, portions.flatten ++ w = pre.flatMap encode ++ (encode q ++ t) →
      Takes rest encode portions pre q) ↔
    ∀ pre q t, portions.flatten ++ w = pre.flatMap encode ++ (encode q ++ t) →
      InTime rest encode portions pre q := by
  constructor
  · intro hall pre q t hstream
    obtain ⟨before, portion, later, hsplit, hbefore, t', hq⟩ := hall pre q t hstream
    refine ⟨before, portion, later, hsplit, busy_of_takes h hall hstream hsplit hbefore, ?_, ?_⟩
    · rw [hq]
      exact fun hnone => h.nonempty q (List.append_eq_nil_iff.mp hnone).1
    · rw [taken_behind_item hbefore hq, List.flatMap_append, List.flatMap_singleton]
      simp only [List.length_append]
      omega
  · intro hall pre q t hstream
    obtain ⟨before, portion, later, hsplit, -, hbefore, hq⟩ := takes_of_inTime h hall hstream
    exact ⟨before, portion, later, hsplit, hbefore, hq⟩

end

end Consumer
