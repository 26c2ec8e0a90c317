import Mathlib.Data.List.TakeWhile
import Mathlib.Data.List.Basic
import Mathlib.Data.List.Infix

/-!
# Append-only logs indexed by first write

Records of type `ρ` are appended to one of several logs of symbols `α`. A
record has a key; the key alone selects the log. `image r` is what the record
should put there and `written r` what actually arrived, so that the theory
covers appends cut short. The index keeps the extent of the first record of
each key.

* `log rs b` is the content of log `b` after the records `rs`.
* `entry rs k` is the extent the index holds for `k`.
* `slice_entry` reads a complete first record back, and `slice_entry_eq` says
  that a reader sees nothing else of a log; `entry_stable` and
  `slice_stable` say that later records move neither the extent nor the symbols
  under it; `entry_disjoint` keeps the extents of different keys apart.
-/

namespace AppendLog

variable {α β κ ρ : Type*}

/-! ## Slices -/

/-- The symbols of `l` at positions `offset .. offset + size - 1`. -/
def slice (l : List α) (offset size : Nat) : List α :=
  (l.drop offset).take size

theorem slice_append_left {l : List α} {offset size : Nat}
    (h : offset + size ≤ l.length) (m : List α) :
    slice (l ++ m) offset size = slice l offset size := by
  have hdrop : size ≤ (l.drop offset).length := by
    rw [List.length_drop]; omega
  rw [slice, List.drop_append_of_le_length (by omega),
    List.take_append_of_le_length hdrop, slice]

theorem length_slice (l : List α) (offset size : Nat) :
    (slice l offset size).length = min size (l.length - offset) := by
  rw [slice, List.length_take, List.length_drop]

theorem slice_append_grows (l m : List α) (offset size : Nat) :
    slice l offset size <+: slice (l ++ m) offset size :=
  ((List.prefix_append l m).drop offset).take size

theorem slice_append_eq_iff {l m : List α} {offset size : Nat} :
    slice (l ++ m) offset size = slice l offset size ↔
      min size (l.length + m.length - offset) = min size (l.length - offset) := by
  have hlength := length_slice (l ++ m) offset size
  rw [List.length_append] at hlength
  constructor
  · intro hsame
    rw [← hlength, hsame, length_slice]
  · intro hsame
    apply ((slice_append_grows l m offset size).eq_of_length ?_).symm
    rw [hlength, length_slice, hsame]

/-- A slice that begins in `l` and does not end in it goes on behind `l`. -/
theorem slice_append_of_le {l : List α} {offset size : Nat} (hbegins : offset ≤ l.length)
    (hends : l.length ≤ offset + size) (m : List α) :
    slice (l ++ m) offset size = l.drop offset ++ m.take (offset + size - l.length) := by
  have hsize : size - (l.drop offset).length = offset + size - l.length := by
    rw [List.length_drop]
    omega
  rw [slice, List.drop_append_of_le_length hbegins, List.take_append, hsize,
    List.take_of_length_le]
  rw [List.length_drop]
  omega

theorem slice_ne_of_short {l image : List α} {offset : Nat} (himage : image ≠ [])
    (hshort : l.length < offset + image.length) : slice l offset image.length ≠ image := by
  intro hshown
  have hpositive := List.length_pos_iff.mpr himage
  have hlength := congrArg List.length hshown
  rw [length_slice] at hlength
  omega

/-- After an append of a part of `image`, a slice shows `image` if it has done so before, or
if the list ended inside of it and the part makes up what was missing. -/
theorem slice_append_eq_image_iff {l part image : List α} {offset : Nat}
    (hpart : part <+: image) (himage : image ≠ []) :
    slice (l ++ part) offset image.length = image ↔
      slice l offset image.length = image ∨
        offset ≤ l.length ∧ ∃ tail, image = l.drop offset ++ tail ∧ tail <+: part := by
  have htails : ∀ tail, image = l.drop offset ++ tail →
      image.length = l.length - offset + tail.length := by
    intro tail htail
    rw [congrArg List.length htail, List.length_append, List.length_drop]
  have hpositive := List.length_pos_iff.mpr himage
  by_cases hinside : offset + image.length ≤ l.length
  · rw [slice_append_left hinside]
    refine ⟨Or.inl, ?_⟩
    rintro (hshown | ⟨-, tail, htail, -⟩)
    · exact hshown
    · have hlength := htails tail htail
      obtain rfl : tail = [] := List.length_eq_zero_iff.mp (by omega)
      rw [List.append_nil] at htail
      rw [slice, ← htail, List.take_length]
  · have hbefore := slice_ne_of_short himage (not_le.mp hinside)
    by_cases hreaches : offset ≤ l.length
    · rw [slice_append_of_le hreaches (by omega)]
      constructor
      · intro hshown
        exact Or.inr ⟨hreaches, _, hshown.symm, List.take_prefix _ _⟩
      · rintro (hshown | ⟨-, tail, htail, hprefix⟩)
        · exact absurd hshown hbefore
        · have hlength := htails tail htail
          have hmissing : offset + image.length - l.length = tail.length := by omega
          rw [hmissing, ← List.prefix_iff_eq_take.mp hprefix]
          exact htail.symm
    · have hpartial := hpart.length_le
      have hafter : slice (l ++ part) offset image.length ≠ image := by
        apply slice_ne_of_short himage
        rw [List.length_append]
        omega
      refine iff_of_false hafter ?_
      rintro (hshown | ⟨hoffset, -⟩)
      · exact hbefore hshown
      · exact hreaches hoffset

theorem slice_length_append (l m : List α) (size : Nat) :
    slice (l ++ m) l.length size = m.take size := by
  rw [slice, List.drop_left]

/-! ## Logs -/

section Log

variable [DecidableEq β]
variable (key : ρ → κ) (bucket : κ → β) (image written : ρ → List α)

def log (rs : List ρ) (b : β) : List α :=
  (rs.filter fun r => bucket (key r) = b).flatMap written

variable {key bucket image written}

theorem log_append (rs ss : List ρ) (b : β) :
    log key bucket written (rs ++ ss) b =
      log key bucket written rs b ++ log key bucket written ss b := by
  simp [log]

theorem log_singleton (r : ρ) (b : β) :
    log key bucket written [r] b =
      if bucket (key r) = b then written r else [] := by
  by_cases h : bucket (key r) = b <;> simp [log, h]

theorem log_split (pre post : List ρ) (r : ρ) {k : κ} (hr : key r = k) :
    log key bucket written (pre ++ r :: post) (bucket k) =
      log key bucket written pre (bucket k) ++
        (written r ++ log key bucket written post (bucket k)) := by
  rw [log_append, ← List.singleton_append, log_append, log_singleton, hr,
    if_pos rfl]

theorem slice_entry {pre post : List ρ} {r : ρ} {k : κ} (hr : key r = k)
    (hwhole : written r = image r) :
    slice (log key bucket written (pre ++ r :: post) (bucket k))
      (log key bucket written pre (bucket k)).length (image r).length = image r := by
  rw [log_split pre post r hr, slice_length_append, hwhole, List.take_left]

theorem entry_inside (pre post : List ρ) {r : ρ} {k : κ} (hr : key r = k)
    (hwhole : written r = image r) :
    (log key bucket written pre (bucket k)).length + (image r).length ≤
      (log key bucket written (pre ++ r :: post) (bucket k)).length := by
  rw [log_split pre post r hr, List.length_append, List.length_append, hwhole]
  omega

theorem slice_stable {rs : List ρ} {b : β} {offset size : Nat}
    (h : offset + size ≤ (log key bucket written rs b).length) (ss : List ρ) :
    slice (log key bucket written (rs ++ ss) b) offset size =
      slice (log key bucket written rs b) offset size := by
  rw [log_append, slice_append_left h]

/-! ## The index -/

structure Extent where
  offset : Nat
  size : Nat
deriving DecidableEq, Repr

def Extent.Disjoint (d e : Extent) : Prop :=
  d.offset + d.size ≤ e.offset ∨ e.offset + e.size ≤ d.offset

variable [DecidableEq κ]
variable (key bucket image written)

def firstRecord (rs : List ρ) (k : κ) : Option ρ :=
  rs.find? fun r => key r = k

/-- The extent the index holds for `k`: it begins where the log ended before
the first record of `k`, and is as long as that record should be. -/
def entry (rs : List ρ) (k : κ) : Option Extent :=
  (firstRecord key rs k).map fun r =>
    ⟨(log key bucket written (rs.takeWhile fun r => key r ≠ k) (bucket k)).length,
      (image r).length⟩

variable {key bucket image written}

theorem firstRecord_eq_none {rs : List ρ} {k : κ} :
    firstRecord key rs k = none ↔ ∀ r ∈ rs, key r ≠ k := by
  simp [firstRecord]

theorem firstRecord_append (rs ss : List ρ) (k : κ) :
    firstRecord key (rs ++ ss) k =
      (firstRecord key rs k).or (firstRecord key ss k) := by
  simp [firstRecord, List.find?_append]

theorem firstRecord_split {rs : List ρ} {k : κ} {r : ρ}
    (h : firstRecord key rs k = some r) :
    key r = k ∧ ∃ post, rs = (rs.takeWhile fun r => key r ≠ k) ++ r :: post := by
  induction rs with
  | nil => simp [firstRecord] at h
  | cons x xs ih =>
      by_cases hx : key x = k
      · simp only [firstRecord, hx, decide_true, List.find?_cons_of_pos,
          Option.some.injEq] at h
        subst h
        exact ⟨hx, xs, by simp [hx]⟩
      · have hxs : firstRecord key xs k = some r := by
          simpa [firstRecord, hx] using h
        obtain ⟨hr, post, hpost⟩ := ih hxs
        refine ⟨hr, post, ?_⟩
        rw [List.takeWhile_cons_of_pos (by simpa using hx), List.cons_append,
          ← hpost]

theorem firstRecord_of_split {pre post : List ρ} {r : ρ} {k : κ}
    (hpre : ∀ x ∈ pre, key x ≠ k) (hr : key r = k) :
    firstRecord key (pre ++ r :: post) k = some r := by
  rw [firstRecord_append, firstRecord_eq_none.mpr hpre]
  simp [firstRecord, hr]

theorem takeWhile_of_split {pre post : List ρ} {r : ρ} {k : κ}
    (hpre : ∀ x ∈ pre, key x ≠ k) (hr : key r = k) :
    ((pre ++ r :: post).takeWhile fun r => key r ≠ k) = pre := by
  rw [List.takeWhile_append_of_pos (by simpa using hpre)]
  simp [hr]

theorem entry_eq_none {rs : List ρ} {k : κ} :
    entry key bucket image written rs k = none ↔ ∀ r ∈ rs, key r ≠ k := by
  rw [entry, Option.map_eq_none_iff, firstRecord_eq_none]

theorem entry_of_split {pre post : List ρ} {r : ρ} {k : κ}
    (hpre : ∀ x ∈ pre, key x ≠ k) (hr : key r = k) :
    entry key bucket image written (pre ++ r :: post) k =
      some ⟨(log key bucket written pre (bucket k)).length, (image r).length⟩ := by
  rw [entry, firstRecord_of_split hpre hr, takeWhile_of_split hpre hr]
  rfl

/-- The first record of a key is a matter of the records of that key. -/
theorem firstRecord_eq_head? (rs : List ρ) (k : κ) :
    firstRecord key rs k = (rs.filter fun r => key r = k).head? :=
  (List.head?_filter ..).symm

theorem entry_split {rs : List ρ} {k : κ} {e : Extent}
    (h : entry key bucket image written rs k = some e) :
    ∃ pre r post, rs = pre ++ r :: post ∧ (∀ x ∈ pre, key x ≠ k) ∧ key r = k ∧
      e = ⟨(log key bucket written pre (bucket k)).length, (image r).length⟩ := by
  rw [entry, Option.map_eq_some_iff] at h
  obtain ⟨r, hr, rfl⟩ := h
  obtain ⟨hk, post, hsplit⟩ := firstRecord_split hr
  refine ⟨_, r, post, hsplit, ?_, hk, rfl⟩
  intro x hx
  simpa using List.mem_takeWhile_imp hx

/-- What a reader finds under `k`, through the index: the first record of `k`, if
it arrived whole. -/
theorem slice_entry_eq {rs : List ρ} (hwhole : ∀ r ∈ rs, written r = image r) (k : κ) :
    ((entry key bucket image written rs k).map fun e =>
      slice (log key bucket written rs (bucket k)) e.offset e.size) =
        (firstRecord key rs k).map image := by
  cases h : firstRecord key rs k with
  | none => rw [entry, h]; rfl
  | some r =>
      obtain ⟨hk, post, hsplit⟩ := firstRecord_split h
      have hr : written r = image r := hwhole r (by rw [hsplit]; simp)
      rw [entry, h, Option.map_some, Option.map_some, Option.map_some]
      apply congrArg some
      generalize (rs.takeWhile fun r => key r ≠ k) = pre at hsplit ⊢
      subst hsplit
      exact slice_entry hk hr

theorem entry_stable {rs : List ρ} {k : κ} {e : Extent}
    (h : entry key bucket image written rs k = some e) (ss : List ρ) :
    entry key bucket image written (rs ++ ss) k = some e := by
  obtain ⟨pre, r, post, rfl, hpre, hr, rfl⟩ := entry_split h
  rw [List.append_assoc, List.cons_append, entry_of_split hpre hr]

theorem entry_append_singleton (rs : List ρ) (r : ρ) (k : κ) :
    entry key bucket image written (rs ++ [r]) k =
      (entry key bucket image written rs k).or
        (if key r = k then
          some ⟨(log key bucket written rs (bucket k)).length, (image r).length⟩
        else none) := by
  cases h : entry key bucket image written rs k with
  | some e => rw [entry_stable h, Option.some_or]
  | none =>
      have hfresh := entry_eq_none.mp h
      rw [Option.none_or]
      by_cases hr : key r = k
      · rw [if_pos hr, entry_of_split hfresh hr]
      · rw [if_neg hr, entry_eq_none]
        intro x hx
        rcases List.mem_append.mp hx with hx | hx
        · exact hfresh x hx
        · rw [List.mem_singleton.mp hx]
          exact hr

theorem entry_disjoint {rs : List ρ} {j k : κ} {d e : Extent}
    (hwhole : ∀ r ∈ rs, written r = image r) (hjk : j ≠ k)
    (hbucket : bucket j = bucket k)
    (hd : entry key bucket image written rs j = some d)
    (he : entry key bucket image written rs k = some e) : d.Disjoint e := by
  obtain ⟨pre, r, post, hrs, -, hr, rfl⟩ := entry_split hd
  obtain ⟨pre', r', post', hrs', -, hr', rfl⟩ := entry_split he
  have hw : written r = image r := hwhole r (by simp [hrs])
  have hw' : written r' = image r' := hwhole r' (by simp [hrs'])
  have hne : r ≠ r' := fun h => hjk (by rw [← hr, h, hr'])
  -- One of the two records comes first; its extent ends before the other starts.
  have hsame : pre ++ r :: post = pre' ++ r' :: post' := by rw [← hrs, hrs']
  rcases List.append_eq_append_iff.mp hsame with ⟨mid, hpre', hmid⟩ | ⟨mid, hpre, hmid⟩
  · cases mid with
    | nil => exact absurd (List.cons.inj hmid).1 hne
    | cons x mid =>
        obtain ⟨rfl, -⟩ := List.cons.inj hmid
        left
        show (log key bucket written pre (bucket j)).length + _ ≤ _
        rw [hbucket, hpre', ← hbucket]
        exact entry_inside pre mid hr hw
  · cases mid with
    | nil => exact absurd (List.cons.inj hmid).1.symm hne
    | cons x mid =>
        obtain ⟨rfl, -⟩ := List.cons.inj hmid
        right
        show (log key bucket written pre' (bucket k)).length + _ ≤ _
        rw [← hbucket, hpre, hbucket]
        exact entry_inside pre' mid hr' hw'

end Log

end AppendLog
