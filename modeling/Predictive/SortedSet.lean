/-!
# Finite sets as strictly ascending lists

`SortedSet α` is a finite set of an ordered type, held as the list of its members in strictly
ascending order. The list is determined by the members, so two sets with the same members are
equal, and listing a set needs no sorting.

* `ext`: two sets with the same members are equal.
* `mem_insert`, `mem_union`, `mem_ofList`, `mem_filter`: the members of what each operation makes.
-/

namespace Predictive

/-- A finite set, listed in strictly ascending order. -/
structure SortedSet (α : Type) [Ord α] where
  /-- The members in ascending order. -/
  toList : List α
  /-- Each member is below all later ones. -/
  ascending : toList.Pairwise (compare · · = .lt)
  deriving DecidableEq

namespace SortedSet

variable {α : Type} [Ord α]

/-- The set without members. -/
def empty : SortedSet α := ⟨[], .nil⟩

instance : EmptyCollection (SortedSet α) := ⟨empty⟩
instance : Inhabited (SortedSet α) := ⟨∅⟩

instance : Membership α (SortedSet α) := ⟨fun s x => x ∈ s.toList⟩

theorem mem_def {x : α} {s : SortedSet α} : x ∈ s ↔ x ∈ s.toList := Iff.rfl

instance [DecidableEq α] (x : α) (s : SortedSet α) : Decidable (x ∈ s) :=
  inferInstanceAs (Decidable (x ∈ s.toList))

/-- The set with one member. -/
def singleton (x : α) : SortedSet α := ⟨[x], .cons (fun _ h => nomatch h) .nil⟩

/-- The number of members. -/
def size (s : SortedSet α) : Nat := s.toList.length

/-- The set has no member. -/
def isEmpty (s : SortedSet α) : Bool := s.toList.isEmpty

/-- The members that satisfy a test. -/
def filter (p : α → Bool) (s : SortedSet α) : SortedSet α :=
  ⟨s.toList.filter p, s.ascending.filter p⟩

/-- The set without one element. -/
def erase [DecidableEq α] (s : SortedSet α) (x : α) : SortedSet α := s.filter (· ≠ x)

/-- The members of the first set that are not in the second. -/
def diff [DecidableEq α] (s t : SortedSet α) : SortedSet α := s.filter (· ∉ t)

/-- Puts an element at its place in an ascending list, unless it is there. -/
def place (x : α) : List α → List α
  | [] => [x]
  | y :: ys =>
    match compare x y with
    | .lt => x :: y :: ys
    | .eq => y :: ys
    | .gt => y :: place x ys

theorem mem_place [Std.LawfulEqOrd α] {x z : α} {ys : List α} :
    z ∈ place x ys ↔ z = x ∨ z ∈ ys := by
  induction ys with
  | nil => simp [place]
  | cons y ys ih =>
    unfold place
    split
    · simp
    · next h =>
      obtain rfl := Std.LawfulEqCmp.compare_eq_iff_eq.mp h
      simp
    · simp only [List.mem_cons, ih]
      grind

theorem ascending_place [Std.TransOrd α] [Std.LawfulEqOrd α] {x : α} {ys : List α}
    (h : ys.Pairwise (compare · · = .lt)) : (place x ys).Pairwise (compare · · = .lt) := by
  induction ys with
  | nil => simp [place]
  | cons y ys ih =>
    have ⟨hy, hys⟩ := List.pairwise_cons.mp h
    unfold place
    split
    · next hlt =>
      refine List.pairwise_cons.mpr ⟨fun z hz => ?_, h⟩
      rcases List.mem_cons.mp hz with rfl | hz
      · exact hlt
      · exact Std.TransCmp.lt_trans hlt (hy z hz)
    · exact h
    · next hgt =>
      refine List.pairwise_cons.mpr ⟨fun z hz => ?_, ih hys⟩
      rcases mem_place.mp hz with rfl | hz
      · exact Std.OrientedCmp.gt_iff_lt.mp hgt
      · exact hy z hz

variable [Std.TransOrd α] [Std.LawfulEqOrd α]

/-- The set with one element more. -/
def insert (x : α) (s : SortedSet α) : SortedSet α :=
  ⟨place x s.toList, ascending_place s.ascending⟩

/-- The members of a list. -/
def ofList (xs : List α) : SortedSet α := xs.foldr insert ∅

/-- The members of either set. -/
def union (s t : SortedSet α) : SortedSet α := s.toList.foldr insert t

instance : Union (SortedSet α) := ⟨union⟩

/-! ## Members -/

omit [Std.TransOrd α] [Std.LawfulEqOrd α] in
@[simp] theorem not_mem_empty (x : α) : x ∉ (∅ : SortedSet α) := List.not_mem_nil

omit [Std.TransOrd α] [Std.LawfulEqOrd α] in
@[simp] theorem mem_singleton {x y : α} : x ∈ singleton y ↔ x = y := List.mem_singleton

omit [Std.TransOrd α] [Std.LawfulEqOrd α] in
@[simp] theorem mem_filter {p : α → Bool} {x : α} {s : SortedSet α} :
    x ∈ s.filter p ↔ x ∈ s ∧ p x := List.mem_filter

omit [Std.TransOrd α] [Std.LawfulEqOrd α] in
@[simp] theorem mem_erase [DecidableEq α] {x y : α} {s : SortedSet α} :
    x ∈ s.erase y ↔ x ∈ s ∧ x ≠ y := by simp [erase]

omit [Std.TransOrd α] [Std.LawfulEqOrd α] in
@[simp] theorem mem_diff [DecidableEq α] {x : α} {s t : SortedSet α} :
    x ∈ s.diff t ↔ x ∈ s ∧ x ∉ t := by simp [diff]

@[simp] theorem mem_insert {x y : α} {s : SortedSet α} : x ∈ s.insert y ↔ x = y ∨ x ∈ s :=
  mem_place

private theorem mem_foldr_insert {x : α} {xs : List α} {s : SortedSet α} :
    x ∈ xs.foldr insert s ↔ x ∈ xs ∨ x ∈ s := by
  induction xs with
  | nil => simp
  | cons y ys ih => simp [ih, or_assoc]

@[simp] theorem mem_ofList {x : α} {xs : List α} : x ∈ ofList xs ↔ x ∈ xs := by
  simp [ofList, mem_foldr_insert]

@[simp] theorem mem_union {x : α} {s t : SortedSet α} : x ∈ s ∪ t ↔ x ∈ s ∨ x ∈ t :=
  mem_foldr_insert

omit [Std.LawfulEqOrd α] in
private theorem eq_of_ascending {xs ys : List α} (hx : xs.Pairwise (compare · · = .lt))
    (hy : ys.Pairwise (compare · · = .lt)) (h : ∀ z, z ∈ xs ↔ z ∈ ys) : xs = ys := by
  have irrefl (a : α) : compare a a ≠ .lt := by simp [Std.ReflCmp.compare_self]
  induction xs generalizing ys with
  | nil =>
    cases ys with
    | nil => rfl
    | cons y ys => exact absurd ((h y).mpr (by simp)) (by simp)
  | cons x xs ih =>
    cases ys with
    | nil => exact absurd ((h x).mp (by simp)) (by simp)
    | cons y ys =>
      have ⟨hx', hxs⟩ := List.pairwise_cons.mp hx
      have ⟨hy', hys⟩ := List.pairwise_cons.mp hy
      have hxy : x = y := by
        rcases List.mem_cons.mp ((h x).mp (by simp)) with e | hm
        · exact e
        · rcases List.mem_cons.mp ((h y).mpr (by simp)) with e | hm'
          · exact e.symm
          · exact absurd (Std.TransCmp.lt_trans (hx' y hm') (hy' x hm)) (irrefl x)
      subst hxy
      rw [ih hxs hys fun z => ?_]
      have hz := h z
      simp only [List.mem_cons] at hz
      constructor
      · intro hm
        exact (hz.mp (.inr hm)).resolve_left fun e => irrefl x (e ▸ hx' z hm)
      · intro hm
        exact (hz.mpr (.inr hm)).resolve_left fun e => irrefl x (e ▸ hy' z hm)

omit [Std.LawfulEqOrd α] in
/-- Two sets with the same members are equal. -/
theorem ext {s t : SortedSet α} (h : ∀ x, x ∈ s ↔ x ∈ t) : s = t := by
  obtain ⟨xs, hx⟩ := s
  obtain ⟨ys, hy⟩ := t
  obtain rfl := eq_of_ascending hx hy h
  rfl

omit [Std.LawfulEqOrd α] in
/-- No member is listed twice. -/
theorem nodup_toList (s : SortedSet α) : s.toList.Nodup := by
  refine s.ascending.imp fun {a b} h e => ?_
  subst e
  simp [Std.ReflCmp.compare_self] at h

end SortedSet

end Predictive
