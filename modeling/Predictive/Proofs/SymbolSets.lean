import Mathlib.Algebra.Order.BigOperators.Group.List
import Mathlib.Algebra.Order.Ring.Nat
import Mathlib.Data.List.Perm.Subperm
import Mathlib.Order.Defs.PartialOrder
import Predictive.First

/-!
# Growing families of symbol sets

FIRST and FOLLOW are computed by steps that each add symbols to one set of a family. Families with
the same keys are ordered by inclusion of their sets.

* `le_foldl`, `exists_le_foldl`: a fold of growing steps only adds, and it adds at least what each
  of its steps adds to some family in between.
* `weight_lt`: a family that grows gains in weight, the number of its symbols.
-/

namespace Predictive

namespace SortedSet

variable {α : Type} [Ord α]

theorem size_le_of_subset_list [Std.TransOrd α] {s : SortedSet α} {xs : List α}
    (h : ∀ x ∈ s, x ∈ xs) : s.size ≤ xs.length :=
  (List.subperm_of_subset s.nodup_toList h).length_le

theorem size_lt_of_subset [Std.TransOrd α] {s t : SortedSet α} (h : ∀ x ∈ s, x ∈ t)
    (hne : s ≠ t) : s.size < t.size := by
  have hsub : s.toList.Subperm t.toList := List.subperm_of_subset s.nodup_toList h
  refine Nat.lt_of_le_of_ne hsub.length_le fun he => hne (ext fun x => ⟨h x, fun hx => ?_⟩)
  have hperm := hsub.perm_of_length_le (Nat.le_of_eq he.symm)
  exact hperm.mem_iff.mpr hx

end SortedSet

namespace SymbolSets

/-! ## The set of a name -/

theorem find?_eq (s : SymbolSets) (name : String) :
    s.find? name = if name ∈ s.keys then some (s.of name) else none := by
  unfold of
  split
  · rename_i h
    obtain ⟨set, hs⟩ := OrderedMap.mem_keys.mp h
    rw [hs]
    rfl
  · rename_i h
    cases hs : s.find? name with
    | none => rfl
    | some set => exact absurd (OrderedMap.mem_keys.mpr ⟨set, hs⟩) h

/-- A name among the keys has its set. -/
theorem of?_eq_ok {s : SymbolSets} {name : String} (h : name ∈ s.keys) :
    s.of? name = .ok (s.of name) := by
  unfold of?
  rw [find?_eq, if_pos h]

/-- Two families with the same keys in any order and the same sets give the same answers. -/
theorem of?_congr {s t : SymbolSets} (hkeys : ∀ name, name ∈ t.keys ↔ name ∈ s.keys)
    (hmem : ∀ name (x : Symbol), x ∈ t.of name ↔ x ∈ s.of name) (name : String) :
    t.of? name = s.of? name := by
  unfold of?
  rw [find?_eq, find?_eq, SortedSet.ext (hmem name)]
  simp only [hkeys]

/-- Two families with the same keys in order and the same sets are equal. -/
theorem ext_of {s t : SymbolSets} (hk : s.keys = t.keys)
    (h : ∀ name a, a ∈ s.of name ↔ a ∈ t.of name) : s = t := by
  refine OrderedMap.ext hk fun name => ?_
  rw [find?_eq, find?_eq, hk, SortedSet.ext (h name)]

theorem mem_keys_of_mem {s : SymbolSets} {name : String} {a : Symbol} (h : a ∈ s.of name) :
    name ∈ s.keys := by
  by_contra hk
  unfold of at h
  rw [find?_eq, if_neg hk] at h
  exact absurd h (SortedSet.not_mem_empty a)

@[simp] theorem of_withKeysOf_empty {α : Type} (m : OrderedMap String α) (name : String) :
    SymbolSets.of (m.withKeysOf ∅) name = ∅ := by
  unfold of
  rw [OrderedMap.find?_withKeysOf]
  cases m.find? name <;> rfl

/-- Adding a set to one set of a family. -/
theorem mem_of_modify {s : SymbolSets} {name name' : String} {set : SymbolSet} {a : Symbol} :
    a ∈ SymbolSets.of (s.modify name (· ∪ set)) name' ↔
      a ∈ s.of name' ∨ (name' = name ∧ name ∈ s.keys ∧ a ∈ set) := by
  unfold of
  rw [OrderedMap.find?_modify]
  by_cases h : name' = name
  · subst h
    rw [if_pos rfl]
    cases hs : s.find? name' with
    | none =>
      have hk : name' ∉ s.keys := fun hk => by
        obtain ⟨set, h⟩ := OrderedMap.mem_keys.mp hk
        rw [hs] at h
        cases h
      simp [hk]
    | some old =>
      have hk : name' ∈ s.keys := OrderedMap.mem_keys.mpr ⟨old, hs⟩
      simp [hk]
  · simp [h]

/-! ## Inclusion -/

/-- Families with the same keys, ordered by inclusion of their sets. -/
instance : PartialOrder SymbolSets where
  le s t := s.keys = t.keys ∧ ∀ name, ∀ a ∈ s.of name, a ∈ t.of name
  le_refl _ := ⟨rfl, fun _ _ h => h⟩
  le_trans _ _ _ h h' := ⟨h.1.trans h'.1, fun name a ha => h'.2 name a (h.2 name a ha)⟩
  le_antisymm _ _ h h' := ext_of h.1 fun name a => ⟨h.2 name a, h'.2 name a⟩

theorem le_iff {s t : SymbolSets} :
    s ≤ t ↔ s.keys = t.keys ∧ ∀ name, ∀ a ∈ s.of name, a ∈ t.of name := Iff.rfl

theorem keys_eq_of_le {s t : SymbolSets} (h : s ≤ t) : s.keys = t.keys := h.1

theorem mem_of_le {s t : SymbolSets} (h : s ≤ t) {name : String} {a : Symbol}
    (ha : a ∈ s.of name) : a ∈ t.of name := h.2 name a ha

theorem le_modify (s : SymbolSets) (name : String) (set : SymbolSet) :
    s ≤ s.modify name (· ∪ set) :=
  ⟨(OrderedMap.keys_modify _ _ _).symm, fun _ _ h => mem_of_modify.mpr (.inl h)⟩

section Fold

variable {α : Type} {f : SymbolSets → α → SymbolSets}

theorem le_foldl (hf : ∀ s x, s ≤ f s x) (xs : List α) (s : SymbolSets) : s ≤ xs.foldl f s := by
  induction xs generalizing s with
  | nil => exact le_refl s
  | cons x xs ih => exact (hf s x).trans (ih (f s x))

/-- What a step adds is kept: some family in between, above the first one, has its step below the
result. -/
theorem exists_le_foldl (hf : ∀ s x, s ≤ f s x) {xs : List α} {x : α} (hx : x ∈ xs)
    (s : SymbolSets) : ∃ t, s ≤ t ∧ f t x ≤ xs.foldl f s := by
  induction xs generalizing s with
  | nil => exact absurd hx List.not_mem_nil
  | cons y xs ih =>
    rcases List.mem_cons.mp hx with rfl | hx
    · exact ⟨s, le_refl s, le_foldl hf xs (f s x)⟩
    · obtain ⟨t, hst, ht⟩ := ih hx (f s y)
      exact ⟨t, (hf s y).trans hst, ht⟩

/-- What holds of a family and is kept by every step of a list holds at the end. -/
theorem foldl_induction {P : SymbolSets → Prop} {xs : List α}
    (keep : ∀ s, ∀ x ∈ xs, P s → P (f s x)) {s : SymbolSets} (h : P s) : P (xs.foldl f s) := by
  induction xs generalizing s with
  | nil => exact h
  | cons x xs ih =>
    exact ih (fun s y hy => keep s y (List.mem_cons_of_mem x hy))
      (keep s x List.mem_cons_self h)

end Fold

/-! ## Weight -/

/-- The number of symbols in all sets together. -/
def weight (s : SymbolSets) : Nat := (s.keys.map fun name => (s.of name).size).sum

theorem weight_le {s : SymbolSets} {bound : Nat} (h : ∀ name ∈ s.keys, (s.of name).size ≤ bound) :
    s.weight ≤ s.keys.length * bound := by
  have := List.sum_le_card_nsmul (s.keys.map fun name => (s.of name).size) bound fun n hn => by
    obtain ⟨name, hname, rfl⟩ := List.mem_map.mp hn
    exact h name hname
  rw [List.length_map] at this
  exact this

/-- A family that grows gains in weight. -/
theorem weight_lt {s t : SymbolSets} (h : s ≤ t) (hne : s ≠ t) : s.weight < t.weight := by
  have hle (name : String) : (s.of name).size ≤ (t.of name).size := by
    by_cases he : s.of name = t.of name
    · rw [he]
    · exact Nat.le_of_lt (SortedSet.size_lt_of_subset (h.2 name) he)
  obtain ⟨name, hname⟩ : ∃ name, s.of name ≠ t.of name := by
    by_contra hall
    push Not at hall
    exact hne (ext_of h.1 fun name a => by rw [hall name])
  have hmem : name ∈ s.keys := by
    by_contra hmem
    refine hname (SortedSet.ext fun a => ⟨h.2 name a, fun ha => ?_⟩)
    exact absurd (h.1 ▸ mem_keys_of_mem ha) hmem
  unfold weight
  rw [← h.1]
  exact List.sum_lt_sum _ _ (fun name _ => hle name)
    ⟨name, hmem, SortedSet.size_lt_of_subset (h.2 name) hname⟩

end SymbolSets

end Predictive
