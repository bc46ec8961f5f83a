import Mathlib.Data.List.Nodup
import Mathlib.Data.Nat.Find
import Mathlib.Logic.Function.Iterate
import Predictive.Follow
import Predictive.Proofs.SymbolSets

/-!
# Passes over flows

A symbol comes into the set of a name along a path of flows (`Flow.Path`): some flow brings it as a
seed, and every further one takes it from its source to its target. A path of `k` names is covered
by `k` passes, whatever the order of the flows, and a shortest path visits no name twice.

* `Flow.mem_iterate_of_path`, `Flow.mem_iterate_iff`: after the passes a set holds the symbols that
  have a path to its name.
* `Flow.pass_iterate_fixed`: as many passes as there are names reach a fixed point.
* `Flow.converge_eq_some_iff`: the passes that are made until one changes nothing, and their history.
* `Flow.count_eq_of_converge`: as many passes are counted as states are kept.
* `Flow.converge_eq_ite`, `Flow.count_le_of_converge`: a bound decides only whether there is a
  history, and it is enough if it allows one pass more than there are names.
-/

namespace Predictive.Flow

variable {flows : List Flow} {a : Symbol} {sets : SymbolSets}

/-- The names that a symbol passes on the way from a seed, the last one in front. -/
inductive Path (flows : List Flow) (a : Symbol) : List String → Prop
  | seed {f : Flow} (hf : f ∈ flows) (ha : a ∈ f.seeds) : Path flows a [f.target]
  | along {f : Flow} {source : String} {names : List String} (hf : f ∈ flows)
      (hs : f.source = some source) (h : Path flows a (source :: names)) :
      Path flows a (f.target :: source :: names)

namespace Path

theorem mem_targets {names : List String} (h : Path flows a names) {name : String}
    (hn : name ∈ names) : name ∈ flows.map Flow.target := by
  induction h with
  | seed hf _ =>
    rw [List.mem_singleton.mp hn]
    exact List.mem_map.mpr ⟨_, hf, rfl⟩
  | along hf _ _ ih =>
    rcases List.mem_cons.mp hn with rfl | hn
    · exact List.mem_map.mpr ⟨_, hf, rfl⟩
    · exact ih hn

/-- The way to a name that has been passed is a path. -/
theorem of_mem {names : List String} (h : Path flows a names) {name : String}
    (hn : name ∈ names) : ∃ rest, Path flows a (name :: rest) ∧ (name :: rest).Sublist names := by
  induction h with
  | @seed f hf ha =>
    obtain rfl := List.mem_singleton.mp hn
    exact ⟨[], .seed hf ha, List.Sublist.refl _⟩
  | @along f source names hf hs h ih =>
    rcases List.mem_cons.mp hn with rfl | hn
    · exact ⟨_, .along hf hs h, List.Sublist.refl _⟩
    · obtain ⟨rest, hp, hsub⟩ := ih hn
      exact ⟨rest, hp, hsub.cons _⟩

/-- A path that comes back to a name can be cut short. -/
theorem exists_nodup {names : List String} (h : Path flows a names) :
    ∃ short, Path flows a short ∧ short.head? = names.head? ∧ short.Nodup := by
  induction h with
  | @seed f hf ha => exact ⟨_, .seed hf ha, rfl, List.nodup_singleton _⟩
  | @along f source names hf hs _ ih =>
    obtain ⟨short, hp, hhead, hnodup⟩ := ih
    by_cases hmem : f.target ∈ short
    · obtain ⟨rest, hp', hsub⟩ := hp.of_mem hmem
      exact ⟨_, hp', rfl, hsub.nodup hnodup⟩
    · cases short with
      | nil => cases hhead
      | cons first rest =>
        cases hhead
        exact ⟨_, .along hf hs hp, rfl, List.nodup_cons.mpr ⟨hmem, hnodup⟩⟩

end Path

/-! ## One pass -/

theorem le_apply (sets : SymbolSets) (f : Flow) : sets ≤ apply sets f :=
  SymbolSets.le_modify sets f.target _

theorem le_pass (flows : List Flow) (sets : SymbolSets) : sets ≤ pass flows sets :=
  SymbolSets.le_foldl le_apply flows sets

theorem mem_brings {f : Flow} :
    a ∈ f.brings sets ↔ a ∈ f.seeds ∨ ∃ source, f.source = some source ∧ a ∈ sets.of source := by
  unfold brings
  cases f.source with
  | none => simp
  | some source => simp

/-- A pass adds what each of its flows brings. -/
theorem mem_pass {f : Flow} (hf : f ∈ flows) (hk : f.target ∈ sets.keys)
    (ha : a ∈ f.brings sets) : a ∈ (pass flows sets).of f.target := by
  obtain ⟨t, hle, hge⟩ := SymbolSets.exists_le_foldl le_apply hf sets
  have hbrings : a ∈ f.brings t := by
    rcases mem_brings.mp ha with ha | ⟨source, hs, ha⟩
    · exact mem_brings.mpr (.inl ha)
    · exact mem_brings.mpr (.inr ⟨source, hs, SymbolSets.mem_of_le hle ha⟩)
  have hkt : f.target ∈ t.keys := SymbolSets.keys_eq_of_le hle ▸ hk
  exact SymbolSets.mem_of_le hge (SymbolSets.mem_of_modify.mpr (.inr ⟨rfl, hkt, hbrings⟩))

/-- Every symbol in the sets has come along a path. -/
def Carried (flows : List Flow) (sets : SymbolSets) : Prop :=
  ∀ name, ∀ a ∈ sets.of name, ∃ rest, Path flows a (name :: rest)

theorem carried_pass (h : Carried flows sets) : Carried flows (pass flows sets) := by
  refine SymbolSets.foldl_induction (P := Carried flows) (fun sets f hf h name a ha => ?_) h
  rcases SymbolSets.mem_of_modify.mp ha with ha | ⟨rfl, -, ha⟩
  · exact h name a ha
  · rcases mem_brings.mp ha with ha | ⟨source, hs, ha⟩
    · exact ⟨[], .seed hf ha⟩
    · obtain ⟨rest, hp⟩ := h source a ha
      exact ⟨source :: rest, .along hf hs hp⟩

/-! ## Any number of passes -/

theorem iterate_le_iterate (flows : List Flow) (sets : SymbolSets) {m n : Nat} (h : m ≤ n) :
    (pass flows)^[m] sets ≤ (pass flows)^[n] sets := by
  induction h with
  | refl => exact le_refl _
  | step _ ih =>
    rw [Function.iterate_succ_apply']
    exact ih.trans (le_pass flows _)

theorem carried_iterate (h : Carried flows sets) (n : Nat) :
    Carried flows ((pass flows)^[n] sets) := by
  induction n with
  | zero => exact h
  | succ n ih =>
    rw [Function.iterate_succ_apply']
    exact carried_pass ih

/-- A path of some names is covered by as many passes. -/
theorem mem_iterate_of_path (hk : ∀ f ∈ flows, f.target ∈ sets.keys) {name : String}
    {names : List String} (h : Path flows a (name :: names)) :
    a ∈ ((pass flows)^[names.length + 1] sets).of name := by
  generalize hp : name :: names = path at h
  induction h generalizing name names with
  | seed hf ha =>
    cases hp
    exact mem_pass hf (hk _ hf) (mem_brings.mpr (.inl ha))
  | @along f source rest hf hs _ ih =>
    cases hp
    rw [List.length_cons, Function.iterate_succ_apply']
    have hle : sets ≤ (pass flows)^[rest.length + 1] sets :=
      iterate_le_iterate flows sets (Nat.zero_le _)
    refine mem_pass hf ?_ (mem_brings.mpr (.inr ⟨source, hs, ih rfl⟩))
    rw [← SymbolSets.keys_eq_of_le hle]
    exact hk f hf

/-- **As many passes as there are names suffice**: whatever comes along any path has come along one
without repetition, so a further pass adds nothing. -/
theorem pass_iterate_fixed (hk : ∀ f ∈ flows, f.target ∈ sets.keys) (hc : Carried flows sets) :
    pass flows ((pass flows)^[sets.keys.length] sets) = (pass flows)^[sets.keys.length] sets := by
  refine le_antisymm (SymbolSets.le_iff.mpr ⟨?_, fun name a ha => ?_⟩) (le_pass flows _)
  · exact (SymbolSets.keys_eq_of_le (le_pass flows _)).symm
  · obtain ⟨rest, hp⟩ := carried_pass (carried_iterate hc _) name a ha
    obtain ⟨short, hs, hhead, hnodup⟩ := hp.exists_nodup
    cases short with
    | nil => cases hhead
    | cons first names =>
      cases hhead
      have hsub : ∀ x ∈ name :: names, x ∈ sets.keys := fun x hx => by
        obtain ⟨f, hf, rfl⟩ := List.mem_map.mp (hs.mem_targets hx)
        exact hk f hf
      have hlen : names.length + 1 ≤ sets.keys.length :=
        (List.subperm_of_subset hnodup hsub).length_le
      exact SymbolSets.mem_of_le (iterate_le_iterate flows sets hlen) (mem_iterate_of_path hk hs)

/-- A fixed point above the start holds exactly the symbols that have a path. -/
theorem mem_iterate_iff (hk : ∀ f ∈ flows, f.target ∈ sets.keys) (hc : Carried flows sets) {n : Nat}
    (hfix : (pass flows)^[n + 1] sets = (pass flows)^[n] sets) {name : String} :
    a ∈ ((pass flows)^[n] sets).of name ↔ ∃ rest, Path flows a (name :: rest) := by
  have stays (m : Nat) : (pass flows)^[m] ((pass flows)^[n] sets) = (pass flows)^[n] sets := by
    refine Function.iterate_fixed ?_ m
    rw [← Function.iterate_succ_apply' (pass flows), hfix]
  constructor
  · exact carried_iterate hc n name a
  · rintro ⟨rest, hp⟩
    rw [← stays (rest.length + 1), ← Function.iterate_add_apply]
    exact SymbolSets.mem_of_le (iterate_le_iterate flows sets (Nat.le_add_right _ n))
      (mem_iterate_of_path hk hp)

/-! ## The history of the passes -/

/-- The state after each of the first passes. -/
def states (flows : List Flow) (sets : SymbolSets) (n : Nat) : List SymbolSets :=
  (List.range n).map fun k => (pass flows)^[k + 1] sets

theorem states_succ (flows : List Flow) (sets : SymbolSets) (n : Nat) :
    states flows sets (n + 1) = pass flows sets :: states flows (pass flows sets) n := by
  unfold states
  rw [List.range_succ_eq_map, List.map_cons, List.map_map]
  rfl

/-- **The passes end with the first one that changes nothing.** All passes are counted, those made
before too, and the history holds the state after each of the later ones. -/
theorem converge_eq_some_iff {bound done : Nat} {made : Passes} :
    converge flows bound done sets = some made ↔
      ∃ n < bound, (∀ k < n, (pass flows)^[k + 1] sets ≠ (pass flows)^[k] sets) ∧
        (pass flows)^[n + 1] sets = (pass flows)^[n] sets ∧
        made = ⟨done + (n + 1), states flows sets (n + 1)⟩ := by
  induction bound generalizing done sets made with
  | zero => simp [converge]
  | succ bound ih =>
    unfold converge
    simp only
    by_cases hfix : pass flows sets = sets
    · rw [if_pos hfix, Option.some.injEq]
      constructor
      · rintro rfl
        exact ⟨0, Nat.succ_pos bound, fun k hk => absurd hk (Nat.not_lt_zero k), hfix, rfl⟩
      · rintro ⟨n, -, hmin, -, rfl⟩
        cases n with
        | zero => rfl
        | succ n => exact absurd hfix (hmin 0 (Nat.succ_pos n))
    · rw [if_neg hfix, Option.map_eq_some_iff]
      have hmade (n : Nat) : (⟨done + (n + 1 + 1), states flows sets (n + 1 + 1)⟩ : Passes) =
          ⟨done + 1 + (n + 1), pass flows sets :: states flows (pass flows sets) (n + 1)⟩ := by
        rw [states_succ flows sets, Nat.add_right_comm done, Nat.add_assoc done]
      constructor
      · rintro ⟨later, hlater, rfl⟩
        obtain ⟨n, hn, hmin, hlast, rfl⟩ := ih.mp hlater
        refine ⟨n + 1, Nat.succ_lt_succ hn, fun k hk => ?_, hlast, (hmade n).symm⟩
        cases k with
        | zero => exact hfix
        | succ k => exact hmin k (Nat.lt_of_succ_lt_succ hk)
      · rintro ⟨n, hn, hmin, hlast, rfl⟩
        cases n with
        | zero => exact absurd hlast hfix
        | succ n =>
          refine ⟨_, ih.mpr ⟨n, Nat.lt_of_succ_lt_succ hn, fun k hk => ?_, hlast, rfl⟩,
            (hmade n).symm⟩
          exact hmin (k + 1) (Nat.succ_lt_succ hk)

/-- A bound that leaves room for a fixed point is enough. -/
theorem converge_isSome {bound n : Nat} (hn : n < bound)
    (hfix : (pass flows)^[n + 1] sets = (pass flows)^[n] sets) :
    ∃ made, converge flows bound 0 sets = some made := by
  classical
  have hex : ∃ k, (pass flows)^[k + 1] sets = (pass flows)^[k] sets := ⟨n, hfix⟩
  exact ⟨_, converge_eq_some_iff.mpr ⟨Nat.find hex, Nat.lt_of_le_of_lt (Nat.find_min' hex hfix) hn,
    fun k hk => Nat.find_min hex hk, Nat.find_spec hex, rfl⟩⟩

@[simp] theorem length_states (flows : List Flow) (sets : SymbolSets) (n : Nat) :
    (states flows sets n).length = n := by
  simp [states]

/-- **As many passes are counted as states are kept.** -/
theorem count_eq_of_converge {bound : Nat} {made : Passes}
    (h : converge flows bound 0 sets = some made) : made.count = made.history.length := by
  obtain ⟨n, -, -, -, rfl⟩ := converge_eq_some_iff.mp h
  rw [length_states, Nat.zero_add]

/-- At least one pass is made: the one that changes nothing. -/
theorem count_pos_of_converge {bound : Nat} {made : Passes}
    (h : converge flows bound 0 sets = some made) : 0 < made.count := by
  obtain ⟨n, -, -, -, rfl⟩ := converge_eq_some_iff.mp h
  exact Nat.lt_add_left 0 (Nat.succ_pos n)

/-- **The bound does not matter**: one that allows the passes that are made gives the same ones, and
one that allows fewer gives none. -/
theorem converge_eq_ite {bound bound' : Nat} {made : Passes}
    (h : converge flows bound 0 sets = some made) :
    converge flows bound' 0 sets = if made.count ≤ bound' then some made else none := by
  obtain ⟨n, -, hmin, hfix, rfl⟩ := converge_eq_some_iff.mp h
  by_cases hn : 0 + (n + 1) ≤ bound'
  · rw [if_pos hn]
    exact converge_eq_some_iff.mpr ⟨n, by omega, hmin, hfix, rfl⟩
  · rw [if_neg hn, Option.eq_none_iff_forall_ne_some]
    intro made' h'
    -- Fewer passes would end with one that changes nothing, and there is none before.
    obtain ⟨m, hm, -, hfix', -⟩ := converge_eq_some_iff.mp h'
    exact hmin m (by omega) hfix'

/-- **At most one pass more is made than there are names.** -/
theorem count_le_of_converge (hk : ∀ f ∈ flows, f.target ∈ sets.keys) (hc : Carried flows sets)
    {bound : Nat} {made : Passes} (h : converge flows bound 0 sets = some made) :
    made.count ≤ sets.keys.length + 1 := by
  obtain ⟨n, -, hmin, -, rfl⟩ := converge_eq_some_iff.mp h
  show 0 + (n + 1) ≤ _
  by_contra hlt
  refine hmin sets.keys.length (by omega) ?_
  rw [Function.iterate_succ_apply']
  exact pass_iterate_fixed hk hc

end Predictive.Flow
