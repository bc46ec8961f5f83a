import Predictive.Proofs.PassLimit

/-!
# What the passes of FOLLOW leave behind

Before the first pass all sets are empty, and every pass makes the next state from the one before
it. The passes go on as long as some flow changes the size of its set; the first pass in which none
does is the last. So the states grow strictly up to the last but one, and each symbol of the result
has come in with exactly one pass.

* `Flow.grows_eq_false_iff`: the sizes, compared flow by flow, tell whether a pass changes anything.
* `FollowSets.Recorded`: the states that are kept, from the empty sets to the result.
* `FollowSets.addedIn?_eq_ok`: what a pass has added, as the difference of two states.
* `passes_partition`: the passes partition the result.
-/

namespace Predictive

/-- Something that becomes true in the course of some steps, and then stays true, does so in exactly
one of them. -/
theorem existsUnique_turn {P : ℕ → Prop} (hmono : ∀ i, P i → P (i + 1)) {n : ℕ} (h0 : ¬ P 0)
    (hn : P n) : ∃! i, i < n ∧ ¬ P i ∧ P (i + 1) := by
  classical
  have hstays {i j : ℕ} (hi : P i) (hij : i ≤ j) : P j :=
    Nat.le_induction hi (fun k _ => hmono k) j hij
  have hex : ∃ i, P i := ⟨n, hn⟩
  have hspec : P (Nat.find hex) := Nat.find_spec hex
  have hpos : Nat.find hex ≠ 0 := fun h => h0 (h ▸ hspec)
  obtain ⟨i, hi⟩ := Nat.exists_eq_succ_of_ne_zero hpos
  rw [hi] at hspec
  refine ⟨i, ⟨?_, Nat.find_min hex (by omega), hspec⟩, ?_⟩
  · have := Nat.find_min' hex hn
    omega
  · rintro j ⟨-, hj, hj'⟩
    have hle : Nat.find hex ≤ j + 1 := Nat.find_min' hex hj'
    have hlt : ¬ i + 1 ≤ j := fun hij => hj (hstays hspec hij)
    omega

namespace Flow

variable {flows : List Flow} {sets : SymbolSets}

/-- Some flow of a pass changes the size of the set of its target. -/
def grows : List Flow → SymbolSets → Bool
  | [], _ => false
  | f :: flows, sets =>
    ((apply sets f).of f.target).size ≠ (sets.of f.target).size || grows flows (apply sets f)

/-- A flow that keeps the size of the set of its target keeps all sets. -/
theorem apply_eq_self_iff {f : Flow} :
    apply sets f = sets ↔ ((apply sets f).of f.target).size = (sets.of f.target).size := by
  constructor
  · intro h
    rw [h]
  · intro hsize
    have htarget : sets.of f.target = (apply sets f).of f.target := by
      by_contra hne
      have hsub : ∀ a ∈ sets.of f.target, a ∈ (apply sets f).of f.target := fun a ha =>
        SymbolSets.mem_of_le (le_apply sets f) ha
      exact Nat.ne_of_gt (SortedSet.size_lt_of_subset hsub hne) hsize
    refine SymbolSets.ext_of (SymbolSets.keys_eq_of_le (le_apply sets f)).symm fun name a => ?_
    by_cases hname : name = f.target
    · rw [hname, ← htarget]
    · exact SymbolSets.mem_of_modify.trans (or_iff_left fun h => hname h.1)

/-- **The sizes tell whether a pass changes anything.** -/
theorem grows_eq_false_iff : grows flows sets = false ↔ pass flows sets = sets := by
  induction flows generalizing sets with
  | nil => exact iff_of_true rfl rfl
  | cons f flows ih =>
    have hpass : pass (f :: flows) sets = pass flows (apply sets f) := rfl
    rw [grows, Bool.or_eq_false_iff, decide_eq_false_iff_not, not_not, ← apply_eq_self_iff, ih,
      hpass]
    constructor
    · rintro ⟨hf, hrest⟩
      rw [hrest, hf]
    · intro h
      -- What the first flow adds no later one takes back.
      have hf : apply sets f = sets :=
        le_antisymm ((le_pass flows (apply sets f)).trans_eq h) (le_apply sets f)
      exact ⟨hf, by rw [h, hf]⟩

end Flow

namespace FollowSets

variable {g : Grammar} {first : FirstSets} {follow : FollowSets} {maxPasses : Option Int}
  {name : String} {a : Symbol}

/-! ## The states between the passes -/

/-- The state after some passes: all sets are empty at first. -/
def after (g : Grammar) (first : FirstSets) (n : ℕ) : SymbolSets :=
  (Flow.pass (Flow.ofGrammar g first))^[n] (g.rules.withKeysOf ∅)

theorem after_succ (g : Grammar) (first : FirstSets) (n : ℕ) :
    after g first (n + 1) = Flow.pass (Flow.ofGrammar g first) (after g first n) :=
  Function.iterate_succ_apply' _ _ _

theorem keys_after (g : Grammar) (first : FirstSets) (n : ℕ) :
    (after g first n).keys = g.nonterminals := by
  have hle := Flow.iterate_le_iterate (Flow.ofGrammar g first) (g.rules.withKeysOf ∅)
    (Nat.zero_le n)
  exact (SymbolSets.keys_eq_of_le hle).symm.trans (OrderedMap.keys_withKeysOf _ _)

theorem not_mem_after_zero : a ∉ (after g first 0).of name := by
  show a ∉ SymbolSets.of (g.rules.withKeysOf ∅) name
  rw [SymbolSets.of_withKeysOf_empty]
  exact SortedSet.not_mem_empty a

theorem mem_after_succ {n : ℕ} (ha : a ∈ (after g first n).of name) :
    a ∈ (after g first (n + 1)).of name :=
  SymbolSets.mem_of_le (Flow.iterate_le_iterate _ _ (Nat.le_succ n)) ha

/-- A pass that changes the state adds something. -/
theorem exists_gained {n : ℕ} (h : after g first (n + 1) ≠ after g first n) :
    ∃ name ∈ g.nonterminals, ∃ a ∈ (after g first (n + 1)).of name,
      a ∉ (after g first n).of name := by
  by_contra hnone
  push Not at hnone
  refine h (SymbolSets.ext_of (by rw [keys_after, keys_after]) fun name a => ?_)
  refine ⟨fun ha => ?_, mem_after_succ⟩
  exact hnone name (keys_after g first (n + 1) ▸ SymbolSets.mem_keys_of_mem ha) a ha

/-- The states between the passes, from the empty sets on. -/
def states (g : Grammar) (follow : FollowSets) : List SymbolSets :=
  g.rules.withKeysOf ∅ :: follow.history

/-- The passes end with the first one that changes nothing. -/
structure Ends (g : Grammar) (first : FirstSets) (follow : FollowSets) (n : ℕ) : Prop where
  passes : follow.passes = n + 1
  length : follow.history.length = follow.passes
  states : ∀ i, (states g follow)[i]? = if i ≤ n + 1 then some (after g first i) else none
  changes : ∀ i < n, after g first (i + 1) ≠ after g first i
  fixed : after g first (n + 1) = after g first n
  sets : follow.sets = after g first (n + 1)

theorem exists_ends (h : compute g first maxPasses = .ok follow) : ∃ n, Ends g first follow n := by
  obtain ⟨-, made, hc, rfl⟩ := compute_eq_ok_iff.mp h
  have hlength := (Flow.count_eq_of_converge hc).symm
  obtain ⟨n, -, hmin, hfix, rfl⟩ := Flow.converge_eq_some_iff.mp hc
  refine ⟨n, Nat.zero_add _, hlength, fun i => ?_, hmin, hfix, ?_⟩
  · cases i with
    | zero => rfl
    | succ i =>
      rw [states, List.getElem?_cons_succ]
      by_cases hi : i < n + 1
      · rw [if_pos (by omega), Flow.states, List.getElem?_map, List.getElem?_range hi]
        rfl
      · rw [if_neg (by omega), Flow.states, List.getElem?_eq_none (by simpa using hi)]
  · simp [Flow.states, after, List.range_succ]

/-- What the kept states are like. -/
structure Recorded (g : Grammar) (first : FirstSets) (follow : FollowSets) : Prop where
  passes_pos : 0 < follow.passes
  /-- Besides the empty sets there is one state for each pass. -/
  length : follow.history.length = follow.passes
  /-- Each pass makes the next state from the one before it. -/
  pass : ∀ i s t, (states g follow)[i]? = some s → (states g follow)[i + 1]? = some t →
    t = Flow.pass (Flow.ofGrammar g first) s
  /-- All passes but the last one change the size of some set. -/
  grows : ∀ i s, i < follow.passes → (states g follow)[i]? = some s →
    (Flow.grows (Flow.ofGrammar g first) s = true ↔ i + 1 < follow.passes)
  keys : ∀ s ∈ states g follow, s.keys = g.nonterminals
  mono : ∀ i s t, (states g follow)[i]? = some s → (states g follow)[i + 1]? = some t →
    ∀ name, ∀ a ∈ s.of name, a ∈ t.of name
  strict : ∀ i s t, i + 1 < follow.passes → (states g follow)[i]? = some s →
    (states g follow)[i + 1]? = some t → ∃ name ∈ g.nonterminals, ∃ a ∈ t.of name, a ∉ s.of name
  /-- The last pass leaves the state before it; if it is the only one, the empty sets. -/
  last : (states g follow)[follow.passes]? = (states g follow)[follow.passes - 1]?
  sets : follow.history.getLast? = some follow.sets

namespace Ends

variable {n i : ℕ} {s t : SymbolSets}

theorem eq_after (h : Ends g first follow n) (hs : (FollowSets.states g follow)[i]? = some s) :
    i ≤ n + 1 ∧ s = after g first i := by
  rw [h.states] at hs
  split at hs
  · rename_i hi
    exact ⟨hi, (Option.some.inj hs).symm⟩
  · cases hs

theorem state (h : Ends g first follow n) (hi : i ≤ n + 1) :
    (FollowSets.states g follow)[i]? = some (after g first i) := by
  rw [h.states, if_pos hi]

theorem getElem?_history (h : Ends g first follow n) (hi : i ≤ n) :
    follow.history[i]? = some (after g first (i + 1)) := h.state (Nat.succ_le_succ hi)

theorem recorded (h : Ends g first follow n) : Recorded g first follow where
  passes_pos := by rw [h.passes]; exact Nat.succ_pos n
  length := h.length
  pass := by
    intro i s t hs ht
    rw [(h.eq_after hs).2, (h.eq_after ht).2, after_succ]
  grows := by
    intro i s hi hs
    rw [(h.eq_after hs).2, h.passes]
    rw [h.passes] at hi
    by_cases hin : i < n
    · refine iff_of_true ?_ (by omega)
      rw [← Bool.not_eq_false, Flow.grows_eq_false_iff, ← after_succ]
      exact h.changes i hin
    · obtain rfl : i = n := by omega
      refine iff_of_false ?_ (by omega)
      rw [Bool.not_eq_true, Flow.grows_eq_false_iff, ← after_succ]
      exact h.fixed
  keys := by
    intro s hs
    obtain ⟨i, hi⟩ := List.mem_iff_getElem?.mp hs
    rw [(h.eq_after hi).2, keys_after]
  mono := by
    intro i s t hs ht name a ha
    rw [(h.eq_after hs).2] at ha
    rw [(h.eq_after ht).2]
    exact mem_after_succ ha
  strict := by
    intro i s t hi hs ht
    rw [h.passes] at hi
    rw [(h.eq_after hs).2, (h.eq_after ht).2]
    exact exists_gained (h.changes i (by omega))
  last := by
    rw [h.passes, Nat.add_sub_cancel, h.state (Nat.le_refl _), h.state (Nat.le_succ n), h.fixed]
  sets := by
    have hlength : follow.history.length - 1 = n := by
      rw [h.length, h.passes, Nat.add_sub_cancel]
    rw [List.getLast?_eq_getElem?, hlength, h.getElem?_history (Nat.le_refl n), h.sets]

end Ends

/-! ## What one pass adds -/

/-- What a state has more than an earlier one, for the names that gained something. -/
def gained (s t : SymbolSets) : SymbolSets :=
  (t.mapValues fun name set => set.diff (s.of name)).filter fun _ set => !set.isEmpty

theorem find?_gained_eq_some_iff {s t : SymbolSets} {set : SymbolSet} :
    (gained s t).find? name = some set ↔
      name ∈ t.keys ∧ (t.of name).diff (s.of name) = set ∧ set.toList ≠ [] := by
  rw [gained, OrderedMap.find?_filter_eq_some_iff, OrderedMap.find?_mapValues, SymbolSets.find?_eq]
  by_cases hk : name ∈ t.keys
  · simp [hk, SortedSet.isEmpty]
  · simp [hk]

theorem mem_gained {s t : SymbolSets} :
    a ∈ (gained s t).of name ↔ a ∈ t.of name ∧ a ∉ s.of name := by
  rw [← SortedSet.mem_diff]
  constructor
  · intro ha
    obtain ⟨set, hset⟩ := OrderedMap.mem_keys.mp (SymbolSets.mem_keys_of_mem ha)
    unfold SymbolSets.of at ha
    rw [hset, Option.getD_some] at ha
    rw [(find?_gained_eq_some_iff.mp hset).2.1]
    exact ha
  · intro ha
    have hk : name ∈ t.keys := SymbolSets.mem_keys_of_mem (SortedSet.mem_diff.mp ha).1
    have hset : (gained s t).find? name = some ((t.of name).diff (s.of name)) :=
      find?_gained_eq_some_iff.mpr ⟨hk, rfl, List.ne_nil_of_mem ha⟩
    unfold SymbolSets.of at ha ⊢
    rw [hset]
    exact ha

theorem keys_gained (s t : SymbolSets) : (gained s t).keys.Sublist t.keys := by
  have hsub : (gained s t).keys.Sublist
      (t.mapValues fun name set => set.diff (s.of name)).keys := List.filter_sublist.map _
  rwa [OrderedMap.keys_mapValues] at hsub

/-- Something is listed iff the later state has more. -/
theorem entries_gained_ne_nil_iff {s t : SymbolSets} :
    (gained s t).entries ≠ [] ↔ ∃ name, ∃ a ∈ t.of name, a ∉ s.of name := by
  constructor
  · intro hne
    obtain ⟨⟨name, set⟩, he⟩ := List.exists_mem_of_ne_nil _ hne
    obtain ⟨-, hset, hnonempty⟩ :=
      find?_gained_eq_some_iff.mp (OrderedMap.find?_eq_some_iff.mpr he)
    obtain ⟨a, ha⟩ := List.exists_mem_of_ne_nil _ hnonempty
    exact ⟨name, a, SortedSet.mem_diff.mp (hset ▸ ha)⟩
  · rintro ⟨name, a, ha⟩ hnil
    have hk : name ∈ (gained s t).keys := SymbolSets.mem_keys_of_mem (mem_gained.mpr ha)
    unfold OrderedMap.keys at hk
    rw [hnil] at hk
    exact List.not_mem_nil hk

/-- **What a pass has added** is the difference between the states around it. -/
theorem addedIn?_eq_ok {n i : ℕ} (h : Ends g first follow n) (hi : i < follow.passes) :
    follow.addedIn? i = .ok (gained (after g first i) (after g first (i + 1))) := by
  rw [h.passes] at hi
  unfold addedIn?
  rw [SignedIndex.get?_ofNat, h.getElem?_history (Nat.le_of_lt_succ hi)]
  simp only
  cases i with
  | zero =>
    rw [if_neg (by simp)]
    -- A name without a set stands for the empty sets before the first pass.
    have hempty (name : String) : (after g first 0).of name = SymbolSets.of ∅ name :=
      SortedSet.ext fun a => iff_of_false not_mem_after_zero (SortedSet.not_mem_empty a)
    simp only [gained, hempty]
  | succ i =>
    have hprevious : ((i + 1 : ℕ) : Int) - 1 = (i : ℕ) := by omega
    rw [if_pos (by omega), hprevious, SignedIndex.get?_ofNat, h.getElem?_history (by omega)]
    rfl

/-- A pass lists a symbol among what it has added to the set of a nonterminal. -/
def Lists (follow : FollowSets) (i : ℕ) (name : String) (a : Symbol) : Prop :=
  ∃ added, follow.addedIn? i = .ok added ∧ a ∈ added.of name

theorem lists_iff {n i : ℕ} (h : Ends g first follow n) (hi : i < follow.passes) :
    follow.Lists i name a ↔
      a ∉ (after g first i).of name ∧ a ∈ (after g first (i + 1)).of name := by
  unfold Lists
  rw [addedIn?_eq_ok h hi]
  simp only [Except.ok.injEq, exists_eq_left', mem_gained]
  exact and_comm

/-- What a pass has added, as a whole. -/
structure Increment (g : Grammar) (follow : FollowSets) (i : ℕ) (added : SymbolSets) : Prop where
  eq_ok : follow.addedIn? i = .ok added
  /-- The nonterminals that gained something come in the order of their declaration. -/
  keys : added.keys.Sublist g.nonterminals
  nonempty : ∀ e ∈ added.entries, e.2.toList ≠ []
  /-- The symbols come in order, none of them twice. -/
  ascending : ∀ e ∈ added.entries, e.2.toList.Pairwise (compare · · = .lt)
  subset : ∀ e ∈ added.entries, ∀ a ∈ e.2.toList, a ∈ follow.sets.of e.1
  /-- All passes but the last one have added something. -/
  entries : added.entries ≠ [] ↔ i + 1 < follow.passes

theorem exists_increment {n i : ℕ} (h : Ends g first follow n) (hi : i < follow.passes) :
    ∃ added, Increment g follow i added := by
  refine ⟨_, addedIn?_eq_ok h hi, keys_after g first (i + 1) ▸ keys_gained _ _, ?_, ?_, ?_, ?_⟩
  · intro e he
    exact (find?_gained_eq_some_iff.mp (OrderedMap.find?_eq_some_iff.mpr he)).2.2
  · intro e _
    exact e.2.ascending
  · intro e he a ha
    have hset := (find?_gained_eq_some_iff.mp (OrderedMap.find?_eq_some_iff.mpr he)).2.1
    rw [← hset] at ha
    rw [h.sets]
    rw [h.passes] at hi
    exact SymbolSets.mem_of_le (Flow.iterate_le_iterate _ _ hi) (SortedSet.mem_diff.mp ha).1
  · rw [h.passes] at hi ⊢
    rw [entries_gained_ne_nil_iff]
    constructor
    · rintro ⟨name, a, hnew, hold⟩
      by_contra hlt
      obtain rfl : i = n := by omega
      exact hold (h.fixed ▸ hnew)
    · intro hlt
      obtain ⟨name, -, hgained⟩ := exists_gained (h.changes i (by omega))
      exact ⟨name, hgained⟩

end FollowSets

/-- **The passes partition the result.** Whenever FOLLOW comes out, whatever the limit, one state is
kept for each pass; the states only grow, from the empty sets to the result, and strictly so but for
the last pass, which changes nothing. Each symbol of the result is listed by exactly one pass. A
pass lists nothing else, in order and without repetition, and all passes but the last list
something. -/
theorem passes_partition {g : Grammar} {first : FirstSets} {maxPasses : Option Int}
    {follow : FollowSets} (h : FollowSets.compute g first maxPasses = .ok follow) :
    FollowSets.Recorded g first follow ∧
    (∀ name, ∀ a ∈ follow.sets.of name, ∃! i, i < follow.passes ∧ follow.Lists i name a) ∧
    ∀ i < follow.passes, ∃ added, FollowSets.Increment g follow i added := by
  obtain ⟨n, hends⟩ := FollowSets.exists_ends h
  refine ⟨hends.recorded, fun name a ha => ?_, fun i hi => FollowSets.exists_increment hends hi⟩
  have hturn := existsUnique_turn (P := fun i => a ∈ (FollowSets.after g first i).of name)
    (fun i => FollowSets.mem_after_succ) FollowSets.not_mem_after_zero (hends.sets ▸ ha)
  rw [← hends.passes] at hturn
  refine (existsUnique_congr fun i => and_congr_right fun hi => ?_).mp hturn
  exact (FollowSets.lists_iff hends hi).symm

/-- The word `t` comes to `S` with the last pass but one, and no other pass lists it there. -/
theorem slowRing_partition :
    ∃ follow, FollowSets.compute .slowRing (.ofGrammar .slowRing) none = .ok follow ∧
      follow.passes = 5 ∧ .terminal "t" ∈ follow.sets.of "S" ∧
      (∀ i < 5, follow.Lists i "S" (.terminal "t") ↔ i = 3) ∧
      ∃ added, FollowSets.Increment .slowRing follow 4 added ∧ added.entries = [] := by
  have hcomputed : (FollowSets.compute .slowRing (.ofGrammar .slowRing) none).toOption.map
      (fun follow => (follow.passes, follow.sets.of "S",
        (follow.addedIn? 3).toOption.map fun added => (added.of "S").toList)) =
      some (5, .ofList [.terminal "t"], some [.terminal "t"]) := by decide +kernel
  cases h : FollowSets.compute .slowRing (.ofGrammar .slowRing) none with
  | error e =>
    rw [h] at hcomputed
    cases hcomputed
  | ok follow =>
    rw [h] at hcomputed
    simp only [Except.toOption, Option.map_some, Option.some.injEq, Prod.mk.injEq] at hcomputed
    obtain ⟨hpasses, hsets, hadded⟩ := hcomputed
    obtain ⟨-, honce, hincrement⟩ := passes_partition h
    have hmem : .terminal "t" ∈ follow.sets.of "S" := by
      rw [hsets]
      decide
    have hlists : follow.Lists 3 "S" (.terminal "t") := by
      cases hthree : follow.addedIn? 3 with
      | error e =>
        rw [hthree] at hadded
        cases hadded
      | ok added =>
        rw [hthree] at hadded
        have hset : (added.of "S").toList = [.terminal "t"] := Option.some.inj hadded
        refine ⟨added, hthree, ?_⟩
        rw [SortedSet.mem_def, hset]
        exact List.mem_singleton_self _
    rw [hpasses] at honce hincrement
    obtain ⟨added, hlast⟩ := hincrement 4 (by decide)
    refine ⟨follow, rfl, hpasses, hmem, fun i hi => ?_, added, hlast, ?_⟩
    · refine ⟨fun hl => (honce "S" _ hmem).unique ⟨hi, hl⟩ ⟨by decide, hlists⟩, ?_⟩
      rintro rfl
      exact hlists
    · by_contra hne
      have := hlast.entries.mp hne
      omega

end Predictive
