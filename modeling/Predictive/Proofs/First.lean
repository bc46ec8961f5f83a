import Mathlib.Data.List.Forall2
import Mathlib.Logic.Function.Iterate
import Mathlib.Tactic.Tauto
import Predictive.Proofs.Derivation
import Predictive.Proofs.SymbolSets

/-!
# FIRST sets are exact

What FIRST of a form should hold is said by derivations (`InFirst`): the symbols that the form can
begin with, and the mark of the empty string if the form can vanish.

* `First.sweep_ofNonterminals`: the sweeps stop at a family that no production extends.
* `First.mem_ofNonterminals_iff`: in any grammar FIRST of a nonterminal is the union over its
  alternatives.
* `FirstSets.mem_ofSequence_iff`: for a grammar without marks of the empty string in its
  alternatives, the computed FIRST of a form without such marks is exactly what it should be.
* `first_exact`: the same of every alternative and every nonterminal, and the sweeps end.
-/

namespace Predictive

/-- No symbol of the form is a mark of the empty string. -/
def EmptyFree (u : List Symbol) : Prop := ∀ s ∈ u, s.kind ≠ .empty

/-- No alternative uses a mark of the empty string. -/
def Grammar.EmptyFree (g : Grammar) : Prop := ∀ p ∈ g.productions, Predictive.EmptyFree p.rhs

/-- What FIRST of a form should hold. -/
def Grammar.InFirst (g : Grammar) (a : Symbol) (u : List Symbol) : Prop :=
  (a = .empty ∧ g.Vanishes u) ∨ (a ≠ .empty ∧ g.Begins a u)

variable {g : Grammar}

theorem EmptyFree.tail {s : Symbol} {u : List Symbol} (h : EmptyFree (s :: u)) : EmptyFree u :=
  fun t ht => h t (List.mem_cons_of_mem s ht)

theorem EmptyFree.head_ne {s : Symbol} {u : List Symbol} (h : EmptyFree (s :: u)) :
    s ≠ .empty := by
  rintro rfl
  exact h _ List.mem_cons_self rfl

theorem Grammar.EmptyFree.alternative (h : g.EmptyFree) {name : String} {rhs : List Symbol}
    (ha : g.HasAlternative name rhs) : Predictive.EmptyFree rhs :=
  h ⟨name, rhs⟩ (Grammar.mem_productions.mpr ha)

/-! ## What FIRST should hold -/

namespace Grammar

theorem inFirst_nil {a : Symbol} : g.InFirst a [] ↔ a = .empty := by
  constructor
  · rintro (⟨ha, -⟩ | ⟨-, h⟩)
    · exact ha
    · exact absurd h not_begins_nil
  · intro ha
    exact .inl ⟨ha, .nil⟩

theorem inFirst_cons {s a : Symbol} {u : List Symbol} (hs : s.isNonterminal = false)
    (hne : s ≠ .empty) : g.InFirst a (s :: u) ↔ a = s := by
  constructor
  · rintro (⟨-, h⟩ | ⟨-, h⟩)
    · rw [h.isNonterminal List.mem_cons_self] at hs
      exact absurd hs (by decide)
    · cases h with
      | here => rfl
      | within => exact absurd hs (by simp)
      | behind => exact absurd hs (by simp)
  · rintro rfl
    exact .inr ⟨hne, .here hs⟩

theorem inFirst_nonterminal {a : Symbol} {name : String} {u : List Symbol} :
    g.InFirst a (.nonterminal name :: u) ↔
      (a ≠ .empty ∧ g.InFirst a [.nonterminal name]) ∨
      (g.InFirst .empty [.nonterminal name] ∧ g.InFirst a u) := by
  unfold InFirst
  rw [vanishes_cons, begins_cons]
  tauto

theorem inFirst_singleton {a : Symbol} {name : String} :
    g.InFirst a [.nonterminal name] ↔ ∃ rhs, g.HasAlternative name rhs ∧ g.InFirst a rhs := by
  unfold InFirst
  rw [vanishes_singleton, begins_singleton]
  by_cases ha : a = .empty <;> simp [ha]

end Grammar

/-! ## One sequence -/

namespace First

variable {sets sets' : SymbolSets}

theorem mem_ofSequence_nil {a : Symbol} : a ∈ ofSequence sets [] ↔ a = .empty :=
  SortedSet.mem_singleton

theorem mem_ofSequence_cons {s a : Symbol} (hs : s.isNonterminal = false) (u : List Symbol) :
    a ∈ ofSequence sets (s :: u) ↔ a = s := by
  unfold ofSequence
  rw [if_neg (by rw [hs]; exact Bool.false_ne_true)]
  exact SortedSet.mem_singleton

theorem mem_ofSequence_nonterminal {name : String} {a : Symbol} {u : List Symbol} :
    a ∈ ofSequence sets (.nonterminal name :: u) ↔
      (a ≠ .empty ∧ a ∈ sets.of name) ∨ (.empty ∈ sets.of name ∧ a ∈ ofSequence sets u) := by
  rw [ofSequence, if_pos (Symbol.isNonterminal_nonterminal name)]
  show a ∈ (if .empty ∈ sets.of name then (sets.of name).erase .empty ∪ ofSequence sets u
    else sets.of name) ↔ _
  by_cases he : .empty ∈ sets.of name
  · rw [if_pos he]
    simp only [SortedSet.mem_union, SortedSet.mem_erase, he, true_and, and_comm]
  · rw [if_neg he]
    constructor
    · intro ha
      exact .inl ⟨fun e => he (e ▸ ha), ha⟩
    · rintro (⟨-, ha⟩ | ⟨hn, -⟩)
      · exact ha
      · exact absurd hn he

theorem mem_ofSequence_mono (h : sets ≤ sets') {a : Symbol} {u : List Symbol}
    (ha : a ∈ ofSequence sets u) : a ∈ ofSequence sets' u := by
  induction u with
  | nil => exact ha
  | cons s u ih =>
    cases hs : s.isNonterminal with
    | false => exact (mem_ofSequence_cons hs u).mpr ((mem_ofSequence_cons hs u).mp ha)
    | true =>
      rw [Symbol.eq_nonterminal hs] at ha ⊢
      refine mem_ofSequence_nonterminal.mpr ?_
      rcases mem_ofSequence_nonterminal.mp ha with ⟨hne, ha⟩ | ⟨he, ha⟩
      · exact .inl ⟨hne, SymbolSets.mem_of_le h ha⟩
      · exact .inr ⟨SymbolSets.mem_of_le h he, ih ha⟩

/-! ## The sweeps stop -/

theorem mem_of_extend {p : Production} {name : String} {a : Symbol} :
    a ∈ (extend sets p).of name ↔
      a ∈ sets.of name ∨ (name = p.lhs ∧ p.lhs ∈ sets.keys ∧ a ∈ ofSequence sets p.rhs) :=
  SymbolSets.mem_of_modify

theorem le_extend (sets : SymbolSets) (p : Production) : sets ≤ extend sets p :=
  SymbolSets.le_modify sets p.lhs _

theorem le_sweep (g : Grammar) (sets : SymbolSets) : sets ≤ sweep g sets :=
  SymbolSets.le_foldl le_extend _ _

/-- The symbols that a FIRST set can hold. -/
def support (g : Grammar) : List Symbol := .empty :: g.productions.flatMap Production.rhs

/-- The sets have the nonterminals as keys, and hold no symbol from elsewhere. -/
def Within (g : Grammar) (sets : SymbolSets) : Prop :=
  sets.keys = g.nonterminals ∧ ∀ name, ∀ a ∈ sets.of name, a ∈ support g

theorem Within.mem_of_mem_ofSequence (h : Within g sets) {a : Symbol} {u : List Symbol}
    (hu : ∀ s ∈ u, s ∈ support g) (ha : a ∈ ofSequence sets u) : a ∈ support g := by
  induction u with
  | nil =>
    rw [mem_ofSequence_nil.mp ha]
    exact List.mem_cons_self
  | cons s u ih =>
    cases hs : s.isNonterminal with
    | false =>
      rw [(mem_ofSequence_cons hs u).mp ha]
      exact hu s List.mem_cons_self
    | true =>
      rw [Symbol.eq_nonterminal hs] at ha
      rcases mem_ofSequence_nonterminal.mp ha with ⟨-, ha⟩ | ⟨-, ha⟩
      · exact h.2 _ a ha
      · exact ih (fun t ht => hu t (List.mem_cons_of_mem s ht)) ha

theorem Within.sweep (h : Within g sets) : Within g (sweep g sets) := by
  refine SymbolSets.foldl_induction (P := Within g) (fun sets p hp h => ?_) h
  refine ⟨(OrderedMap.keys_modify _ _ _).trans h.1, fun name a ha => ?_⟩
  rcases mem_of_extend.mp ha with ha | ⟨-, -, ha⟩
  · exact h.2 name a ha
  · refine h.mem_of_mem_ofSequence (fun s hs => List.mem_cons_of_mem _ ?_) ha
    exact List.mem_flatMap.mpr ⟨p, hp, hs⟩

theorem within_start (g : Grammar) : Within g (g.rules.withKeysOf ∅) := by
  refine ⟨OrderedMap.keys_withKeysOf _ _, fun name a ha => ?_⟩
  rw [SymbolSets.of_withKeysOf_empty] at ha
  exact absurd ha (SortedSet.not_mem_empty a)

theorem Within.weight_le (h : Within g sets) : sets.weight ≤ sweepBound g := by
  have := SymbolSets.weight_le (s := sets) fun name _ => SortedSet.size_le_of_subset_list (h.2 name)
  rwa [h.1] at this

/-- A repetition is a number of steps that each change something, within its bound. -/
theorem stabilize_eq_iterate {σ : Type} [DecidableEq σ] (step : σ → σ) (bound : Nat) (s : σ) :
    ∃ n ≤ bound, stabilize step bound s = step^[n] s ∧ ∀ k < n, step^[k + 1] s ≠ step^[k] s := by
  induction bound generalizing s with
  | zero => exact ⟨0, Nat.le_refl 0, rfl, fun k hk => absurd hk (Nat.not_lt_zero k)⟩
  | succ bound ih =>
    unfold stabilize
    by_cases hs : step s = s
    · rw [if_pos hs]
      exact ⟨0, Nat.zero_le _, rfl, fun k hk => absurd hk (Nat.not_lt_zero k)⟩
    · obtain ⟨n, hn, heq, hchange⟩ := ih (step s)
      rw [if_neg hs]
      refine ⟨n + 1, Nat.succ_le_succ hn, heq, fun k hk => ?_⟩
      cases k with
      | zero => exact hs
      | succ k => exact hchange k (Nat.lt_of_succ_lt_succ hk)

/-- **The sweeps stop at a fixed point**: no production extends the sets any more. -/
theorem sweep_ofNonterminals (g : Grammar) :
    sweep g (ofNonterminals g) = ofNonterminals g := by
  refine step_stabilize (P := Within g) (fun _ h => h.sweep)
    (fun sets => sweepBound g - sets.weight) (fun sets h hne => ?_) (sweepBound g)
    (within_start g) (Nat.sub_le _ _)
  have hlt := SymbolSets.weight_lt (le_sweep g sets) (Ne.symm hne)
  have hle := h.sweep.weight_le
  omega

theorem keys_ofNonterminals (g : Grammar) : (ofNonterminals g).keys = g.nonterminals :=
  (stabilize_induction (P := Within g) (fun _ h => h.sweep) _ (within_start g)).1

/-- The sets hold FIRST of every alternative of their nonterminals. -/
theorem mem_ofNonterminals {name : String} {rhs : List Symbol} (h : g.HasAlternative name rhs)
    {a : Symbol} (ha : a ∈ ofSequence (ofNonterminals g) rhs) :
    a ∈ (ofNonterminals g).of name := by
  obtain ⟨t, hle, hge⟩ := SymbolSets.exists_le_foldl le_extend
    (Grammar.mem_productions (p := ⟨name, rhs⟩).mpr h) (ofNonterminals g)
  have hsweep : g.productions.foldl extend (ofNonterminals g) = ofNonterminals g :=
    sweep_ofNonterminals g
  rw [hsweep] at hge
  have hkey : name ∈ t.keys := by
    rw [← SymbolSets.keys_eq_of_le hle, keys_ofNonterminals]
    exact h.mem_nonterminals
  exact SymbolSets.mem_of_le hge
    (mem_of_extend.mpr (.inr ⟨rfl, hkey, mem_ofSequence_mono hle ha⟩))

/-- The sets of a grammar are the state after some sweeps, each of which changes something, and the
next sweep changes nothing. -/
theorem exists_sweeps (g : Grammar) :
    ∃ n ≤ sweepBound g, ofNonterminals g = (sweep g)^[n] (g.rules.withKeysOf ∅) ∧
      (∀ k < n, (sweep g)^[k + 1] (g.rules.withKeysOf ∅) ≠ (sweep g)^[k] (g.rules.withKeysOf ∅)) ∧
      (sweep g)^[n + 1] (g.rules.withKeysOf ∅) = (sweep g)^[n] (g.rules.withKeysOf ∅) := by
  obtain ⟨n, hn, heq, hchange⟩ :=
    stabilize_eq_iterate (sweep g) (sweepBound g) (g.rules.withKeysOf ∅)
  refine ⟨n, hn, heq, hchange, ?_⟩
  have hfix : sweep g (ofNonterminals g) = ofNonterminals g := sweep_ofNonterminals g
  rw [ofNonterminals, heq, ← Function.iterate_succ_apply' (sweep g)] at hfix
  exact hfix

/-- The sets hold nothing but FIRST of the alternatives. -/
theorem exists_alternative {name : String} {a : Symbol} (ha : a ∈ (ofNonterminals g).of name) :
    ∃ rhs, g.HasAlternative name rhs ∧ a ∈ ofSequence (ofNonterminals g) rhs := by
  -- On the way the sets stay below the last ones, so what they yield for an alternative is in FIRST
  -- of it.
  let P (sets : SymbolSets) : Prop :=
    sets ≤ ofNonterminals g ∧ ∀ name, ∀ a ∈ sets.of name,
      ∃ rhs, g.HasAlternative name rhs ∧ a ∈ ofSequence (ofNonterminals g) rhs
  have keep (sets : SymbolSets) (h : P sets) : P (sweep g sets) := by
    refine SymbolSets.foldl_induction (P := P) (fun sets p hp h => ?_) h
    have hp' : g.HasAlternative p.lhs p.rhs := Grammar.mem_productions.mp hp
    have new {name : String} {a : Symbol} (ha : a ∈ (extend sets p).of name) :
        a ∈ sets.of name ∨ (name = p.lhs ∧ a ∈ ofSequence (ofNonterminals g) p.rhs) := by
      rcases mem_of_extend.mp ha with ha | ⟨hname, -, ha⟩
      · exact .inl ha
      · exact .inr ⟨hname, mem_ofSequence_mono h.1 ha⟩
    refine ⟨SymbolSets.le_iff.mpr ⟨?_, fun name a ha => ?_⟩, fun name a ha => ?_⟩
    · exact (SymbolSets.keys_eq_of_le (le_extend sets p)).symm.trans (SymbolSets.keys_eq_of_le h.1)
    · rcases new ha with hold | ⟨rfl, hnew⟩
      · exact SymbolSets.mem_of_le h.1 hold
      · exact mem_ofNonterminals hp' hnew
    · rcases new ha with hold | ⟨rfl, hnew⟩
      · exact h.2 name a hold
      · exact ⟨p.rhs, hp', hnew⟩
  have start : P (g.rules.withKeysOf ∅) := by
    have none {name : String} {a : Symbol}
        (ha : a ∈ SymbolSets.of (g.rules.withKeysOf ∅) name) : False := by
      rw [SymbolSets.of_withKeysOf_empty] at ha
      exact SortedSet.not_mem_empty a ha
    refine ⟨SymbolSets.le_iff.mpr ⟨?_, fun name a ha => (none ha).elim⟩,
      fun name a ha => (none ha).elim⟩
    rw [keys_ofNonterminals]
    exact OrderedMap.keys_withKeysOf _ _
  exact (stabilize_induction (P := P) keep (sweepBound g) start).2 name a ha

/-- **FIRST of a nonterminal is the union over its alternatives**, whatever these use. -/
theorem mem_ofNonterminals_iff {name : String} {a : Symbol} :
    a ∈ (ofNonterminals g).of name ↔
      ∃ rhs, g.HasAlternative name rhs ∧ a ∈ ofSequence (ofNonterminals g) rhs := by
  constructor
  · exact exists_alternative
  · rintro ⟨rhs, h, ha⟩
    exact mem_ofNonterminals h ha

/-! ## The sets hold what derivations say -/

theorem inFirst_of_mem_ofSequence
    (h : ∀ name, ∀ a ∈ sets.of name, g.InFirst a [.nonterminal name]) {a : Symbol}
    {u : List Symbol} (hu : EmptyFree u) (ha : a ∈ ofSequence sets u) : g.InFirst a u := by
  induction u with
  | nil => exact Grammar.inFirst_nil.mpr (mem_ofSequence_nil.mp ha)
  | cons s u ih =>
    cases hs : s.isNonterminal with
    | false => exact (Grammar.inFirst_cons hs hu.head_ne).mpr ((mem_ofSequence_cons hs u).mp ha)
    | true =>
      rw [Symbol.eq_nonterminal hs] at ha ⊢
      refine Grammar.inFirst_nonterminal.mpr ?_
      rcases mem_ofSequence_nonterminal.mp ha with ⟨hne, ha⟩ | ⟨he, ha⟩
      · exact .inl ⟨hne, h _ a ha⟩
      · exact .inr ⟨h _ _ he, ih hu.tail ha⟩

/-- No sweep puts in what derivations do not justify. -/
theorem inFirst_of_mem (hg : g.EmptyFree) {name : String} {a : Symbol}
    (ha : a ∈ (ofNonterminals g).of name) : g.InFirst a [.nonterminal name] := by
  let P (sets : SymbolSets) : Prop :=
    ∀ name, ∀ a ∈ sets.of name, g.InFirst a [.nonterminal name]
  have keep (sets : SymbolSets) (h : P sets) : P (sweep g sets) := by
    refine SymbolSets.foldl_induction (P := P) (fun sets p hp h name a ha => ?_) h
    rcases mem_of_extend.mp ha with ha | ⟨rfl, -, ha⟩
    · exact h name a ha
    · exact Grammar.inFirst_singleton.mpr
        ⟨p.rhs, Grammar.mem_productions.mp hp, inFirst_of_mem_ofSequence h (hg p hp) ha⟩
  refine stabilize_induction (P := P) keep (sweepBound g) (fun name a ha => ?_) name a ha
  rw [SymbolSets.of_withKeysOf_empty] at ha
  exact absurd ha (SortedSet.not_mem_empty a)

theorem empty_mem_of_vanishes {u : List Symbol} (h : g.Vanishes u) :
    .empty ∈ ofSequence (ofNonterminals g) u := by
  induction h with
  | nil => exact mem_ofSequence_nil.mpr rfl
  | cons h _ _ ihr ih => exact mem_ofSequence_nonterminal.mpr (.inr ⟨mem_ofNonterminals h ihr, ih⟩)

theorem mem_of_begins {a : Symbol} (hne : a ≠ .empty) {u : List Symbol} (h : g.Begins a u) :
    a ∈ ofSequence (ofNonterminals g) u := by
  induction h with
  | @here rest ha => exact (mem_ofSequence_cons ha rest).mpr rfl
  | within h _ ih => exact mem_ofSequence_nonterminal.mpr (.inl ⟨hne, mem_ofNonterminals h ih⟩)
  | behind h _ ih =>
    obtain ⟨rhs, hrhs, hv⟩ := Grammar.vanishes_singleton.mp h
    exact mem_ofSequence_nonterminal.mpr
      (.inr ⟨mem_ofNonterminals hrhs (empty_mem_of_vanishes hv), ih⟩)

end First

/-- **FIRST is exact.** -/
theorem FirstSets.mem_ofSequence_iff (hg : g.EmptyFree) {a : Symbol} {u : List Symbol}
    (hu : EmptyFree u) : a ∈ (FirstSets.ofGrammar g).ofSequence u ↔ g.InFirst a u := by
  constructor
  · intro h
    exact First.inFirst_of_mem_ofSequence (fun _ _ ha => First.inFirst_of_mem hg ha) hu h
  · rintro (⟨rfl, h⟩ | ⟨hne, h⟩)
    · exact First.empty_mem_of_vanishes h
    · exact First.mem_of_begins hne h

theorem FirstSets.mem_merged_iff (hg : g.EmptyFree) {name : String} {a : Symbol} :
    a ∈ (FirstSets.ofGrammar g).merged.of name ↔ g.InFirst a [.nonterminal name] := by
  show a ∈ (First.ofNonterminals g).of name ↔ _
  rw [First.mem_ofNonterminals_iff, Grammar.inFirst_singleton]
  exact exists_congr fun rhs => and_congr_right fun hrhs =>
    mem_ofSequence_iff hg (hg.alternative hrhs)

/-! ## All sets of a grammar -/

/-- The set is FIRST of a form as derivations say it: it holds a symbol iff the form derives one
that begins with it, the mark of the empty string iff the form derives nothing, and no
nonterminal. -/
structure Grammar.IsFirst (g : Grammar) (u : List Symbol) (set : SymbolSet) : Prop where
  mem_iff : ∀ a : Symbol, a.isNonterminal = false → a ≠ .empty →
    (a ∈ set ↔ ∃ v, g.Derives u (a :: v))
  empty_mem_iff : .empty ∈ set ↔ g.Derives u []
  isNonterminal_eq_false : ∀ a ∈ set, a.isNonterminal = false

namespace FirstSets

theorem isFirst_ofSequence (hg : g.EmptyFree) {u : List Symbol} (hu : EmptyFree u) :
    g.IsFirst u ((FirstSets.ofGrammar g).ofSequence u) := by
  refine ⟨fun a ha hne => ?_, ?_, fun a hmem => ?_⟩
  · rw [mem_ofSequence_iff hg hu, ← Grammar.begins_iff_derives ha]
    simp [Grammar.InFirst, hne]
  · rw [mem_ofSequence_iff hg hu, ← Grammar.vanishes_iff_derives]
    simp [Grammar.InFirst]
  · rcases (mem_ofSequence_iff hg hu).mp hmem with ⟨rfl, -⟩ | ⟨-, hb⟩
    · rfl
    · exact hb.isNonterminal_eq_false

/-- The sets of the alternatives of a nonterminal are FIRST of them, in order. -/
theorem forall₂_isFirst (hg : g.EmptyFree) {name : String} {alts : List (List Symbol)}
    (h : g.rules.find? name = some alts) :
    List.Forall₂ g.IsFirst alts (alts.map (FirstSets.ofGrammar g).ofSequence) := by
  rw [List.forall₂_map_right_iff, List.forall₂_same]
  intro rhs hrhs
  exact isFirst_ofSequence hg (hg.alternative ⟨alts, h, hrhs⟩)

theorem find?_alternatives {name : String} {alts : List (List Symbol)}
    (h : g.rules.find? name = some alts) :
    (FirstSets.ofGrammar g).alternatives.find? name =
      some (alts.map (FirstSets.ofGrammar g).ofSequence) := by
  unfold ofGrammar
  rw [OrderedMap.find?_mapValues, h]
  rfl

/-- Every nonterminal has its set. -/
theorem of?_eq_ok {name : String} (h : name ∈ g.nonterminals) :
    (FirstSets.ofGrammar g).of? name = .ok ((First.ofNonterminals g).of name) := by
  have hkey : name ∈ (First.ofNonterminals g).keys := by
    rw [First.keys_ofNonterminals]
    exact h
  exact SymbolSets.of?_eq_ok hkey

theorem nullable?_eq_ok (hg : g.EmptyFree) {name : String} (h : name ∈ g.nonterminals) :
    ∃ b, (FirstSets.ofGrammar g).nullable? name = .ok b ∧
      (b = true ↔ g.Derives [.nonterminal name] []) := by
  refine ⟨decide (.empty ∈ (First.ofNonterminals g).of name), ?_, ?_⟩
  · unfold nullable?
    rw [of?_eq_ok h]
  · have hfree : EmptyFree [.nonterminal name] := fun s hs => by
      rw [List.mem_singleton.mp hs]
      exact fun he => by cases he
    rw [decide_eq_true_iff, ← (isFirst_ofSequence hg hfree).empty_mem_iff]
    show _ ↔ .empty ∈ First.ofSequence (First.ofNonterminals g) [.nonterminal name]
    rw [First.mem_ofSequence_nonterminal, First.mem_ofSequence_nil]
    simp

end FirstSets

/-- **FIRST is exact for every form, every alternative and every nonterminal.** Where the
alternatives use no mark of the empty string, the sweeps come to an end; the set of any form without
such marks is FIRST of it by derivations, and so are the sets of the alternatives; the set of a
nonterminal is their union, and it holds the mark of the empty string iff the nonterminal derives
the empty form. -/
theorem first_exact (g : Grammar) (hg : g.EmptyFree) :
    (∃ n, (∀ k < n, (First.sweep g)^[k + 1] (g.rules.withKeysOf ∅) ≠
          (First.sweep g)^[k] (g.rules.withKeysOf ∅)) ∧
        (First.sweep g)^[n + 1] (g.rules.withKeysOf ∅) =
          (First.sweep g)^[n] (g.rules.withKeysOf ∅) ∧
        (FirstSets.ofGrammar g).merged = (First.sweep g)^[n] (g.rules.withKeysOf ∅)) ∧
      (∀ u, EmptyFree u → g.IsFirst u ((FirstSets.ofGrammar g).ofSequence u)) ∧
      ∀ name alts, g.rules.find? name = some alts →
        ∃ sets set nullable, (FirstSets.ofGrammar g).alternatives.find? name = some sets ∧
          (FirstSets.ofGrammar g).of? name = .ok set ∧
          (FirstSets.ofGrammar g).nullable? name = .ok nullable ∧
          List.Forall₂ g.IsFirst alts sets ∧
          (∀ a, a ∈ set ↔ ∃ s ∈ sets, a ∈ s) ∧
          (nullable = true ↔ g.Derives [.nonterminal name] []) := by
  refine ⟨?_, fun u hu => FirstSets.isFirst_ofSequence hg hu, fun name alts halts => ?_⟩
  · obtain ⟨n, -, heq, hchange, hfix⟩ := First.exists_sweeps g
    exact ⟨n, hchange, hfix, heq⟩
  · have hname : name ∈ g.nonterminals := OrderedMap.mem_keys.mpr ⟨alts, halts⟩
    obtain ⟨b, hb, hnull⟩ := FirstSets.nullable?_eq_ok hg hname
    refine ⟨_, _, b, FirstSets.find?_alternatives halts, FirstSets.of?_eq_ok hname, hb,
      FirstSets.forall₂_isFirst hg halts, fun a => ?_, hnull⟩
    rw [First.mem_ofNonterminals_iff]
    constructor
    · rintro ⟨rhs, ⟨alts', halts', hrhs⟩, ha⟩
      rw [halts] at halts'
      cases halts'
      exact ⟨_, List.mem_map.mpr ⟨rhs, hrhs, rfl⟩, ha⟩
    · rintro ⟨s, hs, ha⟩
      obtain ⟨rhs, hrhs, rfl⟩ := List.mem_map.mp hs
      exact ⟨rhs, ⟨alts, halts, hrhs⟩, ha⟩

/-- A grammar that is left recursive, uses an undeclared name and has an unproductive one. -/
def Grammar.tangled : Grammar :=
  .build "S" (.ofList [
    ("S", [[.nonterminal "S", .terminal "x"], [.nonterminal "A", .terminal "y"]]),
    ("A", [[], [.nonterminal "Z"], [.nonterminal "U", .terminal "x"]]),
    ("U", [[.nonterminal "U"]])]) (.ofList ["x", "y"])

/-- The computed sets decide what the forms of the grammar derive. -/
theorem tangled_first :
    Grammar.tangled.EmptyFree ∧ EmptyFree [.nonterminal "A", .nonterminal "S"] ∧
      (∃ v, Grammar.tangled.Derives [.nonterminal "A", .nonterminal "S"] (.terminal "y" :: v)) ∧
      (¬ ∃ v, Grammar.tangled.Derives [.nonterminal "A", .nonterminal "S"] (.terminal "x" :: v)) ∧
      Grammar.tangled.rules.find? "A" =
        some [[], [.nonterminal "Z"], [.nonterminal "U", .terminal "x"]] ∧
      Grammar.tangled.Derives [.nonterminal "A"] [] := by
  have hg : Grammar.tangled.EmptyFree := by unfold Grammar.EmptyFree EmptyFree; decide +kernel
  have hu : EmptyFree [.nonterminal "A", .nonterminal "S"] := by unfold EmptyFree; decide +kernel
  have hA : Grammar.tangled.rules.find? "A" =
      some [[], [.nonterminal "Z"], [.nonterminal "U", .terminal "x"]] := by decide +kernel
  obtain ⟨-, hform, hname⟩ := first_exact .tangled hg
  have hfirst := hform _ hu
  obtain ⟨-, -, nullable, -, -, hn, -, -, hderives⟩ := hname "A" _ hA
  refine ⟨hg, hu, ?_, ?_, hA, hderives.mp ?_⟩
  · exact (hfirst.mem_iff (.terminal "y") rfl (by decide)).mp (by decide +kernel)
  · intro h
    have hmem := (hfirst.mem_iff (.terminal "x") rfl (by decide)).mpr h
    exact absurd hmem (by decide +kernel)
  · have hcomputed : (FirstSets.ofGrammar .tangled).nullable? "A" = .ok true := by decide +kernel
    rw [hcomputed] at hn
    cases hn
    rfl

end Predictive
