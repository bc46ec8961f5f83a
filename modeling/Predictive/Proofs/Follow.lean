import Predictive.Proofs.First
import Predictive.Proofs.Flow

/-!
# FOLLOW sets are exact

What FOLLOW of a nonterminal should hold is said by derivations (`Follows`): the symbols that come
directly after it in a form that some declared nonterminal derives.

* `Flow.exists_path_iff`: a symbol has a path of flows to a nonterminal iff it follows it. From left
  to right along the path; from right to left along the derivation, whose forms all keep the
  property that what can begin behind a nonterminal has a path to it (`Flow.Covers`).
* `FollowSets.mem_sets_iff`: the sets that come out of the passes, under any limit that lets them
  end.
* `follow_exact`: without a limit the passes end, and the sets are exact.
-/

namespace Predictive

namespace Grammar

/-- Every nonterminal in an alternative is declared. -/
def NamesDeclared (g : Grammar) : Prop :=
  ∀ p ∈ g.productions, ∀ s ∈ p.rhs, s.isNonterminal = true → g.rules.contains s.name = true

/-- What FOLLOW of a nonterminal should hold: the symbol comes directly after it in a form that a
declared nonterminal derives. -/
def Follows (g : Grammar) (a : Symbol) (name : String) : Prop :=
  ∃ root ∈ g.nonterminals, ∃ u v,
    g.Derives [.nonterminal root] (u ++ .nonterminal name :: a :: v)

variable {g : Grammar} {a : Symbol}

theorem NamesDeclared.mem_nonterminals (hg : g.NamesDeclared) {name name' : String}
    {rhs : List Symbol} (h : g.HasAlternative name rhs) (hm : .nonterminal name' ∈ rhs) :
    name' ∈ g.nonterminals :=
  OrderedMap.contains_iff.mp (hg ⟨name, rhs⟩ (mem_productions.mpr h) _ hm rfl)

theorem follows_of_begins {root name : String} {u v : List Symbol} (hr : root ∈ g.nonterminals)
    (h : g.Derives [.nonterminal root] (u ++ .nonterminal name :: v)) (hb : g.Begins a v) :
    g.Follows a name := by
  obtain ⟨w, hw⟩ := (begins_iff_derives hb.isNonterminal_eq_false).mp hb
  exact ⟨root, hr, u, w, h.trans ((hw.append_left [.nonterminal name]).append_left u)⟩

/-- What follows a nonterminal follows every symbol of an alternative behind which all vanishes. -/
theorem Follows.of_vanishes {name name' : String} {u v : List Symbol} (h : g.Follows a name)
    (ha : g.HasAlternative name (u ++ .nonterminal name' :: v)) (hv : g.Vanishes v) :
    g.Follows a name' := by
  obtain ⟨root, hr, x, y, hd⟩ := h
  refine ⟨root, hr, x ++ u, y, hd.trans ?_⟩
  have hrhs : g.Derives (.nonterminal name :: a :: y)
      (u ++ .nonterminal name' :: v ++ a :: y) := derives_cons ha (a :: y)
  have hvanish : g.Derives (u ++ .nonterminal name' :: v ++ a :: y)
      (u ++ .nonterminal name' :: a :: y) := by
    have := ((vanishes_iff_derives.mp hv).append_left (u ++ [.nonterminal name'])).append_right
      (a :: y)
    simpa only [List.append_assoc, List.cons_append, List.nil_append] using this
  simpa only [List.append_assoc] using (hrhs.trans hvanish).append_left x

/-- What follows a nonterminal follows every symbol of an alternative that vanishes. -/
theorem Follows.of_mem {name name' : String} {rhs : List Symbol} (h : g.Follows a name)
    (ha : g.HasAlternative name rhs) (hv : g.Vanishes rhs) (hm : .nonterminal name' ∈ rhs) :
    g.Follows a name' := by
  obtain ⟨u, v, rfl⟩ := List.append_of_mem hm
  exact h.of_vanishes ha (vanishes_cons.mp (vanishes_append.mp hv).2).2

/-- Every symbol of a derived form is the one it started from, or comes from an alternative. -/
theorem Derives.mem {root : String} {u : List Symbol} (h : g.Derives [.nonterminal root] u)
    {s : Symbol} (hs : s ∈ u) : s = .nonterminal root ∨ ∃ p ∈ g.productions, s ∈ p.rhs := by
  induction h with
  | refl => exact .inl (List.mem_singleton.mp hs)
  | tail _ hp ih =>
    obtain @⟨name, rhs, x, y, hrhs⟩ := hp
    rcases List.mem_append.mp hs with hs | hs
    · rcases List.mem_append.mp hs with hs | hs
      · exact ih (List.mem_append_left _ hs)
      · exact .inr ⟨⟨name, rhs⟩, mem_productions.mpr hrhs, hs⟩
    · exact ih (List.mem_append_right _ (List.mem_cons_of_mem _ hs))

/-- What follows a nonterminal occurs in an alternative. -/
theorem Follows.mem_alternative {name : String} (h : g.Follows a name)
    (ha : a.isNonterminal = false) : ∃ p ∈ g.productions, a ∈ p.rhs := by
  obtain ⟨root, -, u, v, hd⟩ := h
  have hmem : a ∈ u ++ .nonterminal name :: a :: v :=
    List.mem_append_right u (List.mem_cons_of_mem _ List.mem_cons_self)
  rcases hd.mem hmem with rfl | hrhs
  · exact absurd ha (by simp)
  · exact hrhs

end Grammar

/-- An element of two lists in a row is in one of them. -/
theorem append_eq_append_cons {α : Type} {x y u v : List α} {s : α} (h : x ++ y = u ++ s :: v) :
    (∃ e, x = u ++ s :: e ∧ v = e ++ y) ∨ ∃ e, y = e ++ s :: v ∧ u = x ++ e := by
  rcases List.append_eq_append_iff.mp h with ⟨e, hu, hy⟩ | ⟨e, hx, hv⟩
  · exact .inr ⟨e, hy, hu⟩
  · cases e with
    | nil => exact .inr ⟨[], hv.symm, by rw [hx, List.append_nil, List.append_nil]⟩
    | cons t e =>
      obtain ⟨rfl, rfl⟩ := List.cons.inj hv
      exact .inl ⟨e, hx, rfl⟩

namespace Flow

variable {g : Grammar} {a : Symbol}

/-! ## The flows of a grammar -/

/-- The flow of an occurrence of a nonterminal in front of the rest of an alternative. -/
def ofOccurrence (first : FirstSets) (lhs target : String) (rest : List Symbol) : Flow where
  target := target
  seeds := (first.ofSequence rest).erase .empty
  source := if .empty ∈ first.ofSequence rest then some lhs else none

theorem mem_ofRhs {first : FirstSets} {lhs : String} {rhs : List Symbol} {f : Flow} :
    f ∈ ofRhs first lhs rhs ↔
      ∃ u name v, rhs = u ++ .nonterminal name :: v ∧ f = ofOccurrence first lhs name v := by
  induction rhs with
  | nil => simp [ofRhs]
  | cons s rest ih =>
    have hrest : f ∈ ofRhs first lhs rest ↔ ∃ u name v, s :: rest = (s :: u) ++
        .nonterminal name :: v ∧ f = ofOccurrence first lhs name v := by
      simp only [ih, List.cons_append, List.cons.injEq, true_and]
    have hsplit : (∃ u name v, s :: rest = u ++ .nonterminal name :: v ∧
        f = ofOccurrence first lhs name v) ↔
        (s.isNonterminal = true ∧ f = ofOccurrence first lhs s.name rest) ∨
        ∃ u name v, s :: rest = (s :: u) ++ .nonterminal name :: v ∧
          f = ofOccurrence first lhs name v := by
      constructor
      · rintro ⟨u, name, v, he, hf⟩
        cases u with
        | nil =>
          obtain ⟨rfl, rfl⟩ := List.cons.inj he
          exact .inl ⟨rfl, hf⟩
        | cons t u =>
          obtain ⟨rfl, he⟩ := List.cons.inj he
          exact .inr ⟨u, name, v, by rw [he, List.cons_append], hf⟩
      · rintro (⟨hs, hf⟩ | ⟨u, name, v, he, hf⟩)
        · exact ⟨[], s.name, rest, by rw [List.nil_append, ← Symbol.eq_nonterminal hs], hf⟩
        · exact ⟨s :: u, name, v, he, hf⟩
    rw [hsplit, ← hrest, ofRhs]
    cases hs : s.isNonterminal with
    | false => simp
    | true => simp [ofOccurrence]

theorem mem_ofGrammar {first : FirstSets} {f : Flow} :
    f ∈ ofGrammar g first ↔ ∃ lhs u name v, g.HasAlternative lhs (u ++ .nonterminal name :: v) ∧
      f = ofOccurrence first lhs name v := by
  unfold ofGrammar
  rw [List.mem_flatMap]
  constructor
  · rintro ⟨p, hp, hf⟩
    obtain ⟨u, name, v, hrhs, rfl⟩ := mem_ofRhs.mp hf
    exact ⟨p.lhs, u, name, v, hrhs ▸ Grammar.mem_productions.mp hp, rfl⟩
  · rintro ⟨lhs, u, name, v, h, rfl⟩
    exact ⟨⟨lhs, _⟩, Grammar.mem_productions.mpr h, mem_ofRhs.mpr ⟨u, name, v, rfl, rfl⟩⟩

section Exact

variable (hg : g.EmptyFree)

include hg

theorem emptyFree_behind {lhs name : String} {u v : List Symbol}
    (h : g.HasAlternative lhs (u ++ .nonterminal name :: v)) : EmptyFree v := fun s hs =>
  hg.alternative h s (List.mem_append_right u (List.mem_cons_of_mem _ hs))

theorem mem_seeds_iff {lhs name : String} {u v : List Symbol}
    (h : g.HasAlternative lhs (u ++ .nonterminal name :: v)) :
    a ∈ (ofOccurrence (.ofGrammar g) lhs name v).seeds ↔ a ≠ .empty ∧ g.Begins a v := by
  show a ∈ SortedSet.erase _ _ ↔ _
  rw [SortedSet.mem_erase, FirstSets.mem_ofSequence_iff hg (emptyFree_behind hg h)]
  unfold Grammar.InFirst
  tauto

theorem source_eq_some_iff {lhs name source : String} {u v : List Symbol}
    (h : g.HasAlternative lhs (u ++ .nonterminal name :: v)) :
    (ofOccurrence (.ofGrammar g) lhs name v).source = some source ↔
      lhs = source ∧ g.Vanishes v := by
  have hmem : .empty ∈ (FirstSets.ofGrammar g).ofSequence v ↔ g.Vanishes v := by
    rw [FirstSets.mem_ofSequence_iff hg (emptyFree_behind hg h)]
    simp [Grammar.InFirst]
  rw [← hmem]
  show (if .empty ∈ (FirstSets.ofGrammar g).ofSequence v then some lhs else none) = _ ↔ _
  split
  · rename_i hv
    simp [hv]
  · rename_i hv
    simp [hv]

/-! ## Paths and derivations -/

/-- A path brings no mark of the empty string, and to each name only what follows it. -/
theorem follows_of_path {names : List String}
    (h : Path (ofGrammar g (.ofGrammar g)) a names) {name : String} (hn : names.head? = some name) :
    a ≠ .empty ∧ g.Follows a name := by
  induction h generalizing name with
  | seed hf ha =>
    cases hn
    obtain ⟨lhs, u, name, v, hrhs, rfl⟩ := mem_ofGrammar.mp hf
    obtain ⟨hne, hb⟩ := (mem_seeds_iff hg hrhs).mp ha
    have hd : g.Derives [.nonterminal lhs] (u ++ .nonterminal name :: v) := by
      simpa only [List.append_nil] using Grammar.derives_cons hrhs []
    exact ⟨hne, Grammar.follows_of_begins hrhs.mem_nonterminals hd hb⟩
  | along hf hs _ ih =>
    cases hn
    obtain ⟨lhs, u, name, v, hrhs, rfl⟩ := mem_ofGrammar.mp hf
    obtain ⟨rfl, hv⟩ := (source_eq_some_iff hg hrhs).mp hs
    obtain ⟨hne, hfol⟩ := ih rfl
    exact ⟨hne, hfol.of_vanishes hrhs hv⟩

/-- A path brings no nonterminal. -/
theorem isNonterminal_of_path {names : List String}
    (h : Path (ofGrammar g (.ofGrammar g)) a names) : a.isNonterminal = false := by
  induction h with
  | seed hf ha =>
    obtain ⟨lhs, u, name, v, hrhs, rfl⟩ := mem_ofGrammar.mp hf
    exact ((mem_seeds_iff hg hrhs).mp ha).2.isNonterminal_eq_false
  | along _ _ _ ih => exact ih

omit hg in
/-- The paths account for a form: what can begin behind a nonterminal of it has a path there. -/
def Covers (g : Grammar) (w : List Symbol) : Prop :=
  ∀ u name v, w = u ++ .nonterminal name :: v → ∀ a, a ≠ .empty → g.Begins a v →
    ∃ rest, Path (ofGrammar g (.ofGrammar g)) a (name :: rest)

theorem Covers.produces {w w' : List Symbol} (hw : Covers g w) (h : g.Produces w w') :
    Covers g w' := by
  obtain @⟨lhs, rhs, x, y, hrhs⟩ := h
  intro u name v he a hne hb
  rcases append_eq_append_cons he with ⟨e, hxr, rfl⟩ | ⟨e, rfl, rfl⟩
  · rcases append_eq_append_cons hxr with ⟨e', rfl, rfl⟩ | ⟨e', rfl, rfl⟩
    · -- It stands in front of the replaced nonterminal: what the rest can begin with, it could
      -- begin with before.
      refine hw u name (e' ++ .nonterminal lhs :: y) (by simp) a hne ?_
      exact (Grammar.Produces.replace e' y hrhs).begins hb
    · -- It stands in the alternative: the rest of that begins with the symbol, or vanishes.
      have hf : ofOccurrence (.ofGrammar g) lhs name e ∈ ofGrammar g (.ofGrammar g) :=
        mem_ofGrammar.mpr ⟨lhs, e', name, e, hrhs, rfl⟩
      rcases Grammar.begins_append.mp hb with hb | ⟨hv, hb⟩
      · exact ⟨[], .seed hf ((mem_seeds_iff hg hrhs).mpr ⟨hne, hb⟩)⟩
      · obtain ⟨rest, hp⟩ := hw x lhs y rfl a hne hb
        exact ⟨lhs :: rest, .along hf ((source_eq_some_iff hg hrhs).mpr ⟨rfl, hv⟩) hp⟩
  · -- It stands behind: nothing has changed there.
    exact hw (x ++ .nonterminal lhs :: e) name v (by simp) a hne hb

theorem covers_of_derives {root : String} {w : List Symbol}
    (h : g.Derives [.nonterminal root] w) : Covers g w := by
  induction h with
  | refl =>
    intro u name v he a hne hb
    cases u with
    | nil =>
      obtain ⟨-, rfl⟩ := List.cons.inj he
      exact absurd hb Grammar.not_begins_nil
    | cons s u => exact absurd (List.cons.inj he).2 (by simp)
  | tail _ hp ih => exact ih.produces hg hp

/-- **A symbol has a path to a nonterminal iff it follows it.** -/
theorem exists_path_iff (ha : a.isNonterminal = false) (hne : a ≠ .empty) {name : String} :
    (∃ rest, Path (ofGrammar g (.ofGrammar g)) a (name :: rest)) ↔ g.Follows a name := by
  constructor
  · rintro ⟨rest, hp⟩
    exact (follows_of_path hg hp rfl).2
  · rintro ⟨root, -, u, v, hd⟩
    exact covers_of_derives hg hd u name (a :: v) rfl a hne (.here ha)

end Exact

end Flow

/-! ## The computed sets -/

namespace FollowSets

variable {g : Grammar} {follow : FollowSets} {maxPasses : Option Int}

theorem undeclared?_eq_none (hd : g.NamesDeclared) (first : FirstSets) :
    undeclared? g (Flow.ofGrammar g first) = none := by
  refine List.find?_eq_none.mpr fun name hname => ?_
  obtain ⟨f, hf, rfl⟩ := List.mem_map.mp hname
  obtain ⟨lhs, u, name, v, hrhs, rfl⟩ := Flow.mem_ofGrammar.mp hf
  have := hd.mem_nonterminals hrhs (List.mem_append_right u List.mem_cons_self)
  simp [Flow.ofOccurrence, OrderedMap.contains_iff.mpr this]

theorem target_mem_keys (hd : g.NamesDeclared) {first : FirstSets} {f : Flow}
    (hf : f ∈ Flow.ofGrammar g first) :
    f.target ∈ (g.rules.withKeysOf (∅ : SymbolSet)).keys := by
  rw [OrderedMap.keys_withKeysOf]
  obtain ⟨lhs, u, name, v, hrhs, rfl⟩ := Flow.mem_ofGrammar.mp hf
  exact hd.mem_nonterminals hrhs (List.mem_append_right u List.mem_cons_self)

theorem carried_start (g : Grammar) (flows : List Flow) :
    Flow.Carried flows (g.rules.withKeysOf ∅) := fun name a ha => by
  rw [SymbolSets.of_withKeysOf_empty] at ha
  exact absurd ha (SortedSet.not_mem_empty a)

/-- The number of passes that a limit allows. -/
def passBound (g : Grammar) : Option Int → Nat
  | some n => n.toNat
  | none => passLimit g

/-- A limit without passes comes first, then an undeclared nonterminal, then the passes. -/
theorem compute_eq (g : Grammar) (first : FirstSets) (maxPasses : Option Int) :
    compute g first maxPasses =
      if passBound g maxPasses = 0 then
        .error (.grammar (.fixpointDivergence (passBound g maxPasses)))
      else match undeclared? g (Flow.ofGrammar g first) with
      | some name => .error (.lookup (.unknownName name))
      | none =>
        match Flow.converge (Flow.ofGrammar g first) (passBound g maxPasses) 0
          (g.rules.withKeysOf ∅) with
        | some made =>
          .ok ⟨made.history.getLastD (g.rules.withKeysOf ∅), made.count, made.history⟩
        | none => .error (.grammar (.fixpointDivergence (passBound g maxPasses))) := by
  cases maxPasses <;> rfl

/-- The passes alone decide if no undeclared nonterminal is in use. -/
theorem compute_of_declared {first : FirstSets}
    (hd : undeclared? g (Flow.ofGrammar g first) = none) :
    compute g first maxPasses =
      match Flow.converge (Flow.ofGrammar g first) (passBound g maxPasses) 0
        (g.rules.withKeysOf ∅) with
      | some made =>
        .ok ⟨made.history.getLastD (g.rules.withKeysOf ∅), made.count, made.history⟩
      | none => .error (.grammar (.fixpointDivergence (passBound g maxPasses))) := by
  rw [compute_eq, hd]
  by_cases h0 : passBound g maxPasses = 0
  · rw [if_pos h0, h0]
    rfl
  · rw [if_neg h0]

/-- The sets come out iff no undeclared nonterminal is in use and the passes end in time. -/
theorem compute_eq_ok_iff {first : FirstSets} :
    compute g first maxPasses = .ok follow ↔
      undeclared? g (Flow.ofGrammar g first) = none ∧
      ∃ made, Flow.converge (Flow.ofGrammar g first) (passBound g maxPasses) 0
          (g.rules.withKeysOf ∅) = some made ∧
        follow = ⟨made.history.getLastD (g.rules.withKeysOf ∅), made.count, made.history⟩ := by
  constructor
  · intro h
    have hd : undeclared? g (Flow.ofGrammar g first) = none := by
      rw [compute_eq] at h
      split at h
      · cases h
      · split at h
        · cases h
        · assumption
    rw [compute_of_declared hd] at h
    split at h
    · rename_i made hc
      cases h
      exact ⟨hd, made, hc, rfl⟩
    · cases h
  · rintro ⟨hd, made, hc, rfl⟩
    rw [compute_of_declared hd, hc]

/-- Sets that come out have been reached by passes of which the last one changed nothing. -/
theorem sets_of_compute {first : FirstSets} (h : compute g first maxPasses = .ok follow) :
    ∃ n, (Flow.pass (Flow.ofGrammar g first))^[n + 1] (g.rules.withKeysOf ∅) =
        (Flow.pass (Flow.ofGrammar g first))^[n] (g.rules.withKeysOf ∅) ∧
      follow.sets = (Flow.pass (Flow.ofGrammar g first))^[n] (g.rules.withKeysOf ∅) := by
  obtain ⟨-, made, hc, rfl⟩ := compute_eq_ok_iff.mp h
  obtain ⟨n, -, -, hfix, rfl⟩ := Flow.converge_eq_some_iff.mp hc
  refine ⟨n, hfix, ?_⟩
  rw [← hfix]
  simp [Flow.states, List.range_succ]

theorem keys_of_compute {first : FirstSets} (h : compute g first maxPasses = .ok follow) :
    follow.sets.keys = g.nonterminals := by
  obtain ⟨n, -, hs⟩ := sets_of_compute h
  have hle := Flow.iterate_le_iterate (Flow.ofGrammar g first) (g.rules.withKeysOf ∅)
    (Nat.zero_le n)
  rw [hs, ← SymbolSets.keys_eq_of_le hle]
  exact OrderedMap.keys_withKeysOf _ _

/-- Every nonterminal has its set. -/
theorem of?_of_compute {first : FirstSets} (h : compute g first maxPasses = .ok follow)
    {name : String} (hn : name ∈ g.nonterminals) :
    follow.of? name = .ok (follow.sets.of name) := by
  refine SymbolSets.of?_eq_ok ?_
  rw [keys_of_compute h]
  exact hn

/-- Under any limit that lets the passes end, the sets hold what has a path to their
nonterminals. -/
theorem mem_sets_iff_path (hd : g.NamesDeclared) {first : FirstSets}
    (h : compute g first maxPasses = .ok follow) {a : Symbol} {name : String} :
    a ∈ follow.sets.of name ↔ ∃ rest, Flow.Path (Flow.ofGrammar g first) a (name :: rest) := by
  obtain ⟨n, hfix, hs⟩ := sets_of_compute h
  rw [hs, Flow.mem_iterate_iff (fun f hf => target_mem_keys hd hf) (carried_start g _) hfix]

/-- Under any limit that lets the passes end, the sets hold what follows their nonterminals. -/
theorem mem_sets_iff (hg : g.EmptyFree) (hd : g.NamesDeclared)
    (h : compute g (.ofGrammar g) maxPasses = .ok follow) {a : Symbol}
    (ha : a.isNonterminal = false) {name : String} :
    a ∈ follow.sets.of name ↔ a ≠ .empty ∧ g.Follows a name := by
  rw [mem_sets_iff_path hd h]
  constructor
  · rintro ⟨rest, hp⟩
    exact Flow.follows_of_path hg hp rfl
  · rintro ⟨hne, hf⟩
    exact (Flow.exists_path_iff hg ha hne).mpr hf

/-- The limit that is set in place of none is above the number of nonterminals, because the
identifiers alone are a terminal. -/
theorem length_lt_passLimit (g : Grammar) : g.nonterminals.length < passLimit g := by
  have hpos : 0 < g.terminals.size := by
    have : .identifier ∈ g.terminals := SortedSet.mem_ofList.mpr List.mem_cons_self
    exact List.length_pos_of_mem this
  have := Nat.le_mul_of_pos_right g.nonterminals.length hpos
  unfold passLimit
  omega

/-- Without a limit the passes end. -/
theorem exists_compute (hd : g.NamesDeclared) (first : FirstSets) :
    ∃ follow, compute g first none = .ok follow := by
  have hfix := Flow.pass_iterate_fixed (fun f hf => target_mem_keys hd hf)
    (carried_start g (Flow.ofGrammar g first))
  rw [OrderedMap.keys_withKeysOf, ← Function.iterate_succ_apply' (Flow.pass _)] at hfix
  obtain ⟨made, hc⟩ := Flow.converge_isSome (length_lt_passLimit g) hfix
  exact ⟨_, compute_eq_ok_iff.mpr ⟨undeclared?_eq_none hd first, made, hc, rfl⟩⟩

end FollowSets

/-- **FOLLOW is exact.** Where the alternatives use no mark of the empty string and only declared
nonterminals, the sets are computed for every nonterminal; a symbol is in one iff it comes directly
after the nonterminal in a form that some declared nonterminal derives. So no set holds a mark of
the empty string, and the end of the input is in one only if an alternative names it. -/
theorem follow_exact (g : Grammar) (hg : g.EmptyFree) (hd : g.NamesDeclared) :
    ∃ follow, FollowSets.compute g (.ofGrammar g) none = .ok follow ∧
      follow.sets.keys = g.nonterminals ∧
      (∀ name ∈ g.nonterminals, ∀ a : Symbol, a.isNonterminal = false →
        (a ∈ follow.sets.of name ↔ ∃ root ∈ g.nonterminals, ∃ u v,
          g.Derives [.nonterminal root] (u ++ .nonterminal name :: a :: v))) ∧
      (∀ name ∈ g.nonterminals, ∀ a ∈ follow.sets.of name, a.kind ≠ .empty) ∧
      ∀ name ∈ g.nonterminals, .endOfInput ∈ follow.sets.of name →
        ∃ p ∈ g.productions, .endOfInput ∈ p.rhs := by
  obtain ⟨follow, h⟩ := FollowSets.exists_compute hd (.ofGrammar g)
  have mem_iff {a : Symbol} (ha : a.isNonterminal = false) {name : String} :
      a ∈ follow.sets.of name ↔ g.Follows a name := by
    rw [FollowSets.mem_sets_iff hg hd h ha]
    refine ⟨fun hf => hf.2, fun hf => ⟨?_, hf⟩⟩
    rintro rfl
    obtain ⟨p, hp, hmem⟩ := hf.mem_alternative rfl
    exact hg p hp _ hmem rfl
  refine ⟨follow, h, FollowSets.keys_of_compute h, fun name _ a ha => mem_iff ha,
    fun name _ a hmem he => ?_, fun name _ hmem => ?_⟩
  · have ha : a.isNonterminal = false := by simp [Symbol.isNonterminal, he]
    obtain ⟨p, hp, hrhs⟩ := ((mem_iff ha).mp hmem).mem_alternative ha
    exact hg p hp a hrhs he
  · exact ((mem_iff rfl).mp hmem).mem_alternative rfl

/-- Some `a`, then some `b`, then the end of the input. -/
def Grammar.twoRuns : Grammar :=
  .build "S" (.ofList [
    ("S", [[.nonterminal "A", .nonterminal "B", .endOfInput]]),
    ("A", [[.terminal "a", .nonterminal "A"], []]),
    ("B", [[.terminal "b", .nonterminal "B"], []])]) (.ofList ["a", "b"])

theorem Grammar.twoRuns_alternatives :
    Grammar.twoRuns.HasAlternative "S" [.nonterminal "A", .nonterminal "B", .endOfInput] ∧
      Grammar.twoRuns.HasAlternative "A" [.terminal "a", .nonterminal "A"] ∧
      Grammar.twoRuns.HasAlternative "A" [] ∧
      Grammar.twoRuns.HasAlternative "B" [.terminal "b", .nonterminal "B"] ∧
      Grammar.twoRuns.HasAlternative "B" [] :=
  ⟨⟨_, rfl, by simp⟩, ⟨_, rfl, by simp⟩, ⟨_, rfl, by simp⟩, ⟨_, rfl, by simp⟩, ⟨_, rfl, by simp⟩⟩

/-- The end follows the first run, because the second one can vanish. -/
theorem Grammar.twoRuns_follows : Grammar.twoRuns.Follows .endOfInput "A" := by
  obtain ⟨hS, -, -, -, hB⟩ := twoRuns_alternatives
  exact ⟨"S", by decide +kernel, [], [], (derives_cons hS []).trans
    ((derives_cons hB [.endOfInput]).append_left [.nonterminal "A"])⟩

theorem endOfInput_follows_twoRuns :
    Grammar.twoRuns.EmptyFree ∧ Grammar.twoRuns.NamesDeclared ∧
    ∃ follow, FollowSets.compute .twoRuns (.ofGrammar .twoRuns) none = .ok follow ∧
      .endOfInput ∈ follow.sets.of "A" := by
  have hg : Grammar.twoRuns.EmptyFree := by unfold Grammar.EmptyFree EmptyFree; decide +kernel
  have hd : Grammar.twoRuns.NamesDeclared := by unfold Grammar.NamesDeclared; decide +kernel
  obtain ⟨follow, h, -, hmem, -⟩ := follow_exact .twoRuns hg hd
  exact ⟨hg, hd, follow, h, (hmem "A" (by decide +kernel) .endOfInput rfl).mpr
    Grammar.twoRuns_follows⟩

end Predictive
