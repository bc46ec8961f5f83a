import Predictive.Proofs.Analysable
import Predictive.Proofs.Leftmost

/-!
# What the warnings mean for the table

The warnings compare FIRST sets, and the table is built from selectors. A symbol other than the mark
of the empty string that is in two FIRST sets is a selector of both alternatives, so the table clashes
there. The mark itself is no selector: two alternatives that vanish are selected by what follows their
nonterminal, and if nothing does, the table is none the worse for them.

* `Analysis.exists_conflict`: a warning about another symbol foretells a conflict.
* `Ambiguity.sublist_ambiguities`: warnings about one symbol are one for each nonterminal at most, in
  the order of declaration.
* `Analysis.follow_eq_empty`: nothing follows a nonterminal of which two alternatives vanish.
* `warnings_exact`: the warnings of an analysis are about those nonterminals, and nothing else.
-/

namespace Predictive

/-- Two alternatives of the nonterminal can vanish. -/
def Grammar.VanishesTwice (g : Grammar) (name : String) : Prop :=
  ∃ i j rhs rhs', i ≠ j ∧ g.alternativeAt? name i = some rhs ∧ g.Vanishes rhs ∧
    g.alternativeAt? name j = some rhs' ∧ g.Vanishes rhs'

variable {g : Grammar} {name : String}

/-! ## Warnings about one symbol -/

/-- Lists that have at most the key of their entry, one after the other, have keys in order. -/
theorem sublist_map_flatMap {α β κ : Type} {f : κ × α → List β} {key : β → κ}
    {entries : List (κ × α)} (h : ∀ e ∈ entries, ((f e).map key).Sublist [e.1]) :
    ((entries.flatMap f).map key).Sublist (entries.map Prod.fst) := by
  induction entries with
  | nil => exact .slnil
  | cons e entries ih =>
    rw [List.flatMap_cons, List.map_append, List.map_cons]
    exact (h e List.mem_cons_self).append (ih fun e' he => h e' (List.mem_cons_of_mem e he))

namespace Ambiguity

variable {s : Symbol} {x y : Ambiguity}

/-- The entries of one nonterminal differ in their symbols. -/
theorem eq_of_mem_amongAlternatives {sets : List SymbolSet}
    (hx : x ∈ amongAlternatives name [] sets) (hy : y ∈ amongAlternatives name [] sets)
    (h : x.symbol = y.symbol) : x = y := by
  obtain ⟨hname, -, rest, hrest⟩ := mem_amongAlternatives.mp hx
  obtain ⟨hname', -, rest', hrest'⟩ := mem_amongAlternatives.mp hy
  rw [List.nil_append] at hrest hrest'
  rw [h, hrest'] at hrest
  obtain ⟨hfirst, hrest⟩ := List.cons.inj hrest
  obtain ⟨hsecond, -⟩ := List.cons.inj hrest
  obtain ⟨nonterminal, symbol, first, second⟩ := x
  obtain ⟨nonterminal', symbol', first', second'⟩ := y
  simp only at hname hname' h hfirst hsecond
  subst hname hname' h hfirst hsecond
  rfl

/-- If they are all about one symbol, there is one at most. -/
theorem sublist_amongAlternatives {sets : List SymbolSet}
    (h : ∀ x ∈ amongAlternatives name [] sets, x.symbol = s) :
    ((amongAlternatives name [] sets).map nonterminal).Sublist [name] := by
  have hnodup := nodup_amongAlternatives name [] sets
  match hxs : amongAlternatives name [] sets with
  | [] => exact List.nil_sublist _
  | [x] =>
    have hx : x ∈ amongAlternatives name [] sets := hxs ▸ List.mem_singleton_self x
    rw [List.map_singleton, (mem_amongAlternatives.mp hx).1]
  | x :: y :: xs =>
    have hx : x ∈ amongAlternatives name [] sets := hxs ▸ List.mem_cons_self
    have hy : y ∈ amongAlternatives name [] sets :=
      hxs ▸ List.mem_cons_of_mem x List.mem_cons_self
    have hxy : x = y := eq_of_mem_amongAlternatives hx hy ((h x hx).trans (h y hy).symm)
    rw [hxs, hxy] at hnodup
    exact absurd List.mem_cons_self (List.nodup_cons.mp hnodup).1

/-- **Warnings about one symbol come in the order of declaration**, one for each nonterminal at
most. -/
theorem sublist_ambiguities {first : FirstSets} (h : ∀ x ∈ first.ambiguities, x.symbol = s) :
    (first.ambiguities.map nonterminal).Sublist first.alternatives.keys := by
  refine sublist_map_flatMap ?_
  intro e he
  refine sublist_amongAlternatives (s := s) ?_
  intro x hx
  exact h x (List.mem_flatMap.mpr ⟨e, he, hx⟩)

end Ambiguity

namespace FirstSets

theorem mem_subjects_of_mem {first : FirstSets} {x : Ambiguity} (hx : x ∈ first.ambiguities) :
    (x.nonterminal, x.symbol) ∈ first.subjects := List.mem_map.mpr ⟨x, hx, rfl⟩

/-- The mark of the empty string is warned about where two alternatives vanish. -/
theorem mem_subjects_empty_iff (hg : g.EmptyFree) :
    (name, .empty) ∈ (FirstSets.ofGrammar g).subjects ↔ g.VanishesTwice name := by
  have hempty {rhs : List Symbol} : g.InFirst .empty rhs ↔ g.Vanishes rhs := by
    simp [Grammar.InFirst]
  rw [mem_subjects_iff hg]
  simp only [hempty, Grammar.VanishesTwice]

end FirstSets

/-! ## Warnings and conflicts -/

/-- A symbol that two alternatives can begin with selects both. -/
theorem Grammar.not_deterministic_of_subject (hg : g.EmptyFree) {s : Symbol} (hs : s ≠ .empty)
    (h : (name, s) ∈ (FirstSets.ofGrammar g).subjects) : ¬ g.Deterministic := by
  intro hdet
  obtain ⟨i, j, rhs, rhs', hne, hi, hfirst, hj, hfirst'⟩ :=
    (FirstSets.mem_subjects_iff hg).mp h
  have begins {u : List Symbol} (hu : g.InFirst s u) : g.Begins s u := by
    rcases hu with ⟨rfl, -⟩ | ⟨-, hb⟩
    · exact absurd rfl hs
    · exact hb
  have htoken : s.IsToken := ⟨(begins hfirst).isNonterminal_eq_false, hs⟩
  exact hne (hdet name i j rhs rhs' s hi hj htoken (.inl (begins hfirst)) (.inl (begins hfirst')))

namespace Analysis

/-- **A warning about a symbol foretells a conflict**, unless it is about the empty string. -/
theorem exists_conflict {flags : Grammar.ProductiveFlags} (hv : g.validate = .ok flags)
    {x : Ambiguity} (hx : x ∈ (FirstSets.ofGrammar g).ambiguities) (hs : x.symbol ≠ .empty) :
    ∃ (nonterminal terminal : String) (existing incoming : Nat), run g .defaults =
      .error (.grammar (.tableConflict nonterminal terminal existing incoming)) := by
  obtain ⟨hd, -⟩ := Grammar.validate_isOk_iff.mp ⟨flags, hv⟩
  have hdet : ¬ g.Deterministic :=
    Grammar.not_deterministic_of_subject hd.emptyFree hs (FirstSets.mem_subjects_of_mem hx)
  obtain ⟨follow, hf, -, herror⟩ := run_of_validate hv
  cases h : run g .defaults with
  | ok a => exact absurd (exists_run_iff.mp ⟨a, h⟩).2 hdet
  | error e =>
    obtain ⟨nonterminal, token, existing, incoming, rfl, -⟩ :=
      ParsingTable.firstClash_of_build (ParsingTable.hasSelectors_of_compute hf) (herror e h)
    exact ⟨nonterminal, token.name, existing, incoming, rfl⟩

variable {settings : Settings} {analysis : Analysis}

theorem deterministic (h : run g settings = .ok analysis) : g.Deterministic := by
  obtain ⟨-, -, hf, ht⟩ := of_run h
  exact (ParsingTable.selectorsDisjoint_iff (declared h) hf).mp
    fun name _ => ParsingTable.disjoint_of_build ht name

/-- The warnings of an analysis are about the empty string only. -/
theorem symbol_of_mem_ambiguities (h : run g settings = .ok analysis) {x : Ambiguity}
    (hx : x ∈ (FirstSets.ofGrammar g).ambiguities) : x.symbol = .empty := by
  by_contra hs
  exact Grammar.not_deterministic_of_subject (emptyFree h) hs (FirstSets.mem_subjects_of_mem hx)
    (deterministic h)

/-- **Nothing follows a nonterminal of which two alternatives vanish**: it would select both. -/
theorem follow_eq_empty (h : run g settings = .ok analysis) (hname : g.VanishesTwice name) :
    analysis.follow.of? name = .ok ∅ := by
  obtain ⟨i, j, rhs, rhs', hne, hi, hv, hj, hv'⟩ := hname
  have hmem : name ∈ g.nonterminals := (Grammar.hasAlternative_iff.mpr ⟨i, hi⟩).mem_nonterminals
  have hempty : analysis.follow.sets.of name = ∅ := by
    refine SortedSet.ext ?_
    intro a
    refine iff_of_false ?_ (SortedSet.not_mem_empty a)
    intro ha
    have htoken : a.IsToken := isToken_of_mem_follow h ha
    have hf : g.Follows a name := (mem_follow_iff h htoken).mp ha
    exact hne (deterministic h name i j rhs rhs' a hi hj htoken (.inr ⟨hv, hf⟩) (.inr ⟨hv', hf⟩))
  rw [FollowSets.of?_of_compute (of_run h).2.2.1 hmem, hempty]

end Analysis

/-- **The warnings advise, and the table decides.** In a grammar that passes validation, a warning
about a symbol other than the mark of the empty string foretells a conflict in the table. In an
analysed grammar the warnings are one for each nonterminal of which two alternatives vanish, in the
order of declaration, and about the mark of the empty string; nothing follows those nonterminals. The
remarks are the warnings and, behind them, one on the number of passes. -/
theorem warnings_exact (g : Grammar) :
    (∀ flags, g.validate = .ok flags → ∀ x ∈ (FirstSets.ofGrammar g).ambiguities,
      x.symbol ≠ .empty → ∃ (nonterminal terminal : String) (existing incoming : Nat),
        Analysis.run g .defaults =
          .error (.grammar (.tableConflict nonterminal terminal existing incoming))) ∧
    ∀ analysis, Analysis.run g .defaults = .ok analysis →
      (∃ names : List String, names.Sublist g.nonterminals ∧
        (∀ name, name ∈ names ↔ g.VanishesTwice name) ∧
        List.Forall₂ (fun name d => d.code = .ambiguousFirstSet ∧ d.nonterminal = some name ∧
          d.symbol = some Symbol.empty.name) names analysis.warnings) ∧
      (∀ name, g.VanishesTwice name → analysis.follow.of? name = .ok ∅) ∧
      analysis.diagnostics.items = analysis.warnings ++ [{
        severity := .info
        code := .followPasses
        message := "FOLLOW sets converged after " ++ toString analysis.follow.passes ++
          " passes" }] := by
  refine ⟨fun flags hv x hx hs => Analysis.exists_conflict hv hx hs, fun analysis h => ?_⟩
  have hfirst : analysis.first = .ofGrammar g := Analysis.first_eq h
  have hwarnings : analysis.warnings = (FirstSets.ofGrammar g).ambiguities.map
      Ambiguity.diagnostic := by
    rw [Analysis.warnings_eq h, hfirst]
    rfl
  have hsymbol {x : Ambiguity} (hx : x ∈ (FirstSets.ofGrammar g).ambiguities) :
      x.symbol = .empty := Analysis.symbol_of_mem_ambiguities h hx
  refine ⟨⟨(FirstSets.ofGrammar g).ambiguities.map (·.nonterminal), ?_, ?_, ?_⟩,
    fun name hname => Analysis.follow_eq_empty h hname, ?_⟩
  · have hkeys : (FirstSets.ofGrammar g).alternatives.keys = g.nonterminals :=
      OrderedMap.keys_mapValues _ _
    exact hkeys ▸ Ambiguity.sublist_ambiguities fun x hx => hsymbol hx
  · intro name
    rw [← FirstSets.mem_subjects_empty_iff (Analysis.emptyFree h), List.mem_map]
    constructor
    · rintro ⟨x, hx, rfl⟩
      rw [← hsymbol hx]
      exact FirstSets.mem_subjects_of_mem hx
    · intro hname
      obtain ⟨x, hx, heq⟩ := List.mem_map.mp hname
      exact ⟨x, hx, congrArg Prod.fst heq⟩
  · rw [hwarnings, List.forall₂_map_left_iff, List.forall₂_map_right_iff, List.forall₂_same]
    intro x hx
    exact ⟨rfl, rfl, congrArg (fun s : Symbol => some s.name) (hsymbol hx)⟩
  · rw [Analysis.warnings_eq h]
    obtain ⟨-, follow, table, -, -, rfl⟩ := Analysis.run_eq_ok_iff.mp h
    rfl

/-- Both alternatives of `S` begin with `a`. -/
def Grammar.sharedLeader : Grammar :=
  .build "S" (.ofList [("S", [[.terminal "a", .nonterminal "S"], [.terminal "a"]])])
    (.ofList ["a"])

/-- Two alternatives with one leading symbol clash. Two that vanish are only warned about. -/
theorem sharedLeader_and_vanishingTwice_warnings :
    (∃ nonterminal terminal existing incoming, Analysis.run .sharedLeader .defaults =
      .error (.grammar (.tableConflict nonterminal terminal existing incoming))) ∧
    ∃ analysis, Analysis.run .vanishingTwice .defaults = .ok analysis ∧
      (∃ d ∈ analysis.warnings, d.nonterminal = some "S" ∧ d.symbol = some "ε") ∧
      analysis.follow.of? "S" = .ok ∅ := by
  have hvalid : Grammar.sharedLeader.validate.isOk = true := by decide +kernel
  have hwarned : ⟨"S", .terminal "a", 0, 1⟩ ∈
      (FirstSets.ofGrammar .sharedLeader).ambiguities := by decide +kernel
  obtain ⟨flags, hflags⟩ : ∃ flags, Grammar.sharedLeader.validate = .ok flags := by
    cases hv : Grammar.sharedLeader.validate with
    | ok flags => exact ⟨flags, rfl⟩
    | error e =>
      rw [hv] at hvalid
      cases hvalid
  obtain ⟨nonterminal, terminal, existing, incoming, hconflict⟩ :=
    (warnings_exact .sharedLeader).1 flags hflags _ hwarned (by decide)
  refine ⟨⟨nonterminal, terminal, existing, incoming, hconflict⟩, ?_⟩
  obtain ⟨analysis, h⟩ := Analysis.exists_run (g := .vanishingTwice) (s := .defaults)
    (by decide +kernel)
  obtain ⟨⟨names, -, hnames, hforall⟩, hfollow, -⟩ := (warnings_exact .vanishingTwice).2 analysis h
  have hA : Grammar.vanishingTwice.HasAlternative "A" [] := ⟨_, rfl, by simp⟩
  have htwice : Grammar.vanishingTwice.VanishesTwice "S" :=
    ⟨0, 1, [.nonterminal "A"], [], by decide, by decide +kernel,
      .cons hA .nil .nil, by decide +kernel, .nil⟩
  obtain ⟨hlength, hget⟩ := List.forall₂_iff_get.mp hforall
  obtain ⟨i, hi, hS⟩ := List.getElem_of_mem ((hnames "S").mpr htwice)
  obtain ⟨-, hname, hsymbol⟩ := hget i hi (hlength ▸ hi)
  refine ⟨analysis, h, ⟨_, List.getElem_mem (hlength ▸ hi), ?_, hsymbol⟩, hfollow "S" htwice⟩
  rw [← hS]
  exact hname

end Predictive
