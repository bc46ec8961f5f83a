import Predictive.Proofs.Reordering
import Predictive.Proofs.Safety
import Predictive.Proofs.Similar
import Predictive.Proofs.Trace

/-!
# The order of declaration does not matter

The stages of an analysis go through nonterminals and alternatives in the order of declaration, and
what one of them has put in decides what the next one finds there. What they come to is said by
derivations, and those know no order (`Grammar.Reordering`). So a reordered grammar is analysed iff
the grammar is, with the same sets, the same cells up to the places of the alternatives, the same
warnings up to what they say of these places, and the same parses.

* `Reordering.first_of?_eq`, `Reordering.follow_of?_eq`: the sets of the nonterminals.
* `Reordering.lookup_eq`, `Reordering.similar`: the cells, and the automata that they make.
* `Reordering.subjects_perm`: what the warnings are about.
* `order_irrelevant`: all of it, and that rejections are of one kind.
* `permuted_lists_agree`: the same for permuted lists of nonterminals and of alternatives.
-/

namespace Predictive

variable {g g' : Grammar}

/-! ## The stages of the analysis of a reordered grammar -/

namespace Grammar.Reordering

variable (r : g.Reordering g')

section Declared

variable (hd : g.Declared)

include r hd

theorem first_of?_eq (name : String) :
    (FirstSets.ofGrammar g').of? name = (FirstSets.ofGrammar g).of? name := by
  refine SymbolSets.of?_congr (fun name => ?_) (fun name s => ?_) name
  · show name ∈ (First.ofNonterminals g').keys ↔ name ∈ (First.ofNonterminals g).keys
    rw [First.keys_ofNonterminals, First.keys_ofNonterminals]
    exact r.mem_nonterminals
  · rw [FirstSets.mem_merged_iff (r.declared hd).emptyFree, FirstSets.mem_merged_iff hd.emptyFree]
    exact r.inFirst_iff

theorem first_ofSequence_eq {u : List Symbol} (hu : Predictive.EmptyFree u) :
    (FirstSets.ofGrammar g').ofSequence u = (FirstSets.ofGrammar g).ofSequence u := by
  refine SortedSet.ext fun s => ?_
  rw [FirstSets.mem_ofSequence_iff (r.declared hd).emptyFree hu,
    FirstSets.mem_ofSequence_iff hd.emptyFree hu]
  exact r.inFirst_iff

/-- FIRST of an alternative goes where the alternative goes. -/
theorem first_ofAlternative?_place (name : String) (k : Nat) :
    (FirstSets.ofGrammar g').ofAlternative? name (r.place name k : Nat) =
      (FirstSets.ofGrammar g).ofAlternative? name k := by
  rw [FirstSets.ofAlternative?_ofNat, FirstSets.ofAlternative?_ofNat, r.alternativeAt?_place,
    r.contains_eq]
  cases h : g.alternativeAt? name k with
  | none => rfl
  | some rhs =>
    have hu := hd.emptyFree.alternative (hasAlternative_iff.mpr ⟨k, h⟩)
    simp only [r.first_ofSequence_eq hd hu]

theorem mem_subjects {name : String} {s : Symbol}
    (h : (name, s) ∈ (FirstSets.ofGrammar g).subjects) :
    (name, s) ∈ (FirstSets.ofGrammar g').subjects := by
  obtain ⟨i, j, rhs, rhs', hne, hi, hs, hj, hs'⟩ :=
    (FirstSets.mem_subjects_iff hd.emptyFree).mp h
  refine (FirstSets.mem_subjects_iff (r.declared hd).emptyFree).mpr
    ⟨r.place name i, r.place name j, rhs, rhs', fun heq => hne ((r.place name).injective heq),
      (r.alternativeAt?_place name i).trans hi, r.inFirst hs,
      (r.alternativeAt?_place name j).trans hj, r.inFirst hs'⟩

/-- The warnings are about the same symbols of the same nonterminals, each once. -/
theorem subjects_perm :
    (FirstSets.ofGrammar g').subjects.Perm (FirstSets.ofGrammar g).subjects := by
  refine (List.perm_ext_iff_of_nodup (FirstSets.nodup_subjects _)
    (FirstSets.nodup_subjects _)).mpr fun ⟨name, s⟩ => ?_
  exact ⟨r.symm.mem_subjects (r.declared hd), r.mem_subjects hd⟩

theorem follow_of?_eq {maxPasses maxPasses' : Option Int} {follow follow' : FollowSets}
    (hf : FollowSets.compute g (.ofGrammar g) maxPasses = .ok follow)
    (hf' : FollowSets.compute g' (.ofGrammar g') maxPasses' = .ok follow') (name : String) :
    follow'.of? name = follow.of? name := by
  have hd' := r.declared hd
  refine SymbolSets.of?_congr (fun name => ?_) (fun name s => ?_) name
  · rw [FollowSets.keys_of_compute hf, FollowSets.keys_of_compute hf']
    exact r.mem_nonterminals
  · rw [FollowSets.mem_sets_iff_follows hd.emptyFree hd.namesDeclared hf,
      FollowSets.mem_sets_iff_follows hd'.emptyFree hd'.namesDeclared hf']
    exact and_congr_right fun _ => ⟨r.symm.follows, r.follows⟩

end Declared

variable {settings settings' : Settings} {a a' : Analysis}

/-- **A cell holds the place where the alternative has gone.** -/
theorem lookup_eq (h : Analysis.run g settings = .ok a) (h' : Analysis.run g' settings' = .ok a')
    (name : String) (s : Symbol) :
    a'.table.lookup name s =
      (a.table.lookup name s).map fun i => (r.place name i.toNat : Int) := by
  ext i
  rw [Analysis.lookup_eq_some_iff h', Option.map_eq_some_iff]
  simp only [Analysis.lookup_eq_some_iff h]
  constructor
  · rintro ⟨k, rfl, hs, rhs, hk, hsel⟩
    refine ⟨((r.place name).symm k : Nat), ⟨_, rfl, hs, rhs, ?_, r.symm.selects hsel⟩, ?_⟩
    · exact (r.symm.alternativeAt?_place name k).trans hk
    · rw [Int.toNat_natCast, Equiv.apply_symm_apply]
  · rintro ⟨_, ⟨k, rfl, hs, rhs, hk, hsel⟩, rfl⟩
    exact ⟨r.place name k, rfl, hs, rhs, (r.alternativeAt?_place name k).trans hk, r.selects hsel⟩

include r in
/-- **The cells lead to the same productions**, so that the automata cannot be told apart. -/
theorem similar (h : Analysis.run g settings = .ok a) (h' : Analysis.run g' settings' = .ok a')
    (limit : Option Int) :
    Automaton.Similar ⟨a.grammar, a.table, limit⟩ ⟨a'.grammar, a'.table, limit⟩ := by
  obtain ⟨hgrammar, -⟩ := Analysis.of_run h
  obtain ⟨hgrammar', -⟩ := Analysis.of_run h'
  simp only [hgrammar, hgrammar']
  refine ⟨rfl, r.start_eq, r.classify_eq, r.contains_eq, r.nonterminals_perm.length_eq,
    fun name s => ?_⟩
  simp only [r.lookup_eq h h', Option.map_map]
  cases hl : a.table.lookup name s with
  | none => rfl
  | some i =>
    -- A cell counts from the front, and there the alternative has gone along with its place.
    obtain ⟨k, rfl, -, rhs, hk, -⟩ := (Analysis.lookup_eq_some_iff h).mp hl
    have hk' := (r.alternativeAt?_place name k).trans hk
    have hp : g.production? name k = .ok ⟨name, rhs⟩ := production?_ofNat.mpr ⟨rfl, hk⟩
    have hp' : g'.production? name (r.place name k : Nat) = .ok ⟨name, rhs⟩ :=
      production?_ofNat.mpr ⟨rfl, hk'⟩
    simp only [Option.map_some, Function.comp, Int.toNat_natCast, hp, hp']

end Grammar.Reordering

/-! ## Analyses in different orders -/

/-- A remark without its hint. -/
def Diagnostic.withoutHint (d : Diagnostic) : Diagnostic := { d with hint := none }

/-- The warning about a symbol of a nonterminal, without the places that its hint names. -/
def Ambiguity.warningAbout (subject : String × Symbol) : Diagnostic :=
  (Ambiguity.diagnostic ⟨subject.1, subject.2, 0, 0⟩).withoutHint

namespace Analysis

/-- Two analyses agree, up to the order of what they list, up to the places of the alternatives,
and up to the number of passes. -/
structure AgreesWith (a : Analysis) (place : String → Equiv.Perm Nat) (a' : Analysis) : Prop where
  first : ∀ name, a'.first.of? name = a.first.of? name
  first_keys : a'.first.merged.keys.Perm a.first.merged.keys
  /-- FIRST of an alternative goes where the alternative goes. -/
  alternatives : ∀ name (k : Nat),
    a'.first.ofAlternative? name (place name k : Nat) = a.first.ofAlternative? name k
  alternatives_keys : a'.first.alternatives.keys.Perm a.first.alternatives.keys
  follow : ∀ name, a'.follow.of? name = a.follow.of? name
  follow_keys : a'.follow.sets.keys.Perm a.follow.sets.keys
  /-- A cell holds the place where its alternative has gone. -/
  cells : ∀ name s, a'.table.lookup name s =
    (a.table.lookup name s).map fun i => (place name i.toNat : Int)
  rows_keys : a'.table.rows.keys.Perm a.table.rows.keys
  /-- The warnings differ in their hints only. -/
  warnings : (a'.warnings.map Diagnostic.withoutHint).Perm (a.warnings.map Diagnostic.withoutHint)
  /-- The only other remark is the one on the number of passes. -/
  diagnostics : a.diagnostics.items = a.warnings ++ [a.follow.diagnostic]
  diagnostics' : a'.diagnostics.items = a'.warnings ++ [a'.follow.diagnostic]
  /-- A parse from any start and under any limit has the same result with the same records, or is
  refused for the same start. -/
  parse : ∀ limit lexemes start recording,
    Trace.parse ⟨a'.grammar, a'.table, limit⟩ lexemes start recording =
      Trace.parse ⟨a.grammar, a.table, limit⟩ lexemes start recording
  /-- From the start symbol there always is a result. -/
  parse_start : ∀ settings lexemes recording, ∃ result,
    a.parse settings lexemes recording = .ok result ∧
      a'.parse settings lexemes recording = .ok result

variable {settings settings' : Settings} {a a' : Analysis}

theorem warnings_withoutHint (h : run g settings = .ok a) :
    a.warnings.map Diagnostic.withoutHint =
      (FirstSets.ofGrammar g).subjects.map Ambiguity.warningAbout := by
  rw [warnings_eq h, first_eq h]
  unfold FirstSets.diagnostics FirstSets.subjects
  rw [List.map_map, List.map_map]
  rfl

theorem diagnostics_eq (h : run g settings = .ok a) :
    a.diagnostics.items = a.warnings ++ [a.follow.diagnostic] := by
  rw [warnings_eq h]
  obtain ⟨-, follow, table, -, -, rfl⟩ := run_eq_ok_iff.mp h
  rfl

/-- A parse has a result, and the result tells what the feeds of a parser come to. -/
theorem exists_parsed (h : run g settings = .ok a) (s : Settings) (lexemes : List String)
    (recording : Bool) : ∃ p result,
      Parser.create ⟨a.grammar, a.table, s.maxStackDepth⟩ none recording = .ok p ∧
      a.parse s lexemes recording = .ok result ∧
      Trace.Parsed p 0 (Trace.inputOf lexemes) result := by
  have hstart : Parser.startOf a.grammar none ∈ a.grammar.nonterminals := by
    rw [(of_run h).1]
    exact start_mem h
  obtain ⟨p, hp⟩ : ∃ p, Parser.create ⟨a.grammar, a.table, s.maxStackDepth⟩ none recording =
      .ok p := ⟨_, Parser.create_eq_ok_iff.mpr ⟨hstart, rfl⟩⟩
  obtain ⟨result, hresult, hparsed⟩ := Trace.exists_parsed hp (sound_of_create h hp) lexemes
  exact ⟨p, result, hp, hresult, hparsed⟩

/-- **The analysis of a reordered grammar agrees with that of the grammar.** -/
theorem agreesWith_of_reordering (r : g.Reordering g') (h : run g settings = .ok a)
    (h' : run g' settings' = .ok a') : a.AgreesWith r.place a' := by
  have hd := declared h
  have hparse (limit : Option Int) := (r.similar h h' limit).parse_eq
  obtain ⟨halts, hkeys, hfollow, hrows, -⟩ := complete_of_run h
  obtain ⟨halts', hkeys', hfollow', hrows', -⟩ := complete_of_run h'
  obtain ⟨hg, -, hf, -⟩ := of_run h
  obtain ⟨hg', -, hf', -⟩ := of_run h'
  have hperm : a'.grammar.nonterminals.Perm a.grammar.nonterminals := by
    rw [hg, hg']
    exact r.nonterminals_perm
  constructor
  case first =>
    rw [first_eq h, first_eq h']
    exact r.first_of?_eq hd
  case first_keys => rw [hkeys, hkeys']; exact hperm
  case alternatives =>
    rw [first_eq h, first_eq h']
    exact r.first_ofAlternative?_place hd
  case alternatives_keys => rw [halts, halts']; exact hperm
  case follow => exact r.follow_of?_eq hd hf hf'
  case follow_keys => rw [hfollow, hfollow']; exact hperm
  case cells => exact r.lookup_eq h h'
  case rows_keys => rw [hrows, hrows']; exact hperm
  case warnings =>
    rw [warnings_withoutHint h, warnings_withoutHint h']
    exact (r.subjects_perm hd).map _
  case diagnostics => exact diagnostics_eq h
  case diagnostics' => exact diagnostics_eq h'
  case parse => exact hparse
  case parse_start =>
    intro s lexemes recording
    obtain ⟨-, result, -, hresult, -⟩ := exists_parsed h s lexemes recording
    exact ⟨result, hresult, (hparse s.maxStackDepth lexemes none recording).trans hresult⟩

end Analysis

/-- The rejections of a grammar and of a reordered one are of one kind. -/
theorem Grammar.Reordering.code_eq (r : g.Reordering g') {e e' : GrammarError}
    (h : Analysis.run g .defaults = .error (.grammar e))
    (h' : Analysis.run g' .defaults = .error (.grammar e')) : e'.code = e.code := by
  obtain ⟨hundeclared, hnonterminating, hconflict⟩ := Analysis.code_of_run h
  obtain ⟨hundeclared', hnonterminating', hconflict'⟩ := Analysis.code_of_run h'
  by_cases hd : g.Declared
  · have hd' := r.declared hd
    by_cases hp : ∀ name ∈ g.nonterminals, g.Productive name
    · have hp' : ∀ name ∈ g'.nonterminals, g'.Productive name := fun name hname =>
        r.productive (hp name (r.mem_nonterminals.mp hname))
      rw [hconflict hd hp, hconflict' hd' hp']
    · have hp' : ¬ ∀ name ∈ g'.nonterminals, g'.Productive name := fun h => hp fun name hname =>
        r.symm.productive (h name (r.mem_nonterminals.mpr hname))
      rw [hnonterminating hd hp, hnonterminating' hd' hp']
  · rw [hundeclared hd, hundeclared' fun h => hd (r.symm.declared h)]

/-- A grammar and a reordered one are both analysed, or both rejected in one way. -/
theorem Grammar.Reordering.run_cases (r : g.Reordering g') :
    (∃ a a', Analysis.run g .defaults = .ok a ∧ Analysis.run g' .defaults = .ok a') ∨
    ∃ e e', Analysis.run g .defaults = .error (.grammar e) ∧
      Analysis.run g' .defaults = .error (.grammar e') ∧ e'.code = e.code := by
  rcases Analysis.run_ordinary g .defaults with ⟨a, h⟩ | ⟨e, h⟩
  · obtain ⟨a', h'⟩ := r.exists_run ⟨a, h⟩
    exact .inl ⟨a, a', h, h'⟩
  · rcases Analysis.run_ordinary g' .defaults with ⟨a', h'⟩ | ⟨e', h'⟩
    · obtain ⟨a, ha⟩ := r.symm.exists_run ⟨a', h'⟩
      rw [h] at ha
      cases ha
    · exact .inr ⟨e, e', h, h', r.code_eq h h'⟩

/-- **The order of declaration does not matter.** Under the default settings, a grammar and a
reordered one are either both analysed, and the analyses agree: in FIRST and FOLLOW of all
nonterminals, in FIRST of the alternatives and in the cells up to the places of the alternatives, in
the warnings up to their hints, and in the results of all parses with all their records. Or both are
rejected, and the rejections are of one kind. -/
theorem order_irrelevant (r : g.Reordering g') :
    (∃ a a', Analysis.run g .defaults = .ok a ∧ Analysis.run g' .defaults = .ok a' ∧
      a.AgreesWith r.place a') ∨
    ∃ e e', Analysis.run g .defaults = .error (.grammar e) ∧
      Analysis.run g' .defaults = .error (.grammar e') ∧ e'.code = e.code := by
  rcases r.run_cases with ⟨a, a', h, h'⟩ | hrejected
  · exact .inl ⟨a, a', h, h', Analysis.agreesWith_of_reordering r h h'⟩
  · exact .inr hrejected

/-- The grammar of two runs with its nonterminals from the last one on, and with the empty
alternatives in front. -/
def Grammar.twoRunsBackwards : Grammar :=
  .build "S" (.ofList [
    ("B", [[], [.terminal "b", .nonterminal "B"]]),
    ("A", [[], [.terminal "a", .nonterminal "A"]]),
    ("S", [[.nonterminal "A", .nonterminal "B", .endOfInput]])]) (.ofList ["a", "b"])

theorem Grammar.twoRunsBackwards_perm :
    twoRunsBackwards.nonterminals.Perm twoRuns.nonterminals := by decide +kernel

/-- The alternatives of `A` and of `B` change their places. -/
def Grammar.twoRunsReordering : twoRuns.Reordering twoRunsBackwards where
  place name := if name = "S" then .refl Nat else .swap 0 1
  start_eq := rfl
  vocabulary_eq := rfl
  nonterminals_perm := twoRunsBackwards_perm
  alternativeAt?_place name k := by
    by_cases hname : name ∈ twoRuns.nonterminals
    · have hnames : twoRuns.nonterminals = ["S", "A", "B"] := by decide +kernel
      simp only [hnames, List.mem_cons, List.not_mem_nil, or_false] at hname
      rcases hname with rfl | rfl | rfl
      · rfl
      · match k with
        | 0 | 1 => rfl
        | k + 2 => rfl
      · match k with
        | 0 | 1 => rfl
        | k + 2 => rfl
    · have hname' : name ∉ twoRunsBackwards.nonterminals := fun h =>
        hname (twoRunsBackwards_perm.mem_iff.mp h)
      rw [alternativeAt?_of_not_mem hname, alternativeAt?_of_not_mem hname']

/-- The cell of `A` for the token `a` is in another place then, and the sets and the parse of a word
are the same. -/
theorem twoRunsBackwards_agrees :
    ∃ a a', Analysis.run .twoRuns .defaults = .ok a ∧
      Analysis.run .twoRunsBackwards .defaults = .ok a' ∧
      a.table.lookup "A" (.terminal "a") = some 0 ∧ a'.table.lookup "A" (.terminal "a") = some 1 ∧
      a'.follow.of? "A" = a.follow.of? "A" ∧
      ∃ result, a.parse .defaults ["a", "b"] true = .ok result ∧
        a'.parse .defaults ["a", "b"] true = .ok result := by
  obtain ⟨a, h⟩ := Analysis.exists_run (g := .twoRuns) (s := .defaults) (by decide +kernel)
  have hcell : (Analysis.run .twoRuns .defaults).toOption.map
      (·.table.lookup "A" (.terminal "a")) = some (some 0) := by decide +kernel
  rw [h] at hcell
  have hcell : a.table.lookup "A" (.terminal "a") = some 0 := Option.some.inj hcell
  rcases order_irrelevant Grammar.twoRunsReordering with ⟨b, a', hb, h', hagrees⟩ | ⟨e, e', he, -⟩
  · rw [h] at hb
    cases hb
    refine ⟨a, a', h, h', hcell, ?_, hagrees.follow "A", hagrees.parse_start _ _ _⟩
    rw [hagrees.cells, hcell]
    rfl
  · rw [h] at he
    cases he

/-- **Permuted lists come to the same**: it is enough that the nonterminals are the same in another
order, and that each of them has the same alternatives in another order. -/
theorem permuted_lists_agree (hstart : g'.start = g.start)
    (hvocabulary : g'.vocabulary = g.vocabulary)
    (hnonterminals : g'.nonterminals.Perm g.nonterminals)
    (halternatives : ∀ name alts alts', g.rules.find? name = some alts →
      g'.rules.find? name = some alts' → alts.Perm alts') :
    (∃ a a' place, Analysis.run g .defaults = .ok a ∧ Analysis.run g' .defaults = .ok a' ∧
      a.AgreesWith place a') ∨
    ∃ e e', Analysis.run g .defaults = .error (.grammar e) ∧
      Analysis.run g' .defaults = .error (.grammar e') ∧ e'.code = e.code := by
  obtain ⟨r⟩ := Grammar.exists_reordering hstart hvocabulary hnonterminals halternatives
  rcases r.run_cases with ⟨a, a', h, h'⟩ | hrejected
  · exact .inl ⟨a, a', r.place, h, h', Analysis.agreesWith_of_reordering r h h'⟩
  · exact .inr hrejected

end Predictive
