import Predictive.Proofs.Conflict
import Predictive.Proofs.Feed
import Predictive.Report

/-!
# No internal failure

Every stage of an analysis looks up what an earlier one has put in: validation finds the flags of
leading nonterminals, FOLLOW the sets of those in use, the table the FOLLOW sets, and reports and
parsers the alternatives that the cells name. So an analysis has a result or rejects its grammar,
and a parser consumes or refuses its tokens; no look-up misses, and no work goes on for ever.

* `Analysis.run_ordinary`: an analysis has a result or rejects the grammar.
* `Analysis.complete_of_run`, `Analysis.exists_tableCsv`: its reports can be written.
* `no_internal_failure`: the same with the parsers that are made from it, in all their states.
-/

namespace Predictive

variable {g : Grammar} {settings : Settings} {a : Analysis}

/-! ## The stages of an analysis -/

/-- The sweeps of the stages come to an end: no further one changes the flags of declared names, and
none changes the FIRST sets. -/
def Grammar.SweepsEnd (g : Grammar) : Prop :=
  (g.checkDeclared = .ok () → ∃ flags, g.productive = .ok flags ∧
    ProductiveFlags.sweep g.rules.entries flags = .ok flags) ∧
  First.sweep g (FirstSets.ofGrammar g).merged = (FirstSets.ofGrammar g).merged

theorem Grammar.sweepsEnd (g : Grammar) : g.SweepsEnd := by
  refine ⟨fun hc => ?_, First.sweep_ofNonterminals g⟩
  obtain ⟨flags, hflags, -, hfixed⟩ := exists_productive (namesDeclared_of_checkDeclared hc)
  exact ⟨flags, hflags, hfixed⟩

theorem FollowSets.compute_ordinary (hd : g.NamesDeclared) (first : FirstSets)
    (maxPasses : Option Int) : Failure.Ordinary (compute g first maxPasses) := by
  rw [compute_of_declared (undeclared?_eq_none hd first)]
  split
  · exact .inl ⟨_, rfl⟩
  · exact .inr ⟨_, rfl⟩

theorem ParsingTable.build_ordinary {first : FirstSets} {follow : FollowSets}
    (hsel : HasSelectors g first follow) : Failure.Ordinary (build g first follow) := by
  cases h : build g first follow with
  | ok table => exact .inl ⟨table, rfl⟩
  | error e =>
    obtain ⟨name, token, existing, incoming, rfl, -⟩ := firstClash_of_build hsel h
    exact .inr ⟨_, rfl⟩

/-- **An analysis has a result or rejects the grammar**, whatever the grammar and the settings. -/
theorem Analysis.run_ordinary (g : Grammar) (settings : Settings) :
    Failure.Ordinary (run g settings) := by
  refine (Grammar.validate_ordinary g).bind fun flags hflags => ?_
  have hd := Grammar.namesDeclared_of_checkDeclared (Grammar.checkDeclared_of_validate hflags)
  refine (FollowSets.compute_ordinary hd _ _).bind fun follow hfollow => ?_
  refine (ParsingTable.build_ordinary (ParsingTable.hasSelectors_of_compute hfollow)).bind
    fun table _ => ?_
  exact .inl ⟨_, rfl⟩

/-! ## Reports -/

/-- The cells of a row are listed for all its symbols. -/
theorem TableRow.map_fst_cells (row : TableRow) :
    row.cells.map Prod.fst = (SortedSet.ofList row.keys).toList :=
  OrderedMap.map_fst_filterMap_find? fun _ hs => SortedSet.mem_ofList.mp hs

theorem ParsingTable.keys_of_build {first : FirstSets} {follow : FollowSets}
    {table : ParsingTable} (h : build g first follow = .ok table) :
    table.rows.keys = g.nonterminals := by
  unfold build at h
  split at h
  · rename_i rows hrows
    cases h
    exact OrderedMap.keys_of_traverse hrows
  · cases h

namespace Analysis

/-- A report has something to say of every nonterminal: its sets and its row are there, and every
cell of the row is listed. -/
structure Complete (a : Analysis) : Prop where
  alternatives : a.first.alternatives.keys = a.grammar.nonterminals
  first : a.first.merged.keys = a.grammar.nonterminals
  follow : a.follow.sets.keys = a.grammar.nonterminals
  rows : a.table.rows.keys = a.grammar.nonterminals
  cells : ∀ name row, a.table.rows.find? name = some row →
    (TableRow.cells row).map Prod.fst = (SortedSet.ofList row.keys).toList

theorem complete_of_run (h : run g settings = .ok a) : a.Complete := by
  obtain ⟨-, follow, table, hf, ht, rfl⟩ := run_eq_ok_iff.mp h
  exact {
    alternatives := OrderedMap.keys_mapValues _ _
    first := First.keys_ofNonterminals g
    follow := FollowSets.keys_of_compute hf
    rows := ParsingTable.keys_of_build ht
    cells := fun _ row _ => TableRow.map_fst_cells row }

variable (hv : a.table.CellsValid a.grammar)

include hv

theorem exists_cellText (name : String) (token : Symbol) :
    ∃ text, a.cellText name token = .ok text := by
  unfold cellText
  split
  · exact ⟨"", rfl⟩
  · rename_i index hl
    obtain ⟨rhs, hp⟩ := hv hl
    rw [hp]
    exact ⟨_, rfl⟩

theorem exists_cellTexts (name : String) (tokens : List Symbol) :
    ∃ texts, a.cellTexts name tokens = .ok texts := by
  induction tokens with
  | nil => exact ⟨[], rfl⟩
  | cons token tokens ih =>
    obtain ⟨text, ht⟩ := exists_cellText hv name token
    obtain ⟨texts, hts⟩ := ih
    refine ⟨text :: texts, ?_⟩
    simp only [cellTexts, ht, hts, bind, Except.bind, pure, Except.pure]

theorem exists_matrixRows (tokens : List Symbol) (names : List String) :
    ∃ rows, a.matrixRows tokens names = .ok rows := by
  induction names with
  | nil => exact ⟨[], rfl⟩
  | cons name names ih =>
    obtain ⟨cells, hc⟩ := exists_cellTexts hv name tokens
    obtain ⟨rows, hr⟩ := ih
    refine ⟨(name :: cells) :: rows, ?_⟩
    simp only [matrixRows, hc, hr, bind, Except.bind, pure, Except.pure]

/-- A table whose cells are valid can be written. -/
theorem exists_tableCsv : ∃ text, a.tableCsv = .ok text := by
  obtain ⟨rows, hr⟩ := exists_matrixRows hv a.grammar.terminals.toList a.grammar.nonterminals
  unfold tableCsv matrix
  simp only [hr, bind, Except.bind, pure, Except.pure]
  exact ⟨_, rfl⟩

end Analysis

/-! ## Parsers -/

/-- Without a name, or with a declared one, the nonterminal to derive is declared. -/
theorem Parser.startOf_mem {start : Option String} (hg : g.start ∈ g.nonterminals)
    (hs : ∀ name ∈ start, name ∈ g.nonterminals) : startOf g start ∈ g.nonterminals := by
  cases start with
  | none => exact hg
  | some name =>
    unfold startOf
    simp only
    split
    · exact hg
    · exact hs name rfl

theorem Analysis.start_mem (h : run g settings = .ok a) : g.start ∈ g.nonterminals :=
  OrderedMap.contains_iff.mp (Grammar.of_checkDeclared (of_run h).2.1).1

/-- **No internal failure.** The sweeps of an analysis come to an end, and it has a result or
rejects the grammar. With a result, its reports can be written, and a parser can be made for every
declared start. Whatever the depth limit and whatever the parser has been asked before, its stack
has a written form, the next token is consumed or refused, and every stack on the way there has a
written form too. -/
theorem no_internal_failure (g : Grammar) (settings : Settings) :
    g.SweepsEnd ∧
    ((∃ a, Analysis.run g settings = .ok a) ∨ ∃ e, Analysis.run g settings = .error (.grammar e)) ∧
    ∀ a, Analysis.run g settings = .ok a →
      a.Complete ∧ (∃ text, a.tableCsv = .ok text) ∧
      ∀ (start : Option String), (∀ name ∈ start, name ∈ g.nonterminals) →
        ∀ (limit : Option Int) (listening : Bool),
        ∃ p, Parser.create ⟨a.grammar, a.table, limit⟩ start listening = .ok p ∧
          ∀ ops : List Operation, (∃ texts, (p.after ops).render = .ok texts) ∧
            ∀ lexeme : Option String,
              ((∃ c, ((p.after ops).feed lexeme).verdict = .consumed c) ∨
                ∃ e, ((p.after ops).feed lexeme).verdict = .refused e) ∧
              ∀ stack, (p.after ops).Holds lexeme stack →
                ∃ texts, stack.render a.grammar = .ok texts := by
  refine ⟨g.sweepsEnd, Analysis.run_ordinary g settings, fun a h => ?_⟩
  refine ⟨Analysis.complete_of_run h, Analysis.exists_tableCsv (Analysis.decides_grammar h).valid,
    fun start hstart limit listening => ?_⟩
  have hname : Parser.startOf a.grammar start ∈ a.grammar.nonterminals := by
    rw [(Analysis.of_run h).1]
    exact Parser.startOf_mem (Analysis.start_mem h) hstart
  obtain ⟨p, hp⟩ : ∃ p, Parser.create ⟨a.grammar, a.table, limit⟩ start listening = .ok p :=
    ⟨_, Parser.create_eq_ok_iff.mpr ⟨hname, rfl⟩⟩
  refine ⟨p, hp, fun ops => ?_⟩
  have hsound : (p.after ops).Sound := (Analysis.sound_of_create h hp).after ops
  have hgrammar : (p.after ops).automaton.grammar = a.grammar := by
    rw [Parser.automaton_after, (Parser.create_eq_ok_iff.mp hp).2]
    rfl
  refine ⟨hsound.wellFormed.exists_render, fun lexeme => ⟨hsound.settled lexeme, ?_⟩⟩
  intro stack hs
  rw [← hgrammar]
  exact (hsound.holds_spec hs).1.exists_render

/-- With room for two frames a second `b` in a row is too deep; the stack can still be written. -/
theorem twoRuns_too_deep :
    ∃ a p, Analysis.run .twoRuns .defaults = .ok a ∧ (∃ text, a.tableCsv = .ok text) ∧
      Parser.create ⟨a.grammar, a.table, some 2⟩ (some "S") true = .ok p ∧
      (p.after [.feed (some "b"), .feed (some "b")]).halted = some (.nestingTooDeep 2) ∧
      ∃ texts, (p.after [.feed (some "b"), .feed (some "b")]).render = .ok texts := by
  obtain ⟨-, hrun, hresult⟩ := no_internal_failure .twoRuns .defaults
  have hcomputed : ((Analysis.run .twoRuns .defaults).toOption.map fun a =>
      ((Parser.fresh ⟨a.grammar, a.table, some 2⟩ "S" true).after
        [.feed (some "b"), .feed (some "b")]).halted) = some (some (.nestingTooDeep 2)) := by
    decide +kernel
  rcases hrun with ⟨a, h⟩ | ⟨e, h⟩
  · rw [h] at hcomputed
    obtain ⟨-, hcsv, hparsers⟩ := hresult a h
    have hstart : ∀ name ∈ some "S", name ∈ Grammar.twoRuns.nonterminals := by decide +kernel
    obtain ⟨p, hp, hall⟩ := hparsers (some "S") hstart (some 2) true
    refine ⟨a, p, h, hcsv, hp, ?_, (hall _).1⟩
    rw [(Parser.create_eq_ok_iff.mp hp).2]
    exact Option.some.inj hcomputed
  · rw [h] at hcomputed
    cases hcomputed

end Predictive
