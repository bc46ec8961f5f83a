import Mathlib.Data.List.Forall2
import Predictive.Proofs.Analysable
import Predictive.Proofs.RuleLines
import Predictive.Proofs.Safety

/-!
# What reports show of a table

The table has its cells by symbols; the report on it has them by names, and its comma-separated
text has a column for every symbol that a token can be. Nothing is lost on the way: of the symbols
that a token can be no two have one name, and the cells of a grammar that has been read
(`Grammar.IsRead`) are for such symbols only, since what begins or follows a nonterminal occurs in
an alternative.

* `Grammar.toList_terminals`, `Grammar.eq_of_name_eq`: the columns, and that their names tell them
  apart.
* `Analysis.mem_terminals_of_lookup`: every cell is in one of the columns.
* `TableRow.ListedBy`, `Analysis.ShowsRow`: what the report and the text say of one nonterminal.
* `Analysis.reports_show_table`: they say it of all nonterminals, and there is no cell elsewhere.
-/

namespace Predictive

/-- Entries with distinct keys are kept as they are. -/
theorem OrderedMap.entries_ofList {κ α : Type} [DecidableEq κ] {es : List (κ × α)}
    (h : (es.map Prod.fst).Nodup) : (OrderedMap.ofList es).entries = es := by
  -- Induction needs any map to begin with, as long as the keys are new to it.
  suffices hfold : ∀ m : OrderedMap κ α, (∀ e ∈ es, e.1 ∉ m.keys) →
      (es.foldl (fun m e => m.insert e.1 e.2) m).entries = m.entries ++ es from
    hfold ∅ fun _ _ => List.not_mem_nil
  induction es with
  | nil => simp
  | cons e es ih =>
    intro m hnew
    obtain ⟨hfirst, hrest⟩ := List.nodup_cons.mp h
    have hinsert : (m.insert e.1 e.2).entries = m.entries ++ [e] :=
      write_of_not_mem (hnew e List.mem_cons_self)
    rw [List.foldl_cons, ih hrest, hinsert, List.append_assoc, List.singleton_append]
    intro e' he' hmem
    rw [keys_insert, if_neg (hnew e List.mem_cons_self), List.mem_append,
      List.mem_singleton] at hmem
    rcases hmem with hmem | heq
    · exact hnew e' (List.mem_cons_of_mem e he') hmem
    · exact hfirst (heq ▸ List.mem_map_of_mem he')

/-- A reference is read as one of the two fixed tokens, a reserved word or a nonterminal. -/
theorem Symbol.ofReference_cases (words : SortedSet String) (sigil reference : String) :
    ofReference words sigil reference = .identifier ∨
      ofReference words sigil reference = .endOfInput ∨
      ofReference words sigil reference = .terminal (ofReference words sigil reference).name ∨
      ofReference words sigil reference = .nonterminal (ofReference words sigil reference).name := by
  unfold ofReference
  split
  · exact .inl rfl
  split
  · exact .inr (.inl rfl)
  split
  · exact .inr (.inr (.inl rfl))
  split
  · exact .inr (.inr (.inl rfl))
  split
  · exact .inr (.inr (.inr rfl))
  · exact .inr (.inr (.inl rfl))

namespace Grammar

variable {g : Grammar} {name : String} {rhs : List Symbol} {s t : Symbol}

/-! ## The symbols that a token can be -/

theorem mem_terminals : s ∈ g.terminals ↔
    s = .identifier ∨ s = .endOfInput ∨ ∃ word ∈ g.vocabulary, .terminal word = s := by
  unfold terminals
  rw [SortedSet.mem_ofList, List.mem_cons, List.mem_cons, List.mem_map]
  rfl

/-- The reserved words come first, in order, and then the two marks. -/
theorem toList_terminals (g : Grammar) : g.terminals.toList =
    g.vocabulary.toList.map .terminal ++ [.identifier, .endOfInput] := by
  have hascending : (g.vocabulary.toList.map Symbol.terminal ++
      [Symbol.identifier, Symbol.endOfInput]).Pairwise fun s t => compare s t = .lt := by
    refine List.pairwise_append.mpr ⟨List.pairwise_map.mpr ?_, by decide, ?_⟩
    · exact g.vocabulary.ascending.imp fun {v w} hvw => hvw
    · intro s hs t ht
      obtain ⟨word, -, rfl⟩ := List.mem_map.mp hs
      simp only [List.mem_cons, List.not_mem_nil, or_false] at ht
      rcases ht with rfl | rfl <;> rfl
  refine congrArg SortedSet.toList (SortedSet.ext (t := ⟨_, hascending⟩) fun s => ?_)
  rw [mem_terminals, SortedSet.mem_def, List.mem_append, List.mem_map]
  simp only [SortedSet.mem_def, List.mem_cons, List.not_mem_nil, or_false]
  rw [← or_assoc, or_comm]

/-- No two of them have one name. -/
theorem nodup_names_terminals (g : Grammar) : g.terminals.names.Nodup := by
  unfold SortedSet.names
  rw [toList_terminals, List.map_append, List.map_map,
    show g.vocabulary.toList.map (Symbol.name ∘ Symbol.terminal) = g.vocabulary.toList from
      List.map_id _]
  refine List.nodup_append.mpr ⟨g.vocabulary.nodup_toList, by decide, ?_⟩
  intro word hword mark hmark heq
  simp only [List.map_cons, List.map_nil, List.mem_cons, List.not_mem_nil, or_false] at hmark
  subst heq
  rcases hmark with rfl | rfl
  · exact g.identifierMark_not_mem hword
  · exact g.endMark_not_mem hword

theorem eq_of_name_eq (hs : s ∈ g.terminals) (ht : t ∈ g.terminals) (h : s.name = t.name) :
    s = t :=
  List.inj_on_of_nodup_map g.nodup_names_terminals hs ht h

/-! ## Grammars that have been read -/

/-- The grammar has been read from a definition or from rule lines. -/
inductive IsRead : Grammar → Prop
  | definition (start : String) (definition : OrderedMap String (List (List String)))
      (tokens : List String) (sigil : String) :
      IsRead (ofDefinition start definition tokens sigil)
  | lines {g : Grammar} {start : String} {lines : List (Option String)}
      {tokens : Option (List String)} (h : ofLines start lines tokens = .ok g) : IsRead g

/-- Readers make no other symbols than reserved words, nonterminals and the two fixed tokens. -/
theorem IsRead.of_mem (h : g.IsRead) {p : Production} (hp : p ∈ g.productions) (hs : s ∈ p.rhs) :
    s = .identifier ∨ s = .endOfInput ∨ s = .terminal s.name ∨ s = .nonterminal s.name := by
  cases h with
  | definition start definition tokens sigil =>
    obtain ⟨alts, halts, halt⟩ := mem_productions.mp hp
    have hread : (definition.mapValues fun _ alts => alts.map (·.map
        (Symbol.ofReference (.ofList tokens) sigil))).find? p.lhs = some alts := halts
    rw [OrderedMap.find?_mapValues, Option.map_eq_some_iff] at hread
    obtain ⟨references, -, rfl⟩ := hread
    obtain ⟨alt, -, hrhs⟩ := List.mem_map.mp halt
    rw [← hrhs] at hs
    obtain ⟨reference, -, rfl⟩ := List.mem_map.mp hs
    exact Symbol.ofReference_cases _ sigil reference
  | lines h =>
    obtain ⟨rules, -, rfl⟩ := ofLines_eq_ok_iff.mp h
    obtain ⟨-, -, -, -, name, -, hmeans⟩ := exists_means hp hs
    cases hmeans with
    | nonterminal => exact .inr (.inr (.inr rfl))
    | identifier => exact .inl rfl
    | endOfInput => exact .inr (.inl rfl)
    | terminal => exact .inr (.inr (.inl rfl))

/-- A declared symbol of a grammar that has been read is one that a token can be, unless it is a
nonterminal. -/
theorem IsRead.mem_terminals (h : g.IsRead) (hd : g.Declared) {p : Production}
    (hp : p ∈ g.productions) (hs : s ∈ p.rhs) (hn : s.isNonterminal = false) :
    s ∈ g.terminals := by
  refine Grammar.mem_terminals.mpr ?_
  have hdeclared := hd.symbols p hp s hs
  rcases h.of_mem hp hs with heq | heq | heq | heq
  · exact .inl heq
  · exact .inr (.inl heq)
  · rw [heq] at hdeclared
    exact .inr (.inr ⟨s.name, of_decide_eq_true hdeclared, heq.symm⟩)
  · rw [heq] at hn
    cases hn

/-! ## Where selectors come from -/

theorem Begins.mem {u : List Symbol} (h : g.Begins s u) :
    s ∈ u ∨ ∃ p ∈ g.productions, s ∈ p.rhs := by
  induction h with
  | here => exact .inl List.mem_cons_self
  | @within name rhs rest hrhs _ ih =>
    refine .inr (ih.elim (fun hs => ?_) id)
    exact ⟨⟨name, rhs⟩, mem_productions.mpr hrhs, hs⟩
  | behind _ _ ih => exact ih.imp_left (List.mem_cons_of_mem _)

/-- A token that selects an alternative occurs in one. -/
theorem Selects.mem_alternative (h : g.Selects name rhs s) (hrhs : g.HasAlternative name rhs)
    (hs : s.isNonterminal = false) : ∃ p ∈ g.productions, s ∈ p.rhs := by
  rcases h with hbegins | ⟨-, hfollows⟩
  · exact hbegins.mem.elim (fun hs => ⟨⟨name, rhs⟩, mem_productions.mpr hrhs, hs⟩) id
  · exact hfollows.mem_alternative hs

end Grammar

/-! ## Rows by names -/

namespace TableRow

variable {row : TableRow} {tokens : SymbolSet}

theorem mem_cells {c : Symbol × Int} : c ∈ cells row ↔ row.find? c.1 = some c.2 := by
  obtain ⟨s, i⟩ := c
  unfold cells
  simp only [List.mem_filterMap, Option.map_eq_some_iff, Prod.mk.injEq]
  constructor
  · rintro ⟨s, -, i, hi, rfl, rfl⟩
    exact hi
  · intro hi
    exact ⟨s, SortedSet.mem_ofList.mpr (OrderedMap.mem_keys.mpr ⟨i, hi⟩), i, hi, rfl, rfl⟩

/-- The names list a row: its cells are for some of the tokens and have distinct names, each has one
entry, in order, and the entry of a token's name is the cell of the token. -/
structure ListedBy (row : TableRow) (tokens : SymbolSet) (named : OrderedMap String Int) :
    Prop where
  cells_mem : ∀ c ∈ cells row, c.1 ∈ tokens
  distinct : ((cells row).map (·.1.name)).Nodup
  entries : named.entries = (cells row).map fun c => (c.1.name, c.2)
  find? : ∀ s ∈ tokens, named.find? s.name = row.find? s

/-- A row of tokens that their names tell apart is listed by the names. -/
theorem listedBy_byName (htokens : ∀ c ∈ cells row, c.1 ∈ tokens)
    (hnames : ∀ s ∈ tokens, ∀ t ∈ tokens, s.name = t.name → s = t) :
    ListedBy row tokens (byName row) := by
  have hsymbols : ((cells row).map Prod.fst).Nodup := by
    rw [map_fst_cells]
    exact SortedSet.nodup_toList _
  have hdistinct : ((cells row).map (·.1.name)).Nodup := by
    rw [show (cells row).map (·.1.name) = ((cells row).map Prod.fst).map Symbol.name by simp]
    refine hsymbols.map_on fun s hs t ht => hnames s ?_ t ?_
    · obtain ⟨c, hc, rfl⟩ := List.mem_map.mp hs
      exact htokens c hc
    · obtain ⟨c, hc, rfl⟩ := List.mem_map.mp ht
      exact htokens c hc
  have hentries : (byName row).entries = (cells row).map fun c => (c.1.name, c.2) := by
    refine OrderedMap.entries_ofList ?_
    rw [List.map_map]
    exact hdistinct
  refine ⟨htokens, hdistinct, hentries, fun s hs => Option.ext fun i => ?_⟩
  rw [OrderedMap.find?_eq_some_iff, hentries, List.mem_map]
  constructor
  · rintro ⟨c, hc, heq⟩
    obtain ⟨hname, rfl⟩ := Prod.mk.inj heq
    rw [← hnames c.1 (htokens c hc) s hs hname]
    exact mem_cells.mp hc
  · intro hi
    exact ⟨(s, i), mem_cells.mpr hi, rfl⟩

end TableRow

theorem Production.text_ne_empty (p : Production) : p.text ≠ "" := by
  unfold text
  simp

namespace Analysis

variable {g : Grammar} {settings : Settings} {a : Analysis} {name : String} {token : Symbol}

/-- **Every cell is for a nonterminal and for a symbol that a token can be.** -/
theorem mem_terminals_of_lookup (hg : g.IsRead) (h : run g settings = .ok a) {i : Int}
    (hl : a.table.lookup name token = some i) :
    name ∈ a.grammar.nonterminals ∧ token ∈ a.grammar.terminals := by
  obtain ⟨k, -, htoken, rhs, hrhs, hselects⟩ := (lookup_eq_some_iff h).mp hl
  have halternative : g.HasAlternative name rhs := Grammar.hasAlternative_iff.mpr ⟨k, hrhs⟩
  obtain ⟨p, hp, hmem⟩ := hselects.mem_alternative halternative htoken.1
  rw [(of_run h).1]
  exact ⟨halternative.mem_nonterminals, hg.mem_terminals (declared h) hp hmem htoken.1⟩

/-- The report lists the row of a nonterminal by the names of its symbols. -/
theorem listedBy_of_find?_named (hg : g.IsRead) (h : run g settings = .ok a)
    {named : OrderedMap String Int} (hnamed : a.table.named.find? name = some named) :
    TableRow.ListedBy (a.table.row name) a.grammar.terminals named := by
  unfold ParsingTable.named at hnamed
  rw [OrderedMap.find?_mapValues, Option.map_eq_some_iff] at hnamed
  obtain ⟨row, hfind, rfl⟩ := hnamed
  have hrow : a.table.row name = row := by
    unfold ParsingTable.row
    rw [hfind, Option.getD_some]
  rw [hrow]
  refine TableRow.listedBy_byName (fun c hc => ?_) fun s hs t ht => Grammar.eq_of_name_eq hs ht
  have hcell : a.table.lookup name c.1 = some c.2 := by
    unfold ParsingTable.lookup
    rw [hrow]
    exact TableRow.mem_cells.mp hc
  exact (mem_terminals_of_lookup hg h hcell).2

/-! ## The text of a table -/

/-- The field shows the cell of a nonterminal and a token: the text of the production that the cell
selects, and nothing if there is no cell. -/
structure Shows (a : Analysis) (name : String) (token : Symbol) (field : String) : Prop where
  blank_iff : field = "" ↔ a.table.lookup name token = none
  text : ∀ i, a.table.lookup name token = some i →
    ∃ p, a.grammar.production? name i = .ok p ∧ field = p.text

/-- The record shows the row of a nonterminal: its name, and a field for every symbol that a token
can be, in order. -/
def ShowsRow (a : Analysis) (name : String) (record : List String) : Prop :=
  ∃ fields, record = name :: fields ∧
    List.Forall₂ (a.Shows name) a.grammar.terminals.toList fields

theorem shows_of_cellText {field : String} (h : a.cellText name token = .ok field) :
    a.Shows name token field := by
  unfold cellText at h
  cases hl : a.table.lookup name token with
  | none =>
    rw [hl] at h
    cases h
    exact ⟨iff_of_true rfl hl, fun i hi => by rw [hl] at hi; cases hi⟩
  | some i =>
    cases hp : a.grammar.production? name i with
    | error e =>
      simp only [hl, hp] at h
      cases h
    | ok p =>
      simp only [hl, hp] at h
      cases h
      refine ⟨iff_of_false p.text_ne_empty (by simp [hl]), fun j hj => ⟨p, ?_, rfl⟩⟩
      rw [hl] at hj
      cases hj
      exact hp

theorem shows_of_cellTexts {tokens : List Symbol} {fields : List String}
    (h : a.cellTexts name tokens = .ok fields) : List.Forall₂ (a.Shows name) tokens fields := by
  induction tokens generalizing fields with
  | nil =>
    cases h
    exact .nil
  | cons token tokens ih =>
    obtain ⟨field, hfield, h⟩ := Failure.exists_of_bind_eq_ok h
    obtain ⟨rest, hrest, h⟩ := Failure.exists_of_bind_eq_ok h
    cases h
    exact .cons (shows_of_cellText hfield) (ih hrest)

theorem showsRow_of_matrixRows {names : List String} {rows : List (List String)}
    (h : a.matrixRows a.grammar.terminals.toList names = .ok rows) :
    List.Forall₂ a.ShowsRow names rows := by
  induction names generalizing rows with
  | nil =>
    cases h
    exact .nil
  | cons name names ih =>
    obtain ⟨fields, hfields, h⟩ := Failure.exists_of_bind_eq_ok h
    obtain ⟨rest, hrest, h⟩ := Failure.exists_of_bind_eq_ok h
    cases h
    exact .cons ⟨fields, rfl, shows_of_cellTexts hfields⟩ (ih hrest)

/-- **The text of a table** has a header that names the symbols that a token can be, and a record for
every nonterminal, in the order of declaration. -/
theorem rows_of_tableCsv {text : String} (h : a.tableCsv = .ok text) :
    ∃ rows, text = Text.Csv.write (("NonTerminal" :: a.grammar.terminals.names) :: rows) ∧
      List.Forall₂ a.ShowsRow a.grammar.nonterminals rows := by
  unfold tableCsv at h
  cases hmatrix : a.matrix with
  | error e =>
    rw [hmatrix] at h
    cases h
  | ok matrix =>
    rw [hmatrix] at h
    cases h
    obtain ⟨rows, hrows, hm⟩ := Failure.exists_of_bind_eq_ok hmatrix
    cases hm
    exact ⟨rows, rfl, showsRow_of_matrixRows hrows⟩

/-- **Reports show the table without loss.** The report on the table of a grammar that has been read
has a row for every nonterminal, and the row is listed by the names of its symbols. The
comma-separated text has, behind the header, a record for every nonterminal in the order of
declaration and, in the order of symbols, a column for every symbol that a token can be; the names
of the columns are distinct, and each field shows a cell. There are no cells beside these. -/
theorem reports_show_table (hg : g.IsRead) (h : run g settings = .ok a) :
    a.table.named.keys = a.grammar.nonterminals ∧
    (∀ name named, a.table.named.find? name = some named →
      TableRow.ListedBy (a.table.row name) a.grammar.terminals named) ∧
    (∃ rows, a.tableCsv =
        .ok (Text.Csv.write (("NonTerminal" :: a.grammar.terminals.names) :: rows)) ∧
      List.Forall₂ a.ShowsRow a.grammar.nonterminals rows) ∧
    a.grammar.terminals.toList =
      a.grammar.vocabulary.toList.map .terminal ++ [.identifier, .endOfInput] ∧
    a.grammar.terminals.names.Nodup ∧
    ∀ name token i, a.table.lookup name token = some i →
      name ∈ a.grammar.nonterminals ∧ token ∈ a.grammar.terminals := by
  obtain ⟨text, htext⟩ := exists_tableCsv (decides_grammar h).valid
  obtain ⟨rows, rfl, hrows⟩ := rows_of_tableCsv htext
  refine ⟨?_, fun _ _ => listedBy_of_find?_named hg h, ⟨rows, htext, hrows⟩,
    a.grammar.toList_terminals, a.grammar.nodup_names_terminals,
    fun _ _ _ => mem_terminals_of_lookup hg h⟩
  exact (OrderedMap.keys_mapValues _ _).trans (complete_of_run h).rows

/-- Sums of identifiers. -/
def sumLines : List (Option String) := [some "S -> NAME T $", some "T -> + NAME T |"]

/-- The table for the sums, with a cell under the mark of the end. -/
theorem sumLines_reports : ∃ g a named, Grammar.ofLines "S" sumLines none = .ok g ∧
    run g .defaults = .ok a ∧ a.table.named.find? "T" = some named ∧
    TableRow.ListedBy (a.table.row "T") a.grammar.terminals named ∧
    a.table.lookup "T" .endOfInput = some 1 ∧ named.find? "END_OF_FILE" = some 1 ∧
    a.tableCsv = .ok ("NonTerminal,+,NAME,END_OF_FILE\r\n" ++
      "S,,S -> NAME T END_OF_FILE,\r\n" ++ "T,T -> + NAME T,,T -> ε\r\n") := by
  have hcomputed : (Grammar.ofLines "S" sumLines none).toOption.bind (fun g =>
      (run g .defaults).toOption.map fun a =>
        (a.table.lookup "T" .endOfInput, a.tableCsv.toOption)) =
      some (some 1, some ("NonTerminal,+,NAME,END_OF_FILE\r\n" ++
        "S,,S -> NAME T END_OF_FILE,\r\n" ++ "T,T -> + NAME T,,T -> ε\r\n")) := by
    decide +kernel
  cases hg : Grammar.ofLines "S" sumLines none with
  | error e =>
    rw [hg] at hcomputed
    cases hcomputed
  | ok g =>
    cases h : run g .defaults with
    | error e =>
      rw [hg] at hcomputed
      simp [h, Except.toOption] at hcomputed
    | ok a =>
      simp only [hg, h, Except.toOption, Option.bind_some, Option.map_some, Option.some_inj,
        Prod.mk.injEq] at hcomputed
      obtain ⟨hlookup, hcsv⟩ := hcomputed
      obtain ⟨hkeys, hlisted, -, -, -, hcell⟩ := reports_show_table (.lines hg) h
      obtain ⟨hname, htoken⟩ := hcell "T" .endOfInput 1 hlookup
      rw [← hkeys] at hname
      obtain ⟨named, hnamed⟩ := OrderedMap.mem_keys.mp hname
      refine ⟨g, a, named, rfl, h, hnamed, hlisted "T" named hnamed, hlookup, ?_, ?_⟩
      · exact ((hlisted "T" named hnamed).find? _ htoken).trans hlookup
      · cases htext : a.tableCsv with
        | error e => simp [htext] at hcsv
        | ok text =>
          simp only [htext, Option.some_inj] at hcsv
          rw [hcsv]

end Analysis

end Predictive
