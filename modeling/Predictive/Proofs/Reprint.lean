import Predictive.Proofs.RuleLines

/-!
# Reading a written grammar

A grammar that has been read from lines is written as one line a production. The line says the
production itself, the lines of a nonterminal are gathered in order, and the name of a symbol means
the symbol again. The last of these fails for the end of the token stream if its mark has
alternatives, for it can then be spelled `$` only, and is not written so.

* `nameRules_productions`: what the written productions say, gathered.
* `Means.symbolOf_name`: the name of a symbol means the symbol.
* `ofLines_written`: the written productions are read as the same grammar.
-/

namespace Predictive.Grammar

variable {g : Grammar} {isNonterminal : String → Bool} {name : String}

/-! ## Names of symbols -/

/-- The name of a symbol means the symbol, if the mark of the end has no alternatives. -/
theorem Means.symbolOf_name {s : Symbol} (h : Means isNonterminal name s)
    (hend : isNonterminal Symbol.endMark = false) : symbolOf isNonterminal s.name = s := by
  unfold symbolOf
  cases h with
  | nonterminal h => exact if_pos h
  | identifier h hname =>
    subst hname
    simp [Symbol.identifier, h]
  | endOfInput =>
    rw [show Symbol.endOfInput.name = Symbol.endMark from rfl, hend]
    rfl
  | terminal h hidentifier hend => simp [Symbol.terminal, h, hidentifier, hend]

theorem Means.isName {s : Symbol} (h : Means isNonterminal name s)
    (hname : RuleLine.IsName name.toList) : RuleLine.IsName s.name.toList := by
  cases h with
  | nonterminal | terminal => exact hname
  | identifier => exact (by decide : RuleLine.IsName Symbol.identifierMark.toList)
  | endOfInput => exact (by decide : RuleLine.IsName Symbol.endMark.toList)

/-! ## Written alternatives -/

/-- The alternatives of a grammar as they are written. -/
def spelled (g : Grammar) : OrderedMap String (List (List String)) :=
  g.rules.mapValues fun _ alts => alts.map (·.map Symbol.name)

/-- What the written productions say is gathered to the written alternatives. -/
theorem nameRules_productions
    (halternatives : ∀ name ∈ g.nonterminals, ∃ rhs, g.HasAlternative name rhs) :
    nameRules (g.productions.map fun p => ⟨p.lhs, [p.rhs.map Symbol.name]⟩) = g.spelled := by
  have hapart : (g.productions.map fun p => (p.lhs, [p.rhs.map Symbol.name])) =
      g.spelled.entries.flatMap fun e => e.2.map fun alt => (e.1, [alt]) := by
    unfold productions productionsOf spelled OrderedMap.mapValues
    simp [List.map_flatMap, List.flatMap_map, Function.comp_def]
  unfold nameRules
  rw [List.map_map]
  refine (congrArg OrderedMap.gather hapart).trans (OrderedMap.gather_singletons ?_)
  intro e he
  obtain ⟨⟨name, alts⟩, he', rfl⟩ := List.mem_map.mp he
  have halts : g.rules.find? name = some alts := OrderedMap.find?_eq_some_iff.mpr he'
  obtain ⟨rhs, alts', halts', hrhs⟩ := halternatives name (OrderedMap.mem_keys.mpr ⟨alts, halts⟩)
  rw [halts] at halts'
  cases halts'
  exact List.ne_nil_of_mem (List.mem_map_of_mem hrhs)

variable {start : String} {lines : List (Option String)} {tokens : Option (List String)}
  {names : OrderedMap String (List (List String))} {p : Production}

/-- A written production says itself. -/
theorem read?_production
    (hwf : ∀ name alts, names.find? name = some alts → RuleLine.WellFormed ⟨name, alts⟩)
    (hp : p ∈ (ofNames start names tokens).productions) :
    RuleLine.read? (some p.text) = .ok (some ⟨p.lhs, [p.rhs.map Symbol.name]⟩) := by
  obtain ⟨alts, halts, -⟩ := hasAlternative_ofNames.mp (mem_productions.mp hp)
  refine RuleLine.read?_text (hwf p.lhs alts halts).lhs fun s hs => ?_
  obtain ⟨alts, halts, alt, halt, name, hname, hmeans⟩ := exists_means hp hs
  exact hmeans.isName ((hwf p.lhs alts halts).names alt halt name hname)

/-- The written alternatives mean the alternatives. -/
theorem rules_ofNames_spelled (hend : Symbol.endMark ∉ names.keys) (start : String)
    (tokens tokens' : Option (List String)) :
    (ofNames start (ofNames start names tokens).spelled tokens').rules =
      (ofNames start names tokens).rules := by
  have hmeaning (name : String) : symbolOf names.contains (symbolOf names.contains name).name =
      symbolOf names.contains name :=
    (means_symbolOf names.contains name).symbolOf_name
      (Bool.eq_false_iff.mpr (mt OrderedMap.contains_iff.mp hend))
  have hcontains : (ofNames start names tokens).spelled.contains = names.contains := by
    funext name
    simp [OrderedMap.contains, spelled, find?_ofNames]
  refine OrderedMap.ext ?_ fun name => ?_
  · exact nonterminals_ofNames.trans (OrderedMap.keys_mapValues _ _)
  · rw [find?_ofNames, hcontains]
    simp [spelled, find?_ofNames, Function.comp_def, hmeaning]

/-- The written grammar is the grammar. -/
theorem ofNames_spelled (hend : Symbol.endMark ∉ names.keys) {words : List String}
    (hwords : ∀ word, word ∈ words ↔ word ∈ (ofNames start names tokens).vocabulary) :
    ofNames start (ofNames start names tokens).spelled (tokens.map fun _ => words) =
      ofNames start names tokens := by
  have hrules := rules_ofNames_spelled hend start tokens (tokens.map fun _ => words)
  refine ext_of rfl hrules fun word => ?_
  cases tokens with
  | some _ =>
    rw [Option.map_some, mem_vocabulary_ofNames_some, hwords]
    exact and_iff_left_of_imp fun hw => (mem_vocabulary_ofNames_some.mp hw).2
  | none =>
    rw [Option.map_none] at hrules ⊢
    rw [mem_vocabulary_iff, mem_vocabulary_iff]
    unfold productions
    rw [hrules]

/-- **The written productions are read as the same grammar**, if the mark of the end is not the
left-hand side of a line. With a token list, the reserved words are to be listed again, in any
order. -/
theorem ofLines_written (h : ofLines start lines tokens = .ok g)
    (hend : Symbol.endMark ∉ g.nonterminals) {words : List String}
    (hwords : ∀ word, word ∈ words ↔ word ∈ g.vocabulary) :
    ofLines start (g.productions.map fun p => some p.text) (tokens.map fun _ => words) = .ok g := by
  obtain ⟨rules, hrules, rfl⟩ := ofLines_eq_ok_iff.mp h
  have hwf (name) (alts) (halts : (nameRules rules).find? name = some alts) :
      RuleLine.WellFormed ⟨name, alts⟩ :=
    wellFormed_nameRules (fun r => RuleLine.wellFormed_of_mem hrules) halts
  have hne (name) (alts) (halts : (nameRules rules).find? name = some alts) : alts ≠ [] :=
    (hwf name alts halts).alternatives_ne_nil
  rw [nonterminals_ofNames] at hend
  refine ofLines_eq_ok_iff.mpr ⟨_, RuleLine.readAll_map fun p hp => read?_production hwf hp, ?_⟩
  rw [nameRules_productions (exists_hasAlternative_ofNames hne)]
  exact ofNames_spelled hend hwords

/-- A left-hand side with a bar and a line break, that is repeated; reserved words with an arrow and
like a comment; two spellings of the empty string. -/
def barLines : List (Option String) :=
  [some "a |\n- > -> x->y # $ | Eps", some "# S -> y", some "S->\t// S|NAME epsilon",
    some " a |\n- > -> END_OF_FILE S"]

/-- The grammar of the lines. -/
def barred : Grammar :=
  .build "S" (.ofList [
    ("a |\n- >", [[.terminal "x->y", .terminal "#", .endOfInput], [],
      [.endOfInput, .nonterminal "S"]]),
    ("S", [[.terminal "//", .nonterminal "S"], [.identifier]])]) (.ofList ["//", "x->y", "z"])

/-- The last alternative of the first left-hand side is written before those of the second one, and
the reserved word that is not in use is kept. -/
theorem barred_reread :
    ofLines "S" barLines (some ["z", "NAME", "//", "x->y", "z"]) = .ok barred ∧
    Symbol.endMark ∉ barred.nonterminals ∧
    (∀ word, word ∈ barred.vocabulary.toList ↔ word ∈ barred.vocabulary) ∧
    ofLines "S" (barred.productions.map fun p => some p.text) (some barred.vocabulary.toList) =
      .ok barred := by
  have hread : ofLines "S" barLines (some ["z", "NAME", "//", "x->y", "z"]) = .ok barred := by
    decide +kernel
  have hend : Symbol.endMark ∉ barred.nonterminals := by decide +kernel
  have hwords (word : String) : word ∈ barred.vocabulary.toList ↔ word ∈ barred.vocabulary :=
    SortedSet.mem_def.symm
  exact ⟨hread, hend, hwords, ofLines_written hread hend hwords⟩

/-- The end of the token stream, and its mark as a left-hand side. -/
def endNamed : Grammar :=
  .build "S" (.ofList [("S", [[.endOfInput]]), ("END_OF_FILE", [[]])]) ∅

-- Here the end is spelled `$`, but written as what has become the name of a nonterminal.
example : ofLines "S" [some "S -> $", some "END_OF_FILE ->"] none = .ok endNamed ∧
    ofLines "S" (endNamed.productions.map fun p => some p.text) none ≠ .ok endNamed := by
  decide +kernel

end Predictive.Grammar
