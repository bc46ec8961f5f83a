import Predictive.Proofs.LeadingSymbols
import Predictive.Proofs.RuleText

/-!
# Grammars that are read from lines

The lines of one nonterminal are gathered, and every name of an alternative is given its meaning by
what stands to the left of an arrow somewhere. Without a token list the reserved words are the names
that are left over. The meaning and the leftovers are found by separate tests; that they agree is
what makes such a grammar self-contained.

* `OrderedMap.gather_singletons`: a map that is taken apart value by value is gathered again.
* `RuleLine.mem_readAll`: what some lines say.
* `Grammar.means_symbolOf`: what a name means.
* `Grammar.hasAlternative_ofNames`, `Grammar.mem_vocabulary_iff`: the alternatives and the
  reserved words of a grammar of names.
* `Grammar.inference_exact`: a grammar with inferred reserved words is self-contained, so that only
  its start symbol can be undeclared, and only a cycle of leading symbols can be wrong besides.
-/

namespace Predictive

namespace OrderedMap

variable {κ γ : Type} [DecidableEq κ] {m : OrderedMap κ (List γ)} {k k' : κ} {xs ys : List γ}

/-! ## Gathering -/

/-- Joins a list to the value of a key. -/
def extend (m : OrderedMap κ (List γ)) (k : κ) (xs : List γ) : OrderedMap κ (List γ) :=
  m.insert k ((m.find? k).getD [] ++ xs)

theorem gather_eq_foldl (es : List (κ × List γ)) :
    gather es = es.foldl (fun m e => m.extend e.1 e.2) ∅ := rfl

theorem mem_keys_extend : k' ∈ (m.extend k xs).keys ↔ k' ∈ m.keys ∨ k' = k := by
  unfold extend
  rw [keys_insert]
  split
  · rename_i hk
    refine (or_iff_left_of_imp ?_).symm
    rintro rfl
    exact hk
  · simp

theorem mem_keys_foldl_extend {es : List (κ × List γ)} :
    k ∈ (es.foldl (fun m e => m.extend e.1 e.2) m).keys ↔ k ∈ m.keys ∨ k ∈ es.map Prod.fst := by
  induction es generalizing m with
  | nil => simp
  | cons e es ih =>
    rw [List.foldl_cons, ih, mem_keys_extend, List.map_cons, List.mem_cons, or_assoc]

theorem mem_keys_gather {es : List (κ × List γ)} :
    k ∈ (gather es).keys ↔ k ∈ es.map Prod.fst := by
  rw [gather_eq_foldl, mem_keys_foldl_extend]
  exact or_iff_right List.not_mem_nil

/-- The later of two writes to a key counts. -/
theorem insert_insert (m : OrderedMap κ γ) (k : κ) (v w : γ) :
    (m.insert k v).insert k w = m.insert k w := by
  refine ext ?_ fun k' => ?_
  · simp only [keys_insert]
    split <;> simp [*]
  · simp only [find?_insert]
    split <;> rfl

theorem extend_extend : (m.extend k xs).extend k ys = m.extend k (xs ++ ys) := by
  unfold extend
  rw [find?_insert, if_pos rfl, Option.getD_some, insert_insert, List.append_assoc]

/-- A list may as well be joined one by one. -/
theorem foldl_extend_singletons (hne : xs ≠ []) :
    (xs.map fun x => (k, [x])).foldl (fun m e => m.extend e.1 e.2) m = m.extend k xs := by
  induction xs generalizing m with
  | nil => exact absurd rfl hne
  | cons x xs ih =>
    cases xs with
    | nil => rfl
    | cons y xs =>
      rw [List.map_cons, List.foldl_cons, ih (List.cons_ne_nil y xs), extend_extend]
      rfl

theorem write_of_not_mem {v : γ} {es : List (κ × γ)} (h : k ∉ es.map Prod.fst) :
    write k v es = es ++ [(k, v)] := by
  induction es with
  | nil => rfl
  | cons e es ih =>
    rw [List.map_cons, List.mem_cons, not_or] at h
    unfold write
    rw [if_neg fun he => h.1 he.symm, ih h.2]
    rfl

theorem entries_extend (h : k ∉ m.keys) : (m.extend k xs).entries = m.entries ++ [(k, xs)] := by
  have hnone : m.find? k = none := find?_eq_none_iff.mpr h
  unfold extend
  rw [hnone]
  exact write_of_not_mem h

/-- New entries that are taken apart value by value are put behind the old ones. -/
theorem entries_foldl_extend {es : List (κ × List γ)} (hne : ∀ e ∈ es, e.2 ≠ [])
    (hdistinct : (es.map Prod.fst).Nodup) (hnew : ∀ e ∈ es, e.1 ∉ m.keys) :
    ((es.flatMap fun e => e.2.map fun x => (e.1, [x])).foldl
      (fun m e => m.extend e.1 e.2) m).entries = m.entries ++ es := by
  induction es generalizing m with
  | nil => simp
  | cons e es ih =>
    obtain ⟨hfirst, hrest⟩ := List.nodup_cons.mp hdistinct
    have hnext : ∀ e' ∈ es, e'.1 ∉ (m.extend e.1 e.2).keys := by
      intro e' he'
      rw [mem_keys_extend, not_or]
      refine ⟨hnew e' (List.mem_cons_of_mem e he'), fun heq => hfirst ?_⟩
      exact List.mem_map.mpr ⟨e', he', heq⟩
    rw [List.flatMap_cons, List.foldl_append, foldl_extend_singletons (hne e List.mem_cons_self),
      ih (fun e' he' => hne e' (List.mem_cons_of_mem e he')) hrest hnext,
      entries_extend (hnew e List.mem_cons_self), List.append_assoc]
    rfl

/-- **A map that is taken apart value by value is gathered again.** -/
theorem gather_singletons (hne : ∀ e ∈ m.entries, e.2 ≠ []) :
    gather (m.entries.flatMap fun e => e.2.map fun x => (e.1, [x])) = m := by
  have hentries := entries_foldl_extend (m := ∅) hne m.distinct fun _ _ => List.not_mem_nil
  rw [← gather_eq_foldl] at hentries
  refine ext (congrArg (List.map Prod.fst) hentries) fun k => ?_
  exact congrArg (List.lookup k) hentries

end OrderedMap

namespace RuleLine

variable {lines : List (Option String)} {rules : List RuleLine}

/-! ## What some lines say -/

theorem readAll_cons (line : Option String) (lines : List (Option String)) :
    readAll (line :: lines) =
      (read? line).bind fun first => (readAll lines).map fun rest => first.toList ++ rest := rfl

theorem readAll_cons_eq_ok_iff {line : Option String} : readAll (line :: lines) = .ok rules ↔
    ∃ first rest, read? line = .ok first ∧ readAll lines = .ok rest ∧
      first.toList ++ rest = rules := by
  rw [readAll_cons]
  cases read? line with
  | error e => simp [Except.bind]
  | ok first => cases readAll lines <;> simp [Except.bind, Except.map]

theorem readAll_cons_eq_error_iff {line : Option String} {said : Option RuleLine} {e : LineError}
    (h : read? line = .ok said) : readAll (line :: lines) = .error e ↔ readAll lines = .error e := by
  rw [readAll_cons, h]
  cases readAll lines <;> simp [Except.bind, Except.map]

/-- **Reading stops at the first bad line.** -/
theorem readAll_eq_error_iff {e : LineError} : readAll lines = .error e ↔
    ∃ before line after, lines = before ++ line :: after ∧
      (∀ l ∈ before, ∃ said, read? l = .ok said) ∧ read? line = .error e := by
  constructor
  · intro h
    induction lines with
    | nil => cases h
    | cons line lines ih =>
      cases hread : read? line with
      | error e' =>
        rw [readAll_cons, hread] at h
        cases h
        exact ⟨[], line, lines, rfl, by simp, hread⟩
      | ok said =>
        obtain ⟨before, bad, after, rfl, hbefore, hbad⟩ :=
          ih ((readAll_cons_eq_error_iff hread).mp h)
        refine ⟨line :: before, bad, after, rfl, fun l hl => ?_, hbad⟩
        rcases List.mem_cons.mp hl with rfl | hl
        · exact ⟨said, hread⟩
        · exact hbefore l hl
  · rintro ⟨before, line, after, rfl, hbefore, hbad⟩
    induction before with
    | nil =>
      rw [List.nil_append, readAll_cons, hbad]
      rfl
    | cons l before ih =>
      obtain ⟨said, hread⟩ := hbefore l List.mem_cons_self
      exact (readAll_cons_eq_error_iff hread).mpr
        (ih fun l' hl' => hbefore l' (List.mem_cons_of_mem l hl'))

/-- If lines can be read, each of them can. -/
theorem exists_read?_of_mem (h : readAll lines = .ok rules) {line : Option String}
    (hm : line ∈ lines) : ∃ said, read? line = .ok said := by
  induction lines generalizing rules with
  | nil => cases hm
  | cons line' lines ih =>
    obtain ⟨first, rest, hfirst, hrest, -⟩ := readAll_cons_eq_ok_iff.mp h
    rcases List.mem_cons.mp hm with rfl | hm
    · exact ⟨first, hfirst⟩
    · exact ih hrest hm

/-- What some lines say is what one of them says. -/
theorem mem_readAll (h : readAll lines = .ok rules) {r : RuleLine} :
    r ∈ rules ↔ ∃ line ∈ lines, read? line = .ok (some r) := by
  induction lines generalizing rules with
  | nil =>
    cases h
    simp
  | cons line lines ih =>
    obtain ⟨first, rest, hfirst, hrest, rfl⟩ := readAll_cons_eq_ok_iff.mp h
    rw [List.mem_append, ih hrest, Option.mem_toList, List.exists_mem_cons_iff, hfirst,
      Except.ok.injEq]

/-- Lines that all say something say it in order. -/
theorem readAll_map {α : Type} {line : α → Option String} {rule : α → RuleLine} {xs : List α}
    (h : ∀ x ∈ xs, read? (line x) = .ok (some (rule x))) :
    readAll (xs.map line) = .ok (xs.map rule) := by
  induction xs with
  | nil => rfl
  | cons x xs ih =>
    rw [List.map_cons, readAll_cons_eq_ok_iff]
    exact ⟨_, _, h x List.mem_cons_self, ih fun y hy => h y (List.mem_cons_of_mem x hy), rfl⟩

theorem wellFormed_of_mem (h : readAll lines = .ok rules) {r : RuleLine} (hr : r ∈ rules) :
    r.WellFormed := by
  obtain ⟨line, -, hline⟩ := (mem_readAll h).mp hr
  exact wellFormed_of_read? hline

end RuleLine

namespace Grammar

/-! ## The meaning of names -/

variable {isNonterminal : String → Bool} {name word : String}

/-- What a name means, given the names that have alternatives. -/
inductive Means (isNonterminal : String → Bool) (name : String) : Symbol → Prop
  | nonterminal (h : isNonterminal name = true) : Means isNonterminal name (.nonterminal name)
  | identifier (h : isNonterminal name = false) (hname : name = Symbol.identifierMark) :
      Means isNonterminal name .identifier
  | endOfInput (h : isNonterminal name = false) (hname : isEndSpelling name = true) :
      Means isNonterminal name .endOfInput
  | terminal (h : isNonterminal name = false) (hidentifier : name ≠ Symbol.identifierMark)
      (hend : isEndSpelling name = false) : Means isNonterminal name (.terminal name)

theorem means_symbolOf (isNonterminal : String → Bool) (name : String) :
    Means isNonterminal name (symbolOf isNonterminal name) := by
  unfold symbolOf
  cases h : isNonterminal name with
  | true => exact .nonterminal h
  | false =>
    rw [if_neg Bool.false_ne_true]
    split
    · exact .identifier h ‹_›
    · cases hend : isEndSpelling name with
      | true => exact .endOfInput h hend
      | false => exact .terminal h ‹_› hend

/-- The reserved words are the names that are left over. -/
theorem symbolOf_eq_terminal_iff : symbolOf isNonterminal name = .terminal word ↔
    name = word ∧ isNonterminal word = false ∧ word ≠ Symbol.identifierMark ∧
      isEndSpelling word = false := by
  constructor
  · intro h
    have hmeans := means_symbolOf isNonterminal name
    rw [h] at hmeans
    cases hmeans with
    | terminal hn hidentifier hend => exact ⟨rfl, hn, hidentifier, hend⟩
  · rintro ⟨rfl, hn, hidentifier, hend⟩
    unfold symbolOf
    simp [hn, hidentifier, hend]

theorem Means.kind_ne_empty {s : Symbol} (h : Means isNonterminal name s) : s.kind ≠ .empty := by
  intro hkind
  cases h <;> cases hkind

theorem Means.isNonterminal_name {s : Symbol} (h : Means isNonterminal name s)
    (hs : s.isNonterminal = true) : isNonterminal s.name = true := by
  cases h with
  | nonterminal h => exact h
  | identifier | endOfInput | terminal => cases hs

/-! ## Grammars of names -/

/-- The alternatives of every left-hand side, as names. -/
def nameRules (rules : List RuleLine) : OrderedMap String (List (List String)) :=
  .gather (rules.map fun r => (r.lhs, r.alternatives))

/-- The grammar of some named alternatives. -/
def ofNames (start : String) (names : OrderedMap String (List (List String)))
    (tokens : Option (List String)) : Grammar :=
  build start (names.mapValues fun _ alts => alts.map (·.map (symbolOf names.contains)))
    (match tokens with
      | some words => .ofList words
      | none => inferredWords names)

theorem ofLines_eq_ok_iff {start : String} {lines : List (Option String)}
    {tokens : Option (List String)} {g : Grammar} : ofLines start lines tokens = .ok g ↔
      ∃ rules, RuleLine.readAll lines = .ok rules ∧ ofNames start (nameRules rules) tokens = g := by
  have hread : ofLines start lines tokens = (RuleLine.readAll lines).map fun rules =>
      ofNames start (nameRules rules) tokens := rfl
  rw [hread]
  cases RuleLine.readAll lines <;> simp [Except.map]

theorem mem_keys_nameRules {rules : List RuleLine} :
    name ∈ (nameRules rules).keys ↔ ∃ r ∈ rules, r.lhs = name := by
  unfold nameRules
  rw [OrderedMap.mem_keys_gather]
  simp

/-- What is gathered from well-formed lines is well formed. -/
theorem wellFormed_nameRules {rules : List RuleLine} (h : ∀ r ∈ rules, r.WellFormed)
    {alts : List (List String)} (halts : (nameRules rules).find? name = some alts) :
    RuleLine.WellFormed ⟨name, alts⟩ := by
  have hgathered : alts = (rules.filter (·.lhs = name)).flatMap RuleLine.alternatives := by
    have hfind := OrderedMap.find?_gather name (rules.map fun r => (r.lhs, r.alternatives))
    unfold nameRules at halts
    rw [halts, Option.getD_some, List.filter_map, List.flatMap_map] at hfind
    exact hfind
  obtain ⟨r, hr, rfl⟩ := mem_keys_nameRules.mp (OrderedMap.mem_keys.mpr ⟨alts, halts⟩)
  refine ⟨(h r hr).lhs, fun hnil => ?_, fun alt halt => ?_⟩
  · have hmem : r ∈ rules.filter (·.lhs = r.lhs) := List.mem_filter.mpr ⟨hr, by simp⟩
    rw [hgathered] at hnil
    exact (h r hr).alternatives_ne_nil (List.flatMap_eq_nil_iff.mp hnil r hmem)
  · rw [hgathered] at halt
    obtain ⟨r', hr', halt⟩ := List.mem_flatMap.mp halt
    exact (h r' (List.mem_filter.mp hr').1).names alt halt

variable {start : String} {names : OrderedMap String (List (List String))}
  {tokens : Option (List String)} {rhs : List Symbol}

theorem nonterminals_ofNames : (ofNames start names tokens).nonterminals = names.keys :=
  OrderedMap.keys_mapValues _ names

theorem find?_ofNames : (ofNames start names tokens).rules.find? name =
    (names.find? name).map fun alts => alts.map (·.map (symbolOf names.contains)) :=
  OrderedMap.find?_mapValues _ names name

theorem hasAlternative_ofNames : (ofNames start names tokens).HasAlternative name rhs ↔
    ∃ alts, names.find? name = some alts ∧ ∃ alt ∈ alts,
      alt.map (symbolOf names.contains) = rhs := by
  unfold HasAlternative
  simp [find?_ofNames]

theorem exists_hasAlternative_ofNames
    (hne : ∀ name alts, names.find? name = some alts → alts ≠ []) (name : String)
    (hname : name ∈ (ofNames start names tokens).nonterminals) :
    ∃ rhs, (ofNames start names tokens).HasAlternative name rhs := by
  rw [nonterminals_ofNames] at hname
  obtain ⟨alts, halts⟩ := OrderedMap.mem_keys.mp hname
  obtain ⟨alt, halt⟩ := List.exists_mem_of_ne_nil alts (hne name alts halts)
  exact ⟨_, hasAlternative_ofNames.mpr ⟨alts, halts, alt, halt, rfl⟩⟩

/-- Every symbol of an alternative is the meaning of a name in it. -/
theorem exists_means {p : Production} (hp : p ∈ (ofNames start names tokens).productions)
    {s : Symbol} (hs : s ∈ p.rhs) : ∃ alts, names.find? p.lhs = some alts ∧
      ∃ alt ∈ alts, ∃ name ∈ alt, Means names.contains name s := by
  obtain ⟨alts, halts, alt, halt, hrhs⟩ := hasAlternative_ofNames.mp (mem_productions.mp hp)
  rw [← hrhs] at hs
  obtain ⟨name, hname, rfl⟩ := List.mem_map.mp hs
  exact ⟨alts, halts, alt, halt, name, hname, means_symbolOf names.contains name⟩

theorem emptyFree_ofNames : (ofNames start names tokens).EmptyFree := by
  intro p hp s hs
  obtain ⟨-, -, -, -, name, -, hmeans⟩ := exists_means hp hs
  exact hmeans.kind_ne_empty

theorem namesDeclared_ofNames : (ofNames start names tokens).NamesDeclared := by
  intro p hp s hs hkind
  obtain ⟨-, -, -, -, name, -, hmeans⟩ := exists_means hp hs
  refine OrderedMap.contains_iff.mpr ?_
  show s.name ∈ (ofNames start names tokens).nonterminals
  rw [nonterminals_ofNames]
  exact OrderedMap.contains_iff.mp (hmeans.isNonterminal_name hkind)

/-- Listed reserved words are those of the list that are no marks. -/
theorem mem_vocabulary_ofNames_some {words : List String} :
    word ∈ (ofNames start names (some words)).vocabulary ↔
      word ∈ words ∧ word ≠ Symbol.identifierMark ∧ word ≠ Symbol.endMark := by
  unfold ofNames
  rw [mem_vocabulary_build, SortedSet.mem_ofList]

/-! ## Inferred reserved words -/

theorem mem_inferredWords : word ∈ inferredWords names ↔
    (∃ name alts, names.find? name = some alts ∧ ∃ alt ∈ alts, word ∈ alt) ∧
      names.contains word = false ∧ word ≠ Symbol.identifierMark ∧ isEndSpelling word = false := by
  have hvalue (alts : List (List String)) :
      alts ∈ names.values ↔ ∃ name, names.find? name = some alts := by
    simp [OrderedMap.values, OrderedMap.find?_eq_some_iff]
  unfold inferredWords
  simp only [SortedSet.mem_ofList, List.mem_filter, List.mem_flatten, hvalue]
  refine and_congr ⟨?_, ?_⟩ (by simp [and_assoc])
  · rintro ⟨alt, ⟨alts, ⟨name, halts⟩, halt⟩, hword⟩
    exact ⟨name, alts, halts, alt, halt, hword⟩
  · rintro ⟨name, alts, halts, alt, halt, hword⟩
    exact ⟨alt, ⟨alts, ⟨name, halts⟩, halt⟩, hword⟩

theorem ne_of_isEndSpelling (h : isEndSpelling word = false) :
    word ≠ "$" ∧ word ≠ Symbol.endMark := by
  simpa [isEndSpelling] using h

/-- The marks are not inferred, so that none has to be taken away. -/
theorem vocabulary_ofNames_none : (ofNames start names none).vocabulary = inferredWords names := by
  refine SortedSet.ext fun w => ?_
  unfold ofNames
  rw [mem_vocabulary_build, and_iff_left_iff_imp]
  intro hw
  obtain ⟨-, -, hidentifier, hend⟩ := mem_inferredWords.mp hw
  exact ⟨hidentifier, (ne_of_isEndSpelling hend).2⟩

/-- **The inferred reserved words are the terminals in use.** -/
theorem mem_vocabulary_iff : word ∈ (ofNames start names none).vocabulary ↔
    ∃ p ∈ (ofNames start names none).productions, .terminal word ∈ p.rhs := by
  rw [vocabulary_ofNames_none, mem_inferredWords]
  constructor
  · rintro ⟨⟨name, alts, halts, alt, halt, hword⟩, hleft⟩
    refine ⟨⟨name, alt.map (symbolOf names.contains)⟩, mem_productions.mpr ?_, ?_⟩
    · exact hasAlternative_ofNames.mpr ⟨alts, halts, alt, halt, rfl⟩
    · exact List.mem_map.mpr ⟨word, hword, symbolOf_eq_terminal_iff.mpr ⟨rfl, hleft⟩⟩
  · rintro ⟨p, hp, hword⟩
    obtain ⟨alts, halts, alt, halt, hrhs⟩ := hasAlternative_ofNames.mp (mem_productions.mp hp)
    rw [← hrhs] at hword
    obtain ⟨name, hname, heq⟩ := List.mem_map.mp hword
    obtain ⟨rfl, hleft⟩ := symbolOf_eq_terminal_iff.mp heq
    exact ⟨⟨p.lhs, alts, halts, alt, halt, hname⟩, hleft⟩

/-- The alternatives use nothing that is not declared, and the reserved words are those in use. -/
structure SelfContained (g : Grammar) : Prop where
  mem_vocabulary : ∀ word, word ∈ g.vocabulary ↔ ∃ p ∈ g.productions, .terminal word ∈ p.rhs
  disjoint : ∀ word ∈ g.vocabulary, word ∉ g.nonterminals
  not_mark : ∀ word ∈ g.vocabulary,
    word ≠ Symbol.identifierMark ∧ word ≠ Symbol.endMark ∧ word ≠ "$"
  emptyFree : g.EmptyFree
  alternatives : ∀ name ∈ g.nonterminals, ∃ rhs, g.HasAlternative name rhs
  namesDeclared : g.NamesDeclared

theorem selfContained_ofNames (hne : ∀ name alts, names.find? name = some alts → alts ≠ []) :
    (ofNames start names none).SelfContained where
  mem_vocabulary word := mem_vocabulary_iff
  disjoint word hword := by
    rw [vocabulary_ofNames_none] at hword
    obtain ⟨-, hn, -⟩ := mem_inferredWords.mp hword
    rw [nonterminals_ofNames, ← OrderedMap.contains_iff, hn]
    exact Bool.false_ne_true
  not_mark word hword := by
    rw [vocabulary_ofNames_none] at hword
    obtain ⟨-, -, hidentifier, hend⟩ := mem_inferredWords.mp hword
    exact ⟨hidentifier, (ne_of_isEndSpelling hend).symm⟩
  emptyFree := emptyFree_ofNames
  alternatives := exists_hasAlternative_ofNames hne
  namesDeclared := namesDeclared_ofNames

namespace SelfContained

variable {g : Grammar}

theorem declared (h : g.SelfContained) (hstart : g.start ∈ g.nonterminals) : g.Declared := by
  refine ⟨hstart, fun p hp s hs => ?_⟩
  obtain ⟨kind, name⟩ := s
  cases kind with
  | terminal => exact decide_eq_true ((h.mem_vocabulary name).mpr ⟨p, hp, hs⟩)
  | nonterminal => exact h.namesDeclared p hp _ hs rfl
  | identifier | endOfInput => rfl
  | empty => exact absurd rfl (h.emptyFree p hp _ hs)

/-- Only the start symbol can be undeclared. -/
theorem checkDeclared_eq (h : g.SelfContained) : g.checkDeclared =
    if g.start ∈ g.nonterminals then .ok () else .error (.undeclaredSymbol none g.start) := by
  split
  · exact checkDeclared_eq_ok_iff.mpr (h.declared ‹_›)
  · unfold checkDeclared
    rw [if_neg (mt OrderedMap.contains_iff.mp ‹_›)]

/-- Besides, only a nonterminal that does not terminate is reported. -/
theorem exists_of_validate_eq_error (h : g.SelfContained) (hstart : g.start ∈ g.nonterminals)
    {f : Failure} (hf : g.validate = .error f) :
    ∃ name ∈ g.nonterminals, f = .grammar (.nonTerminating name) := by
  obtain ⟨e, he⟩ : ∃ e, g.validate = .error (.grammar e) := by
    refine (validate_ordinary g).resolve_left ?_
    rintro ⟨flags, hflags⟩
    rw [hf] at hflags
    cases hflags
  rw [hf] at he
  cases he
  have hreason : g.Rejected e := validate_eq_error_iff.mp hf
  cases hreason with
  | start hn => exact absurd hstart hn
  | @symbol before after p left right s _ hps _ hrhs _ hs =>
    have hp : p ∈ g.productions := hps ▸ List.mem_append_right before List.mem_cons_self
    have hmem : s ∈ p.rhs := hrhs ▸ List.mem_append_right left List.mem_cons_self
    rw [(h.declared hstart).symbols p hp s hmem] at hs
    cases hs
  | @flag before after name flags _ _ hnames _ _ =>
    exact ⟨name, hnames ▸ List.mem_append_right before List.mem_cons_self, rfl⟩

/-- Besides, a grammar fails exactly if leading symbols lead back. -/
theorem exists_validate_eq_error_iff (h : g.SelfContained) (hstart : g.start ∈ g.nonterminals) :
    (∃ f, g.validate = .error f) ↔ ∃ name, Relation.TransGen g.Leads name name := by
  have hok : (∃ flags, g.validate = .ok flags) ↔ ∀ name, ¬ Relation.TransGen g.Leads name name := by
    rw [validate_isOk_iff, forall_productive_iff h.namesDeclared]
    exact ⟨fun hg => hg.2.2, fun hg => ⟨h.declared hstart, h.alternatives, hg⟩⟩
  rw [← not_iff_not, not_exists, not_exists, ← hok]
  cases g.validate <;> simp

end SelfContained

variable {g : Grammar} {lines : List (Option String)}

/-- **A grammar with inferred reserved words is self-contained.** Its nonterminals are the left-hand
sides. Its start symbol is the only symbol that can be undeclared, which it is iff it is no
left-hand side. All that can be wrong with the grammar otherwise is a nonterminal that does not
terminate, and that is so iff leading symbols lead back somewhere. -/
theorem inference_exact (h : ofLines start lines none = .ok g) :
    g.start = start ∧ g.SelfContained ∧
    (∀ name, name ∈ g.nonterminals ↔
      ∃ line ∈ lines, ∃ r, RuleLine.read? line = .ok (some r) ∧ r.lhs = name) ∧
    (g.checkDeclared =
      if start ∈ g.nonterminals then .ok () else .error (.undeclaredSymbol none start)) ∧
    (start ∉ g.nonterminals → g.validate = .error (.grammar (.undeclaredSymbol none start))) ∧
    (start ∈ g.nonterminals →
      (∀ f, g.validate = .error f → ∃ name ∈ g.nonterminals, f = .grammar (.nonTerminating name)) ∧
      ((∃ f, g.validate = .error f) ↔ ∃ name, Relation.TransGen g.Leads name name)) := by
  obtain ⟨rules, hrules, rfl⟩ := ofLines_eq_ok_iff.mp h
  have hwf : ∀ r ∈ rules, r.WellFormed := fun r => RuleLine.wellFormed_of_mem hrules
  have hg : (ofNames start (nameRules rules) none).SelfContained :=
    selfContained_ofNames fun name alts halts =>
      (wellFormed_nameRules hwf halts).alternatives_ne_nil
  refine ⟨rfl, hg, fun name => ?_, hg.checkDeclared_eq, fun hstart => ?_, fun hstart => ?_⟩
  · rw [nonterminals_ofNames, mem_keys_nameRules]
    simp only [RuleLine.mem_readAll hrules]
    constructor
    · rintro ⟨r, ⟨line, hline, hr⟩, hname⟩
      exact ⟨line, hline, r, hr, hname⟩
    · rintro ⟨line, hline, r, hr, hname⟩
      exact ⟨r, ⟨line, hline, hr⟩, hname⟩
  · exact validate_eq_error_iff.mpr (.start hstart)
  · exact ⟨fun f => hg.exists_of_validate_eq_error hstart, hg.exists_validate_eq_error_iff hstart⟩

/-- The mark of the end is a left-hand side, an arrow is a reserved word, and `A` and `END_OF_FILE`
lead to each other. -/
def ringLines : List (Option String) :=
  [some "S -> x A $ | eps", none, some "// S -> y", some "END_OF_FILE -> A NAME | -> x",
    some " A->END_OF_FILE +", some "S -> -> Epsilon $"]

/-- The grammar of the lines. -/
def lineRing : Grammar :=
  .build "S" (.ofList [
    ("S", [[.terminal "x", .nonterminal "A", .endOfInput], [], [.terminal "->", .endOfInput]]),
    ("END_OF_FILE", [[.nonterminal "A", .identifier], [.terminal "->", .terminal "x"]]),
    ("A", [[.nonterminal "END_OF_FILE", .terminal "+"]])]) (.ofList ["x", "+", "->"])

/-- The declarations of this grammar are in order, so that it is refused for its cycle. -/
theorem lineRing_refused : ofLines "S" ringLines none = .ok lineRing ∧
    (∀ word ∈ lineRing.vocabulary, word ∉ lineRing.nonterminals) ∧
    lineRing.checkDeclared = .ok () ∧
    ∃ name ∈ lineRing.nonterminals,
      lineRing.validate = .error (.grammar (.nonTerminating name)) := by
  have hread : ofLines "S" ringLines none = .ok lineRing := by decide +kernel
  have hstart : "S" ∈ lineRing.nonterminals := by decide +kernel
  obtain ⟨-, hself, -, hdeclared, -, hvalidate⟩ := inference_exact hread
  rw [if_pos hstart] at hdeclared
  have hinner : lineRing.Leads "A" "END_OF_FILE" :=
    ⟨[.terminal "+"], (mem_productions (p := ⟨"A", _⟩)).mp (by decide +kernel)⟩
  have houter : lineRing.Leads "END_OF_FILE" "A" :=
    ⟨[.identifier], (mem_productions (p := ⟨"END_OF_FILE", _⟩)).mp (by decide +kernel)⟩
  obtain ⟨honly, hcycle⟩ := hvalidate hstart
  obtain ⟨f, hf⟩ := hcycle.mpr ⟨"A", .tail (.single hinner) houter⟩
  obtain ⟨name, hname, rfl⟩ := honly f hf
  exact ⟨hread, hself.disjoint, hdeclared, name, hname, hf⟩

end Grammar

end Predictive
