import Predictive.Proofs.Table

/-!
# When a table exists, and which conflict is reported

A table is filled cell by cell, so a conflict shows at the first cell that is taken twice. What that
says about the alternatives is stated by their selectors alone:

* `ParsingTable.build_isOk_iff`: a table exists iff no token selects two alternatives of one
  nonterminal.
* `ParsingTable.FirstClash`: the report of a failure, in the order of the nonterminals, of the
  alternatives and of the tokens (`ParsingTable.firstClash_of_build`).
* `ParsingTable.mem_keys_row`: the tokens of a row are FIRST of its nonterminal and, if that can
  vanish, FOLLOW of it.
* `table_exact`: all of this for a grammar with its own FIRST and FOLLOW sets.
-/

namespace Predictive

namespace ParsingTable

/-- The token is among the selectors of an alternative, which is counted from the first one. -/
def SelectedOf (first : FirstSets) (follow : FollowSets) (name : String)
    (alts : List (List Symbol)) (index : Nat) (a : Symbol) : Prop :=
  ∃ rhs tokens, alts[index]? = some rhs ∧ selectors first follow ⟨name, rhs⟩ = .ok tokens ∧
    a ∈ tokens

/-- The token is among the selectors of an alternative of the nonterminal. -/
def Selected (g : Grammar) (first : FirstSets) (follow : FollowSets) (name : String) (index : Nat)
    (a : Symbol) : Prop :=
  ∃ alts, g.rules.find? name = some alts ∧ SelectedOf first follow name alts index a

/-- No token is among the selectors of two alternatives of the nonterminal. -/
def SelectorsDisjoint (g : Grammar) (first : FirstSets) (follow : FollowSets) (name : String) :
    Prop :=
  ∀ i j a, Selected g first follow name i a → Selected g first follow name j a → i = j

/-- The first clash among alternatives, given which tokens select each of them: the incoming
alternative is the first that shares a token with an earlier one, the token is the least that it
shares, and the existing alternative is the only earlier one which that token selects. -/
structure Clash (selected : Nat → Symbol → Prop) (token : Symbol) (existing incoming : Nat) :
    Prop where
  existing_lt : existing < incoming
  selected_existing : selected existing token
  selected_incoming : selected incoming token
  incoming_least : ∀ j < incoming, ∀ i < j, ∀ a, selected i a → ¬ selected j a
  token_least : ∀ i < incoming, ∀ a, selected i a → selected incoming a →
    a = token ∨ compare token a = .lt
  existing_unique : ∀ i < incoming, selected i token → i = existing

/-- The first clash of a grammar: that of the first nonterminal, in the order of declaration, with
two alternatives that share a token. -/
structure FirstClash (g : Grammar) (first : FirstSets) (follow : FollowSets) (name : String)
    (token : Symbol) (existing incoming : Nat) : Prop
    extends Clash (Selected g first follow name) token existing incoming where
  declared_first : ∃ before after, g.nonterminals = before ++ name :: after ∧
    ∀ earlier ∈ before, SelectorsDisjoint g first follow earlier

variable {g : Grammar} {first : FirstSets} {follow : FollowSets} {name : String}

theorem SelectedOf.lt_length {alts : List (List Symbol)} {index : Nat} {a : Symbol}
    (h : SelectedOf first follow name alts index a) : index < alts.length := by
  obtain ⟨rhs, tokens, hk, -⟩ := h
  exact (List.getElem?_eq_some_iff.mp hk).1

/-- Alternatives that come later do not matter. -/
theorem selectedOf_append {alts more : List (List Symbol)} {index : Nat} {a : Symbol}
    (h : index < alts.length) :
    SelectedOf first follow name (alts ++ more) index a ↔
      SelectedOf first follow name alts index a := by
  unfold SelectedOf
  rw [List.getElem?_append_left h]

/-- The alternatives of a nonterminal are those that the grammar lists. -/
theorem selected_eq {alts : List (List Symbol)} (h : g.rules.find? name = some alts) :
    Selected g first follow name = SelectedOf first follow name alts := by
  funext index a
  simp only [Selected, h, Option.some.injEq, exists_eq_left']

/-! ## Filling one row -/

/-- A row that was empty holds just the indexes of the alternatives that the tokens select. -/
theorem find?_of_fillRow {alts : List (List Symbol)} {row : TableRow}
    (h : fillRow first follow name 0 alts ∅ = .ok row) (a : Symbol) (i : Int) :
    row.find? a = some i ↔ ∃ k : Nat, i = k ∧ SelectedOf first follow name alts k a := by
  rw [fillRow_eq_ok h]
  simp only [OrderedMap.find?_empty, reduceCtorEq, false_or, Nat.zero_add]
  constructor
  · rintro ⟨k, rhs, tokens, hk, htok, ha, hi⟩
    exact ⟨k, hi, rhs, tokens, hk, htok, ha⟩
  · rintro ⟨k, hi, rhs, tokens, hk, htok, ha⟩
    exact ⟨k, rhs, tokens, hk, htok, ha, hi⟩

/-- In a row that could be filled no token selects two alternatives: its cell holds one index. -/
theorem eq_of_fillRow {alts : List (List Symbol)} {row : TableRow}
    (h : fillRow first follow name 0 alts ∅ = .ok row) {i j : Nat} {a : Symbol}
    (hi : SelectedOf first follow name alts i a) (hj : SelectedOf first follow name alts j a) :
    i = j := by
  have hrow := (find?_of_fillRow h a i).mpr ⟨i, rfl, hi⟩
  rw [(find?_of_fillRow h a j).mpr ⟨j, rfl, hj⟩] at hrow
  exact (Int.natCast_inj.mp (Option.some.inj hrow)).symm

/-- Cells are occupied in order, up to the first one that holds another index. -/
theorem occupy_eq_error {index : Nat} {symbols : List Symbol} {row : TableRow} {e : GrammarError}
    (h : occupy name index symbols row = .error e) :
    ∃ before s after existing, symbols = before ++ s :: after ∧
      row.find? s = some existing ∧ existing ≠ index ∧
      (∀ t ∈ before, row.find? t = none ∨ row.find? t = some (index : Int)) ∧
      e = .tableConflict name s.name existing index := by
  induction symbols generalizing row with
  | nil => cases h
  | cons s symbols ih =>
    unfold occupy at h
    split at h
    · rename_i hs
      obtain ⟨before, t, after, existing, rfl, ht, hne, hbefore, he⟩ := ih h
      simp only [OrderedMap.find?_insert] at ht hbefore
      have hts : t ≠ s := by
        rintro rfl
        rw [if_pos rfl] at ht
        exact hne (Option.some.inj ht).symm
      rw [if_neg hts] at ht
      refine ⟨s :: before, t, after, existing, rfl, ht, hne, fun u hu => ?_, he⟩
      by_cases hus : u = s
      · exact .inl (hus ▸ hs)
      · have := hbefore u ((List.mem_cons.mp hu).resolve_left hus)
        rwa [if_neg hus] at this
    · rename_i existing hs
      split at h
      · rename_i hi
        obtain ⟨before, t, after, existing', rfl, ht, hne, hbefore, he⟩ := ih h
        refine ⟨s :: before, t, after, existing', rfl, ht, hne, fun u hu => ?_, he⟩
        rcases List.mem_cons.mp hu with rfl | hu
        · exact .inr (by rw [hs, hi])
        · exact hbefore u hu
      · rename_i hne
        cases h
        exact ⟨[], s, symbols, existing, rfl, hs, hne, fun t ht => absurd ht List.not_mem_nil, rfl⟩

/-- Alternatives are put into a row in order, up to the first one that meets an occupied cell. -/
theorem fillRow_eq_error {index : Nat} {alts : List (List Symbol)} {row : TableRow} {e : Failure}
    (hsel : ∀ rhs ∈ alts, ∃ tokens, selectors first follow ⟨name, rhs⟩ = .ok tokens)
    (h : fillRow first follow name index alts row = .error e) :
    ∃ before rhs after tokens row' e', alts = before ++ rhs :: after ∧
      fillRow first follow name index before row = .ok row' ∧
      selectors first follow ⟨name, rhs⟩ = .ok tokens ∧
      occupy name (index + before.length) tokens.toList row' = .error e' ∧ e = .grammar e' := by
  induction alts generalizing index row with
  | nil => cases h
  | cons rhs alts ih =>
    obtain ⟨tokens, htok⟩ := hsel rhs List.mem_cons_self
    unfold fillRow at h
    simp only [htok] at h
    split at h
    · rename_i e' hocc
      cases h
      exact ⟨[], rhs, alts, tokens, row, e', rfl, rfl, htok, hocc, rfl⟩
    · rename_i row1 hocc
      obtain ⟨before, rhs', after, tokens', row', e', rfl, hfill, htok', hocc', he⟩ :=
        ih (fun rhs' hr => hsel rhs' (List.mem_cons_of_mem rhs hr)) h
      refine ⟨rhs :: before, rhs', after, tokens', row', e', rfl, ?_, htok', ?_, he⟩
      · rw [fillRow, htok]
        simp only [hocc, hfill]
      · rw [List.length_cons, show index + (before.length + 1) = index + 1 + before.length by omega]
        exact hocc'

/-- A row that can not be filled is refused for the first clash among its alternatives. -/
theorem clash_of_fillRow {alts : List (List Symbol)} {e : Failure}
    (hsel : ∀ rhs ∈ alts, ∃ tokens, selectors first follow ⟨name, rhs⟩ = .ok tokens)
    (h : fillRow first follow name 0 alts ∅ = .error e) :
    ∃ (token : Symbol) (existing incoming : Nat),
      e = .grammar (.tableConflict name token.name existing incoming) ∧
        Clash (SelectedOf first follow name alts) token existing incoming := by
  obtain ⟨before, rhs, after, tokens, row, e', rfl, hfill, htok, hocc, rfl⟩ :=
    fillRow_eq_error hsel h
  rw [Nat.zero_add] at hocc
  obtain ⟨less, token, more, i, hlist, hrow, -, hless, rfl⟩ := occupy_eq_error hocc
  obtain ⟨existing, rfl, hexisting⟩ := (find?_of_fillRow hfill token i).mp hrow
  -- The incoming alternative stands behind all those that filled the row.
  have hget : (before ++ rhs :: after)[before.length]? = some rhs := by
    rw [List.getElem?_append_right (Nat.le_refl _), Nat.sub_self]
    rfl
  have incoming_iff (a : Symbol) :
      SelectedOf first follow name (before ++ rhs :: after) before.length a ↔ a ∈ tokens := by
    unfold SelectedOf
    simp only [hget, Option.some.injEq, exists_and_left, exists_eq_left', htok,
      Except.ok.injEq]
  have hmem : token ∈ tokens := by
    rw [SortedSet.mem_def, hlist]
    exact List.mem_append_right _ List.mem_cons_self
  refine ⟨token, existing, before.length, rfl, hexisting.lt_length,
    (selectedOf_append hexisting.lt_length).mpr hexisting, (incoming_iff token).mpr hmem,
    fun j hj i hi a ha hb => ?_, fun i hi a ha hb => ?_, fun i hi ha => ?_⟩
  · rw [selectedOf_append hj] at hb
    rw [selectedOf_append (Nat.lt_trans hi hj)] at ha
    exact absurd (eq_of_fillRow hfill ha hb) (Nat.ne_of_lt hi)
  · rw [selectedOf_append hi] at ha
    have hcell := (find?_of_fillRow hfill a i).mpr ⟨i, rfl, ha⟩
    have hsorted := hlist ▸ tokens.ascending
    rw [incoming_iff, SortedSet.mem_def, hlist] at hb
    rcases List.mem_append.mp hb with hb | hb
    · rcases hless a hb with hnone | hsome
      · rw [hnone] at hcell
        cases hcell
      · rw [hsome] at hcell
        have := Int.natCast_inj.mp (Option.some.inj hcell)
        omega
    · rcases List.mem_cons.mp hb with rfl | hb
      · exact .inl rfl
      · exact .inr ((List.pairwise_cons.mp (List.pairwise_append.mp hsorted).2.1).1 a hb)
  · rw [selectedOf_append hi] at ha
    exact eq_of_fillRow hfill ha hexisting

/-! ## The whole table -/

/-- Every alternative of the grammar has selectors. -/
def HasSelectors (g : Grammar) (first : FirstSets) (follow : FollowSets) : Prop :=
  ∀ p ∈ g.productions, ∃ tokens, selectors first follow p = .ok tokens

theorem hasSelectors_of_compute {maxPasses : Option Int}
    (h : FollowSets.compute g first maxPasses = .ok follow) : HasSelectors g first follow := by
  intro p hp
  have hof := FollowSets.of?_of_compute h (Grammar.mem_productions.mp hp).mem_nonterminals
  obtain ⟨tokens, htok, -⟩ := @exists_selectors first _ _ _ hof p.rhs
  exact ⟨tokens, htok⟩

/-- A cell of a built table holds just the index of the alternative that its token selects. -/
theorem lookup_eq_some_iff {table : ParsingTable} (h : build g first follow = .ok table)
    (a : Symbol) (i : Int) :
    table.lookup name a = some i ↔ ∃ k : Nat, i = k ∧ Selected g first follow name k a := by
  rw [lookup_of_build h]
  constructor
  · rintro ⟨alts, k, rhs, tokens, halts, hk, htok, ha, hi⟩
    exact ⟨k, hi, alts, halts, rhs, tokens, hk, htok, ha⟩
  · rintro ⟨k, hi, alts, halts, rhs, tokens, hk, htok, ha⟩
    exact ⟨alts, k, rhs, tokens, halts, hk, htok, ha, hi⟩

theorem lookup_eq_none_iff {table : ParsingTable} (h : build g first follow = .ok table)
    (a : Symbol) :
    table.lookup name a = none ↔ ∀ k, ¬ Selected g first follow name k a := by
  rw [Option.eq_none_iff_forall_ne_some]
  constructor
  · intro hn k hk
    exact hn k ((lookup_eq_some_iff h a k).mpr ⟨k, rfl, hk⟩)
  · intro hn i hi
    obtain ⟨k, -, hk⟩ := (lookup_eq_some_iff h a i).mp hi
    exact hn k hk

theorem disjoint_of_build {table : ParsingTable} (h : build g first follow = .ok table)
    (name : String) : SelectorsDisjoint g first follow name := by
  intro i j a hi hj
  have hcell := (lookup_eq_some_iff h a i).mpr ⟨i, rfl, hi⟩
  rw [(lookup_eq_some_iff h a j).mpr ⟨j, rfl, hj⟩] at hcell
  exact (Int.natCast_inj.mp (Option.some.inj hcell)).symm

/-- **A table that can not be built is refused for the first clash.** -/
theorem firstClash_of_build (hsel : HasSelectors g first follow) {e : Failure}
    (h : build g first follow = .error e) :
    ∃ (name : String) (token : Symbol) (existing incoming : Nat),
      e = .grammar (.tableConflict name token.name existing incoming) ∧
        FirstClash g first follow name token existing incoming := by
  unfold build at h
  split at h
  · cases h
  rename_i e' htraverse
  cases h
  obtain ⟨before, ⟨name, alts⟩, after, hentries, hbefore, hfill⟩ :=
    OrderedMap.exists_of_traverse_error htraverse
  have find_of_mem {n : String} {as : List (List Symbol)} (hm : (n, as) ∈ g.rules.entries) :
      g.rules.find? n = some as := OrderedMap.find?_eq_some_iff.mpr hm
  have halts : g.rules.find? name = some alts :=
    find_of_mem (hentries ▸ List.mem_append_right _ List.mem_cons_self)
  obtain ⟨token, existing, incoming, rfl, hclash⟩ :=
    clash_of_fillRow (fun rhs hrhs =>
      hsel ⟨name, rhs⟩ (Grammar.mem_productions.mpr ⟨alts, halts, hrhs⟩)) hfill
  rw [← selected_eq halts] at hclash
  refine ⟨name, token, existing, incoming, rfl, hclash, before.map Prod.fst, after.map Prod.fst, ?_,
    fun earlier hearlier => ?_⟩
  · rw [Grammar.nonterminals, OrderedMap.keys, hentries, List.map_append, List.map_cons]
  · obtain ⟨⟨n, as⟩, hm, rfl⟩ := List.mem_map.mp hearlier
    obtain ⟨row, hrow⟩ := hbefore _ hm
    unfold SelectorsDisjoint
    rw [selected_eq (find_of_mem (hentries ▸ List.mem_append_left _ hm))]
    intro i j a hi hj
    exact eq_of_fillRow hrow hi hj

theorem FirstClash.not_disjoint {token : Symbol} {existing incoming : Nat}
    (h : FirstClash g first follow name token existing incoming) :
    ¬ SelectorsDisjoint g first follow name := by
  intro hd
  exact absurd (hd _ _ _ h.selected_existing h.selected_incoming) (Nat.ne_of_lt h.existing_lt)

theorem FirstClash.mem_nonterminals {token : Symbol} {existing incoming : Nat}
    (h : FirstClash g first follow name token existing incoming) : name ∈ g.nonterminals := by
  obtain ⟨before, after, hn, -⟩ := h.declared_first
  rw [hn]
  exact List.mem_append_right _ List.mem_cons_self

/-- **A table exists iff no token selects two alternatives of one nonterminal.** -/
theorem build_isOk_iff (hsel : HasSelectors g first follow) :
    (∃ table, build g first follow = .ok table) ↔
      ∀ name ∈ g.nonterminals, SelectorsDisjoint g first follow name := by
  constructor
  · rintro ⟨table, h⟩ name -
    exact disjoint_of_build h name
  · intro hd
    cases h : build g first follow with
    | ok table => exact ⟨table, rfl⟩
    | error e =>
      obtain ⟨name, token, existing, incoming, -, hclash⟩ := firstClash_of_build hsel h
      exact absurd (hd name hclash.mem_nonterminals) hclash.not_disjoint

/-- **The tokens of a row** are those that can begin its nonterminal and, if that can vanish, those
that follow it. -/
theorem mem_keys_row {table : ParsingTable} (h : build g (.ofGrammar g) follow = .ok table)
    {after : SymbolSet} (hf : follow.of? name = .ok after) (a : Symbol) :
    a ∈ (table.row name).keys ↔
      (a ∈ (FirstSets.ofGrammar g).merged.of name ∧ a ≠ .empty) ∨
        (.empty ∈ (FirstSets.ofGrammar g).merged.of name ∧ a ∈ after) := by
  have first_iff (s : Symbol) : s ∈ (FirstSets.ofGrammar g).merged.of name ↔
      ∃ rhs, g.HasAlternative name rhs ∧ s ∈ (FirstSets.ofGrammar g).ofSequence rhs :=
    First.mem_ofNonterminals_iff
  rw [OrderedMap.mem_keys, first_iff, first_iff]
  constructor
  · rintro ⟨i, hi⟩
    obtain ⟨k, -, alts, halts, rhs, tokens, hk, htok, ha⟩ := (lookup_eq_some_iff h a i).mp hi
    have hrhs : g.HasAlternative name rhs := ⟨alts, halts, List.mem_of_getElem? hk⟩
    obtain ⟨tokens', htok', hmem⟩ := exists_selectors hf rhs
    rw [htok] at htok'
    cases htok'
    rcases (hmem a).mp ha with ⟨ha, hne⟩ | ⟨he, ha⟩
    · exact .inl ⟨⟨rhs, hrhs, ha⟩, hne⟩
    · exact .inr ⟨⟨rhs, hrhs, he⟩, ha⟩
  · intro ha
    obtain ⟨rhs, ⟨alts, halts, hrhs⟩, ha⟩ : ∃ rhs, g.HasAlternative name rhs ∧
        ((a ∈ (FirstSets.ofGrammar g).ofSequence rhs ∧ a ≠ .empty) ∨
          (.empty ∈ (FirstSets.ofGrammar g).ofSequence rhs ∧ a ∈ after)) := by
      rcases ha with ⟨⟨rhs, hrhs, ha⟩, hne⟩ | ⟨⟨rhs, hrhs, he⟩, ha⟩
      · exact ⟨rhs, hrhs, .inl ⟨ha, hne⟩⟩
      · exact ⟨rhs, hrhs, .inr ⟨he, ha⟩⟩
    obtain ⟨tokens, htok, hmem⟩ := exists_selectors hf rhs
    obtain ⟨k, hk⟩ := List.mem_iff_getElem?.mp hrhs
    exact ⟨k, (lookup_eq_some_iff h a k).mpr
      ⟨k, rfl, alts, halts, rhs, tokens, hk, htok, (hmem a).mpr ha⟩⟩

end ParsingTable

/-- **Tables are exact, and so are their conflicts.** Where the alternatives use only declared
nonterminals, every alternative has selectors by the grammar's own FIRST and FOLLOW sets. A table
exists iff the selectors of the alternatives of every nonterminal are pairwise disjoint. Its cells
hold the index of the alternative that the token selects, and are missing where no alternative is
selected; the tokens of a row are FIRST of the nonterminal and, if that can vanish, FOLLOW. If there
is no table, the first clash is reported. -/
theorem table_exact (g : Grammar) (hd : g.NamesDeclared) :
    ∃ follow, FollowSets.compute g (.ofGrammar g) none = .ok follow ∧
      ParsingTable.HasSelectors g (.ofGrammar g) follow ∧
      ((∃ table, ParsingTable.build g (.ofGrammar g) follow = .ok table) ↔
        ∀ name ∈ g.nonterminals,
          ParsingTable.SelectorsDisjoint g (.ofGrammar g) follow name) ∧
      (∀ table, ParsingTable.build g (.ofGrammar g) follow = .ok table →
        (∀ name a i, table.lookup name a = some i ↔
          ∃ k : Nat, i = k ∧ ParsingTable.Selected g (.ofGrammar g) follow name k a) ∧
        (∀ name a, table.lookup name a = none ↔
          ∀ k, ¬ ParsingTable.Selected g (.ofGrammar g) follow name k a) ∧
        ∀ name ∈ g.nonterminals, ∀ a, a ∈ (table.row name).keys ↔
          (a ∈ (FirstSets.ofGrammar g).merged.of name ∧ a ≠ .empty) ∨
            (.empty ∈ (FirstSets.ofGrammar g).merged.of name ∧ a ∈ follow.sets.of name)) ∧
      ∀ e, ParsingTable.build g (.ofGrammar g) follow = .error e →
        ∃ (name : String) (token : Symbol) (existing incoming : Nat),
          e = .grammar (.tableConflict name token.name existing incoming) ∧
            ParsingTable.FirstClash g (.ofGrammar g) follow name token existing incoming := by
  obtain ⟨follow, h⟩ := FollowSets.exists_compute hd (.ofGrammar g)
  have hsel := ParsingTable.hasSelectors_of_compute h
  refine ⟨follow, h, hsel, ParsingTable.build_isOk_iff hsel, fun table ht => ⟨?_, ?_, ?_⟩,
    fun e he => ParsingTable.firstClash_of_build hsel he⟩
  · exact fun name a i => ParsingTable.lookup_eq_some_iff ht a i
  · exact fun name a => ParsingTable.lookup_eq_none_iff ht a
  · exact fun name hn a => ParsingTable.mem_keys_row ht (FollowSets.of?_of_compute h hn) a

/-- The second alternative of `A` vanishes in front of `a` and `c`, and the last one begins with
both. -/
def Grammar.dangling : Grammar :=
  .build "S" (.ofList [
    ("S", [[.nonterminal "A", .nonterminal "T", .endOfInput]]),
    ("T", [[.terminal "c"], [.terminal "a"]]),
    ("A", [[.terminal "b"], [], [.identifier, .terminal "b"], [.nonterminal "T"]])])
    (.ofList ["a", "b", "c"])

/-- Of the two tokens in the clash the lesser one is reported. -/
theorem dangling_clash :
    Grammar.dangling.NamesDeclared ∧
    ∃ follow token, FollowSets.compute .dangling (.ofGrammar .dangling) none = .ok follow ∧
      ParsingTable.build .dangling (.ofGrammar .dangling) follow =
        .error (.grammar (.tableConflict "A" "a" 1 3)) ∧
      token.name = "a" ∧
      ParsingTable.FirstClash .dangling (.ofGrammar .dangling) follow "A" token 1 3 := by
  have hd : Grammar.dangling.NamesDeclared := by unfold Grammar.NamesDeclared; decide +kernel
  obtain ⟨follow, h, -, -, -, hclash⟩ := table_exact .dangling hd
  have hcomputed : (FollowSets.compute .dangling (.ofGrammar .dangling) none).bind
      (ParsingTable.build .dangling (.ofGrammar .dangling)) =
        .error (.grammar (.tableConflict "A" "a" 1 3)) := by decide +kernel
  rw [h] at hcomputed
  have hbuild : ParsingTable.build .dangling (.ofGrammar .dangling) follow =
      .error (.grammar (.tableConflict "A" "a" 1 3)) := hcomputed
  obtain ⟨name, token, existing, incoming, he, hfirst⟩ := hclash _ hbuild
  obtain ⟨rfl, hname, hexisting, hincoming⟩ : "A" = name ∧ "a" = token.name ∧
      (1 : Int) = existing ∧ (3 : Int) = incoming := by simpa using he
  obtain rfl : existing = 1 := by omega
  obtain rfl : incoming = 3 := by omega
  exact ⟨hd, follow, token, h, hbuild, hname.symm, hfirst⟩

end Predictive
