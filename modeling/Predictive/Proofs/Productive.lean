import Predictive.Proofs.Validation

/-!
# Which grammars pass validation

Validation computes flags, sweep by sweep, in the order of declaration. What they come to is said
without an order: a nonterminal is productive if it has alternatives, and none of them begins with a
nonterminal that is not (`Grammar.Productive`).

* `ProductiveFlags.sweep_induction`, `settle_induction`: what every visit keeps is kept.
* `Productive.not_leads_back`: leading symbols alone never lead back.
* `find?_productive_iff`: the flags that come out are those of the productive nonterminals.
* `validate_isOk_iff`, `code_of_validate`: a grammar passes iff everything is declared and
  productive, and else the first of these that fails is reported.
-/

namespace Predictive.Grammar

/-- A nonterminal is productive if it has alternatives, and every one that begins with a nonterminal
begins with a productive one. -/
inductive Productive (g : Grammar) : String → Prop
  | intro {name : String} {alts : List (List Symbol)} (halts : g.rules.find? name = some alts)
      (hne : alts ≠ [])
      (hleaders : ∀ leader rest, .nonterminal leader :: rest ∈ alts → Productive g leader) :
      Productive g name

/-- Some alternative of the outer nonterminal begins with the inner one. -/
def Leads (g : Grammar) (outer inner : String) : Prop :=
  ∃ rest, g.HasAlternative outer (.nonterminal inner :: rest)

/-- The start symbol and all symbols in use are declared. -/
structure Declared (g : Grammar) : Prop where
  start : g.start ∈ g.nonterminals
  symbols : ∀ p ∈ g.productions, ∀ s ∈ p.rhs, g.isDeclared s = true

namespace ProductiveFlags

variable {flags flags' : ProductiveFlags} {rules : List (String × List (List Symbol))}

/-- What every visit of a sweep keeps is kept by the sweep. -/
theorem sweep_induction {P : ProductiveFlags → Prop}
    (hstep : ∀ {flags next name alts}, (name, alts) ∈ rules → P flags →
      flags.Visited name alts next → P next)
    (hc : Closed flags.keys rules) (hs : sweep rules flags = .ok flags') (h : P flags) :
    P flags' := by
  induction rules generalizing flags with
  | nil =>
    cases hs
    exact h
  | cons e rules ih =>
    obtain ⟨name, alts⟩ := e
    obtain ⟨hname, hleaders⟩ := hc name alts List.mem_cons_self
    obtain ⟨next, hvisit, hvisited⟩ := exists_visited hleaders name
    unfold sweep at hs
    rw [hvisit] at hs
    have hnext : Closed next.keys rules := fun name alts hm =>
      (hvisited.progress hname).1 ▸ hc name alts (List.mem_cons_of_mem _ hm)
    exact ih (fun hm => hstep (List.mem_cons_of_mem _ hm)) hnext hs
      (hstep List.mem_cons_self h hvisited)

/-- What every visit keeps is kept by all the sweeps. -/
theorem settle_induction {P : ProductiveFlags → Prop}
    (hstep : ∀ {flags next name alts}, (name, alts) ∈ rules → P flags →
      flags.Visited name alts next → P next)
    {bound : Nat} (hc : Closed flags.keys rules) (hs : settle rules bound flags = .ok flags')
    (h : P flags) : P flags' := by
  induction bound generalizing flags with
  | zero =>
    cases hs
    exact h
  | succ bound ih =>
    obtain ⟨next, hsweep, hkeys, -⟩ := exists_sweep hc
    unfold settle at hs
    simp only [hsweep] at hs
    split at hs
    · cases hs
      exact h
    · exact ih (hkeys ▸ hc) hs (sweep_induction hstep hc hsweep h)

/-- Where a sweep changes nothing, every name is settled, or has no alternatives, or one of them
begins with a name that is not settled. -/
theorem kept_of_sweep (hc : Closed flags.keys rules) (hs : sweep rules flags = .ok flags)
    {name : String} {alts : List (List Symbol)} (hm : (name, alts) ∈ rules) :
    flags.find? name = some true ∨ alts = [] ∨ ∃ rhs ∈ alts, ¬ flags.Ready rhs := by
  induction rules with
  | nil => exact absurd hm List.not_mem_nil
  | cons e rules ih =>
    obtain ⟨name', alts'⟩ := e
    obtain ⟨hname, hleaders⟩ := hc name' alts' List.mem_cons_self
    obtain ⟨next, hvisit, hvisited⟩ := exists_visited hleaders name'
    have hprogress := hvisited.progress hname
    have hnext : Closed next.keys rules := fun name alts hm =>
      hprogress.1 ▸ hc name alts (List.mem_cons_of_mem _ hm)
    obtain ⟨last, hsweep, hlast⟩ := exists_sweep hnext
    unfold sweep at hs
    simp only [hvisit, hsweep, Except.ok.injEq] at hs
    subst hs
    -- What a visit has settled no later one takes back, so that this one has settled nothing.
    have hsame : next = last := by
      rcases hprogress.2 with heq | hlt
      · exact heq
      · rcases hlast.2 with heq | hlt'
        · exact heq.symm
        · omega
    rcases List.mem_cons.mp hm with heq | hm
    · cases heq
      cases hvisited with
      | kept h => exact h
      | settled =>
        left
        rw [← hsame, OrderedMap.find?_insert, if_pos rfl]
    · subst hsame
      exact ih hnext hsweep hm

end ProductiveFlags

variable {g : Grammar} {flags : ProductiveFlags}

/-! ## Leading symbols -/

/-- **Leading symbols never lead back to a productive nonterminal.** -/
theorem Productive.not_leads_back {name : String} (h : g.Productive name) :
    ¬ Relation.TransGen g.Leads name name := by
  induction h with
  | @intro name alts halts _ _ ih =>
    intro hback
    obtain ⟨leader, ⟨rest, alts', halts', hrest⟩, hlater⟩ :=
      Relation.TransGen.head'_iff.mp hback
    rw [halts] at halts'
    cases halts'
    -- The circle goes through the leader as well, which is productive by a shorter argument.
    exact ih leader rest hrest (Relation.TransGen.tail' hlater ⟨rest, alts, halts, hrest⟩)

/-! ## The flags that come out -/

/-- **The flags that come out are those of the productive nonterminals.** -/
theorem find?_productive_iff (hd : g.NamesDeclared) (h : g.productive = .ok flags)
    (name : String) : flags.find? name = some true ↔ g.Productive name := by
  have hkeys : (g.rules.withKeysOf false).keys = g.nonterminals := OrderedMap.keys_withKeysOf _ _
  constructor
  · refine ProductiveFlags.settle_induction
      (P := fun flags => ∀ name, flags.find? name = some true → g.Productive name)
      (fun {flags next name alts} hm hp hv => ?_) (hkeys ▸ closed_rules hd) h (fun name hf => ?_)
      name
    · cases hv with
      | kept => exact hp
      | settled hname hne hready =>
        intro other hf
        rw [OrderedMap.find?_insert] at hf
        split at hf
        · rename_i heq
          subst heq
          exact .intro (OrderedMap.find?_eq_some_iff.mpr hm) hne
            fun leader rest hrhs => hp leader (hready _ hrhs leader rest rfl)
        · exact hp other hf
    · rw [OrderedMap.find?_withKeysOf] at hf
      cases hr : g.rules.find? name <;> simp [hr] at hf
  · intro hp
    obtain ⟨flags', hflags, hlast, hfixed⟩ := exists_productive hd
    rw [h] at hflags
    cases hflags
    have hc : ProductiveFlags.Closed flags.keys g.rules.entries := hlast ▸ closed_rules hd
    induction hp with
    | @intro name alts halts hne _ ih =>
      rcases ProductiveFlags.kept_of_sweep hc hfixed (OrderedMap.find?_eq_some_iff.mp halts) with
        hf | hnil | ⟨rhs, hrhs, hready⟩
      · exact hf
      · exact absurd hnil hne
      · refine absurd (fun leader rest he => ?_) hready
        subst he
        exact ih leader rest hrhs

/-! ## Validation -/

theorem checkDeclared_eq_ok_iff : g.checkDeclared = .ok () ↔ g.Declared := by
  constructor
  · intro h
    exact ⟨OrderedMap.contains_iff.mp (of_checkDeclared h).1, (of_checkDeclared h).2⟩
  · rintro ⟨hstart, hsymbols⟩
    have hnone : g.firstUndeclared? = none := by
      refine List.findSome?_eq_none_iff.mpr fun p hp => ?_
      rw [Option.map_eq_none_iff, List.find?_eq_none]
      intro s hs
      simp [hsymbols p hp s hs]
    unfold checkDeclared
    rw [if_pos (OrderedMap.contains_iff.mpr hstart), hnone]

theorem code_of_checkDeclared {e : GrammarError} (h : g.checkDeclared = .error e) :
    e.code = "UndeclaredSymbol" := by
  unfold checkDeclared at h
  split at h
  · split at h
    · cases h
      rfl
    · cases h
  · cases h
    rfl

theorem Declared.namesDeclared (h : g.Declared) : g.NamesDeclared :=
  namesDeclared_of_checkDeclared (checkDeclared_eq_ok_iff.mpr h)

theorem Declared.emptyFree (h : g.Declared) : g.EmptyFree :=
  emptyFree_of_checkDeclared (checkDeclared_eq_ok_iff.mpr h)

/-- A grammar of declared symbols is validated by the flags of its nonterminals. -/
theorem Declared.validate (h : g.Declared) :
    ∃ flags : ProductiveFlags, (∀ name, flags.find? name = some true ↔ g.Productive name) ∧
      flags.keys = g.nonterminals ∧
      g.validate = match flags.entries.find? (!·.2) with
        | some (name, _) => .error (.grammar (.nonTerminating name))
        | none => .ok flags := by
  obtain ⟨flags, hflags, hkeys, -⟩ := exists_productive h.namesDeclared
  refine ⟨flags, find?_productive_iff h.namesDeclared hflags, hkeys, ?_⟩
  unfold Grammar.validate
  rw [checkDeclared_eq_ok_iff.mpr h, hflags]
  rfl

/-- **A grammar passes iff everything is declared and productive.** -/
theorem validate_isOk_iff : (∃ flags, g.validate = .ok flags) ↔
    g.Declared ∧ ∀ name ∈ g.nonterminals, g.Productive name := by
  constructor
  · rintro ⟨result, hresult⟩
    have hd : g.Declared := checkDeclared_eq_ok_iff.mp (checkDeclared_of_validate hresult)
    refine ⟨hd, fun name hname => ?_⟩
    obtain ⟨flags, hflags, hkeys, hvalidate⟩ := hd.validate
    rw [hvalidate] at hresult
    split at hresult
    · cases hresult
    rename_i hnone
    rw [← hflags]
    obtain ⟨flag, hflag⟩ := OrderedMap.mem_keys.mp (hkeys ▸ hname)
    have htrue := List.find?_eq_none.mp hnone _ (OrderedMap.find?_eq_some_iff.mp hflag)
    simp only [Bool.not_eq_true', Bool.not_eq_false] at htrue
    rw [hflag, htrue]
  · rintro ⟨hd, hproductive⟩
    obtain ⟨flags, hflags, hkeys, hvalidate⟩ := hd.validate
    have hnone : flags.entries.find? (!·.2) = none := by
      refine List.find?_eq_none.mpr fun ⟨name, flag⟩ hm => ?_
      have hflag := OrderedMap.find?_eq_some_iff.mpr hm
      have hname : name ∈ g.nonterminals := hkeys ▸ OrderedMap.mem_keys.mpr ⟨flag, hflag⟩
      rw [(hflags name).mpr (hproductive name hname), Option.some.injEq] at hflag
      simp [← hflag]
    rw [hvalidate, hnone]
    exact ⟨flags, rfl⟩

/-- A grammar that does not pass is rejected for an undeclared symbol if there is one, and else for
a nonterminal that is not productive. -/
theorem code_of_validate {e : GrammarError} (h : g.validate = .error (.grammar e)) :
    (¬ g.Declared → e.code = "UndeclaredSymbol") ∧
      (g.Declared → e.code = "NonTerminatingGrammar") := by
  constructor
  · intro hd
    cases hc : g.checkDeclared with
    | ok => exact absurd (checkDeclared_eq_ok_iff.mp hc) hd
    | error e' =>
      unfold Grammar.validate at h
      rw [hc] at h
      cases h
      exact code_of_checkDeclared hc
  · intro hd
    obtain ⟨flags, -, -, hvalidate⟩ := hd.validate
    rw [hvalidate] at h
    split at h <;> cases h
    rfl

end Predictive.Grammar
