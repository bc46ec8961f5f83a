import Mathlib.Data.Fintype.Card
import Mathlib.Data.List.Find
import Mathlib.Data.Set.Finite.Basic
import Predictive.Proofs.Productive

/-!
# Validation and the graph of leading symbols

In the graph of leading symbols an edge goes from a nonterminal to each nonterminal that one of its
alternatives begins with (`Grammar.Leads`). Validation sweeps over flags in the order of declaration
until none changes. What it comes to is a matter of the graph alone.

* `productive_iff_leads`: a nonterminal is productive iff everything it reaches in the graph has
  alternatives and lies on no cycle.
* `ProductiveFlags.settle_of_le`: the sweeps stop by themselves, so that their bound does not matter.
* `validate_eq_error_iff`: a grammar that does not pass is rejected for the first thing that is
  wrong with it (`Grammar.Rejected`).
* `validation_exact`: which grammars pass, which flags come out, and which rejection is reported.
-/

namespace Predictive.Grammar

variable {g : Grammar} {name other : String}

/-! ## Productive nonterminals in the graph -/

theorem Productive.exists_alternative (h : g.Productive name) : ∃ rhs, g.HasAlternative name rhs := by
  obtain ⟨halts, hne, -⟩ := h
  obtain ⟨rhs, hrhs⟩ := List.exists_mem_of_ne_nil _ hne
  exact ⟨rhs, _, halts, hrhs⟩

theorem Productive.leads (h : g.Productive name) (hl : g.Leads name other) :
    g.Productive other := by
  obtain ⟨rest, alts, halts, hrest⟩ := hl
  obtain ⟨halts', -, hleaders⟩ := h
  rw [halts] at halts'
  cases halts'
  exact hleaders other rest hrest

theorem Productive.reaches (h : g.Productive name) (hr : Relation.ReflTransGen g.Leads name other) :
    g.Productive other := by
  induction hr with
  | refl => exact h
  | tail _ hl ih => exact ih.leads hl

/-- Where everything has alternatives and nothing lies on a cycle, every nonterminal is productive:
there are only finitely many, so that the edges are well founded. -/
theorem productive_of_acyclic {P : String → Prop}
    (halts : ∀ n, P n → ∃ rhs, g.HasAlternative n rhs)
    (hleads : ∀ n n', P n → g.Leads n n' → P n')
    (hcycle : ∀ n, P n → ¬ Relation.TransGen g.Leads n n) (hname : P name) :
    g.Productive name := by
  let Inner (inner outer : {n // P n}) : Prop := Relation.TransGen g.Leads outer.1 inner.1
  have hfinite : Finite {n // P n} := by
    refine (List.finite_toSet g.nonterminals).subset fun n hn => ?_
    obtain ⟨rhs, hrhs⟩ := halts n hn
    exact hrhs.mem_nonterminals
  have htrans : IsTrans _ Inner := ⟨fun _ _ _ hab hbc => Relation.TransGen.trans hbc hab⟩
  have hirrefl : Std.Irrefl Inner := ⟨fun n => hcycle n.1 n.2⟩
  have hwf : WellFounded Inner := Finite.wellFounded_of_trans_of_irrefl Inner
  suffices h : ∀ n : {n // P n}, g.Productive n.1 from h ⟨name, hname⟩
  intro n
  induction n using hwf.induction with
  | _ n ih =>
    obtain ⟨rhs, alts, hfind, hrhs⟩ := halts n.1 n.2
    refine .intro hfind (List.ne_nil_of_mem hrhs) fun leader rest hm => ?_
    have hedge : g.Leads n.1 leader := ⟨rest, alts, hfind, hm⟩
    exact ih ⟨leader, hleads n.1 leader n.2 hedge⟩ (.single hedge)

/-- **A nonterminal is productive iff everything it reaches has alternatives and lies on no cycle.**
-/
theorem productive_iff_leads : g.Productive name ↔
    ∀ other, Relation.ReflTransGen g.Leads name other →
      (∃ rhs, g.HasAlternative other rhs) ∧ ¬ Relation.TransGen g.Leads other other := by
  constructor
  · intro h other hr
    exact ⟨(h.reaches hr).exists_alternative, (h.reaches hr).not_leads_back⟩
  · intro h
    exact productive_of_acyclic (P := Relation.ReflTransGen g.Leads name) (fun n hn => (h n hn).1)
      (fun _ _ hn hl => hn.tail hl) (fun n hn => (h n hn).2) .refl

/-- Where the names are declared, all nonterminals are productive iff all have alternatives and the
graph has no cycle. -/
theorem forall_productive_iff (hd : g.NamesDeclared) :
    (∀ n ∈ g.nonterminals, g.Productive n) ↔
      (∀ n ∈ g.nonterminals, ∃ rhs, g.HasAlternative n rhs) ∧
        ∀ n, ¬ Relation.TransGen g.Leads n n := by
  constructor
  · intro h
    refine ⟨fun n hn => (h n hn).exists_alternative, fun n hcycle => ?_⟩
    obtain ⟨leader, ⟨rest, hrhs⟩, -⟩ := Relation.TransGen.head'_iff.mp hcycle
    exact (h n hrhs.mem_nonterminals).not_leads_back hcycle
  · rintro ⟨halts, hcycle⟩ n hn
    refine productive_of_acyclic (P := (· ∈ g.nonterminals)) halts (fun n n' _ hl => ?_)
      (fun n _ => hcycle n) hn
    obtain ⟨rest, hrhs⟩ := hl
    exact hd.mem_nonterminals hrhs List.mem_cons_self

/-! ## The sweeps stop by themselves -/

/-- Once a sweep changes nothing, more of them make no difference. -/
theorem ProductiveFlags.settle_of_le {rules : List (String × List (List Symbol))}
    {flags last : ProductiveFlags} {bound bound' : Nat} (h : settle rules bound flags = .ok last)
    (hfixed : sweep rules last = .ok last) (hle : bound ≤ bound') :
    settle rules bound' flags = .ok last := by
  induction bound generalizing flags bound' with
  | zero =>
    cases h
    cases bound' with
    | zero => rfl
    | succ bound' =>
      unfold settle
      simp only [hfixed, if_true]
  | succ bound ih =>
    obtain ⟨bound', rfl⟩ : ∃ n, bound' = n + 1 := ⟨bound' - 1, by omega⟩
    unfold settle at h ⊢
    cases hnext : sweep rules flags with
    | error e =>
      rw [hnext] at h
      cases h
    | ok next =>
      simp only [hnext] at h ⊢
      split at h
      · rename_i hsame
        rw [if_pos hsame]
        exact h
      · rename_i hchanged
        rw [if_neg hchanged]
        exact ih h (Nat.le_of_succ_le_succ hle)

/-- However many sweeps are allowed, if only one more than there are nonterminals, the same flags
come out, and no sweep changes them any more. -/
theorem exists_settled (hd : g.NamesDeclared) :
    ∃ flags, g.productive = .ok flags ∧ flags.keys = g.nonterminals ∧
      ∀ bound > g.nonterminals.length,
        ProductiveFlags.settle g.rules.entries bound (g.rules.withKeysOf false) = .ok flags ∧
          ProductiveFlags.sweep g.rules.entries flags = .ok flags := by
  obtain ⟨flags, hflags, hkeys, hfixed⟩ := exists_productive hd
  exact ⟨flags, hflags, hkeys, fun bound hb =>
    ⟨ProductiveFlags.settle_of_le hflags hfixed hb, hfixed⟩⟩

/-! ## What is reported -/

/-- Why a grammar does not pass, the first reason first. -/
inductive Rejected (g : Grammar) : GrammarError → Prop
  /-- The start symbol is not declared. -/
  | start (h : g.start ∉ g.nonterminals) : Rejected g (.undeclaredSymbol none g.start)
  /-- The symbol is the first undeclared one in the first alternative that has any. -/
  | symbol {before after : List Production} {p : Production} {left right : List Symbol} {s : Symbol}
      (hstart : g.start ∈ g.nonterminals) (hps : g.productions = before ++ p :: after)
      (hbefore : ∀ q ∈ before, ∀ s ∈ q.rhs, g.isDeclared s = true)
      (hrhs : p.rhs = left ++ s :: right) (hleft : ∀ s ∈ left, g.isDeclared s = true)
      (hs : g.isDeclared s = false) : Rejected g (.undeclaredSymbol (some p.lhs) s.name)
  /-- The nonterminal is the first one that is left without a flag. -/
  | flag {before after : List String} {name : String} {flags : ProductiveFlags} (hd : g.Declared)
      (hflags : g.productive = .ok flags) (hnames : g.nonterminals = before ++ name :: after)
      (hbefore : ∀ other ∈ before, flags.find? other = some true)
      (hname : flags.find? name = some false) : Rejected g (.nonTerminating name)

/-- The first undeclared symbol is the first one of the first alternative that has any. -/
theorem firstUndeclared?_eq_some_iff {lhs symbol : String} :
    g.firstUndeclared? = some (lhs, symbol) ↔ ∃ before p after left s right,
      g.productions = before ++ p :: after ∧ (∀ q ∈ before, ∀ s ∈ q.rhs, g.isDeclared s = true) ∧
      p.rhs = left ++ s :: right ∧ (∀ s ∈ left, g.isDeclared s = true) ∧
      g.isDeclared s = false ∧ p.lhs = lhs ∧ s.name = symbol := by
  have hnone (q : Production) : ((q.rhs.find? (!g.isDeclared ·)).map fun s => (q.lhs, s.name)) =
      none ↔ ∀ s ∈ q.rhs, g.isDeclared s = true := by
    simp
  unfold firstUndeclared?
  rw [List.findSome?_eq_some_iff]
  constructor
  · rintro ⟨before, p, after, hps, hp, hbefore⟩
    obtain ⟨s, hs, heq⟩ := Option.map_eq_some_iff.mp hp
    obtain ⟨hs, left, right, hrhs, hleft⟩ := List.find?_eq_some_iff_append.mp hs
    obtain ⟨rfl, rfl⟩ := Prod.mk.inj heq
    exact ⟨before, p, after, left, s, right, hps, fun q hq => (hnone q).mp (hbefore q hq), hrhs,
      by simpa using hleft, by simpa using hs, rfl, rfl⟩
  · rintro ⟨before, p, after, left, s, right, hps, hbefore, hrhs, hleft, hs, rfl, rfl⟩
    refine ⟨before, p, after, hps, ?_, fun q hq => (hnone q).mpr (hbefore q hq)⟩
    refine Option.map_eq_some_iff.mpr ⟨s, List.find?_eq_some_iff_append.mpr ?_, rfl⟩
    exact ⟨by simpa using hs, left, right, hrhs, by simpa using hleft⟩

/-- If the declarations are found wrong, that is the reason for the rejection. -/
theorem rejected_iff_of_checkDeclared {e e' : GrammarError} (h : g.checkDeclared = .error e') :
    g.Rejected e ↔ e' = e := by
  have hdeclared : ¬ g.Declared := fun hd => by
    rw [checkDeclared_eq_ok_iff.mpr hd] at h
    cases h
  unfold checkDeclared at h
  split at h
  · rename_i hstart
    have hstart : g.start ∈ g.nonterminals := OrderedMap.contains_iff.mp hstart
    split at h
    · rename_i lhs symbol hfirst
      cases h
      constructor
      · intro hr
        cases hr with
        | start hn => exact absurd hstart hn
        | symbol _ hps hbefore hrhs hleft hs =>
          have hfirst' := firstUndeclared?_eq_some_iff.mpr
            ⟨_, _, _, _, _, _, hps, hbefore, hrhs, hleft, hs, rfl, rfl⟩
          rw [hfirst] at hfirst'
          cases hfirst'
          rfl
        | flag hd => exact absurd hd hdeclared
      · rintro rfl
        obtain ⟨before, p, after, left, s, right, hps, hbefore, hrhs, hleft, hs, rfl, rfl⟩ :=
          firstUndeclared?_eq_some_iff.mp hfirst
        exact .symbol hstart hps hbefore hrhs hleft hs
    · cases h
  · rename_i hstart
    have hstart : g.start ∉ g.nonterminals := mt OrderedMap.contains_iff.mpr hstart
    cases h
    constructor
    · intro hr
      cases hr with
      | start => rfl
      | symbol hmem => exact absurd hmem hstart
      | flag hd => exact absurd hd hdeclared
    · rintro rfl
      exact .start hstart

/-- The first entry with a false flag is that of the first such name. -/
theorem ProductiveFlags.find?_entries (flags : ProductiveFlags) :
    (flags.entries.find? (!·.2)).map Prod.fst =
      flags.keys.find? (flags.find? · = some false) := by
  unfold OrderedMap.keys
  rw [List.find?_map]
  refine congrArg (Option.map Prod.fst) (List.find?_congr fun e he => ?_)
  have hflag : flags.find? e.1 = some e.2 := OrderedMap.find?_eq_some_iff.mpr he
  simp [hflag]

/-- If everything is declared, the first false flag is the reason for the rejection. -/
theorem rejected_iff_of_declared (hd : g.Declared) {flags : ProductiveFlags}
    (hflags : g.productive = .ok flags) (hkeys : flags.keys = g.nonterminals) {e : GrammarError} :
    g.Rejected e ↔ ∃ name, (flags.entries.find? (!·.2)).map Prod.fst = some name ∧
      .nonTerminating name = e := by
  rw [ProductiveFlags.find?_entries, hkeys]
  simp only [List.find?_eq_some_iff_append, decide_eq_true_eq, Bool.not_eq_true',
    decide_eq_false_iff_not]
  constructor
  · intro hr
    cases hr with
    | start hn => exact absurd hd.start hn
    | @symbol before after p left right s _ hps _ hrhs _ hs =>
      have hp : p ∈ g.productions := hps ▸ List.mem_append_right before List.mem_cons_self
      rw [hd.symbols p hp s (hrhs ▸ List.mem_append_right left List.mem_cons_self)] at hs
      cases hs
    | @flag before after name flags' _ hflags' hnames hbefore hname =>
      rw [hflags] at hflags'
      cases hflags'
      refine ⟨name, ⟨hname, before, after, hnames, fun other ho => ?_⟩, rfl⟩
      rw [hbefore other ho]
      simp
  · rintro ⟨name, ⟨hname, before, after, hnames, hbefore⟩, rfl⟩
    refine .flag hd hflags hnames (fun other ho => ?_) hname
    have hmem : other ∈ flags.keys := by
      rw [hkeys, hnames]
      exact List.mem_append_left _ ho
    obtain ⟨flag, hflag⟩ := OrderedMap.mem_keys.mp hmem
    have hne := hbefore other ho
    rw [hflag] at hne ⊢
    simpa using hne

/-- **A grammar that does not pass is rejected for the first thing that is wrong with it.** -/
theorem validate_eq_error_iff {e : GrammarError} :
    g.validate = .error (.grammar e) ↔ g.Rejected e := by
  cases hc : g.checkDeclared with
  | error e' =>
    rw [rejected_iff_of_checkDeclared hc]
    unfold Grammar.validate
    rw [hc]
    show (.error (.grammar e') : Except Failure ProductiveFlags) = _ ↔ _
    simp
  | ok =>
    have hd : g.Declared := checkDeclared_eq_ok_iff.mp hc
    obtain ⟨flags, hflags, hkeys, -⟩ := exists_productive hd.namesDeclared
    rw [rejected_iff_of_declared hd hflags hkeys]
    unfold Grammar.validate
    rw [hc, hflags]
    simp only [Failure.lift, bind, Except.bind]
    cases flags.entries.find? (!·.2) with
    | none => simp
    | some entry => simp

/-! ## Validation as a whole -/

/-- What a grammar is like that passes. -/
structure Passable (g : Grammar) : Prop where
  start : g.start ∈ g.nonterminals
  /-- Every symbol in use is declared, and none is the mark of the empty string. -/
  symbols : ∀ p ∈ g.productions, ∀ s ∈ p.rhs, g.isDeclared s = true ∧ s.kind ≠ .empty
  alternatives : ∀ name ∈ g.nonterminals, ∃ rhs, g.HasAlternative name rhs
  /-- The graph of leading symbols has no cycle. -/
  acyclic : ∀ name, ¬ Relation.TransGen g.Leads name name

theorem passable_iff : g.Passable ↔ g.Declared ∧ ∀ name ∈ g.nonterminals, g.Productive name := by
  constructor
  · intro h
    have hd : g.Declared := ⟨h.start, fun p hp s hs => (h.symbols p hp s hs).1⟩
    exact ⟨hd, (forall_productive_iff hd.namesDeclared).mpr ⟨h.alternatives, h.acyclic⟩⟩
  · rintro ⟨hd, hproductive⟩
    obtain ⟨halts, hcycle⟩ := (forall_productive_iff hd.namesDeclared).mp hproductive
    exact ⟨hd.start, fun p hp s hs => ⟨hd.symbols p hp s hs, hd.emptyFree p hp s hs⟩, halts, hcycle⟩

/-- **Validation is exact.** A grammar passes iff its start symbol and all symbols in use are
declared, every nonterminal has an alternative, and the graph of leading symbols has no cycle; then
all flags are true. Where the names are declared, the flags come out after a bounded number of
sweeps, and that of a nonterminal is true iff all that it reaches in the graph has alternatives and
lies on no cycle. Every other grammar is rejected, for the first thing that is wrong with it. -/
theorem validation_exact (g : Grammar) :
    ((∃ flags, g.validate = .ok flags) ↔ g.Passable) ∧
    (∀ flags, g.validate = .ok flags →
      flags.keys = g.nonterminals ∧ ∀ name ∈ g.nonterminals, flags.find? name = some true) ∧
    (g.NamesDeclared → ∃ flags, g.productive = .ok flags ∧ flags.keys = g.nonterminals ∧
      (∀ bound > g.nonterminals.length,
        ProductiveFlags.settle g.rules.entries bound (g.rules.withKeysOf false) = .ok flags ∧
          ProductiveFlags.sweep g.rules.entries flags = .ok flags) ∧
      ∀ name, flags.find? name = some true ↔
        ∀ other, Relation.ReflTransGen g.Leads name other →
          (∃ rhs, g.HasAlternative other rhs) ∧ ¬ Relation.TransGen g.Leads other other) ∧
    Failure.Ordinary g.validate ∧
    ∀ e, g.validate = .error (.grammar e) ↔ g.Rejected e := by
  refine ⟨?_, fun result hresult => ?_, fun hd => ?_, validate_ordinary g,
    fun e => validate_eq_error_iff⟩
  · rw [validate_isOk_iff, passable_iff]
  · obtain ⟨hd, hproductive⟩ := validate_isOk_iff.mp ⟨result, hresult⟩
    obtain ⟨flags, hflags, hkeys, hvalidate⟩ := hd.validate
    rw [hvalidate] at hresult
    split at hresult
    · cases hresult
    · cases hresult
      exact ⟨hkeys, fun name hname => (hflags name).mpr (hproductive name hname)⟩
  · obtain ⟨flags, hflags, hkeys, hsettled⟩ := exists_settled hd
    refine ⟨flags, hflags, hkeys, hsettled, fun name => ?_⟩
    rw [find?_productive_iff hd hflags, productive_iff_leads]

/-- The names `A` and `B` lead to each other, and `S` leads to neither. -/
def leaderRing : Grammar :=
  .build "S" (.ofList [
    ("S", [[.terminal "x", .nonterminal "A"], []]),
    ("B", [[.nonterminal "A", .terminal "x"]]),
    ("A", [[.terminal "x"], [.nonterminal "B"]])]) (.ofList ["x"])

/-- What `S` leads to is free of cycles, although it contains `A`. Of the two names on the cycle the
one that is declared first is reported. -/
theorem leaderRing_rejected :
    (∀ other, Relation.ReflTransGen leaderRing.Leads "S" other →
      ¬ Relation.TransGen leaderRing.Leads other other) ∧
    leaderRing.validate = .error (.grammar (.nonTerminating "B")) ∧ ¬ leaderRing.Passable := by
  obtain ⟨hpassable, -, hsettled, -, hrejected⟩ := validation_exact leaderRing
  have hd : leaderRing.Declared := ⟨by decide +kernel, by decide +kernel⟩
  obtain ⟨flags, hflags, -, -, hiff⟩ := hsettled hd.namesDeclared
  have hcomputed : leaderRing.productive.toOption.map
      (fun flags => (flags.find? "S", flags.find? "B")) = some (some true, some false) := by
    decide +kernel
  rw [hflags] at hcomputed
  obtain ⟨hS, hB⟩ := Prod.mk.inj (Option.some.inj hcomputed)
  have herror : leaderRing.validate = .error (.grammar (.nonTerminating "B")) :=
    (hrejected _).mpr (@Rejected.flag leaderRing ["S"] ["A"] "B" flags hd hflags
      (by decide +kernel) (by simpa using hS) hB)
  refine ⟨fun other ho => ((hiff "S").mp hS other ho).2, herror, fun hp => ?_⟩
  obtain ⟨flags', hok⟩ := hpassable.mpr hp
  rw [herror] at hok
  cases hok

end Predictive.Grammar
