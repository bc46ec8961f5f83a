import Predictive.Proofs.Prefix

/-!
# The language of a parser

A parse accepts when nothing is left to derive behind the end of the input. In a grammar whose start
symbol alone ends with the end of the input (`Grammar.EndMarked`), there are two ways to this: the
start symbol consumes the end as its last symbol, and any other nonterminal is accepted when it has
derived the lexemes and the end comes behind it.

* `Grammar.EndMarked.eq_nil`: nothing is left once the start symbol has derived the end.
* `Grammar.EndMarked.not_mem`: nothing derives the end but the start symbol.
* `accepted_iff_derives`: a parse accepts just what its start derives.
-/

namespace Predictive

/-- Every alternative of the start symbol ends with the end of the input, which occurs nowhere else,
and the start symbol occurs in no alternative. -/
structure Grammar.EndMarked (g : Grammar) : Prop where
  marked : ∀ p ∈ g.productions, p.lhs = g.start → p.rhs.getLast? = some .endOfInput
  only_last : ∀ p ∈ g.productions, .endOfInput ∈ p.rhs →
    p.lhs = g.start ∧ .endOfInput ∉ p.rhs.dropLast
  start_not_mem : ∀ p ∈ g.productions, .nonterminal g.start ∉ p.rhs

namespace Grammar.EndMarked

variable {g : Grammar}

/-- Only alternatives of the start symbol hold the end of the input. -/
theorem end_not_mem (hg : g.EndMarked) {name : String} {rhs : List Symbol}
    (h : g.HasAlternative name rhs) (hn : name ≠ g.start) : .endOfInput ∉ rhs := fun hmem =>
  hn (hg.only_last ⟨name, rhs⟩ (mem_productions.mpr h) hmem).1

/-- An alternative of the start symbol has the end of the input behind a form without it. -/
theorem exists_body (hg : g.EndMarked) {rhs : List Symbol} (h : g.HasAlternative g.start rhs) :
    ∃ body, rhs = body ++ [.endOfInput] ∧ .endOfInput ∉ body ∧
      .nonterminal g.start ∉ body := by
  have hp : ⟨g.start, rhs⟩ ∈ g.productions := mem_productions.mpr h
  obtain ⟨body, rfl⟩ := List.getLast?_eq_some_iff.mp (hg.marked _ hp rfl)
  have honly := (hg.only_last _ hp (List.mem_append_right body List.mem_cons_self)).2
  rw [List.dropLast_concat] at honly
  exact ⟨body, rfl, honly, fun hmem =>
    hg.start_not_mem _ hp (List.mem_append_left _ hmem)⟩

/-- What a form without the end and the start symbol derives has neither of them. -/
theorem not_mem (hg : g.EndMarked) {u v : List Symbol} (h : g.Derives u v)
    (hu : .endOfInput ∉ u ∧ .nonterminal g.start ∉ u) :
    .endOfInput ∉ v ∧ .nonterminal g.start ∉ v := by
  induction h with
  | refl => exact hu
  | tail _ hp ih =>
    obtain @⟨name, rhs, x, y, hrhs⟩ := hp
    obtain ⟨hend, hstart⟩ := ih
    have hn : name ≠ g.start := by
      rintro rfl
      exact hstart (by simp)
    have hend' : .endOfInput ∉ rhs := hg.end_not_mem hrhs hn
    have hstart' : .nonterminal g.start ∉ rhs := hg.start_not_mem ⟨name, rhs⟩
      (mem_productions.mpr hrhs)
    simp only [List.mem_append, List.mem_cons, not_or] at hend hstart ⊢
    exact ⟨⟨⟨hend.1, hend'⟩, hend.2.2⟩, ⟨⟨hstart.1, hstart'⟩, hstart.2.2⟩⟩

/-- What the start symbol derives is itself, or ends with the only end of the input in it. -/
theorem derives_start (hg : g.EndMarked) {u : List Symbol}
    (h : g.Derives [.nonterminal g.start] u) :
    u = [.nonterminal g.start] ∨
      ∃ body, u = body ++ [.endOfInput] ∧ .endOfInput ∉ body ∧ .nonterminal g.start ∉ body := by
  rcases Relation.ReflTransGen.cases_head h with heq | ⟨rhs, hp, hd⟩
  · exact .inl heq.symm
  right
  -- The first step leaves an alternative, and all others happen in front of its end.
  have hrhs : g.HasAlternative g.start rhs := produces_singleton.mp hp
  obtain ⟨body, rfl, hend, hstart⟩ := hg.exists_body hrhs
  obtain ⟨w, rfl, hw⟩ := Derives.of_concat Symbol.isNonterminal_endOfInput hd
  exact ⟨w, rfl, hg.not_mem hw ⟨hend, hstart⟩⟩

/-- **Nothing is left once the start symbol has derived the end.** -/
theorem eq_nil (hg : g.EndMarked) {u v : List Symbol}
    (h : g.Derives [.nonterminal g.start] (u ++ .endOfInput :: v)) : v = [] := by
  rcases hg.derives_start h with heq | ⟨body, heq, hend, -⟩
  · have hmem : Symbol.endOfInput ∈ [.nonterminal g.start] :=
      heq ▸ List.mem_append_right u List.mem_cons_self
    cases List.mem_singleton.mp hmem
  · rcases append_eq_append_cons heq.symm with ⟨e, rfl, -⟩ | ⟨e, he, -⟩
    · exact absurd (List.mem_append_right u List.mem_cons_self) hend
    · cases e with
      | nil => exact (List.cons.inj he).2.symm
      | cons s e => simp at he

/-- The start symbol derives no word without the end. -/
theorem not_derives (hg : g.EndMarked) {w : List Symbol}
    (hw : ∀ s ∈ w, s.isNonterminal = false) (hend : .endOfInput ∉ w) :
    ¬ g.Derives [.nonterminal g.start] w := by
  intro h
  rcases hg.derives_start h with rfl | ⟨body, rfl, -⟩
  · have := hw _ List.mem_cons_self
    simp at this
  · exact hend (List.mem_append_right body List.mem_cons_self)

end Grammar.EndMarked

/-! ## Accepting parses -/

namespace Parser

variable {p : Parser}

theorem automaton_fedAll (input : List (Option String)) :
    (p.fedAll input).automaton = p.automaton := by
  induction input generalizing p with
  | nil => rfl
  | cons lexeme input ih => exact ih.trans automaton_feed

theorem accepted_iff : p.accepted = true ↔ p.stack = [] ∧ p.halted = none := by
  simp [accepted]

theorem fedAll_concat (input : List (Option String)) (lexeme : Option String) :
    p.fedAll (input ++ [lexeme]) = ((p.fedAll input).feed lexeme).parser := by
  simp [fedAll]

namespace Sound

theorem fedAll (h : p.Sound) (input : List (Option String)) : (p.fedAll input).Sound := by
  induction input generalizing p with
  | nil => exact h
  | cons lexeme input ih => exact ih (h.feed lexeme)

/-- The two ways to consume the end of the input: as a symbol that was left to derive, or behind
everything. -/
theorem finish_of_consumes (h : p.Sound) (hh : p.halted = none) {lexemes : List String}
    (hc : p.Consumes (lexemes.map some ++ [none])) :
    (p.fedAll (lexemes.map some ++ [none])).halted = none ∧
      ((p.automaton.grammar.LeftDerives (p.stack.rest p.automaton.grammar)
          (p.automaton.grammar.classes lexemes ++ [.endOfInput])
          ((p.fedAll (lexemes.map some ++ [none])).stack.rest p.automaton.grammar) ∧
          ((p.fedAll (lexemes.map some ++ [none])).stack.rest p.automaton.grammar = [] →
            (p.fedAll (lexemes.map some ++ [none])).stack = [])) ∨
        (p.automaton.grammar.Derives (p.stack.rest p.automaton.grammar)
          (p.automaton.grammar.classes lexemes) ∧
          (p.fedAll (lexemes.map some ++ [none])).stack = [])) := by
  obtain ⟨hc, ⟨c, hverdict⟩, -⟩ := consumes_append.mp hc
  obtain ⟨hl, -⟩ := h.leftDerives_of_consumes hh hc
  have hend := (h.fedAll (lexemes.map some)).leftDerives_of_consumed hverdict
  rw [automaton_fedAll] at hend
  rw [fedAll_concat]
  obtain ⟨-, hrunning, ⟨hread, hnil⟩ | ⟨-, hread, hstack⟩⟩ := hend
  · exact ⟨hrunning, .inl ⟨hl.trans hread, hnil⟩⟩
  · have hderives := (hl.trans hread).derives
    rw [List.append_nil, List.append_nil] at hderives
    exact ⟨hrunning, .inr ⟨hderives, hstack⟩⟩

/-- If the end of the input is expected behind some lexemes, all of them are consumed. -/
theorem consumes_end_of_expects (h : p.Sound) (hlimit : p.automaton.depthLimit = none)
    (hh : p.halted = none) {lexemes : List String} {behind r : List Symbol}
    (hb : ∀ lexeme : String,
      ¬ p.automaton.grammar.Begins (p.automaton.grammar.classify (some lexeme)) behind)
    (he : p.automaton.grammar.Expects (p.stack.rest p.automaton.grammar ++ behind)
      (p.automaton.grammar.classes lexemes ++ [.endOfInput]) r) :
    p.Consumes (lexemes.map some ++ [none]) := by
  obtain ⟨hc, he'⟩ := h.consumes_of_expects hlimit hh hb he
  obtain ⟨-, hrunning⟩ := h.leftDerives_of_consumes hh hc
  have hq : (p.fedAll (lexemes.map some)).automaton = p.automaton := automaton_fedAll _
  rw [← hq] at he' hlimit
  have hexpected : (p.fedAll (lexemes.map some)).automaton.grammar.Expects _
      ((p.fedAll (lexemes.map some)).classify none :: []) r := he'
  have hend := (h.fedAll (lexemes.map some)).consumed_of_expects hlimit hrunning hexpected
  have hverdict : ∃ c, ((p.fedAll (lexemes.map some)).feed none).verdict = .consumed c := by
    rcases hend with ⟨hverdict, -⟩ | ⟨-, hfinish⟩
    · exact hverdict
    · exact (hfinish rfl).1
  exact consumes_append.mpr ⟨hc, hverdict, trivial⟩

end Sound

section Fresh

variable {automaton : Automaton} (hd : automaton.table.Decides automaton.grammar)
  (hlimit : automaton.depthLimit = none) (hg : automaton.grammar.EndMarked)

include hd hlimit hg

/-- From the start symbol, just the lexemes are accepted that it derives in front of the end. -/
theorem fresh_accepts_start (hstart : automaton.grammar.start ∈ automaton.grammar.nonterminals)
    (listening : Bool) (lexemes : List String) :
    ((fresh automaton automaton.grammar.start listening).Consumes (lexemes.map some ++ [none]) ∧
        ((fresh automaton automaton.grammar.start listening).fedAll
          (lexemes.map some ++ [none])).accepted = true) ↔
      automaton.grammar.Derives [.nonterminal automaton.grammar.start]
        (automaton.grammar.classes lexemes ++ [.endOfInput]) := by
  have hsound : (fresh automaton automaton.grammar.start listening).Sound :=
    ⟨hd, Stack.wellFormed_start _⟩
  have hclasses : ∀ s ∈ automaton.grammar.classes lexemes, s.isNonterminal = false :=
    fun s hs => Grammar.isNonterminal_of_mem_classes hs
  constructor
  · rintro ⟨hc, hacc⟩
    obtain ⟨hstack, -⟩ := accepted_iff.mp hacc
    obtain ⟨-, ⟨hl, -⟩ | ⟨hderives, -⟩⟩ := hsound.finish_of_consumes rfl hc
    · rw [hstack] at hl
      have hderives := hl.derives
      rwa [Stack.rest_nil, List.append_nil] at hderives
    · exact absurd hderives
        (hg.not_derives hclasses (Grammar.endOfInput_not_mem_classes lexemes))
  · intro hderives
    have hword : ∀ s ∈ automaton.grammar.classes lexemes ++ [.endOfInput],
        s.isNonterminal = false := by
      intro s hs
      rcases List.mem_append.mp hs with hs | hs
      · exact hclasses s hs
      · rw [List.mem_singleton.mp hs]
        rfl
    obtain ⟨r, hl, -⟩ := (Grammar.derives_iff hword).mp hderives
    have he : automaton.grammar.Expects ([.nonterminal automaton.grammar.start] ++ [])
        (automaton.grammar.classes lexemes ++ [.endOfInput]) r :=
      ⟨⟨_, hstart, [], Grammar.Derives.refl _⟩, hl⟩
    have hc := hsound.consumes_end_of_expects hlimit rfl (fun _ => Grammar.not_begins_nil) he
    refine ⟨hc, accepted_iff.mpr ?_⟩
    obtain ⟨hrunning, ⟨hread, hnil⟩ | ⟨-, hstack⟩⟩ := hsound.finish_of_consumes rfl hc
    · have hleft := hread.derives
      rw [List.append_assoc] at hleft
      exact ⟨hnil (hg.eq_nil hleft), hrunning⟩
    · exact ⟨hstack, hrunning⟩

/-- From another nonterminal that the end can follow, just the lexemes are accepted that it
derives. -/
theorem fresh_accepts_other {name : String} (hname : name ≠ automaton.grammar.start)
    (hfollows : automaton.grammar.Follows .endOfInput name) (listening : Bool)
    (lexemes : List String) :
    ((fresh automaton name listening).Consumes (lexemes.map some ++ [none]) ∧
        ((fresh automaton name listening).fedAll (lexemes.map some ++ [none])).accepted = true) ↔
      automaton.grammar.Derives [.nonterminal name] (automaton.grammar.classes lexemes) := by
  have hsound : (fresh automaton name listening).Sound := ⟨hd, Stack.wellFormed_start name⟩
  -- The end of the input is never read off the stack.
  have hend {r : List Symbol} (hl : automaton.grammar.LeftDerives [.nonterminal name]
      (automaton.grammar.classes lexemes ++ [.endOfInput]) r) : False := by
    have hinit : .endOfInput ∉ [Symbol.nonterminal name] ∧
        .nonterminal automaton.grammar.start ∉ [Symbol.nonterminal name] := by
      refine ⟨fun hm => ?_, fun hm => hname ?_⟩
      · cases List.mem_singleton.mp hm
      · cases List.mem_singleton.mp hm
        rfl
    exact (hg.not_mem hl.derives hinit).1 (by simp)
  constructor
  · rintro ⟨hc, -⟩
    obtain ⟨-, ⟨hl, -⟩ | ⟨hderives, -⟩⟩ := hsound.finish_of_consumes rfl hc
    · exact absurd hl hend
    · exact hderives
  · intro hderives
    obtain ⟨r, hl, hv⟩ := (Grammar.derives_iff
      fun s hs => Grammar.isNonterminal_of_mem_classes hs).mp hderives
    obtain ⟨root, hroot, u, v, hcontext⟩ := hfollows
    have he : automaton.grammar.Expects ([.nonterminal name] ++ .endOfInput :: v)
        (automaton.grammar.classes lexemes ++ [.endOfInput]) v := by
      refine ⟨⟨root, hroot, u, hcontext⟩, (hl.append_right _).trans ?_⟩
      exact ((Grammar.LeftDerives.of_vanishes hv).append_right _).trans (.shift rfl (.refl v))
    have hbehind (lexeme : String) : ¬ automaton.grammar.Begins
        (automaton.grammar.classify (some lexeme)) (.endOfInput :: v) := by
      intro hb
      generalize hx : Symbol.endOfInput :: v = x at hb
      cases hb with
      | here => exact Grammar.classify_some_ne lexeme (List.cons.inj hx).1.symm
      | within | behind => cases (List.cons.inj hx).1
    have hc := hsound.consumes_end_of_expects hlimit rfl hbehind he
    refine ⟨hc, accepted_iff.mpr ?_⟩
    obtain ⟨hrunning, ⟨hl, -⟩ | ⟨-, hstack⟩⟩ := hsound.finish_of_consumes rfl hc
    · exact absurd hl hend
    · exact ⟨hstack, hrunning⟩

end Fresh

end Parser

variable {g : Grammar} {settings : Settings} {analysis : Analysis} {start : Option String}
  {recording : Bool} {p : Parser}

/-- **A parse accepts just what its start derives.** In an end-marked grammar these are, from the
start symbol, the lexemes that it derives in front of the end of the input, and from any other
nonterminal that the end can follow, the lexemes that it derives. Nothing is reported just in case
of acceptance, and then all lexemes and the end of the input are consumed. -/
theorem accepted_iff_derives (h : Analysis.run g settings = .ok analysis) (hg : g.EndMarked)
    (hp : Parser.create ⟨analysis.grammar, analysis.table, none⟩ start recording = .ok p)
    (lexemes : List String) :
    ∃ result, Trace.parse ⟨analysis.grammar, analysis.table, none⟩ lexemes start recording =
        .ok result ∧
      (p.start = g.start → (result.accepted = true ↔
        g.Derives [.nonterminal g.start] (g.classes (Trace.kept lexemes) ++ [.endOfInput]))) ∧
      (p.start ≠ g.start → .endOfInput ∈ analysis.follow.sets.of p.start →
        (result.accepted = true ↔
          g.Derives [.nonterminal p.start] (g.classes (Trace.kept lexemes)))) ∧
      (result.accepted = true ↔ result.rejection = none) ∧
      (result.accepted = true → result.consumed = (Trace.kept lexemes).length + 1) := by
  have heq : analysis.grammar = g := (Analysis.of_run h).1
  have hd : analysis.table.Decides analysis.grammar := Analysis.decides_grammar h
  have hg' : analysis.grammar.EndMarked := by rwa [heq]
  obtain ⟨hstart, hfresh⟩ := Parser.create_eq_ok_iff.mp hp
  obtain ⟨result, hparse, hparsed⟩ := Trace.exists_parsed hp (.of_create hd hp) lexemes
  have haccepted := hparsed.accepted
  rw [Trace.inputOf_eq, hfresh] at haccepted
  have hname : p.start = Parser.startOf analysis.grammar start := by
    rw [hfresh]
    rfl
  refine ⟨result, hparse, fun hs => ?_, fun hs hf => ?_, hparsed.rejection.symm, fun ha => ?_⟩
  · rw [haccepted, ← hname, hs, ← heq]
    rw [← hname, hs, ← heq] at hstart
    exact Parser.fresh_accepts_start hd rfl hg' hstart recording _
  · rw [Analysis.mem_follow_iff h Symbol.isToken_endOfInput] at hf
    rw [haccepted, ← hname, ← heq]
    rw [← heq] at hs hf
    exact Parser.fresh_accepts_other hd rfl hg' hs hf recording _
  · have hconsumed := (hparsed.consumed (Trace.inputOf lexemes).length (Nat.le_refl _)).mpr (by
      rw [List.take_length]
      exact (hparsed.accepted.mp ha).1)
    have hle := hparsed.consumed_le
    have hlength : (Trace.inputOf lexemes).length = (Trace.kept lexemes).length + 1 := by
      rw [Trace.inputOf_eq, List.length_append, List.length_map]
      rfl
    omega

/-- Both runs are accepted from the start symbol, and the first one alone from its own name. -/
theorem twoRuns_accepted :
    ∃ analysis, Analysis.run .twoRuns .defaults = .ok analysis ∧
      (∃ result, Trace.parse ⟨analysis.grammar, analysis.table, none⟩ ["a", "", "b"] none false =
        .ok result ∧ result.accepted = true ∧ result.consumed = 3) ∧
      ∃ result, Trace.parse ⟨analysis.grammar, analysis.table, none⟩ ["a"] (some "A") false =
        .ok result ∧ result.accepted = true := by
  have hg : Grammar.twoRuns.EndMarked := ⟨by decide +kernel, by decide +kernel, by decide +kernel⟩
  have hok : (Analysis.run .twoRuns .defaults).isOk = true := by decide +kernel
  obtain ⟨analysis, h, hp⟩ := Analysis.exists_create hok none (by decide +kernel) none false
  obtain ⟨analysis', h', hp'⟩ :=
    Analysis.exists_create hok (some "A") (by decide +kernel) none false
  rw [h] at h'
  cases h'
  obtain ⟨hS, ha, hA, hb, hB⟩ := Grammar.twoRuns_alternatives
  have hA' : Grammar.twoRuns.Derives [.nonterminal "A"] [.terminal "a"] :=
    (Grammar.derives_cons ha []).trans ((Grammar.derives_cons hA []).append_left [.terminal "a"])
  have hB' : Grammar.twoRuns.Derives [.nonterminal "B"] [.terminal "b"] :=
    (Grammar.derives_cons hb []).trans ((Grammar.derives_cons hB []).append_left [.terminal "b"])
  have hS' : Grammar.twoRuns.Derives [.nonterminal "S"]
      [.terminal "a", .terminal "b", .endOfInput] :=
    ((Grammar.derives_cons hS []).trans (hA'.append_right [.nonterminal "B", .endOfInput])).trans
      ((hB'.append_left [.terminal "a"]).append_right [.endOfInput])
  obtain ⟨result, hparse, hresult, -, -, hconsumed⟩ := accepted_iff_derives h hg hp ["a", "", "b"]
  have hacc : result.accepted = true := (hresult rfl).mpr hS'
  refine ⟨analysis, h, ⟨result, hparse, hacc, hconsumed hacc⟩, ?_⟩
  obtain ⟨result, hparse, -, hresult, -⟩ := accepted_iff_derives h hg hp' ["a"]
  have hfollow : .endOfInput ∈ analysis.follow.sets.of "A" :=
    (Analysis.mem_follow_iff h Symbol.isToken_endOfInput).mpr Grammar.twoRuns_follows
  have hname : "A" ≠ Grammar.twoRuns.start := by decide +kernel
  exact ⟨result, hparse, (hresult hname hfollow).mpr hA'⟩

end Predictive
