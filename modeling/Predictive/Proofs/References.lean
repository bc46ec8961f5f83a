import Mathlib.Data.List.Forall2
import Predictive.Grammar.Reference
import Predictive.Proofs.Derivation

/-!
# Grammars written as definitions

A grammar is written as a definition by giving every symbol a reference: a nonterminal its name
behind the sigil, any other symbol its name alone (`Symbol.reference`). A definition has no way to
say which of the two a reference is, so a reserved word or a mark that is spelled like a nonterminal
behind the sigil hides the nonterminal (`Symbol.Hidden`).

* `Symbol.ReadAs`: what the reference of a symbol is read as.
* `Symbol.readAs_ofReference`: that is how references are read.
* `Grammar.ofDefinition_written`: the written grammar is read with every symbol replaced so, and is
  the grammar again iff no nonterminal in use is hidden.
-/

namespace Predictive

namespace Symbol

variable {vocabulary words : SortedSet String} {sigil name word : String} {s t : Symbol}

/-! ## References -/

/-- The reference of a symbol. -/
def reference (sigil : String) (s : Symbol) : String :=
  if s.isNonterminal then sigil ++ s.name else s.name

/-- A reserved word or a mark is spelled like the nonterminal behind the sigil. -/
def Hidden (vocabulary : SortedSet String) (sigil name : String) : Prop :=
  sigil ++ name ∈ vocabulary ∨ sigil ++ name = identifierMark ∨ sigil ++ name = endMark

/-- The symbol can be referred to: it is one of the two fixed tokens, a reserved word, or a
nonterminal with a name that is not empty. -/
inductive Expressible (vocabulary : SortedSet String) : Symbol → Prop
  | identifier : Expressible vocabulary .identifier
  | endOfInput : Expressible vocabulary .endOfInput
  | terminal {word : String} (h : word ∈ vocabulary) : Expressible vocabulary (.terminal word)
  | nonterminal {name : String} (h : name ≠ "") : Expressible vocabulary (.nonterminal name)

/-- What the reference of a symbol is read as: the symbol itself or, if it is a nonterminal that is
hidden, what hides it. -/
inductive ReadAs (vocabulary : SortedSet String) (sigil : String) : Symbol → Symbol → Prop
  | token {s : Symbol} (h : s.isNonterminal = false) : ReadAs vocabulary sigil s s
  | nonterminal {name : String} (h : ¬ Hidden vocabulary sigil name) :
    ReadAs vocabulary sigil (.nonterminal name) (.nonterminal name)
  | reservedWord {name : String} (h : sigil ++ name ∈ vocabulary) :
    ReadAs vocabulary sigil (.nonterminal name) (.terminal (sigil ++ name))
  | identifier {name : String} (h : sigil ++ name = identifierMark) :
    ReadAs vocabulary sigil (.nonterminal name) .identifier
  | endOfInput {name : String} (h : sigil ++ name = endMark) :
    ReadAs vocabulary sigil (.nonterminal name) .endOfInput

/-- A symbol is read as itself iff it is no hidden nonterminal. -/
theorem ReadAs.eq_iff (h : ReadAs vocabulary sigil s t) :
    t = s ↔ ∀ name, s = .nonterminal name → ¬ Hidden vocabulary sigil name := by
  cases h with
  | token h =>
    refine iff_of_true rfl fun name hs => ?_
    rw [hs] at h
    cases h
  | nonterminal h =>
    refine iff_of_true rfl fun name hname => ?_
    cases hname
    exact h
  | reservedWord h => exact iff_of_false nofun fun hall => hall _ rfl (.inl h)
  | identifier h => exact iff_of_false nofun fun hall => hall _ rfl (.inr (.inl h))
  | endOfInput h => exact iff_of_false nofun fun hall => hall _ rfl (.inr (.inr h))

theorem ofReference_of_mem (hidentifier : word ≠ identifierMark) (hend : word ≠ endMark)
    (h : word ∈ words) : ofReference words sigil word = .terminal word := by
  unfold ofReference
  rw [if_neg hidentifier, if_neg hend, if_pos h]

/-- Behind a sigil a name is a nonterminal, unless the reference is a mark or a reserved word. -/
theorem ofReference_append (hsigil : sigil ≠ "") (hname : name ≠ "")
    (hidentifier : sigil ++ name ≠ identifierMark) (hend : sigil ++ name ≠ endMark)
    (h : sigil ++ name ∉ words) : ofReference words sigil (sigil ++ name) = .nonterminal name := by
  have hbehind : sigil.toList.isPrefixOf? (sigil ++ name).toList = some name.toList := by
    rw [List.isPrefixOf?_eq_some_iff_append_eq, String.toList_append]
  unfold ofReference
  rw [if_neg hidentifier, if_neg hend, if_neg h, if_neg (by simpa using hsigil), hbehind]
  cases hcs : name.toList with
  | nil => exact absurd (String.toList_inj.mp hcs) hname
  | cons c cs =>
    simp only
    rw [← hcs, String.ofList_toList]

/-- **References are read so**, with a token list that holds the reserved words and, maybe, the
marks. -/
theorem readAs_ofReference (hs : s.Expressible vocabulary) (hsigil : sigil ≠ "")
    (hidentifier : identifierMark ∉ vocabulary) (hend : endMark ∉ vocabulary)
    (hwords : ∀ word, word ≠ identifierMark → word ≠ endMark →
      (word ∈ words ↔ word ∈ vocabulary)) :
    ReadAs vocabulary sigil s (ofReference words sigil (s.reference sigil)) := by
  have hneither {word : String} (h : word ∈ vocabulary) : word ≠ identifierMark ∧ word ≠ endMark :=
    ⟨fun e => hidentifier (e ▸ h), fun e => hend (e ▸ h)⟩
  cases hs with
  | identifier => exact .token rfl
  | endOfInput => exact .token rfl
  | @terminal word h =>
    have hread : ofReference words sigil word = .terminal word :=
      ofReference_of_mem (hneither h).1 (hneither h).2
        ((hwords word (hneither h).1 (hneither h).2).mpr h)
    show ReadAs vocabulary sigil _ (ofReference words sigil word)
    rw [hread]
    exact .token rfl
  | @nonterminal name h =>
    -- The marks are looked for first, and reserved words before the sigil.
    show ReadAs vocabulary sigil _ (ofReference words sigil (sigil ++ name))
    by_cases hname : sigil ++ name = identifierMark
    · unfold ofReference
      rw [if_pos hname]
      exact .identifier hname
    by_cases hmark : sigil ++ name = endMark
    · unfold ofReference
      rw [if_neg hname, if_pos hmark]
      exact .endOfInput hmark
    by_cases hword : sigil ++ name ∈ vocabulary
    · rw [ofReference_of_mem hname hmark ((hwords _ hname hmark).mpr hword)]
      exact .reservedWord hword
    · rw [ofReference_append hsigil h hname hmark (mt (hwords _ hname hmark).mp hword)]
      exact .nonterminal fun hhidden => hhidden.elim hword fun hhidden => hhidden.elim hname hmark

end Symbol

namespace Grammar

variable {g : Grammar} {sigil : String} {tokens : List String}

/-! ## Definitions -/

/-- The definition that a grammar is written as. -/
def written (g : Grammar) (sigil : String) : OrderedMap String (List (List String)) :=
  g.rules.mapValues fun _ alts => alts.map (·.map (Symbol.reference sigil))

/-- The alternatives hold only symbols that can be referred to. -/
def Expressible (g : Grammar) : Prop :=
  ∀ p ∈ g.productions, ∀ s ∈ p.rhs, s.Expressible g.vocabulary

/-- The token list holds the reserved words, in any order and number, with the marks or without. -/
def Lists (g : Grammar) (tokens : List String) : Prop :=
  ∀ word, word ≠ Symbol.identifierMark → word ≠ Symbol.endMark →
    (word ∈ tokens ↔ word ∈ g.vocabulary)

/-- The written alternatives of a nonterminal are read symbol by symbol. -/
theorem find?_ofDefinition_written (g : Grammar) (sigil : String) (tokens : List String)
    (name : String) :
    (ofDefinition g.start (g.written sigil) tokens sigil).rules.find? name =
      (g.rules.find? name).map fun alts => alts.map (·.map fun s =>
        .ofReference (.ofList tokens) sigil (s.reference sigil)) := by
  show (((g.written sigil).mapValues _).find? name) = _
  unfold written
  rw [OrderedMap.find?_mapValues, OrderedMap.find?_mapValues]
  cases g.rules.find? name <;> simp [Function.comp_def]

/-- A symbol of an alternative is read as the reference says. -/
theorem readAs_of_mem (hg : g.Expressible) (hsigil : sigil ≠ "") (ht : g.Lists tokens)
    {p : Production} (hp : p ∈ g.productions) {s : Symbol} (hs : s ∈ p.rhs) :
    Symbol.ReadAs g.vocabulary sigil s
      (.ofReference (.ofList tokens) sigil (s.reference sigil)) := by
  refine Symbol.readAs_ofReference (hg p hp s hs) hsigil g.identifierMark_not_mem
    g.endMark_not_mem fun word hidentifier hend => ?_
  rw [SortedSet.mem_ofList]
  exact ht word hidentifier hend

theorem vocabulary_ofDefinition (ht : g.Lists tokens) (start : String)
    (definition : OrderedMap String (List (List String))) :
    (ofDefinition start definition tokens sigil).vocabulary = g.vocabulary := by
  refine SortedSet.ext fun word => ?_
  unfold ofDefinition
  rw [mem_vocabulary_build, SortedSet.mem_ofList]
  constructor
  · rintro ⟨hword, hidentifier, hend⟩
    exact (ht word hidentifier hend).mp hword
  · intro hword
    have hidentifier : word ≠ Symbol.identifierMark := fun e => g.identifierMark_not_mem (e ▸ hword)
    have hend : word ≠ Symbol.endMark := fun e => g.endMark_not_mem (e ▸ hword)
    exact ⟨(ht word hidentifier hend).mpr hword, hidentifier, hend⟩

theorem nonterminals_ofDefinition_written :
    (ofDefinition g.start (g.written sigil) tokens sigil).nonterminals = g.nonterminals := by
  show ((g.written sigil).mapValues _).keys = _
  rw [OrderedMap.keys_mapValues]
  exact OrderedMap.keys_mapValues _ _

/-- The written alternatives of a nonterminal are read back iff none of their symbols is a hidden
nonterminal. -/
theorem map_ofReference_eq_iff (hg : g.Expressible) (hsigil : sigil ≠ "") (ht : g.Lists tokens)
    {name : String} {alts : List (List Symbol)} (halts : g.rules.find? name = some alts) :
    (alts.map (·.map fun s => .ofReference (.ofList tokens) sigil (s.reference sigil)) = alts) ↔
      ∀ alt ∈ alts, ∀ s ∈ alt, ∀ hidden, s = .nonterminal hidden →
        ¬ Symbol.Hidden g.vocabulary sigil hidden := by
  have hkept {α : Type} (f : α → α) (xs : List α) : xs.map f = xs ↔ ∀ x ∈ xs, f x = x := by
    conv_lhs => rw [← List.map_id xs, List.map_map]
    exact List.map_inj_left
  rw [hkept]
  refine forall₂_congr fun alt halt => ?_
  rw [hkept]
  exact forall₂_congr fun s hs =>
    (readAs_of_mem (p := ⟨name, alt⟩) hg hsigil ht
      (mem_productions.mpr ⟨alts, halts, halt⟩) hs).eq_iff

/-- **A grammar is recovered from its definition** iff no nonterminal in use is hidden. With a token
list of its reserved words, in any order and number and with the marks or without, a written grammar
is read with the same start symbol, reserved words and nonterminals, and every symbol of an
alternative is read as itself, or as the reserved word or the mark that hides it. -/
theorem ofDefinition_written (hg : g.Expressible) (hsigil : sigil ≠ "") (ht : g.Lists tokens) :
    (ofDefinition g.start (g.written sigil) tokens sigil = g ↔
      ∀ p ∈ g.productions, ∀ name, .nonterminal name ∈ p.rhs →
        ¬ Symbol.Hidden g.vocabulary sigil name) ∧
    (ofDefinition g.start (g.written sigil) tokens sigil).start = g.start ∧
    (ofDefinition g.start (g.written sigil) tokens sigil).vocabulary = g.vocabulary ∧
    (ofDefinition g.start (g.written sigil) tokens sigil).nonterminals = g.nonterminals ∧
    ∀ name alts, g.rules.find? name = some alts →
      ∃ alts', (ofDefinition g.start (g.written sigil) tokens sigil).rules.find? name =
        some alts' ∧ List.Forall₂ (List.Forall₂ (Symbol.ReadAs g.vocabulary sigil)) alts alts' := by
  refine ⟨⟨fun heq p hp name hname => ?_, fun hhidden => ?_⟩, rfl, vocabulary_ofDefinition ht _ _,
    nonterminals_ofDefinition_written, fun name alts halts => ?_⟩
  · obtain ⟨alts, halts, halt⟩ := mem_productions.mp hp
    have hread := find?_ofDefinition_written g sigil tokens p.lhs
    rw [heq, halts, Option.map_some, Option.some_inj] at hread
    exact (map_ofReference_eq_iff hg hsigil ht halts).mp hread.symm _ halt _ hname name rfl
  · refine ext_of rfl (OrderedMap.ext nonterminals_ofDefinition_written fun name => ?_) fun word => ?_
    · rw [find?_ofDefinition_written]
      cases halts : g.rules.find? name with
      | none => rfl
      | some alts =>
        refine congrArg some ((map_ofReference_eq_iff hg hsigil ht halts).mpr ?_)
        rintro alt halt s hs hidden rfl
        exact hhidden ⟨name, alt⟩ (mem_productions.mpr ⟨alts, halts, halt⟩) hidden hs
    · rw [vocabulary_ofDefinition ht]
  · refine ⟨_, by rw [find?_ofDefinition_written, halts]; rfl, ?_⟩
    rw [List.forall₂_map_right_iff, List.forall₂_same]
    intro alt halt
    rw [List.forall₂_map_right_iff, List.forall₂_same]
    exact fun s hs => readAs_of_mem (p := ⟨name, alt⟩) hg hsigil ht
      (mem_productions.mpr ⟨alts, halts, halt⟩) hs

/-- A reserved word of this grammar is the name of a nonterminal behind an `E`. -/
def elseBranch : Grammar :=
  .build "S" (.ofList [
    ("S", [[.terminal "If", .identifier, .nonterminal "lse", .endOfInput]]),
    ("lse", [[.terminal "Else", .nonterminal "S"], []])]) (.ofList ["If", "Else"])

theorem productions_elseBranch : elseBranch.productions =
    [⟨"S", [.terminal "If", .identifier, .nonterminal "lse", .endOfInput]⟩,
      ⟨"lse", [.terminal "Else", .nonterminal "S"]⟩, ⟨"lse", []⟩] := by
  decide +kernel

theorem expressible_elseBranch : elseBranch.Expressible := by
  have hif : "If" ∈ elseBranch.vocabulary := by decide
  have helse : "Else" ∈ elseBranch.vocabulary := by decide
  unfold Expressible
  rw [productions_elseBranch]
  simp only [List.forall_mem_cons, List.not_mem_nil, false_implies, implies_true, and_true]
  exact ⟨⟨.terminal hif, .identifier, .nonterminal (by decide), .endOfInput⟩, .terminal helse,
    .nonterminal (by decide)⟩

/-- Behind an `e` the nonterminals are read again, behind an `E` one of them is read as a keyword. -/
theorem elseBranch_written : elseBranch.Expressible ∧ "e" ≠ "" ∧ "E" ≠ "" ∧
    elseBranch.Lists ["Else", "NAME", "If", "Else"] ∧
    ofDefinition "S" (elseBranch.written "e") ["Else", "NAME", "If", "Else"] "e" = elseBranch ∧
    ofDefinition "S" (elseBranch.written "E") ["Else", "NAME", "If", "Else"] "E" ≠ elseBranch := by
  have hlists : elseBranch.Lists ["Else", "NAME", "If", "Else"] := by
    intro word hidentifier _
    have hne : word ≠ "NAME" := hidentifier
    rw [SortedSet.mem_def, show elseBranch.vocabulary.toList = ["Else", "If"] by decide +kernel]
    simp only [List.mem_cons, List.not_mem_nil, or_false]
    tauto
  have he : "e" ≠ "" := by decide
  have hE : "E" ≠ "" := by decide
  obtain ⟨hlower, -⟩ := ofDefinition_written expressible_elseBranch he hlists
  obtain ⟨hupper, -⟩ := ofDefinition_written expressible_elseBranch hE hlists
  rw [productions_elseBranch] at hlower hupper
  refine ⟨expressible_elseBranch, he, hE, hlists, hlower.mpr ?_, fun heq => ?_⟩
  · have hlse : ¬ Symbol.Hidden elseBranch.vocabulary "e" "lse" := by
      unfold Symbol.Hidden
      decide +kernel
    have hstart : ¬ Symbol.Hidden elseBranch.vocabulary "e" "S" := by
      unfold Symbol.Hidden
      decide +kernel
    intro p hp name hname
    simp only [List.mem_cons, List.not_mem_nil, or_false] at hp
    obtain rfl | rfl | rfl := hp
    · obtain rfl : name = "lse" := by
        simpa [Symbol.nonterminal, Symbol.terminal, Symbol.identifier, Symbol.endOfInput]
          using hname
      exact hlse
    · obtain rfl : name = "S" := by
        simpa [Symbol.nonterminal, Symbol.terminal] using hname
      exact hstart
    · cases hname
  · exact hupper.mp heq _ List.mem_cons_self "lse" (by decide) (.inl (by decide))

end Grammar

end Predictive
