import Predictive.Symbol
import Predictive.OrderedMap
import Predictive.Error
import Predictive.SignedIndex

/-!
# Context-free grammars

A grammar gives each nonterminal its alternatives in order and names the reserved words of its
token stream. The place of an alternative in its list is what a parsing table stores. Nothing here
asks whether the names in an alternative are declared: that is the business of `Validation`.

* `Grammar.build`: the only way to make a grammar; the two marks are never reserved words.
* `Production`: one alternative together with its nonterminal, and its written form.
-/

namespace Predictive

/-- A nonterminal with one of its alternatives. -/
structure Production where
  lhs : String
  rhs : List Symbol
  deriving DecidableEq

/-- The written form: the nonterminal, an arrow, and the names of the alternative. -/
def Production.text (p : Production) : String :=
  p.lhs ++ " -> " ++
    if p.rhs.isEmpty then Symbol.emptyMark else " ".intercalate (p.rhs.map Symbol.name)

/-- The alternatives of every nonterminal, and the reserved words. -/
structure Grammar where
  /-- The nonterminal at which derivations begin. -/
  start : String
  /-- The alternatives of each nonterminal. -/
  rules : OrderedMap String (List (List Symbol))
  /-- The lexemes that are tokens of their own. -/
  vocabulary : SortedSet String
  identifierMark_not_mem : Symbol.identifierMark ∉ vocabulary
  endMark_not_mem : Symbol.endMark ∉ vocabulary
  deriving DecidableEq

namespace Grammar

/-- Makes a grammar; the marks of the identifiers and of the end are no reserved words. -/
def build (start : String) (rules : OrderedMap String (List (List Symbol)))
    (words : SortedSet String) : Grammar where
  start := start
  rules := rules
  vocabulary := (words.erase Symbol.identifierMark).erase Symbol.endMark
  identifierMark_not_mem := by simp
  endMark_not_mem := by simp

theorem mem_vocabulary_build {start word : String} {rules : OrderedMap String (List (List Symbol))}
    {words : SortedSet String} : word ∈ (build start rules words).vocabulary ↔
      word ∈ words ∧ word ≠ Symbol.identifierMark ∧ word ≠ Symbol.endMark := by
  unfold build
  rw [SortedSet.mem_erase, SortedSet.mem_erase, and_assoc]

/-- Two grammars with the same start symbol, alternatives and reserved words are equal. -/
theorem ext_of {g g' : Grammar} (hstart : g.start = g'.start) (hrules : g.rules = g'.rules)
    (hvocabulary : ∀ word, word ∈ g.vocabulary ↔ word ∈ g'.vocabulary) : g = g' := by
  obtain ⟨start, rules, vocabulary, _, _⟩ := g
  obtain ⟨start', rules', vocabulary', _, _⟩ := g'
  cases hstart
  cases hrules
  cases SortedSet.ext hvocabulary
  rfl

/-- The nonterminals in the order of their declaration. -/
def nonterminals (g : Grammar) : List String := g.rules.keys

/-- The symbols that a token can be. -/
def terminals (g : Grammar) : SymbolSet :=
  .ofList (Symbol.identifier :: Symbol.endOfInput :: g.vocabulary.toList.map Symbol.terminal)

/-- The productions of one nonterminal, given its alternatives. -/
def productionsOf (name : String) (alternatives : List (List Symbol)) : List Production :=
  alternatives.map (⟨name, ·⟩)

/-- All productions, in the order of declaration. -/
def productions (g : Grammar) : List Production :=
  g.rules.entries.flatMap fun e => productionsOf e.1 e.2

/-- The productions of a nonterminal. -/
def alternatives (g : Grammar) (name : String) : Except LookupFault (List Production) :=
  match g.rules.find? name with
  | some alts => .ok (productionsOf name alts)
  | none => .error (.unknownName name)

/-- The alternative of a nonterminal at an index. -/
def production? (g : Grammar) (name : String) (index : Int) : Except LookupFault Production :=
  match g.rules.find? name with
  | none => .error (.unknownName name)
  | some alts =>
    match SignedIndex.get? alts index with
    | none => .error .noSuchIndex
    | some rhs => .ok ⟨name, rhs⟩

/-- The symbol is one that an alternative may use. -/
def isDeclared (g : Grammar) (s : Symbol) : Bool :=
  match s.kind with
  | .nonterminal => g.rules.contains s.name
  | .terminal => s.name ∈ g.vocabulary
  | .identifier | .endOfInput => true
  | .empty => false

/-- The productions in written form, one a line. -/
def text (g : Grammar) : String := "\n".intercalate (g.productions.map Production.text)

/-- The token that a lexeme is; the end of the stream has no lexeme. -/
def classify (g : Grammar) : Option String → Symbol
  | none => .endOfInput
  | some lexeme => if lexeme ∈ g.vocabulary then .terminal lexeme else .identifier

end Grammar

end Predictive
