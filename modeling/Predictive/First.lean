import Predictive.Diagnostic
import Predictive.Fixpoint
import Predictive.Grammar
import Predictive.SignedIndex

/-!
# FIRST sets

The FIRST set of a sequence of symbols holds the symbols, other than nonterminals, that can begin
what the sequence derives, and the mark `Symbol.empty` if it can derive the empty string. The sets
of the nonterminals are the least that agree with all productions.

* `FirstSets.ofGrammar`: the sets of the alternatives and of the nonterminals.
* `FirstSets.ambiguities`: symbols that can begin two alternatives of one nonterminal.
-/

namespace Predictive

/-- A set of symbols for every nonterminal. -/
abbrev SymbolSets := OrderedMap String SymbolSet

/-- The set of a nonterminal, empty for a name without one. -/
def SymbolSets.of (sets : SymbolSets) (name : String) : SymbolSet := (sets.find? name).getD ∅

/-- The set of a nonterminal, if the name has one. -/
def SymbolSets.of? (sets : SymbolSets) (name : String) : Except LookupFault SymbolSet :=
  match sets.find? name with
  | some set => .ok set
  | none => .error (.unknownName name)

namespace First

/-- FIRST of a sequence, given FIRST of the nonterminals: a nonterminal that can vanish opens the
way to the symbol behind it. -/
def ofSequence (sets : SymbolSets) : List Symbol → SymbolSet
  | [] => .singleton .empty
  | s :: rest =>
    if s.isNonterminal then
      if Symbol.empty ∈ sets.of s.name then
        (sets.of s.name).erase .empty ∪ ofSequence sets rest
      else sets.of s.name
    else .singleton s

/-- Adds FIRST of one production to the set of its nonterminal. -/
def extend (sets : SymbolSets) (p : Production) : SymbolSets :=
  sets.modify p.lhs (· ∪ ofSequence sets p.rhs)

/-- Extends the sets by all productions in order. -/
def sweep (g : Grammar) (sets : SymbolSets) : SymbolSets := g.productions.foldl extend sets

/-- More sweeps than can change anything: every set holds only `Symbol.empty` and symbols that
occur in an alternative. -/
def sweepBound (g : Grammar) : Nat :=
  g.nonterminals.length * ((g.productions.flatMap Production.rhs).length + 1)

/-- FIRST of every nonterminal: the sets, empty at first, are extended until nothing changes. -/
def ofNonterminals (g : Grammar) : SymbolSets :=
  stabilize (sweep g) (sweepBound g) (g.rules.withKeysOf ∅)

end First

/-- The FIRST sets of a grammar. -/
structure FirstSets where
  /-- FIRST of each alternative of each nonterminal. -/
  alternatives : OrderedMap String (List SymbolSet)
  /-- FIRST of each nonterminal. -/
  merged : SymbolSets

namespace FirstSets

/-- The FIRST sets of a grammar. -/
def ofGrammar (g : Grammar) : FirstSets :=
  let sets := First.ofNonterminals g
  { alternatives := g.rules.mapValues fun _ alts => alts.map (First.ofSequence sets)
    merged := sets }

/-- FIRST of a nonterminal. -/
def of? (first : FirstSets) (name : String) : Except LookupFault SymbolSet := first.merged.of? name

/-- FIRST of one alternative of a nonterminal. -/
def ofAlternative? (first : FirstSets) (name : String) (index : Int) :
    Except LookupFault SymbolSet :=
  match first.alternatives.find? name with
  | none => .error (.unknownName name)
  | some sets =>
    match SignedIndex.get? sets index with
    | some set => .ok set
    | none => .error .noSuchIndex

/-- FIRST of a sequence of symbols. -/
def ofSequence (first : FirstSets) (symbols : List Symbol) : SymbolSet :=
  First.ofSequence first.merged symbols

/-- The nonterminal can derive the empty string. -/
def nullable? (first : FirstSets) (name : String) : Except LookupFault Bool :=
  match first.of? name with
  | .ok set => .ok (decide (Symbol.empty ∈ set))
  | .error e => .error e

end FirstSets

/-- A symbol that can begin two alternatives of a nonterminal. -/
structure Ambiguity where
  nonterminal : String
  symbol : Symbol
  /-- The first alternative that can begin with the symbol. -/
  first : Nat
  /-- The second one. -/
  second : Nat
  deriving DecidableEq

namespace Ambiguity

/-- The warning about an ambiguity. -/
def diagnostic (a : Ambiguity) : Diagnostic where
  severity := .warning
  code := .ambiguousFirstSet
  message := "Nonterminal '" ++ a.nonterminal ++ "' has '" ++ a.symbol.name ++
    "' token in multiple alternatives"
  nonterminal := some a.nonterminal
  symbol := some a.symbol.name
  hint := some ("alternatives " ++ toString a.first ++ " and " ++ toString a.second)

/-- The places in a list of the sets that hold a symbol. -/
def holders (s : Symbol) (sets : List SymbolSet) : List Nat :=
  (sets.zipIdx.filter (s ∈ ·.1)).map Prod.snd

/-- The ambiguities that come to light at one alternative: its symbols, in order, that exactly one
earlier alternative holds. A symbol that two earlier ones hold has come to light before. -/
def atAlternative (name : String) (earlier : List SymbolSet) (set : SymbolSet) : List Ambiguity :=
  set.toList.filterMap fun s =>
    match holders s earlier with
    | [i] => some ⟨name, s, i, earlier.length⟩
    | _ => none

/-- The ambiguities of one nonterminal, alternative by alternative. -/
def amongAlternatives (name : String) (earlier : List SymbolSet) :
    List SymbolSet → List Ambiguity
  | [] => []
  | set :: later =>
    atAlternative name earlier set ++ amongAlternatives name (earlier ++ [set]) later

end Ambiguity

/-- All ambiguities, nonterminal by nonterminal. -/
def FirstSets.ambiguities (first : FirstSets) : List Ambiguity :=
  first.alternatives.entries.flatMap fun e => Ambiguity.amongAlternatives e.1 [] e.2

/-- The warnings about all ambiguities. They advise only: the parsing table decides. -/
def FirstSets.diagnostics (first : FirstSets) : List Diagnostic :=
  first.ambiguities.map Ambiguity.diagnostic

end Predictive
