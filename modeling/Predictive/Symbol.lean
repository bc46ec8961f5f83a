import Predictive.SortedSet

/-!
# Grammar symbols

A symbol is a name of one of five kinds. Three symbols are fixed: `identifier` stands for every
lexeme that is not a reserved word, `endOfInput` for the end of the token stream, and `empty` for
the empty string inside a FIRST set. Symbols are ordered by kind, then by name.

* `compare_eq_iff`, with the instances of `TransOrd` and `LawfulEqOrd`: the order is total.
-/

namespace Predictive

/-- What a symbol stands for. -/
inductive SymbolKind where
  | terminal
  | identifier
  | endOfInput
  | nonterminal
  | empty
  deriving DecidableEq

namespace SymbolKind

/-- The place of a kind in the order of symbols. -/
def rank : SymbolKind → Nat
  | terminal => 1
  | identifier => 2
  | endOfInput => 3
  | nonterminal => 4
  | empty => 5

theorem rank_injective {a b : SymbolKind} (h : a.rank = b.rank) : a = b := by
  cases a <;> cases b <;> first | rfl | exact absurd h (by decide)

end SymbolKind

/-- A name of some kind. -/
structure Symbol where
  kind : SymbolKind
  name : String
  deriving DecidableEq

instance : Inhabited Symbol := ⟨⟨.empty, ""⟩⟩

namespace Symbol

/-- Symbols are ordered by kind, then by name. -/
instance : Ord Symbol where
  compare := compareLex (compareOn fun s => s.kind.rank) (compareOn fun s => s.name)

instance : Std.TransOrd Symbol :=
  inferInstanceAs (Std.TransCmp (compareLex (compareOn _) (compareOn _)))

theorem compare_eq_iff {s t : Symbol} :
    compare s t = .eq ↔ s.kind.rank = t.kind.rank ∧ s.name = t.name := by
  show compareLex (compareOn fun s : Symbol => s.kind.rank) (compareOn fun s => s.name) s t = _ ↔ _
  simp [compareLex_eq_eq, compareOn]

instance : Std.LawfulEqOrd Symbol where
  eq_of_compare {s t} h := by
    have ⟨hk, hn⟩ := compare_eq_iff.mp h
    obtain ⟨k, n⟩ := s
    obtain ⟨k', n'⟩ := t
    obtain rfl := SymbolKind.rank_injective hk
    obtain rfl := hn
    rfl

/-- The symbol is to be replaced by one of its alternatives. -/
def isNonterminal (s : Symbol) : Bool := s.kind = .nonterminal

/-- The mark for the class of identifiers. -/
def identifierMark : String := "NAME"

/-- The mark for the end of the token stream. -/
def endMark : String := "END_OF_FILE"

/-- The written form of the empty string. -/
def emptyMark : String := "ε"

/-- Any lexeme that is not a reserved word. -/
def identifier : Symbol := ⟨.identifier, identifierMark⟩

/-- The end of the token stream. -/
def endOfInput : Symbol := ⟨.endOfInput, endMark⟩

/-- The empty string, as a member of a FIRST set. -/
def empty : Symbol := ⟨.empty, emptyMark⟩

/-- A reserved word. -/
def terminal (name : String) : Symbol := ⟨.terminal, name⟩

/-- A name with alternatives. -/
def nonterminal (name : String) : Symbol := ⟨.nonterminal, name⟩

/-- The symbols of a list in order, repetitions kept. -/
def sort (symbols : List Symbol) : List Symbol :=
  symbols.mergeSort fun s t => (compare s t).isLE

end Symbol

/-- A finite set of symbols, listed by kind and name. -/
abbrev SymbolSet := SortedSet Symbol

/-- The names of the members, in order. -/
def SortedSet.names (s : SymbolSet) : List String := s.toList.map Symbol.name

end Predictive
