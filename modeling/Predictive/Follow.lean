import Predictive.First

/-!
# FOLLOW sets

The FOLLOW set of a nonterminal holds the symbols that can come directly after it in what some
nonterminal derives. Every occurrence of a nonterminal in a production is a `Flow`: it brings what
can begin the rest of the production and, if the rest can vanish, what follows the production's own
nonterminal. The flows are applied in order, pass after pass, until a pass changes nothing; the
state after every pass is kept. Nothing is put in at the beginning: the end of the input follows a
nonterminal only where a production says so.

* `FollowSets.compute`: the sets, or the reason why there are none.
* `FollowSets.addedIn?`: what one pass has added.
-/

namespace Predictive

/-- What an occurrence of a nonterminal in a production brings to its FOLLOW set. -/
structure Flow where
  /-- The nonterminal that occurs. -/
  target : String
  /-- What can begin the rest of the production. -/
  seeds : SymbolSet
  /-- The production's own nonterminal, if the rest can vanish. -/
  source : Option String

namespace Flow

/-- The flows of the occurrences in a part of a production of `lhs`. -/
def ofRhs (first : FirstSets) (lhs : String) : List Symbol → List Flow
  | [] => []
  | s :: rest =>
    let next := first.ofSequence rest
    let later := ofRhs first lhs rest
    if s.isNonterminal then
      { target := s.name
        seeds := next.erase .empty
        source := if Symbol.empty ∈ next then some lhs else none } :: later
    else later

/-- The flows of a grammar, in the order of its productions. -/
def ofGrammar (g : Grammar) (first : FirstSets) : List Flow :=
  g.productions.flatMap fun p => ofRhs first p.lhs p.rhs

/-- What a flow brings when the FOLLOW sets are as given. -/
def brings (f : Flow) (sets : SymbolSets) : SymbolSet :=
  match f.source with
  | none => f.seeds
  | some lhs => f.seeds ∪ sets.of lhs

/-- Adds what a flow brings to the set of its target. -/
def apply (sets : SymbolSets) (f : Flow) : SymbolSets :=
  sets.modify f.target (· ∪ f.brings sets)

/-- One pass: all flows in order. -/
def pass (flows : List Flow) (sets : SymbolSets) : SymbolSets := flows.foldl apply sets

/-- Passes that have been made. -/
structure Passes where
  /-- How many there were. -/
  count : Nat
  /-- The state after each of the last ones. -/
  history : List SymbolSets

/-- The passes up to the first that changes nothing, if at most `bound` are needed. The passes that
were made before, `done` of them, are counted too. -/
def converge (flows : List Flow) : (bound done : Nat) → SymbolSets → Option Passes
  | 0, _, _ => none
  | bound + 1, done, sets =>
    let next := pass flows sets
    if next = sets then some ⟨done + 1, [next]⟩
    else (converge flows bound (done + 1) next).map fun later =>
      ⟨later.count, next :: later.history⟩

end Flow

/-- The FOLLOW sets of a grammar with the way to them. -/
structure FollowSets where
  /-- FOLLOW of each nonterminal. -/
  sets : SymbolSets
  /-- The number of passes that were made; the last of them changed nothing. -/
  passes : Nat
  /-- The state after every pass. -/
  history : List SymbolSets

namespace FollowSets

/-- The number of passes that is always enough: every pass but the last adds a terminal to some
set. -/
def passLimit (g : Grammar) : Nat := g.nonterminals.length * g.terminals.size + 1

/-- The first nonterminal in use that has no alternatives to follow. -/
def undeclared? (g : Grammar) (flows : List Flow) : Option String :=
  (flows.map Flow.target).find? (!g.rules.contains ·)

/-- The FOLLOW sets, with a limit on the number of passes. -/
def compute (g : Grammar) (first : FirstSets) (maxPasses : Option Int) :
    Except Failure FollowSets :=
  let bound : Nat := match maxPasses with
    | some n => n.toNat
    | none => passLimit g
  let flows := Flow.ofGrammar g first
  let divergence := Failure.grammar (.fixpointDivergence bound)
  if bound = 0 then .error divergence
  else match undeclared? g flows with
    | some name => .error (.lookup (.unknownName name))
    | none =>
      match Flow.converge flows bound 0 (g.rules.withKeysOf ∅) with
      | some made =>
        .ok ⟨made.history.getLastD (g.rules.withKeysOf ∅), made.count, made.history⟩
      | none => .error divergence

/-- FOLLOW of a nonterminal. -/
def of? (follow : FollowSets) (name : String) : Except LookupFault SymbolSet :=
  follow.sets.of? name

/-- What a pass has added, for the nonterminals that gained something. Passes count from zero; a
negative index counts from the last pass and compares with nothing. -/
def addedIn? (follow : FollowSets) (index : Int) : Except LookupFault SymbolSets :=
  match SignedIndex.get? follow.history index with
  | none => .error .noSuchIndex
  | some after =>
    let before : SymbolSets :=
      if 0 < index then (SignedIndex.get? follow.history (index - 1)).getD ∅ else ∅
    .ok ((after.mapValues fun name set => set.diff (before.of name)).filter
      fun _ set => !set.isEmpty)

/-- The remark on the number of passes. -/
def diagnostic (follow : FollowSets) : Diagnostic where
  severity := .info
  code := .followPasses
  message := "FOLLOW sets converged after " ++ toString follow.passes ++ " passes"

end FollowSets

end Predictive
