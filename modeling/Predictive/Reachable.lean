import Predictive.Grammar

/-!
# Reachable nonterminals

The declared nonterminals that the start symbol leads to, in the order of a depth-first visit: of
the names in an alternative the last one is visited first.
-/

namespace Predictive.Grammar

/-- The nonterminals that occur in the alternatives of a name, in order. -/
def mentioned (g : Grammar) (name : String) : List String :=
  (((g.rules.find? name).getD []).flatten.filter Symbol.isNonterminal).map Symbol.name

/-- The number of nonterminals that have not been visited. -/
def unvisited (g : Grammar) (visited : List String) : Nat :=
  (g.nonterminals.filter (!visited.contains ·)).length

theorem unvisited_lt {g : Grammar} {visited : List String} {name : String}
    (hv : ¬ name ∈ visited) (hn : g.rules.contains name = true) :
    g.unvisited (visited ++ [name]) < g.unvisited visited := by
  have hmem : name ∈ g.nonterminals := OrderedMap.contains_iff.mp hn
  unfold unvisited
  have hsub : g.nonterminals.filter (!(visited ++ [name]).contains ·) =
      (g.nonterminals.filter (!visited.contains ·)).filter (· ≠ name) := by
    rw [List.filter_filter]
    refine List.filter_congr fun x _ => ?_
    by_cases h : x = name <;> simp [h]
  rw [hsub]
  refine Nat.lt_of_le_of_ne (List.length_filter_le _ _) fun h => ?_
  have := List.length_filter_eq_length_iff.mp h name (List.mem_filter.mpr ⟨hmem, by simpa using hv⟩)
  simp at this

/-- Visits pending names, the first one first, and then all that each newly visited one leads to
before the others. -/
def visit (g : Grammar) (visited : List String) : (pending : List String) → List String
  | [] => visited
  | name :: pending =>
    if h : name ∈ visited ∨ g.rules.contains name = false then visit g visited pending
    else
      have : g.unvisited (visited ++ [name]) < g.unvisited visited :=
        unvisited_lt (fun hv => h (.inl hv)) (by simpa using fun hn => h (.inr hn))
      visit g (visited ++ [name]) ((g.mentioned name).reverse ++ pending)
termination_by pending => (g.unvisited visited, pending.length)

/-- The declared nonterminals that the start symbol leads to, in the order of their visit. -/
def reachable (g : Grammar) : List String := g.visit [] [g.start]

end Predictive.Grammar
