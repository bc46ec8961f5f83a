import Mathlib.Logic.Equiv.Basic
import Predictive.Proofs.Analysable

/-!
# Grammars that differ in their order only

A grammar is declared in an order: its nonterminals come one after the other, and so do the
alternatives of each. Another order is told by where every alternative goes
(`Grammar.Reordering`). What is declared does not depend on it, and what derivations say neither.

* `Grammar.exists_reordering`: permuted lists of nonterminals and of alternatives are a reordering.
* `Reordering.declared`, `Reordering.productive`: what validation asks for.
* `Reordering.derives`, `Reordering.follows`, `Reordering.selects`: what derivations say.
* `Reordering.exists_run`: a reordered grammar is analysed if the grammar is.
-/

namespace Predictive

namespace Grammar

/-- The nonterminals, and the alternatives of each, come in another order. -/
structure Reordering (g g' : Grammar) where
  /-- Where the alternatives of a nonterminal go. -/
  place : String → Equiv.Perm Nat
  start_eq : g'.start = g.start
  vocabulary_eq : g'.vocabulary = g.vocabulary
  nonterminals_perm : g'.nonterminals.Perm g.nonterminals
  alternativeAt?_place : ∀ name k, g'.alternativeAt? name (place name k) = g.alternativeAt? name k

/-! ## Permuted lists -/

/-- The first place stays, and the others go like those before them. -/
def placeBehind (place : Equiv.Perm Nat) : Equiv.Perm Nat where
  toFun
    | 0 => 0
    | k + 1 => place k + 1
  invFun
    | 0 => 0
    | k + 1 => place.symm k + 1
  left_inv k := by cases k <;> simp
  right_inv k := by cases k <;> simp

/-- The elements of a permuted list are found where some permutation puts their places. -/
theorem exists_place_of_perm {α : Type} {xs ys : List α} (h : xs.Perm ys) :
    ∃ place : Equiv.Perm Nat, ∀ k, ys[place k]? = xs[k]? := by
  induction h with
  | nil => exact ⟨.refl Nat, fun k => rfl⟩
  | cons x _ ih =>
    obtain ⟨place, hplace⟩ := ih
    refine ⟨placeBehind place, fun k => ?_⟩
    cases k with
    | zero => rfl
    | succ k => exact hplace k
  | swap x y xs =>
    refine ⟨Equiv.swap 0 1, fun k => ?_⟩
    match k with
    | 0 =>
      rw [Equiv.swap_apply_left]
      rfl
    | 1 =>
      rw [Equiv.swap_apply_right]
      rfl
    | k + 2 =>
      rw [Equiv.swap_apply_of_ne_of_ne (by omega) (by omega)]
      rfl
  | trans _ _ ih ih' =>
    obtain ⟨place, hplace⟩ := ih
    obtain ⟨place', hplace'⟩ := ih'
    exact ⟨place.trans place', fun k => (hplace' (place k)).trans (hplace k)⟩

variable {g g' : Grammar}

/-- **Grammars with permuted lists of nonterminals and of alternatives are reorderings of each
other.** -/
theorem exists_reordering (hstart : g'.start = g.start)
    (hvocabulary : g'.vocabulary = g.vocabulary)
    (hnonterminals : g'.nonterminals.Perm g.nonterminals)
    (halternatives : ∀ name alts alts', g.rules.find? name = some alts →
      g'.rules.find? name = some alts' → alts.Perm alts') : Nonempty (g.Reordering g') := by
  have hplace (name : String) : ∃ place : Equiv.Perm Nat,
      ∀ k, g'.alternativeAt? name (place k) = g.alternativeAt? name k := by
    by_cases hname : name ∈ g.nonterminals
    · obtain ⟨alts, halts⟩ := OrderedMap.mem_keys.mp hname
      obtain ⟨alts', halts'⟩ := OrderedMap.mem_keys.mp (hnonterminals.mem_iff.mpr hname)
      obtain ⟨place, hplace⟩ := exists_place_of_perm (halternatives name alts alts' halts halts')
      refine ⟨place, fun k => ?_⟩
      rw [alternativeAt?_of_find? halts, alternativeAt?_of_find? halts', hplace]
    · have hname' : name ∉ g'.nonterminals := fun h => hname (hnonterminals.mem_iff.mp h)
      refine ⟨.refl Nat, fun k => ?_⟩
      rw [alternativeAt?_of_not_mem hname, alternativeAt?_of_not_mem hname']
  choose place hplace using hplace
  exact ⟨⟨place, hstart, hvocabulary, hnonterminals, hplace⟩⟩

namespace Reordering

/-- Back to the first order. -/
def symm (r : g.Reordering g') : g'.Reordering g where
  place name := (r.place name).symm
  start_eq := r.start_eq.symm
  vocabulary_eq := r.vocabulary_eq.symm
  nonterminals_perm := r.nonterminals_perm.symm
  alternativeAt?_place name k := by
    have h := r.alternativeAt?_place name ((r.place name).symm k)
    rw [Equiv.apply_symm_apply] at h
    exact h.symm

/-! ## Declarations -/

section Declarations

variable (r : g.Reordering g')

include r

theorem mem_nonterminals {name : String} : name ∈ g'.nonterminals ↔ name ∈ g.nonterminals :=
  r.nonterminals_perm.mem_iff

theorem contains_eq (name : String) : g'.rules.contains name = g.rules.contains name := by
  rw [Bool.eq_iff_iff, OrderedMap.contains_iff, OrderedMap.contains_iff]
  exact r.mem_nonterminals

theorem isDeclared_eq (s : Symbol) : g'.isDeclared s = g.isDeclared s := by
  unfold isDeclared
  rw [r.contains_eq, r.vocabulary_eq]

theorem classify_eq (lexeme : Option String) : g'.classify lexeme = g.classify lexeme := by
  unfold classify
  rw [r.vocabulary_eq]

theorem hasAlternative {name : String} {rhs : List Symbol} (h : g.HasAlternative name rhs) :
    g'.HasAlternative name rhs := by
  obtain ⟨k, hk⟩ := hasAlternative_iff.mp h
  exact hasAlternative_iff.mpr ⟨r.place name k, (r.alternativeAt?_place name k).trans hk⟩

theorem declared (h : g.Declared) : g'.Declared := by
  refine ⟨?_, fun p hp s hs => ?_⟩
  · rw [r.start_eq]
    exact r.mem_nonterminals.mpr h.start
  · rw [r.isDeclared_eq]
    exact h.symbols p (mem_productions.mpr (r.symm.hasAlternative (mem_productions.mp hp))) s hs

theorem productive {name : String} (h : g.Productive name) : g'.Productive name := by
  induction h with
  | @intro name alts halts hne _ ih =>
    -- The list of alternatives is another one, but its members are the same.
    obtain ⟨rhs, hrhs⟩ := List.exists_mem_of_ne_nil alts hne
    obtain ⟨alts', halts', hrhs'⟩ := r.hasAlternative ⟨alts, halts, hrhs⟩
    refine .intro halts' (List.ne_nil_of_mem hrhs') fun leader rest hm => ?_
    obtain ⟨alts'', halts'', hm'⟩ := r.symm.hasAlternative ⟨alts', halts', hm⟩
    rw [halts] at halts''
    cases halts''
    exact ih leader rest hm'

end Declarations

/-! ## Derivations -/

section Derivations

variable (r : g.Reordering g') {a : Symbol} {name : String} {u v : List Symbol}

include r

theorem derives (h : g.Derives u v) : g'.Derives u v := h.mono r.hasAlternative

theorem vanishes (h : g.Vanishes u) : g'.Vanishes u := h.mono r.hasAlternative

theorem begins (h : g.Begins a u) : g'.Begins a u := h.mono r.hasAlternative

theorem follows (h : g.Follows a name) : g'.Follows a name := by
  obtain ⟨root, hroot, u, v, hd⟩ := h
  exact ⟨root, r.mem_nonterminals.mpr hroot, u, v, r.derives hd⟩

theorem inFirst (h : g.InFirst a u) : g'.InFirst a u := by
  rcases h with ⟨ha, h⟩ | ⟨ha, h⟩
  · exact .inl ⟨ha, r.vanishes h⟩
  · exact .inr ⟨ha, r.begins h⟩

theorem selects (h : g.Selects name u a) : g'.Selects name u a := by
  rcases h with h | ⟨h, hf⟩
  · exact .inl (r.begins h)
  · exact .inr ⟨r.vanishes h, r.follows hf⟩

theorem inFirst_iff : g'.InFirst a u ↔ g.InFirst a u := ⟨r.symm.inFirst, r.inFirst⟩

theorem deterministic (h : g.Deterministic) : g'.Deterministic := by
  intro name i j rhs rhs' a hi hj ha hs hs'
  have hij := h name _ _ rhs rhs' a ((r.symm.alternativeAt?_place name i).trans hi)
    ((r.symm.alternativeAt?_place name j).trans hj) ha (r.symm.selects hs) (r.symm.selects hs')
  exact (r.symm.place name).injective hij

/-- **A reordered grammar is analysed if the grammar is.** -/
theorem exists_run (h : ∃ a, Analysis.run g .defaults = .ok a) :
    ∃ a, Analysis.run g' .defaults = .ok a := by
  obtain ⟨⟨hd, hp⟩, hdet⟩ := Analysis.exists_run_iff.mp h
  refine Analysis.exists_run_iff.mpr ⟨⟨r.declared hd, fun name hname => ?_⟩, r.deterministic hdet⟩
  exact r.productive (hp name (r.mem_nonterminals.mp hname))

end Derivations

end Reordering

end Grammar

end Predictive
