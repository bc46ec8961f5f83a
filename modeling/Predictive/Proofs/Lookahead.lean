import Mathlib.Data.List.Nodup
import Mathlib.Order.WellFounded
import Predictive.Proofs.Table

/-!
# Nesting before a token is read

While the automaton looks at one token, it may take an alternative for it and descend into a
nonterminal of that alternative. It does so only if nothing in front of the nonterminal can begin
with the token: what stands there has vanished.

* `ParsingTable.Decides.nests_wellFounded`: if the table decides the grammar, this nesting follows a
  finite derivation, so that it is well founded. Left recursion behind a prefix that can vanish is
  no exception.
* `ParsingTable.Decides.length_le_of_nested`: nonterminals that are nested one in the other for one
  token are no more than the grammar has.
-/

namespace Predictive.ParsingTable

variable {g : Grammar} {table : ParsingTable} {t : Symbol}

/-- The inner nonterminal stands in the alternative that the token selects for the outer one, and
nothing in front of it can begin with the token. -/
def Nests (table : ParsingTable) (g : Grammar) (t : Symbol) (inner outer : String) : Prop :=
  ∃ i p u v, table.lookup outer t = some i ∧ g.production? outer i = .ok p ∧
    p.rhs = u ++ .nonterminal inner :: v ∧ ¬ g.Begins t u

namespace Decides

variable (h : table.Decides g) (ht : t.IsToken)

include h ht

/-- If some alternative is selected, then nesting happens inside that one. -/
theorem nests_iff_of_selects {outer inner : String} {rhs : List Symbol}
    (hr : g.HasAlternative outer rhs) (hs : g.Selects outer rhs t) :
    table.Nests g t inner outer ↔ ∃ u v, rhs = u ++ .nonterminal inner :: v ∧ ¬ g.Begins t u := by
  constructor
  · rintro ⟨i, p, u, v, hl, hp, hrhs, hu⟩
    have heq : p.rhs = rhs := h.unique ht (Grammar.hasAlternative_of_production? hp)
      (h.selects ht hl hp) hr hs
    exact ⟨u, v, heq ▸ hrhs, hu⟩
  · rintro ⟨u, v, hrhs, hu⟩
    obtain ⟨i, hl, hp⟩ := h.exists_lookup ht hr hs
    exact ⟨i, _, u, v, hl, hp, hrhs, hu⟩

/-- Where everything vanishes in front of the token, nesting follows the derivation of nothing. -/
theorem acc_of_vanishes {u : List Symbol} (hu : g.Vanishes u)
    (hf : ∀ name, .nonterminal name ∈ u → g.Follows t name) {name : String}
    (hn : .nonterminal name ∈ u) : Acc (table.Nests g t) name := by
  induction hu generalizing name with
  | nil => exact absurd hn List.not_mem_nil
  | @cons name' rhs rest hr hrhs _ ihrhs ihrest =>
    rcases List.mem_cons.mp hn with heq | hn
    · cases heq
      have hfollows : g.Follows t name' := hf name' List.mem_cons_self
      refine ⟨_, fun inner hin => ?_⟩
      obtain ⟨x, y, rfl, -⟩ := (h.nests_iff_of_selects ht hr (.inr ⟨hrhs, hfollows⟩)).mp hin
      exact ihrhs (fun _ hmem => hfollows.of_mem hr hrhs hmem)
        (List.mem_append_right x List.mem_cons_self)
    · exact ihrest (fun name'' hmem => hf name'' (List.mem_cons_of_mem _ hmem)) hn

/-- Where an alternative can begin with the token, nesting either follows the derivation that shows
it, or happens in front of the symbol that brings the token, where everything vanishes. -/
theorem acc_of_begins {w : List Symbol} (hw : g.Begins t w) {outer : String} (done : List Symbol)
    (hr : g.HasAlternative outer (done ++ w)) {u v : List Symbol} {name : String}
    (heq : w = u ++ .nonterminal name :: v) (hu : ¬ g.Begins t u) :
    Acc (table.Nests g t) name := by
  induction hw generalizing outer done u v name with
  | here ha =>
    cases u with
    | nil =>
      cases heq
      exact absurd ha (by simp)
    | cons s u =>
      obtain ⟨rfl, -⟩ := List.cons.inj heq
      exact absurd (.here ha) hu
  | @within name' rhs rest hr' hrhs ih =>
    cases u with
    | nil =>
      cases heq
      refine ⟨_, fun inner hin => ?_⟩
      obtain ⟨x, y, hxy, hx⟩ := (h.nests_iff_of_selects ht hr' (.inl hrhs)).mp hin
      exact ih [] hr' hxy hx
    | cons s u =>
      obtain ⟨rfl, -⟩ := List.cons.inj heq
      exact absurd (.within hr' hrhs) hu
  | @behind name' rest hv hrest ih =>
    cases u with
    | nil =>
      cases heq
      refine h.acc_of_vanishes ht hv (fun name'' hmem => ?_) List.mem_cons_self
      cases List.mem_singleton.mp hmem
      exact Grammar.follows_of_begins hr.mem_nonterminals
        (by simpa only [List.append_nil] using Grammar.derives_cons hr []) hrest
    | cons s u =>
      obtain ⟨rfl, hrest'⟩ := List.cons.inj heq
      have hr' : g.HasAlternative outer (done ++ [.nonterminal name'] ++ rest) := by
        simpa only [List.append_assoc, List.cons_append, List.nil_append] using hr
      exact ih _ hr' hrest' fun hb => hu (.behind hv hb)

/-- **Nesting for one token is well founded.** -/
theorem nests_wellFounded : WellFounded (table.Nests g t) := by
  refine ⟨fun outer => ⟨_, fun inner hin => ?_⟩⟩
  obtain ⟨i, p, u, v, hl, hp, hrhs, hu⟩ := hin
  have hr : g.HasAlternative outer p.rhs := Grammar.hasAlternative_of_production? hp
  rcases h.selects ht hl hp with hb | ⟨hv, hf⟩
  · exact h.acc_of_begins ht hb [] hr hrhs hu
  · have hmem : .nonterminal inner ∈ p.rhs := hrhs ▸ List.mem_append_right u List.mem_cons_self
    exact h.acc_of_vanishes ht hv (fun _ hm => hf.of_mem hr hv hm) hmem

/-- **Nonterminals nested in each other for one token are no more than the grammar has.** -/
theorem length_le_of_nested {names : List String} (hn : names.IsChain (table.Nests g t))
    (hd : ∀ name ∈ names, name ∈ g.nonterminals) : names.length ≤ g.nonterminals.length := by
  have hw : WellFounded (Relation.TransGen (table.Nests g t)) := (h.nests_wellFounded ht).transGen
  have hp : names.Pairwise (Relation.TransGen (table.Nests g t)) :=
    List.isChain_iff_pairwise.mp (hn.imp fun _ _ => Relation.TransGen.single)
  have hnodup : names.Nodup := by
    refine hp.imp ?_
    rintro name _ hr rfl
    exact hw.irrefl.irrefl name hr
  exact (hnodup.subperm hd).length_le

end Decides

end Predictive.ParsingTable
