import Predictive.Proofs.Derivation
import Predictive.Reachable

/-!
# The nonterminals that the start symbol leads to

One alternative mentions many nonterminals, some of them more than once, some undeclared. The visit
takes all of them up as pending and looks at each one only when its turn comes (`Visit.Turn`), so
neither the pending names nor the visited ones need be fewer after a turn. What every turn keeps is
this: the visited names have been found one by one, each in an alternative of an earlier one
(`Grammar.Found`), and all that they mention is visited or pending (`Visit.Complete`).

* `visit_turns`: the visit is a run of turns that ends with nothing pending.
* `Visit.Turn.complete`: what a turn keeps.
* `reachable_exact`: the main result.
-/

namespace Predictive

namespace Grammar

/-- The inner nonterminal occurs in an alternative of the outer one. -/
def Mentions (g : Grammar) (outer inner : String) : Prop :=
  ∃ rhs, g.HasAlternative outer rhs ∧ .nonterminal inner ∈ rhs

/-- The inner nonterminal is mentioned by the outer one, or by one that is mentioned by it, and so
on; all that come after the outer one are declared. -/
def Reaches (g : Grammar) : String → String → Prop :=
  Relation.ReflTransGen fun outer inner => g.Mentions outer inner ∧ inner ∈ g.nonterminals

/-- Declared names that are found one by one from the start symbol on: every one but the first is
mentioned by an earlier one. -/
inductive Found (g : Grammar) : List String → Prop
  | start (hs : g.start ∈ g.nonterminals) : Found g [g.start]
  | next {names : List String} {outer name : String} (h : Found g names) (ho : outer ∈ names)
      (hm : g.Mentions outer name) (hn : name ∈ g.nonterminals) (hnew : name ∉ names) :
      Found g (names ++ [name])

variable {g : Grammar} {outer name : String} {names : List String}

theorem mem_mentioned : name ∈ g.mentioned outer ↔ g.Mentions outer name := by
  have hname {s : Symbol} : s.isNonterminal = true ∧ s.name = name ↔ s = .nonterminal name :=
    ⟨fun h => h.2 ▸ Symbol.eq_nonterminal h.1, fun h => h ▸ ⟨rfl, rfl⟩⟩
  simp only [mentioned, List.mem_map, List.mem_filter, List.mem_flatten, and_assoc, hname,
    exists_eq_right]
  unfold Mentions HasAlternative
  cases g.rules.find? outer with
  | none => simp
  | some alts => simp

theorem Mentions.mem_nonterminals (h : g.Mentions outer name) : outer ∈ g.nonterminals := by
  obtain ⟨rhs, hrhs, -⟩ := h
  exact hrhs.mem_nonterminals

/-! ## Names that are found one by one -/

namespace Found

theorem nodup (h : g.Found names) : names.Nodup := by
  induction h with
  | start => simp
  | next _ _ _ _ hnew ih =>
    refine List.nodup_append.mpr ⟨ih, by simp, fun a ha b hb hab => ?_⟩
    rw [← List.mem_singleton.mp hb, ← hab] at hnew
    exact hnew ha

theorem head? (h : g.Found names) : names.head? = some g.start := by
  induction h with
  | start => rfl
  | next _ _ _ _ _ ih => rw [List.head?_append, ih, Option.some_or]

theorem reaches (h : g.Found names) (hn : name ∈ names) :
    name ∈ g.nonterminals ∧ g.Reaches g.start name := by
  induction h generalizing name with
  | start hs =>
    obtain rfl := List.mem_singleton.mp hn
    exact ⟨hs, .refl⟩
  | next _ ho hm hdeclared _ ih =>
    rcases List.mem_append.mp hn with hn | hn
    · exact ih hn
    · obtain rfl := List.mem_singleton.mp hn
      exact ⟨hdeclared, (ih ho).2.tail ⟨hm, hdeclared⟩⟩

/-- Every name but the first is mentioned by an earlier one. -/
theorem exists_outer (h : g.Found names) {before after : List String}
    (heq : names = before ++ name :: after) (hne : before ≠ []) :
    ∃ outer ∈ before, g.Mentions outer name := by
  induction h generalizing after with
  | start =>
    obtain ⟨first, before, rfl⟩ := List.exists_cons_of_ne_nil hne
    simp at heq
  | @next names outer last _ ho hm _ _ ih =>
    rcases after.eq_nil_or_concat with rfl | ⟨after, x, rfl⟩
    · -- The name is the one that was found last.
      obtain ⟨rfl, hlast⟩ := List.append_inj' heq rfl
      obtain rfl := List.singleton_inj.mp hlast
      exact ⟨outer, ho, hm⟩
    · rw [List.concat_eq_append, ← List.cons_append, ← List.append_assoc] at heq
      exact ih (List.append_inj' heq rfl).1

end Found

end Grammar

/-! ## The visit, turn by turn -/

/-- How far a visit has come: the names visited, in order, and those pending, the next one first. -/
structure Visit where
  visited : List String
  pending : List String

namespace Visit

/-- A turn of the visit, which looks at the next pending name. -/
inductive Turn (g : Grammar) : Visit → Visit → Prop
  /-- A name that has been visited, or is not declared, is passed over. -/
  | skip {visited pending : List String} {name : String}
      (h : name ∈ visited ∨ name ∉ g.nonterminals) :
      Turn g ⟨visited, name :: pending⟩ ⟨visited, pending⟩
  /-- Another one is visited, and all that it mentions is pending before the others. -/
  | enter {visited pending : List String} {name : String} (hnew : name ∉ visited)
      (hn : name ∈ g.nonterminals) :
      Turn g ⟨visited, name :: pending⟩ ⟨visited ++ [name], (g.mentioned name).reverse ++ pending⟩

/-- The visited names are found one by one, the pending ones are mentioned by them, and nothing that
they mention is left out. -/
structure Complete (g : Grammar) (v : Visit) : Prop where
  found : g.Found v.visited
  mentioned : ∀ name ∈ v.pending, ∃ outer ∈ v.visited, g.Mentions outer name
  closed : ∀ outer ∈ v.visited, ∀ name, g.Mentions outer name → name ∈ g.nonterminals →
    name ∈ v.visited ∨ name ∈ v.pending

variable {g : Grammar} {v next : Visit}

/-- **A turn leaves nothing out**, and finds only what is mentioned. -/
theorem Turn.complete (ht : Turn g v next) (h : Complete g v) : Complete g next := by
  cases ht with
  | @skip visited pending name hskip =>
    refine ⟨h.found, fun n hn => h.mentioned n (List.mem_cons_of_mem _ hn),
      fun outer ho n hm hn => ?_⟩
    rcases h.closed outer ho n hm hn with hv | hp
    · exact .inl hv
    · rcases List.mem_cons.mp hp with rfl | hp
      · exact .inl (hskip.resolve_right (not_not_intro hn))
      · exact .inr hp
  | @enter visited pending name hnew hname =>
    obtain ⟨outer, ho, hm⟩ := h.mentioned name List.mem_cons_self
    refine ⟨h.found.next ho hm hname hnew, fun n hn => ?_, fun outer ho n hm hn => ?_⟩
    · rcases List.mem_append.mp hn with hn | hn
      · exact ⟨name, by simp, Grammar.mem_mentioned.mp (List.mem_reverse.mp hn)⟩
      · obtain ⟨outer, ho, hm⟩ := h.mentioned n (List.mem_cons_of_mem _ hn)
        exact ⟨outer, List.mem_append_left _ ho, hm⟩
    · rcases List.mem_append.mp ho with ho | ho
      · rcases h.closed outer ho n hm hn with hv | hp
        · exact .inl (List.mem_append_left _ hv)
        · rcases List.mem_cons.mp hp with rfl | hp
          · exact .inl (by simp)
          · exact .inr (List.mem_append_right _ hp)
      · rw [List.mem_singleton.mp ho] at hm
        refine .inr (List.mem_append_left _ (List.mem_reverse.mpr ?_))
        exact Grammar.mem_mentioned.mpr hm

theorem complete_of_turns (h : Relation.ReflTransGen (Turn g) v next) (hv : Complete g v) :
    Complete g next := by
  induction h with
  | refl => exact hv
  | tail _ ht ih => exact ht.complete ih

/-- Once the start symbol is visited, what it mentions is pending. -/
theorem complete_start (hs : g.start ∈ g.nonterminals) :
    Complete g ⟨[g.start], (g.mentioned g.start).reverse⟩ where
  found := .start hs
  mentioned := fun name hn =>
    ⟨g.start, by simp, Grammar.mem_mentioned.mp (List.mem_reverse.mp hn)⟩
  closed := by
    intro outer ho name hm _
    obtain rfl := List.mem_singleton.mp ho
    exact .inr (List.mem_reverse.mpr (Grammar.mem_mentioned.mpr hm))

/-- When nothing is pending, all that the start symbol reaches is visited. -/
theorem Complete.mem_of_reaches {visited : List String} (h : Complete g ⟨visited, []⟩)
    {name : String} (hr : g.Reaches g.start name) : name ∈ visited := by
  induction hr with
  | refl => exact List.mem_of_head? h.found.head?
  | tail _ hstep ih => exact (h.closed _ ih _ hstep.1 hstep.2).resolve_right List.not_mem_nil

end Visit

namespace Grammar

/-- **The visit comes to an end**: turn after turn, until nothing is pending. -/
theorem visit_turns (g : Grammar) (visited pending : List String) :
    Relation.ReflTransGen (Visit.Turn g) ⟨visited, pending⟩ ⟨g.visit visited pending, []⟩ := by
  have hdeclared {name : String} : name ∉ g.nonterminals ↔ g.rules.contains name = false := by
    rw [nonterminals, ← OrderedMap.contains_iff, Bool.not_eq_true]
  fun_induction g.visit visited pending with
  | case1 visited => exact .refl
  | case2 visited name pending h ih => exact .head (.skip (h.imp_right hdeclared.mpr)) ih
  | case3 visited name pending h _ ih =>
    refine .head (.enter (fun hv => h (.inl hv)) ?_) ih
    exact Decidable.not_not.mp fun hn => h (.inr (hdeclared.mp hn))

/-- The visit finds nothing if the start symbol is not declared, and leaves nothing out if it is. -/
theorem reachable_spec (g : Grammar) :
    g.start ∉ g.nonterminals ∧ g.reachable = [] ∨
      g.start ∈ g.nonterminals ∧ Visit.Complete g ⟨g.reachable, []⟩ := by
  rcases (g.visit_turns [] [g.start]).cases_head with heq | ⟨next, hturn, hrest⟩
  · cases congrArg Visit.pending heq
  · cases hturn with
    | skip h =>
      refine .inl ⟨h.resolve_left List.not_mem_nil, ?_⟩
      rcases hrest.cases_head with heq | ⟨later, hturn, -⟩
      · exact (congrArg Visit.visited heq).symm
      · cases hturn
    | enter _ hs =>
      rw [List.append_nil] at hrest
      exact .inr ⟨hs, Visit.complete_of_turns hrest (Visit.complete_start hs)⟩

/-- **Reachability is exact.** For every grammar, whether or not its names are declared, the visit
comes to an end, turn after turn, and has visited no name twice. It has visited exactly the declared
nonterminals that the start symbol reaches, by declared ones that occur in each other's alternatives:
none iff the start symbol is not declared; otherwise that one first, and every later one after one in
whose alternatives it occurs. -/
theorem reachable_exact (g : Grammar) :
    Relation.ReflTransGen (Visit.Turn g) ⟨[], [g.start]⟩ ⟨g.reachable, []⟩ ∧
    g.reachable.Nodup ∧
    (∀ name, name ∈ g.reachable ↔ name ∈ g.nonterminals ∧ g.Reaches g.start name) ∧
    (g.reachable = [] ↔ g.start ∉ g.nonterminals) ∧
    (g.start ∈ g.nonterminals → g.reachable.head? = some g.start) ∧
    ∀ before name after, g.reachable = before ++ name :: after → before ≠ [] →
      ∃ outer ∈ before, g.Mentions outer name := by
  refine ⟨g.visit_turns [] [g.start], ?_⟩
  rcases g.reachable_spec with ⟨hs, hnil⟩ | ⟨hs, hcomplete⟩
  · rw [hnil]
    refine ⟨List.nodup_nil, fun name => ⟨fun h => absurd h List.not_mem_nil, ?_⟩,
      ⟨fun _ => hs, fun _ => rfl⟩, fun h => absurd h hs, by simp⟩
    rintro ⟨hn, hr⟩
    rcases hr.cases_head with rfl | ⟨inner, hstep, -⟩
    · exact absurd hn hs
    · exact absurd hstep.1.mem_nonterminals hs
  · have hhead := hcomplete.found.head?
    refine ⟨hcomplete.found.nodup, fun name => ⟨hcomplete.found.reaches, fun h => ?_⟩, ?_,
      fun _ => hhead, fun before name after heq hne => hcomplete.found.exists_outer heq hne⟩
    · exact hcomplete.mem_of_reaches h.2
    · refine ⟨fun hnil => ?_, fun hn => absurd hs hn⟩
      rw [hnil] at hhead
      cases hhead

end Grammar

end Predictive
