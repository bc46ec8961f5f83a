import Mathlib.Data.List.Nodup
import Predictive.Proofs.Table

/-!
# Which ambiguities are reported

An ambiguity comes to light at the second alternative that holds its symbol, and never again. So the
report has one entry for each nonterminal and each symbol that two of its alternatives hold, and
names the first two of them.

* `Ambiguity.mem_amongAlternatives`: the entries of one nonterminal.
* `FirstSets.mem_ambiguities`, `FirstSets.nodup_ambiguities`: all entries, each of them once.
* `Analysis.warnings_eq`: the warnings of an analysis are about these.
-/

namespace Predictive

namespace Ambiguity

variable {s : Symbol} {sets earlier later : List SymbolSet} {name : String} {x : Ambiguity}

/-! ## Places that hold a symbol -/

theorem mem_holders {i : Nat} : i ∈ holders s sets ↔ ∃ set, sets[i]? = some set ∧ s ∈ set := by
  simp [holders, List.mem_zipIdx_iff_getElem?]

theorem holders_concat (s : Symbol) (sets : List SymbolSet) (set : SymbolSet) :
    holders s (sets ++ [set]) = holders s sets ++ if s ∈ set then [sets.length] else [] := by
  unfold holders
  rw [List.zipIdx_append, List.filter_append, List.map_append]
  by_cases hs : s ∈ set <;> simp [hs]

/-- Alternatives that come later only add places. -/
theorem exists_holders_append (s : Symbol) (earlier later : List SymbolSet) :
    ∃ more, holders s (earlier ++ later) = holders s earlier ++ more := by
  unfold holders
  rw [List.zipIdx_append, List.filter_append, List.map_append]
  exact ⟨_, rfl⟩

theorem nodup_holders (s : Symbol) (sets : List SymbolSet) : (holders s sets).Nodup := by
  refine (List.filter_sublist.map Prod.snd).nodup ?_
  rw [List.zipIdx_map_snd]
  exact List.nodup_range'

/-- Two places hold a symbol iff there are a first and a second one. -/
theorem exists_holders_eq_cons_cons :
    (∃ i j rest, holders s sets = i :: j :: rest) ↔
      ∃ i ∈ holders s sets, ∃ j ∈ holders s sets, i ≠ j := by
  have hnodup := nodup_holders s sets
  constructor
  · rintro ⟨i, j, rest, heq⟩
    rw [heq] at hnodup ⊢
    refine ⟨i, List.mem_cons_self, j, List.mem_cons_of_mem i List.mem_cons_self, ?_⟩
    rintro rfl
    exact (List.nodup_cons.mp hnodup).1 List.mem_cons_self
  · rintro ⟨i, hi, j, hj, hne⟩
    match h : holders s sets with
    | [] =>
      rw [h] at hi
      exact absurd hi List.not_mem_nil
    | [k] =>
      rw [h, List.mem_singleton] at hi hj
      exact absurd (hi.trans hj.symm) hne
    | k :: l :: rest => exact ⟨k, l, rest, rfl⟩

/-! ## One nonterminal -/

theorem mem_atAlternative {set : SymbolSet} :
    x ∈ atAlternative name earlier set ↔ x.nonterminal = name ∧ x.symbol ∈ set ∧
      holders x.symbol earlier = [x.first] ∧ x.second = earlier.length := by
  unfold atAlternative
  rw [List.mem_filterMap]
  constructor
  · rintro ⟨s, hs, hx⟩
    split at hx
    · rename_i i hi
      cases hx
      exact ⟨rfl, hs, hi, rfl⟩
    · cases hx
  · rintro ⟨hname, hs, hfirst, hsecond⟩
    obtain ⟨nonterminal, symbol, first, second⟩ := x
    refine ⟨symbol, hs, ?_⟩
    simp only at hname hfirst hsecond
    rw [hfirst, hname, hsecond]

/-- **The entries of a nonterminal** are about the symbols that two alternatives hold, and name the
first two. Of those that are held before, only the symbols that one alternative holds come to
light. -/
theorem mem_amongAlternatives :
    x ∈ amongAlternatives name earlier later ↔ x.nonterminal = name ∧
      (holders x.symbol earlier).length ≤ 1 ∧
        ∃ rest, holders x.symbol (earlier ++ later) = x.first :: x.second :: rest := by
  induction later generalizing earlier with
  | nil =>
    rw [List.append_nil]
    refine iff_of_false List.not_mem_nil ?_
    rintro ⟨-, hle, rest, heq⟩
    rw [heq] at hle
    simp at hle
  | cons set later ih =>
    rw [amongAlternatives, List.mem_append, mem_atAlternative, ih, List.append_assoc,
      List.singleton_append, holders_concat]
    by_cases hs : x.symbol ∈ set
    · obtain ⟨more, hmore⟩ := exists_holders_append x.symbol (earlier ++ [set]) later
      rw [List.append_assoc, List.singleton_append, holders_concat, if_pos hs] at hmore
      rw [if_pos hs, hmore, List.length_append]
      constructor
      · rintro (⟨hname, -, hfirst, hsecond⟩ | ⟨hname, hle, hrest⟩)
        · rw [hfirst, hsecond]
          exact ⟨hname, Nat.le_refl 1, more, rfl⟩
        · exact ⟨hname, by simp at hle; simp [hle], hrest⟩
      · rintro ⟨hname, hle, hrest⟩
        match hh : holders x.symbol earlier with
        | [] => exact .inr ⟨hname, Nat.le_refl 1, by rwa [hh] at hrest⟩
        | [i] =>
          left
          rw [hh] at hrest
          obtain ⟨rest, hrest⟩ := hrest
          obtain ⟨hfirst, hrest⟩ := List.cons.inj hrest
          obtain ⟨hsecond, -⟩ := List.cons.inj hrest
          exact ⟨hname, hs, by rw [hfirst], hsecond.symm⟩
        | _ :: _ :: _ =>
          rw [hh] at hle
          simp at hle
    · rw [if_neg hs, List.append_nil]
      refine ⟨fun h => h.resolve_left fun hn => hs hn.2.1, .inr⟩

theorem nodup_atAlternative (name : String) (earlier : List SymbolSet) (set : SymbolSet) :
    (atAlternative name earlier set).Nodup := by
  refine List.Nodup.filterMap (fun s s' x hx hx' => ?_) set.nodup_toList
  split at hx
  · cases hx
    split at hx'
    · cases hx'
      rfl
    · cases hx'
  · cases hx

/-- No entry comes twice. -/
theorem nodup_amongAlternatives (name : String) (earlier later : List SymbolSet) :
    (amongAlternatives name earlier later).Nodup := by
  induction later generalizing earlier with
  | nil => exact .nil
  | cons set later ih =>
    refine List.nodup_append'.mpr ⟨nodup_atAlternative name earlier set, ih _, fun x hx hx' => ?_⟩
    -- What comes to light here is held by two alternatives from here on.
    obtain ⟨-, hs, hfirst, -⟩ := mem_atAlternative.mp hx
    obtain ⟨-, hle, -⟩ := mem_amongAlternatives.mp hx'
    rw [holders_concat, if_pos hs, hfirst] at hle
    simp at hle

end Ambiguity

/-! ## All nonterminals -/

namespace FirstSets

variable {first : FirstSets}

/-- **The entries of the report**: each symbol that two alternatives of one nonterminal hold, with
the first two of them. -/
theorem mem_ambiguities {x : Ambiguity} :
    x ∈ first.ambiguities ↔ ∃ sets, first.alternatives.find? x.nonterminal = some sets ∧
      ∃ rest, Ambiguity.holders x.symbol sets = x.first :: x.second :: rest := by
  unfold ambiguities
  rw [List.mem_flatMap]
  constructor
  · rintro ⟨⟨name, sets⟩, he, hx⟩
    obtain ⟨rfl, -, hrest⟩ := Ambiguity.mem_amongAlternatives.mp hx
    exact ⟨sets, OrderedMap.find?_eq_some_iff.mpr he, hrest⟩
  · rintro ⟨sets, hsets, hrest⟩
    refine ⟨(x.nonterminal, sets), OrderedMap.find?_eq_some_iff.mp hsets, ?_⟩
    exact Ambiguity.mem_amongAlternatives.mpr ⟨rfl, Nat.zero_le 1, hrest⟩

/-- No entry comes twice. -/
theorem nodup_ambiguities (first : FirstSets) : first.ambiguities.Nodup := by
  refine List.nodup_flatMap.mpr ⟨fun e _ => Ambiguity.nodup_amongAlternatives e.1 [] e.2, ?_⟩
  refine (List.pairwise_map.mp first.alternatives.distinct).imp fun {e e'} hne => ?_
  intro x hx hx'
  exact hne ((Ambiguity.mem_amongAlternatives.mp hx).1.symm.trans
    (Ambiguity.mem_amongAlternatives.mp hx').1)

/-- What an entry is about. -/
def subjects (first : FirstSets) : List (String × Symbol) :=
  first.ambiguities.map fun x => (x.nonterminal, x.symbol)

/-- There is an entry about a symbol of a nonterminal iff two alternatives hold it. -/
theorem mem_subjects {name : String} {s : Symbol} :
    (name, s) ∈ first.subjects ↔ ∃ sets, first.alternatives.find? name = some sets ∧
      ∃ (i j : Nat) (set set' : SymbolSet), i ≠ j ∧ sets[i]? = some set ∧ s ∈ set ∧
        sets[j]? = some set' ∧ s ∈ set' := by
  have hsubjects : (name, s) ∈ first.subjects ↔
      ∃ sets, first.alternatives.find? name = some sets ∧
        ∃ i j rest, Ambiguity.holders s sets = i :: j :: rest := by
    unfold subjects
    rw [List.mem_map]
    constructor
    · rintro ⟨x, hx, heq⟩
      obtain ⟨rfl, rfl⟩ := Prod.mk.inj heq
      obtain ⟨sets, hsets, rest, hrest⟩ := mem_ambiguities.mp hx
      exact ⟨sets, hsets, _, _, rest, hrest⟩
    · rintro ⟨sets, hsets, i, j, rest, hrest⟩
      exact ⟨⟨name, s, i, j⟩, mem_ambiguities.mpr ⟨sets, hsets, rest, hrest⟩, rfl⟩
  rw [hsubjects]
  refine exists_congr fun sets => and_congr_right fun _ => ?_
  rw [Ambiguity.exists_holders_eq_cons_cons]
  simp only [Ambiguity.mem_holders]
  constructor
  · rintro ⟨i, ⟨set, hset, hs⟩, j, ⟨set', hset', hs'⟩, hne⟩
    exact ⟨i, j, set, set', hne, hset, hs, hset', hs'⟩
  · rintro ⟨i, j, set, set', hne, hset, hs, hset', hs'⟩
    exact ⟨i, ⟨set, hset, hs⟩, j, ⟨set', hset', hs'⟩, hne⟩

/-- There is one entry about each symbol of a nonterminal at most. -/
theorem nodup_subjects (first : FirstSets) : first.subjects.Nodup := by
  refine first.nodup_ambiguities.map_on fun x hx y hy heq => ?_
  obtain ⟨hname, hsymbol⟩ := Prod.mk.inj heq
  obtain ⟨sets, hsets, rest, hrest⟩ := mem_ambiguities.mp hx
  obtain ⟨sets', hsets', rest', hrest'⟩ := mem_ambiguities.mp hy
  rw [← hname, hsets] at hsets'
  cases hsets'
  rw [← hsymbol, hrest] at hrest'
  obtain ⟨hfirst, hrest'⟩ := List.cons.inj hrest'
  obtain ⟨hsecond, -⟩ := List.cons.inj hrest'
  cases x
  cases y
  simp_all

end FirstSets

/-- The warnings of an analysis are those about its ambiguities. -/
theorem Analysis.warnings_eq {g : Grammar} {settings : Settings} {a : Analysis}
    (h : run g settings = .ok a) : a.warnings = a.first.diagnostics := by
  obtain ⟨-, follow, table, -, -, rfl⟩ := run_eq_ok_iff.mp h
  unfold warnings DiagnosticLog.warnings
  rw [List.filter_append, List.filter_eq_self.mpr]
  · exact List.append_nil _
  · intro d hd
    obtain ⟨x, -, rfl⟩ := List.mem_map.mp hd
    rfl

end Predictive
