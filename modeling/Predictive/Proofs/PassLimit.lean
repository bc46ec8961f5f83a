import Predictive.Proofs.Follow

/-!
# How many passes FOLLOW takes

Every seed is in its set after the first pass, and from there it goes along a path of nonterminals
that need not visit one twice. So the number of nonterminals bounds the passes that change
something, whatever symbols the alternatives use, and one more pass finds that nothing changes.

* `follow_passes_bounded`: the number of passes is at most one above that of the nonterminals, and a
  limit decides only whether there is a result.
-/

namespace Predictive

namespace FollowSets

variable {g : Grammar} {first : FirstSets} {follow : FollowSets}

/-- Sets that come out without a limit come out with every limit that allows their passes, and no
others do. -/
theorem compute_some (h : compute g first none = .ok follow) (limit : Int) :
    compute g first (some limit) =
      if follow.passes ≤ limit.toNat then .ok follow
      else .error (.grammar (.fixpointDivergence limit.toNat)) := by
  obtain ⟨hdecl, made, hc, rfl⟩ := compute_eq_ok_iff.mp h
  have hbound : passBound g (some limit) = limit.toNat := rfl
  rw [compute_of_declared hdecl, Flow.converge_eq_ite hc, hbound]
  by_cases hle : made.count ≤ limit.toNat
  · simp only [if_pos hle]
  · simp only [if_neg hle]

theorem passes_pos (h : compute g first none = .ok follow) : 1 ≤ follow.passes := by
  obtain ⟨-, made, hc, rfl⟩ := compute_eq_ok_iff.mp h
  exact Flow.count_pos_of_converge hc

theorem passes_le (hd : g.NamesDeclared) (h : compute g first none = .ok follow) :
    follow.passes ≤ g.nonterminals.length + 1 := by
  obtain ⟨-, made, hc, rfl⟩ := compute_eq_ok_iff.mp h
  have := Flow.count_le_of_converge (fun f hf => target_mem_keys hd hf)
    (carried_start g (Flow.ofGrammar g first)) hc
  rw [OrderedMap.keys_withKeysOf] at this
  exact this

end FollowSets

/-- **FOLLOW takes at most one pass more than there are nonterminals, and a limit changes nothing
else.** Where the alternatives use only declared nonterminals, the passes end without a limit; a
limit that allows them gives the same sets, passes and history, and a lower one is reported with the
passes that it allowed, none if it is negative. -/
theorem follow_passes_bounded (g : Grammar) (hd : g.NamesDeclared) (first : FirstSets) :
    ∃ follow, FollowSets.compute g first none = .ok follow ∧
      1 ≤ follow.passes ∧ follow.passes ≤ g.nonterminals.length + 1 ∧
      g.nonterminals.length + 1 ≤ FollowSets.passLimit g ∧
      ∀ limit : Int,
        (follow.passes ≤ limit → FollowSets.compute g first (some limit) = .ok follow) ∧
        (limit < follow.passes → FollowSets.compute g first (some limit) =
          .error (.grammar (.fixpointDivergence (max limit 0)))) := by
  obtain ⟨follow, h⟩ := FollowSets.exists_compute hd first
  refine ⟨follow, h, FollowSets.passes_pos h, FollowSets.passes_le hd h,
    FollowSets.length_lt_passLimit g, fun limit => ⟨fun hle => ?_, fun hlt => ?_⟩⟩
  · rw [FollowSets.compute_some h, if_pos (by omega)]
  · rw [FollowSets.compute_some h, if_neg (by have := FollowSets.passes_pos h; omega),
      Int.toNat_eq_max]

/-- A ring of nonterminals in which every pass takes `t`, which is no reserved word, one name
further. -/
def Grammar.slowRing : Grammar :=
  .build "S" (.ofList [
    ("C", [[.terminal "c", .nonterminal "S"]]),
    ("B", [[.terminal "b", .nonterminal "C"]]),
    ("A", [[.terminal "a", .nonterminal "B"]]),
    ("S", [[.nonterminal "A", .terminal "t"]])]) (.ofList ["a", "b", "c"])

/-- The bound is reached; a limit of the passes is enough, and one less is not. -/
theorem slowRing_passes :
    Grammar.slowRing.NamesDeclared ∧
    ∃ follow, FollowSets.compute .slowRing (.ofGrammar .slowRing) none = .ok follow ∧
      follow.passes = 5 ∧
      FollowSets.compute .slowRing (.ofGrammar .slowRing) (some 5) = .ok follow ∧
      FollowSets.compute .slowRing (.ofGrammar .slowRing) (some 4) =
        .error (.grammar (.fixpointDivergence 4)) ∧
      FollowSets.compute .slowRing (.ofGrammar .slowRing) (some (-1)) =
        .error (.grammar (.fixpointDivergence 0)) := by
  have hd : Grammar.slowRing.NamesDeclared := by unfold Grammar.NamesDeclared; decide +kernel
  obtain ⟨follow, h, -, -, -, hlimit⟩ := follow_passes_bounded .slowRing hd (.ofGrammar _)
  have hcomputed : (FollowSets.compute .slowRing (.ofGrammar .slowRing) none).map
      FollowSets.passes = .ok 5 := by decide +kernel
  rw [h] at hcomputed
  have hpasses : follow.passes = 5 := Except.ok.inj hcomputed
  refine ⟨hd, follow, h, hpasses, (hlimit 5).1 (by omega), (hlimit 4).2 (by omega),
    (hlimit (-1)).2 (by omega)⟩

end Predictive
