import Predictive.Automaton.Step

/-!
# The whole work on a token

The moves on a token are repeated until it is consumed or refused. That this ends is seen by a
measure on stacks below a ceiling: a frame is worth the moves that the rest of its alternative can
still cause, if nothing grows above the ceiling. Under a depth limit the limit is the ceiling.
Without one, a stack that grows by more frames than there are nonterminals, and by one more, holds
two frames of one nonterminal that took their alternatives for the same token, so the same moves
would come again for ever; this is the verdict `endless`.

* `work_next`: every move that goes on below the ceiling lowers the measure.
* `runBelow_eq`: the work on a token, move by move.
-/

namespace Predictive.Automaton

variable (a : Automaton)

/-- The length of the longest alternative. -/
def longest (g : Grammar) : Nat := (g.productions.map (·.rhs.length)).foldr max 0

theorem length_le_longest {g : Grammar} {p : Production} (h : p ∈ g.productions) :
    p.rhs.length ≤ longest g := by
  unfold longest
  generalize g.productions = ps at h
  induction ps with
  | nil => cases h
  | cons q qs ih =>
    simp only [List.map_cons, List.foldr_cons]
    rcases List.mem_cons.mp h with rfl | h
    · exact Nat.le_max_left _ _
    · exact Nat.le_trans (ih h) (Nat.le_max_right _ _)

/-- The worth of one symbol of an alternative when `room` more frames fit on the stack. -/
def price (width : Nat) : (room : Nat) → Nat
  | 0 => 1
  | room + 1 => width * price width room + 3

/-- The number of symbols of a decided frame that are not done. -/
def remaining? (f : Frame) : Option Nat :=
  match f.production? a.grammar with
  | .error _ => some 0
  | .ok none => none
  | .ok (some p) => some (p.rhs.length - f.position)

/-- The worth of a frame, given how many of its symbols are being worked at above it. -/
def frameWork (f : Frame) (active room : Nat) : Nat :=
  let unit := price (longest a.grammar) room
  match a.remaining? f with
  | none => longest a.grammar * unit + 2
  | some k => (k - active) * unit + 1

/-- The worth of the frames below the top: a symbol of each is being worked at above it. -/
def workBelow (ceiling : Nat) : List Frame → Nat
  | [] => 0
  | f :: below => a.frameWork f 1 (ceiling - (below.length + 1)) + workBelow ceiling below

/-- The worth of a stack. -/
def work (ceiling : Nat) : Stack → Nat
  | [] => 0
  | f :: below => a.frameWork f 0 (ceiling - (below.length + 1)) + a.workBelow ceiling below

theorem remaining?_advance (f : Frame) :
    a.remaining? f.advance = (a.remaining? f).map (· - 1) := by
  obtain ⟨name, alternative, position⟩ := f
  cases alternative with
  | none => rfl
  | some i =>
    simp only [remaining?, Frame.production?, Frame.advance]
    cases a.grammar.production? name i with
    | error e => rfl
    | ok p => simp only [Option.map_some, Nat.sub_add_eq]

theorem remaining?_decided {name : String} {index : Int} {p : Production}
    (h : a.grammar.production? name index = .ok p) :
    a.remaining? (.decided name index) = some p.rhs.length := by
  simp [remaining?, Frame.production?, Frame.decided, h]

theorem work_resume (ceiling : Nat) (below : Stack) :
    a.work ceiling below.resume = a.workBelow ceiling below := by
  cases below with
  | nil => rfl
  | cons f below =>
    simp only [Stack.resume, work, workBelow, frameWork, remaining?_advance]
    cases a.remaining? f <;> rfl

theorem length_le_longest_of_production? {g : Grammar} {name : String} {index : Int}
    {p : Production} (h : g.production? name index = .ok p) : p.rhs.length ≤ longest g := by
  refine length_le_longest ?_
  unfold Grammar.production? at h
  split at h
  · cases h
  · next alts halts =>
    split at h
    · cases h
    · next rhs hr =>
      cases h
      refine List.mem_flatMap.mpr ⟨(name, alts), OrderedMap.find?_eq_some_iff.mp halts, ?_⟩
      exact List.mem_map.mpr ⟨rhs, SignedIndex.mem_of_get? hr, rfl⟩

/-- Every move that goes on below the ceiling lowers the worth of the stack. -/
theorem work_next {token : Token} {stack next : Stack} {events : List Event} {ceiling : Nat}
    (h : a.step token stack = .next next events) (hc : next.length ≤ ceiling) :
    a.work ceiling next < a.work ceiling stack := by
  cases stack with
  | nil => cases h
  | cons f below =>
    simp only [step] at h
    split at h
    · cases h
    · next hf =>
      simp only [choose] at h
      split at h
      · cases h
      · split at h
        · cases h
        · next p hp =>
          cases h
          have hr : a.remaining? f = none := by unfold remaining?; rw [hf]
          simp only [work, frameWork, hr, a.remaining?_decided hp]
          have := Nat.mul_le_mul_right
            (price (longest a.grammar) (ceiling - (below.length + 1)))
            (length_le_longest_of_production? hp)
          simp only [Nat.sub_zero]
          omega
    · next p hf =>
      have hr : a.remaining? f = some (p.rhs.length - f.position) := by
        unfold remaining?; rw [hf]
      simp only [proceed] at h
      split at h
      · next hn =>
        cases h
        have := List.getElem?_eq_none_iff.mp hn
        rw [work_resume]
        simp only [work, frameWork, hr]
        omega
      · next s hs =>
        split at h
        · split at h
          · cases h
          · cases h
            have hlt : f.position < p.rhs.length := (List.getElem?_eq_some_iff.mp hs).1
            have hu : a.remaining? (Frame.undecided s.name) = none := rfl
            simp only [List.length_cons] at hc
            obtain ⟨k, hk⟩ : ∃ k, p.rhs.length - f.position = k + 1 :=
              ⟨p.rhs.length - f.position - 1, by omega⟩
            obtain ⟨room, hroom⟩ : ∃ room, ceiling - (below.length + 1) = room + 1 :=
              ⟨ceiling - (below.length + 1) - 1, by omega⟩
            have hroom' : ceiling - (below.length + 1 + 1) = room := by omega
            simp only [work, workBelow, frameWork, hr, hu, hk, List.length_cons, hroom, hroom',
              price, Nat.add_sub_cancel, Nat.sub_zero, Nat.add_mul, Nat.one_mul]
            omega
        · split at h <;> cases h

/-- Repeats moves until the work on the token is over or the stack grows above the ceiling. -/
def runBelow (ceiling : Nat) (token : Token) (stack : Stack) : Outcome :=
  match _h : a.step token stack with
  | .done outcome => outcome
  | .next next events =>
    if _hc : next.length ≤ ceiling then (runBelow ceiling token next).after events
    else ⟨stack, [], .endless⟩
termination_by a.work ceiling stack
decreasing_by exact a.work_next _h _hc

/-- The work on a token, one move at a time. -/
theorem runBelow_eq (ceiling : Nat) (token : Token) (stack : Stack) :
    a.runBelow ceiling token stack =
      match a.step token stack with
      | .done outcome => outcome
      | .next next events =>
        if next.length ≤ ceiling then (a.runBelow ceiling token next).after events
        else ⟨stack, [], .endless⟩ := by
  rw [runBelow]
  split <;> simp_all

/-- The height that a stack does not exceed in the work on one token, unless that work never
ends. -/
def ceiling (stack : Stack) : Nat :=
  match a.depthLimit with
  | some limit => max stack.length limit.toNat
  | none => stack.length + a.grammar.nonterminals.length + 1

/-- The work on a token. -/
def run (token : Token) (stack : Stack) : Outcome := a.runBelow (a.ceiling stack) token stack

end Predictive.Automaton
