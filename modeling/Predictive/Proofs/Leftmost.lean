import Predictive.Proofs.Table

/-!
# Leftmost derivations by their choices

A leftmost derivation is determined by the alternatives that it takes, one after the other, for the
nonterminal furthest to the left (`Grammar.LeftmostBy`). A table that decides its grammar leaves it
no second way, as long as there is always a symbol to look at: where the nonterminal and all behind
it have vanished, that is the symbol that follows.

* `ParsingTable.Decides.choices_unique`: in front of some symbol a form derives a word by one list
  of choices only.
* `leftmost_unique`: so does a nonterminal that something follows, and one whose alternatives end
  with the end of the input. Without either there may be two.
-/

namespace Predictive

/-- An alternative that is taken for a nonterminal, by its index. -/
structure Choice where
  nonterminal : String
  index : Int
  deriving DecidableEq

/-- All indexes count from the first alternative. -/
def Choice.FromFront (choices : List Choice) : Prop := ∀ c ∈ choices, 0 ≤ c.index

instance (choices : List Choice) : Decidable (Choice.FromFront choices) :=
  inferInstanceAs (Decidable (∀ c ∈ choices, 0 ≤ c.index))

namespace Grammar

/-- A leftmost derivation by some choices: each of them, in order, is made for the nonterminal
furthest to the left. -/
inductive LeftmostBy (g : Grammar) : List Choice → List Symbol → List Symbol → Prop
  | refl (u : List Symbol) : LeftmostBy g [] u u
  | choose {name : String} {i : Int} {p : Production} {w v r : List Symbol}
      {choices : List Choice} (hw : ∀ s ∈ w, s.isNonterminal = false)
      (hp : g.production? name i = .ok p) (h : LeftmostBy g choices (w ++ p.rhs ++ v) r) :
      LeftmostBy g (⟨name, i⟩ :: choices) (w ++ .nonterminal name :: v) r

/-- Some word is derived from the nonterminal by two lists of choices. -/
def Ambiguous (g : Grammar) (name : String) : Prop :=
  ∃ w choices choices', (∀ s ∈ w, s.isNonterminal = false) ∧ choices ≠ choices' ∧
    (Choice.FromFront choices ∧ g.LeftmostBy choices [.nonterminal name] w) ∧
    (Choice.FromFront choices' ∧ g.LeftmostBy choices' [.nonterminal name] w)

variable {g : Grammar}

namespace LeftmostBy

variable {choices : List Choice} {u r : List Symbol}

theorem single {name : String} {i : Int} {p : Production} {w : List Symbol}
    (hw : ∀ s ∈ w, s.isNonterminal = false) (hp : g.production? name i = .ok p)
    (v : List Symbol) :
    g.LeftmostBy [⟨name, i⟩] (w ++ .nonterminal name :: v) (w ++ p.rhs ++ v) :=
  .choose hw hp (.refl _)

theorem trans {more : List Choice} {r' : List Symbol} (h : g.LeftmostBy choices u r)
    (h' : g.LeftmostBy more r r') : g.LeftmostBy (choices ++ more) u r' := by
  induction h with
  | refl => exact h'
  | choose hw hp _ ih => exact .choose hw hp (ih h')

theorem derives (h : g.LeftmostBy choices u r) : g.Derives u r := by
  induction h with
  | refl => exact Derives.refl _
  | @choose name i p w v r choices _ hp _ ih =>
    have hstep := (derives_cons (hasAlternative_of_production? hp) v).append_left w
    rw [← List.append_assoc] at hstep
    exact hstep.trans ih

/-- A word may be put in front. -/
theorem append_left {w : List Symbol} (hw : ∀ s ∈ w, s.isNonterminal = false)
    (h : g.LeftmostBy choices u r) : g.LeftmostBy choices (w ++ u) (w ++ r) := by
  induction h with
  | refl => exact .refl _
  | @choose name i p w' v r choices hw' hp _ ih =>
    have hboth : ∀ s ∈ w ++ w', s.isNonterminal = false := fun s hs =>
      (List.mem_append.mp hs).elim (hw s) (hw' s)
    rw [← List.append_assoc]
    exact .choose hboth hp (by simpa only [List.append_assoc] using ih)

/-- A word at the left end stays there. -/
theorem of_word_append {w : List Symbol} (hw : ∀ s ∈ w, s.isNonterminal = false)
    (h : g.LeftmostBy choices (w ++ u) r) : ∃ y, r = w ++ y ∧ g.LeftmostBy choices u y := by
  generalize hx : w ++ u = x at h
  induction h generalizing u with
  | refl => exact ⟨u, hx.symm, .refl u⟩
  | @choose name i p w' v r choices hw' hp _ ih =>
    rcases append_eq_append_cons hx with ⟨e, rfl, -⟩ | ⟨e, rfl, rfl⟩
    · have := hw (.nonterminal name) (List.mem_append_right w' List.mem_cons_self)
      exact absurd this (by simp)
    · obtain ⟨y, rfl, hy⟩ := ih (u := e ++ p.rhs ++ v) (by simp only [List.append_assoc])
      exact ⟨y, rfl, .choose (fun s hs => hw' s (List.mem_append_right w hs)) hp hy⟩

/-- A symbol at the right end that is no nonterminal stays there. -/
theorem of_concat {a : Symbol} (ha : a.isNonterminal = false)
    (h : g.LeftmostBy choices (u ++ [a]) r) : ∃ y, r = y ++ [a] ∧ g.LeftmostBy choices u y := by
  generalize hx : u ++ [a] = x at h
  induction h generalizing u with
  | refl => exact ⟨u, hx.symm, .refl u⟩
  | @choose name i p w v r choices hw hp _ ih =>
    rcases append_eq_append_cons hx with ⟨e, rfl, rfl⟩ | ⟨e, he, -⟩
    · obtain ⟨y, rfl, hy⟩ := ih (u := w ++ p.rhs ++ e) (by simp only [List.append_assoc])
      exact ⟨y, rfl, .choose hw hp hy⟩
    · have hmem : .nonterminal name ∈ [a] := he ▸ List.mem_append_right e List.mem_cons_self
      rw [← List.mem_singleton.mp hmem] at ha
      exact absurd ha (by simp)

/-- From a word there is nothing to derive. -/
theorem eq_nil_of_word (hu : ∀ s ∈ u, s.isNonterminal = false) (h : g.LeftmostBy choices u r) :
    choices = [] := by
  cases h with
  | refl => rfl
  | @choose name i p w v _ choices _ _ _ =>
    have := hu (.nonterminal name) (List.mem_append_right w List.mem_cons_self)
    exact absurd this (by simp)

/-- On the way to a word the nonterminal furthest to the left has its turn. -/
theorem exists_choice {name : String} {w v : List Symbol}
    (hw : ∀ s ∈ w, s.isNonterminal = false) (hr : ∀ s ∈ r, s.isNonterminal = false)
    (h : g.LeftmostBy choices (w ++ .nonterminal name :: v) r) :
    ∃ i p later, choices = ⟨name, i⟩ :: later ∧ g.production? name i = .ok p ∧
      g.LeftmostBy later (w ++ p.rhs ++ v) r := by
  generalize hx : w ++ .nonterminal name :: v = x at h
  cases h with
  | refl =>
    have := hr (.nonterminal name) (hx ▸ List.mem_append_right w List.mem_cons_self)
    exact absurd this (by simp)
  | @choose name' i p w' v' _ later hw' hp h =>
    rcases append_eq_append_cons hx with ⟨e, rfl, -⟩ | ⟨e, he, rfl⟩
    · have := hw (.nonterminal name') (List.mem_append_right w' List.mem_cons_self)
      exact absurd this (by simp)
    · cases e with
      | nil =>
        obtain ⟨hname, rfl⟩ := List.cons.inj he
        cases hname
        rw [List.append_nil] at h
        exact ⟨i, p, later, rfl, hp, h⟩
      | cons s e =>
        obtain ⟨rfl, -⟩ := List.cons.inj he
        have := hw' (.nonterminal name) (List.mem_append_right w List.mem_cons_self)
        exact absurd this (by simp)

/-- Where all alternatives of a nonterminal end with the end of the input, so does every word that
it derives, and what the first choice leaves to derive stands in front of it. -/
theorem exists_body {name : String}
    (hend : ∀ rhs, g.HasAlternative name rhs → rhs.getLast? = some .endOfInput)
    (hr : ∀ s ∈ r, s.isNonterminal = false) (h : g.LeftmostBy choices [.nonterminal name] r) :
    ∃ i p body y later, choices = ⟨name, i⟩ :: later ∧ g.production? name i = .ok p ∧
      p.rhs = body ++ [.endOfInput] ∧ r = y ++ [.endOfInput] ∧ g.LeftmostBy later body y := by
  obtain ⟨i, p, later, rfl, hp, h⟩ := h.exists_choice (w := []) (v := []) (by simp) hr
  obtain ⟨body, hbody⟩ := List.getLast?_eq_some_iff.mp
    (hend _ (hasAlternative_of_production? hp))
  rw [List.nil_append, List.append_nil, hbody] at h
  obtain ⟨y, hy, h⟩ := h.of_concat rfl
  exact ⟨i, p, body, y, later, rfl, hp, hbody, hy, h⟩

end LeftmostBy

/-! ## What selects an alternative -/

/-- What an alternative, or what stands behind its nonterminal, begins with selects it. -/
theorem selects_of_begins {root name : String} {rhs x v : List Symbol} {a : Symbol}
    (hroot : root ∈ g.nonterminals)
    (hd : g.Derives [.nonterminal root] (x ++ .nonterminal name :: v))
    (hb : g.Begins a (rhs ++ v)) : g.Selects name rhs a := by
  rcases begins_append.mp hb with hb | ⟨hv, hb⟩
  · exact .inl hb
  · exact .inr ⟨hv, follows_of_begins hroot hd hb⟩

/-- Where no alternative uses a mark of the empty string, derived symbols are tokens. -/
theorem EmptyFree.isToken_of_derives (hg : g.EmptyFree) {root : String} {u : List Symbol}
    (hd : g.Derives [.nonterminal root] u) {s : Symbol} (hs : s ∈ u)
    (hn : s.isNonterminal = false) : s.IsToken := by
  refine ⟨hn, ?_⟩
  rintro rfl
  rcases hd.mem hs with heq | ⟨p, hp, hmem⟩
  · cases heq
  · exact hg p hp _ hmem rfl

end Grammar

namespace ParsingTable.Decides

variable {g : Grammar} {table : ParsingTable}

/-- An index that counts from the first alternative is that of its cell. -/
theorem lookup_of_selects (h : table.Decides g) {name : String} {a : Symbol} (ha : a.IsToken)
    {i : Int} (hi : 0 ≤ i) {p : Production} (hp : g.production? name i = .ok p)
    (hs : g.Selects name p.rhs a) : table.lookup name a = some i := by
  obtain ⟨k, rfl⟩ := Int.eq_ofNat_of_zero_le hi
  unfold Grammar.production? at hp
  split at hp
  · cases hp
  · rename_i alts halts
    rw [SignedIndex.get?_ofNat] at hp
    split at hp
    · cases hp
    · rename_i rhs hk
      cases hp
      exact (h.lookup_iff ha).mpr ⟨alts, k, rhs, halts, hk, hs, rfl⟩

/-- **A form in front of a symbol derives a word by one list of choices only.** At each choice the
next symbol of the word, or the one behind the form, selects the alternative. -/
theorem choices_unique (h : table.Decides g) (hg : g.EmptyFree) {root : String}
    (hroot : root ∈ g.nonterminals) {x behind : List Symbol} {t : Symbol}
    (ht : t.isNonterminal = false) {u w : List Symbol} (hw : ∀ s ∈ w, s.isNonterminal = false)
    {choices choices' : List Choice}
    (hd : g.Derives [.nonterminal root] (x ++ u ++ t :: behind))
    (hl : g.LeftmostBy choices u w) (hl' : g.LeftmostBy choices' u w)
    (hf : Choice.FromFront choices) (hf' : Choice.FromFront choices') : choices = choices' := by
  induction hl generalizing choices' with
  | refl u => exact (hl'.eq_nil_of_word hw).symm
  | @choose name i p w₀ v w choices hw₀ hp hl ih =>
    obtain ⟨i', p', later, rfl, hp', hl'⟩ := hl'.exists_choice hw₀ hw
    have hcontext : g.Derives [.nonterminal root]
        ((x ++ w₀) ++ .nonterminal name :: (v ++ t :: behind)) := by
      simpa only [List.append_assoc, List.cons_append] using hd
    -- Both lists of choices go on to the same rest of the word.
    have reads {q : Production} {later : List Choice}
        (hq : g.LeftmostBy later (w₀ ++ q.rhs ++ v) w) :
        ∃ y, w = w₀ ++ y ∧ g.Derives (q.rhs ++ v) y := by
      rw [List.append_assoc] at hq
      obtain ⟨y, hy, hq⟩ := hq.of_word_append hw₀
      exact ⟨y, hy, hq.derives⟩
    obtain ⟨y, rfl, hy⟩ := reads hl
    obtain ⟨y', heq, hy'⟩ := reads hl'
    obtain rfl := List.append_cancel_left heq
    obtain ⟨a, z, haz, ha⟩ : ∃ a z, y ++ t :: behind = a :: z ∧ a.isNonterminal = false := by
      cases y with
      | nil => exact ⟨t, behind, rfl, ht⟩
      | cons a y => exact ⟨a, y ++ t :: behind, rfl, hw a (by simp)⟩
    have expanded {q : Production} {j : Int} (hq : g.production? name j = .ok q) :
        g.Derives [.nonterminal root] ((x ++ w₀) ++ (q.rhs ++ (v ++ t :: behind))) :=
      hcontext.trans
        ((Grammar.derives_cons (Grammar.hasAlternative_of_production? hq) _).append_left _)
    have ahead {q : Production} (hq : g.Derives (q.rhs ++ v) y) :
        g.Derives (q.rhs ++ (v ++ t :: behind)) (a :: z) := by
      have := hq.append_right (t :: behind)
      rwa [haz, List.append_assoc] at this
    have htoken : a.IsToken := hg.isToken_of_derives
      ((expanded hp).trans ((ahead hy).append_left _))
      (List.mem_append_right _ List.mem_cons_self) ha
    have cell {q : Production} {j : Int} (hj : 0 ≤ j) (hq : g.production? name j = .ok q)
        (hqy : g.Derives (q.rhs ++ v) y) : table.lookup name a = some j :=
      h.lookup_of_selects htoken hj hq
        (Grammar.selects_of_begins hroot hcontext ((ahead hqy).begins (.here ha)))
    have hcell := cell (hf _ List.mem_cons_self) hp hy
    rw [cell (hf' _ List.mem_cons_self) hp' hy', Option.some.injEq] at hcell
    subst hcell
    rw [hp] at hp'
    cases hp'
    have hnext := expanded hp
    rw [ih hw (by simpa only [List.append_assoc] using hnext) hl'
      (fun c hc => hf c (List.mem_cons_of_mem _ hc))
      (fun c hc => hf' c (List.mem_cons_of_mem _ hc))]

end ParsingTable.Decides

variable {g : Grammar} {settings : Settings} {analysis : Analysis}

namespace Analysis

/-- A nonterminal that something follows is unambiguous: whatever it derives stands in front of a
symbol then. -/
theorem not_ambiguous_of_follow (h : run g settings = .ok analysis) {name : String} {a : Symbol}
    (ha : a ∈ analysis.follow.sets.of name) : ¬ g.Ambiguous name := by
  rintro ⟨w, choices, choices', hw, hne, ⟨hf, hl⟩, hf', hl'⟩
  have htoken : a.IsToken := isToken_of_mem_follow h ha
  obtain ⟨root, hroot, u, v, hd⟩ := (mem_follow_iff h htoken).mp ha
  have hcontext : g.Derives [.nonterminal root] (u ++ [.nonterminal name] ++ a :: v) := by
    simpa only [List.append_assoc, List.cons_append, List.nil_append] using hd
  exact hne ((decides h).choices_unique (emptyFree h) hroot htoken.1 hw hcontext hl hl' hf hf')

/-- A nonterminal whose alternatives end with the end of the input is unambiguous: the end of the
input stands behind all that its first choice leaves to derive. -/
theorem not_ambiguous_of_marked (h : run g settings = .ok analysis) {name : String}
    (hend : ∀ rhs, g.HasAlternative name rhs → rhs.getLast? = some .endOfInput) :
    ¬ g.Ambiguous name := by
  rintro ⟨w, choices, choices', hw, hne, ⟨hf, hl⟩, hf', hl'⟩
  obtain ⟨i, p, body, y, later, rfl, hp, hbody, rfl, hfront⟩ := hl.exists_body hend hw
  obtain ⟨i', p', body', y', later', rfl, hp', hbody', heq, hfront'⟩ := hl'.exists_body hend hw
  obtain rfl := List.append_inj_left' heq rfl
  have hd := decides h
  have hg := emptyFree h
  have hrhs := Grammar.hasAlternative_of_production? hp
  have hroot : g.Derives [.nonterminal name] (body ++ [.endOfInput]) := by
    simpa only [List.append_nil, hbody] using Grammar.derives_cons hrhs []
  obtain ⟨a, z, haz, ha⟩ : ∃ a z, y ++ [.endOfInput] = a :: z ∧ a.isNonterminal = false := by
    cases y with
    | nil => exact ⟨_, [], rfl, rfl⟩
    | cons a y => exact ⟨a, y ++ [.endOfInput], rfl, hw a (by simp)⟩
  have htoken : a.IsToken := hg.isToken_of_derives
    (hroot.trans (hfront.derives.append_right [.endOfInput])) (haz ▸ List.mem_cons_self) ha
  have cell {q : Production} {body : List Symbol} {j : Int} {later : List Choice} (hj : 0 ≤ j)
      (hq : g.production? name j = .ok q) (hbody : q.rhs = body ++ [.endOfInput])
      (hl : g.LeftmostBy later body y) : analysis.table.lookup name a = some j := by
    refine hd.lookup_of_selects htoken hj hq (.inl ?_)
    rw [hbody]
    exact (hl.derives.append_right [.endOfInput]).begins (haz ▸ .here ha)
  have hcell := cell (hf _ List.mem_cons_self) hp hbody hfront
  rw [cell (hf' _ List.mem_cons_self) hp' hbody' hfront', Option.some.injEq] at hcell
  subst hcell
  rw [hp] at hp'
  cases hp'
  obtain rfl : body = body' := List.append_cancel_right (hbody.symm.trans hbody')
  have hlater : later = later' := hd.choices_unique hg hrhs.mem_nonterminals (x := []) rfl
    (fun s hs => hw s (List.mem_append_left _ hs)) hroot hfront hfront'
    (fun c hc => hf c (List.mem_cons_of_mem _ hc)) (fun c hc => hf' c (List.mem_cons_of_mem _ hc))
  exact hne (by rw [hlater])

end Analysis

/-- Two alternatives of the start symbol vanish, and nothing follows it. -/
def Grammar.vanishingTwice : Grammar :=
  .build "S" (.ofList [("S", [[.nonterminal "A"], []]), ("A", [[.terminal "a"], []])])
    (.ofList ["a"])

theorem Grammar.vanishingTwice_ambiguous : Grammar.vanishingTwice.Ambiguous "S" := by
  refine ⟨[], [⟨"S", 0⟩, ⟨"A", 1⟩], [⟨"S", 1⟩], by simp, by decide, ⟨by decide, ?_⟩, by decide, ?_⟩
  · exact .choose (w := []) (v := []) (p := ⟨"S", [.nonterminal "A"]⟩) (by simp) rfl
      (.single (w := []) (p := ⟨"A", []⟩) (by simp) rfl [])
  · exact .single (w := []) (p := ⟨"S", []⟩) (by simp) rfl []

/-- **With a symbol to look at there is one leftmost derivation.** In an analysed grammar no word
has two from a nonterminal that something follows, nor from one whose alternatives end with the end
of the input. Without either an analysed grammar may be ambiguous, and is only warned about. -/
theorem leftmost_unique (h : Analysis.run g settings = .ok analysis) (name : String) :
    ((∃ a, a ∈ analysis.follow.sets.of name) → ¬ g.Ambiguous name) ∧
    ((∀ rhs, g.HasAlternative name rhs → rhs.getLast? = some .endOfInput) →
      ¬ g.Ambiguous name) ∧
    ∃ g' analysis', Analysis.run g' .defaults = .ok analysis' ∧
      (∀ p ∈ g'.productions, .endOfInput ∉ p.rhs) ∧
      analysis'.follow.sets.of g'.start = ∅ ∧ analysis'.warnings ≠ [] ∧
      g'.Ambiguous g'.start := by
  refine ⟨fun ⟨a, ha⟩ => Analysis.not_ambiguous_of_follow h ha,
    Analysis.not_ambiguous_of_marked h, .vanishingTwice, ?_⟩
  have hcomputed : ((Analysis.run .vanishingTwice .defaults).toOption.map fun a =>
      (decide (a.follow.sets.of "S" = ∅), a.warnings.isEmpty)) = some (true, false) := by
    decide +kernel
  cases h' : Analysis.run .vanishingTwice .defaults with
  | error e =>
    rw [h'] at hcomputed
    cases hcomputed
  | ok analysis' =>
    rw [h'] at hcomputed
    obtain ⟨hfollow, hwarn⟩ := Prod.mk.inj (Option.some.inj hcomputed)
    refine ⟨analysis', rfl, by decide +kernel, of_decide_eq_true hfollow, ?_,
      Grammar.vanishingTwice_ambiguous⟩
    intro hnil
    rw [hnil] at hwarn
    cases hwarn

/-- The end of the input follows the first run, and closes both. -/
theorem twoRuns_unambiguous :
    ∃ analysis, Analysis.run .twoRuns .defaults = .ok analysis ∧
      ¬ Grammar.twoRuns.Ambiguous "A" ∧ ¬ Grammar.twoRuns.Ambiguous "S" := by
  obtain ⟨analysis, h⟩ := Analysis.exists_run (g := .twoRuns) (s := .defaults)
    (by decide +kernel)
  refine ⟨analysis, h, (leftmost_unique h "A").1 ⟨.endOfInput, ?_⟩, (leftmost_unique h "S").2.1 ?_⟩
  · exact (Analysis.mem_follow_iff h Symbol.isToken_endOfInput).mpr Grammar.twoRuns_follows
  · rintro rhs ⟨alts, halts, hrhs⟩
    cases halts
    rw [List.mem_singleton.mp hrhs]
    rfl

end Predictive
