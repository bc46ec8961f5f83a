import Mathlib.Logic.Relation
import Predictive.Grammar

/-!
# Derivations of a grammar

A sentential form is a list of symbols. One step (`Produces`) replaces a nonterminal anywhere in it
by one of its alternatives; a derivation (`Derives`) is any number of steps. Three relations follow
the structure of a form instead of the order of the steps, and each is tied to derivations:

* `vanishes_iff_derives`: `Vanishes u` holds iff `u` derives the empty form.
* `begins_iff_derives`: `Begins a u` holds iff `u` derives a form that begins with `a`.
* `derives_append_iff`: `LeftDerives u w r` reads the word `w` off the left end of `u` and leaves
  `r`; a form derives `w` followed by `v` iff it leaves something that derives `v`.
-/

namespace Predictive

namespace Symbol

@[simp] theorem isNonterminal_nonterminal (name : String) :
    (nonterminal name).isNonterminal = true := rfl

@[simp] theorem isNonterminal_endOfInput : endOfInput.isNonterminal = false := rfl

theorem eq_nonterminal {s : Symbol} (h : s.isNonterminal = true) : s = nonterminal s.name := by
  obtain ⟨kind, name⟩ := s
  unfold isNonterminal at h
  simp only [decide_eq_true_eq] at h
  subst h
  rfl

end Symbol

namespace Grammar

/-- `rhs` is one of the alternatives of a nonterminal. -/
def HasAlternative (g : Grammar) (name : String) (rhs : List Symbol) : Prop :=
  ∃ alts, g.rules.find? name = some alts ∧ rhs ∈ alts

/-- One nonterminal of a form is replaced by one of its alternatives. -/
inductive Produces (g : Grammar) : List Symbol → List Symbol → Prop
  | replace {name : String} {rhs : List Symbol} (u v : List Symbol)
      (h : g.HasAlternative name rhs) :
      Produces g (u ++ .nonterminal name :: v) (u ++ rhs ++ v)

/-- A derivation: any number of replacements, anywhere in the form. -/
def Derives (g : Grammar) : List Symbol → List Symbol → Prop :=
  Relation.ReflTransGen g.Produces

/-- Every symbol of the form can be replaced until nothing is left. -/
inductive Vanishes (g : Grammar) : List Symbol → Prop
  | nil : Vanishes g []
  | cons {name : String} {rhs rest : List Symbol} (h : g.HasAlternative name rhs)
      (hrhs : Vanishes g rhs) (hrest : Vanishes g rest) : Vanishes g (.nonterminal name :: rest)

/-- The symbol can come to stand at the left end of the form. -/
inductive Begins (g : Grammar) (a : Symbol) : List Symbol → Prop
  | here {rest : List Symbol} (ha : a.isNonterminal = false) : Begins g a (a :: rest)
  | within {name : String} {rhs rest : List Symbol} (h : g.HasAlternative name rhs)
      (hrhs : Begins g a rhs) : Begins g a (.nonterminal name :: rest)
  | behind {name : String} {rest : List Symbol} (h : Vanishes g [.nonterminal name])
      (hrest : Begins g a rest) : Begins g a (.nonterminal name :: rest)

/-- A leftmost derivation that takes every symbol off as soon as it stands at the left end and is no
nonterminal: from the first form it reads a word and leaves the last form. -/
inductive LeftDerives (g : Grammar) : List Symbol → List Symbol → List Symbol → Prop
  | refl (r : List Symbol) : LeftDerives g r [] r
  | shift {a : Symbol} {u w r : List Symbol} (ha : a.isNonterminal = false)
      (h : LeftDerives g u w r) : LeftDerives g (a :: u) (a :: w) r
  | expand {name : String} {rhs u w r : List Symbol} (hrhs : g.HasAlternative name rhs)
      (h : LeftDerives g (rhs ++ u) w r) : LeftDerives g (.nonterminal name :: u) w r

/-- The word is the beginning of something that the nonterminal derives. -/
def IsPrefix (g : Grammar) (name : String) (w : List Symbol) : Prop :=
  ∃ v, g.Derives [.nonterminal name] (w ++ v)

variable {g : Grammar}

/-! ## Alternatives and productions -/

theorem mem_productions {p : Production} :
    p ∈ g.productions ↔ g.HasAlternative p.lhs p.rhs := by
  unfold productions productionsOf HasAlternative
  simp only [List.mem_flatMap, List.mem_map]
  constructor
  · rintro ⟨⟨name, alts⟩, he, rhs, hrhs, rfl⟩
    exact ⟨alts, OrderedMap.find?_eq_some_iff.mpr he, hrhs⟩
  · rintro ⟨alts, ha, hrhs⟩
    exact ⟨(p.lhs, alts), OrderedMap.find?_eq_some_iff.mp ha, p.rhs, hrhs, rfl⟩

theorem HasAlternative.mem_nonterminals {name : String} {rhs : List Symbol}
    (h : g.HasAlternative name rhs) : name ∈ g.nonterminals := by
  obtain ⟨alts, ha, -⟩ := h
  exact OrderedMap.mem_keys.mpr ⟨alts, ha⟩

theorem hasAlternative_of_production? {name : String} {i : Int} {p : Production}
    (h : g.production? name i = .ok p) : g.HasAlternative name p.rhs := by
  unfold production? at h
  split at h
  · cases h
  · rename_i alts halts
    split at h
    · cases h
    · rename_i rhs hrhs
      cases h
      exact ⟨alts, halts, SignedIndex.mem_of_get? hrhs⟩

theorem lhs_of_production? {name : String} {i : Int} {p : Production}
    (h : g.production? name i = .ok p) : p.lhs = name := by
  unfold production? at h
  split at h
  · cases h
  · split at h
    · cases h
    · cases h
      rfl

/-! ## Derivations in a context -/

theorem Produces.append_left {u v : List Symbol} (h : g.Produces u v) (x : List Symbol) :
    g.Produces (x ++ u) (x ++ v) := by
  obtain ⟨u, v, h⟩ := h
  have := Produces.replace (x ++ u) v h
  simpa only [List.append_assoc] using this

theorem Produces.append_right {u v : List Symbol} (h : g.Produces u v) (x : List Symbol) :
    g.Produces (u ++ x) (v ++ x) := by
  obtain ⟨u, v, h⟩ := h
  have := Produces.replace u (v ++ x) h
  simpa only [List.append_assoc, List.cons_append] using this

theorem Derives.refl (u : List Symbol) : g.Derives u u := Relation.ReflTransGen.refl

theorem Derives.trans {u v w : List Symbol} (h : g.Derives u v) (h' : g.Derives v w) :
    g.Derives u w := Relation.ReflTransGen.trans h h'

theorem Derives.append_left {u v : List Symbol} (h : g.Derives u v) (x : List Symbol) :
    g.Derives (x ++ u) (x ++ v) := by
  induction h with
  | refl => exact Derives.refl _
  | tail _ hs ih => exact ih.tail (hs.append_left x)

theorem Derives.append_right {u v : List Symbol} (h : g.Derives u v) (x : List Symbol) :
    g.Derives (u ++ x) (v ++ x) := by
  induction h with
  | refl => exact Derives.refl _
  | tail _ hs ih => exact ih.tail (hs.append_right x)

/-- More alternatives derive no less. -/
theorem Derives.mono {g' : Grammar}
    (hg : ∀ {name rhs}, g.HasAlternative name rhs → g'.HasAlternative name rhs)
    {u v : List Symbol} (h : g.Derives u v) : g'.Derives u v := by
  induction h with
  | refl => exact Derives.refl u
  | tail _ hp ih =>
    obtain ⟨x, y, hrhs⟩ := hp
    exact ih.tail (.replace x y (hg hrhs))

/-- A nonterminal at the left end is replaced. -/
theorem derives_cons {name : String} {rhs : List Symbol} (h : g.HasAlternative name rhs)
    (v : List Symbol) : g.Derives (.nonterminal name :: v) (rhs ++ v) :=
  Relation.ReflTransGen.single (Produces.replace [] v h)

/-- The only replacement in a form of one nonterminal. -/
theorem produces_singleton {name : String} {u : List Symbol} :
    g.Produces [.nonterminal name] u ↔ g.HasAlternative name u := by
  constructor
  · intro h
    generalize hx : [Symbol.nonterminal name] = x at h
    obtain @⟨name', rhs, u, v, hrhs⟩ := h
    cases u with
    | nil =>
      cases hx
      rwa [List.nil_append, List.append_nil]
    | cons s u => simp at hx
  · intro h
    have := Produces.replace [] [] h
    rwa [List.nil_append, List.append_nil] at this

/-- A symbol at the right end that is no nonterminal stays there. -/
theorem Derives.of_concat {a : Symbol} (ha : a.isNonterminal = false) {u v : List Symbol}
    (h : g.Derives (u ++ [a]) v) : ∃ w, v = w ++ [a] ∧ g.Derives u w := by
  induction h with
  | refl => exact ⟨u, rfl, Derives.refl u⟩
  | tail _ hp ih =>
    obtain ⟨w, rfl, hw⟩ := ih
    generalize hx : w ++ [a] = x at hp
    obtain @⟨name, rhs, u', v', hrhs⟩ := hp
    rcases List.append_eq_append_iff.mp hx with ⟨e, rfl, he⟩ | ⟨e, rfl, he⟩
    · have hmem : .nonterminal name ∈ [a] := he ▸ List.mem_append_right e List.mem_cons_self
      rw [← List.mem_singleton.mp hmem] at ha
      exact absurd ha (by simp)
    · cases e with
      | nil =>
        obtain ⟨rfl, -⟩ := List.cons.inj he
        exact absurd ha (by simp)
      | cons s e =>
        obtain ⟨rfl, rfl⟩ := List.cons.inj he
        refine ⟨u' ++ rhs ++ e, by simp only [List.append_eq, List.append_assoc], ?_⟩
        exact Relation.ReflTransGen.tail hw (.replace u' e hrhs)

/-! ## Vanishing forms -/

theorem vanishes_append {u v : List Symbol} :
    g.Vanishes (u ++ v) ↔ g.Vanishes u ∧ g.Vanishes v := by
  induction u with
  | nil => exact ⟨fun h => ⟨.nil, h⟩, fun h => h.2⟩
  | cons s u ih =>
    constructor
    · intro h
      cases h with
      | cons h hrhs hrest =>
        obtain ⟨hu, hv⟩ := ih.mp hrest
        exact ⟨.cons h hrhs hu, hv⟩
    · rintro ⟨h, hv⟩
      cases h with
      | cons h hrhs hrest => exact .cons h hrhs (ih.mpr ⟨hrest, hv⟩)

theorem vanishes_singleton {name : String} :
    g.Vanishes [.nonterminal name] ↔ ∃ rhs, g.HasAlternative name rhs ∧ g.Vanishes rhs := by
  constructor
  · intro h
    cases h with
    | cons h hrhs _ => exact ⟨_, h, hrhs⟩
  · rintro ⟨rhs, h, hrhs⟩
    exact .cons h hrhs .nil

theorem vanishes_cons {name : String} {u : List Symbol} :
    g.Vanishes (.nonterminal name :: u) ↔ g.Vanishes [.nonterminal name] ∧ g.Vanishes u :=
  vanishes_append (u := [.nonterminal name])

theorem Vanishes.isNonterminal {u : List Symbol} (h : g.Vanishes u) {s : Symbol} (hs : s ∈ u) :
    s.isNonterminal = true := by
  induction h with
  | nil => exact absurd hs List.not_mem_nil
  | cons _ _ _ _ ih =>
    rcases List.mem_cons.mp hs with rfl | hs
    · rfl
    · exact ih hs

theorem Produces.vanishes {u v : List Symbol} (h : g.Produces u v) (hv : g.Vanishes v) :
    g.Vanishes u := by
  obtain ⟨u, v, h⟩ := h
  obtain ⟨hurhs, hv⟩ := vanishes_append.mp hv
  obtain ⟨hu, hrhs⟩ := vanishes_append.mp hurhs
  exact vanishes_append.mpr ⟨hu, .cons h hrhs hv⟩

theorem Derives.vanishes {u v : List Symbol} (h : g.Derives u v) (hv : g.Vanishes v) :
    g.Vanishes u := by
  induction h with
  | refl => exact hv
  | tail _ hs ih => exact ih (hs.vanishes hv)

/-- **A form vanishes iff it derives the empty form.** -/
theorem vanishes_iff_derives {u : List Symbol} : g.Vanishes u ↔ g.Derives u [] := by
  constructor
  · intro h
    induction h with
    | nil => exact Derives.refl _
    | @cons name rhs rest h _ _ ihr ih =>
      have hrest : g.Derives (rhs ++ rest) rest := ihr.append_right rest
      exact ((derives_cons h rest).trans hrest).trans ih
  · intro h
    exact h.vanishes .nil

/-- With more alternatives no less vanishes. -/
theorem Vanishes.mono {g' : Grammar}
    (hg : ∀ {name rhs}, g.HasAlternative name rhs → g'.HasAlternative name rhs)
    {u : List Symbol} (h : g.Vanishes u) : g'.Vanishes u :=
  vanishes_iff_derives.mpr ((vanishes_iff_derives.mp h).mono hg)

/-! ## What a form can begin with -/

theorem Begins.isNonterminal_eq_false {a : Symbol} {u : List Symbol} (h : g.Begins a u) :
    a.isNonterminal = false := by
  induction h with
  | here ha => exact ha
  | within _ _ ih => exact ih
  | behind _ _ ih => exact ih

theorem not_begins_nil {a : Symbol} : ¬ g.Begins a [] := fun h => nomatch h

theorem begins_append {a : Symbol} {u v : List Symbol} :
    g.Begins a (u ++ v) ↔ g.Begins a u ∨ (g.Vanishes u ∧ g.Begins a v) := by
  induction u with
  | nil => exact ⟨fun h => .inr ⟨.nil, h⟩, fun h => h.elim (absurd · not_begins_nil) (·.2)⟩
  | cons s u ih =>
    constructor
    · intro h
      cases h with
      | here ha => exact .inl (.here ha)
      | within h hrhs => exact .inl (.within h hrhs)
      | behind h hrest =>
        rcases ih.mp hrest with hu | ⟨hu, hv⟩
        · exact .inl (.behind h hu)
        · exact .inr ⟨vanishes_cons.mpr ⟨h, hu⟩, hv⟩
    · rintro (h | ⟨h, hv⟩)
      · cases h with
        | here ha => exact .here ha
        | within h hrhs => exact .within h hrhs
        | behind h hrest => exact .behind h (ih.mpr (.inl hrest))
      · cases h with
        | cons h hrhs hrest =>
          exact .behind (vanishes_singleton.mpr ⟨_, h, hrhs⟩) (ih.mpr (.inr ⟨hrest, hv⟩))

theorem begins_cons {a : Symbol} {name : String} {u : List Symbol} :
    g.Begins a (.nonterminal name :: u) ↔
      g.Begins a [.nonterminal name] ∨ (g.Vanishes [.nonterminal name] ∧ g.Begins a u) :=
  begins_append (u := [.nonterminal name])

theorem begins_singleton {a : Symbol} {name : String} :
    g.Begins a [.nonterminal name] ↔ ∃ rhs, g.HasAlternative name rhs ∧ g.Begins a rhs := by
  constructor
  · intro h
    cases h with
    | here ha => exact absurd ha (by simp)
    | within h hrhs => exact ⟨_, h, hrhs⟩
    | behind _ hrest => exact absurd hrest not_begins_nil
  · rintro ⟨rhs, h, hrhs⟩
    exact .within h hrhs

theorem Produces.begins {a : Symbol} {u v : List Symbol} (h : g.Produces u v)
    (hv : g.Begins a v) : g.Begins a u := by
  obtain ⟨u, v, h⟩ := h
  rcases begins_append.mp hv with hur | ⟨hur, hv⟩
  · rcases begins_append.mp hur with hu | ⟨hu, hrhs⟩
    · exact begins_append.mpr (.inl hu)
    · exact begins_append.mpr (.inr ⟨hu, .within h hrhs⟩)
  · obtain ⟨hu, hrhs⟩ := vanishes_append.mp hur
    exact begins_append.mpr (.inr ⟨hu, .behind (vanishes_singleton.mpr ⟨_, h, hrhs⟩) hv⟩)

theorem Derives.begins {a : Symbol} {u v : List Symbol} (h : g.Derives u v)
    (hv : g.Begins a v) : g.Begins a u := by
  induction h with
  | refl => exact hv
  | tail _ hs ih => exact ih (hs.begins hv)

/-- **A form begins with a symbol iff it derives a form with the symbol in front.** -/
theorem begins_iff_derives {a : Symbol} (ha : a.isNonterminal = false) {u : List Symbol} :
    g.Begins a u ↔ ∃ v, g.Derives u (a :: v) := by
  constructor
  · intro h
    induction h with
    | @here rest => exact ⟨rest, Derives.refl _⟩
    | @within name rhs rest h _ ih =>
      obtain ⟨v, hv⟩ := ih
      exact ⟨v ++ rest, (derives_cons h rest).trans (hv.append_right rest)⟩
    | @behind name rest h _ ih =>
      obtain ⟨v, hv⟩ := ih
      exact ⟨v, ((vanishes_iff_derives.mp h).append_right rest).trans hv⟩
  · rintro ⟨v, hv⟩
    exact hv.begins (.here ha)

/-- With more alternatives a form begins with no less. -/
theorem Begins.mono {g' : Grammar}
    (hg : ∀ {name rhs}, g.HasAlternative name rhs → g'.HasAlternative name rhs)
    {a : Symbol} {u : List Symbol} (h : g.Begins a u) : g'.Begins a u := by
  have ha := h.isNonterminal_eq_false
  obtain ⟨v, hv⟩ := (begins_iff_derives ha).mp h
  exact (begins_iff_derives ha).mpr ⟨v, hv.mono hg⟩

/-! ## Leftmost derivations -/

namespace LeftDerives

theorem trans {u v r w x : List Symbol} (h : g.LeftDerives u w v) (h' : g.LeftDerives v x r) :
    g.LeftDerives u (w ++ x) r := by
  induction h with
  | refl => exact h'
  | shift ha _ ih => exact .shift ha (ih h')
  | expand hrhs _ ih => exact .expand hrhs (ih h')

/-- What stands behind a form stays behind what is left of it. -/
theorem append_right {u w r : List Symbol} (h : g.LeftDerives u w r) (x : List Symbol) :
    g.LeftDerives (u ++ x) w (r ++ x) := by
  induction h with
  | refl => exact .refl _
  | shift ha _ ih => exact .shift ha ih
  | expand hrhs _ ih =>
    rw [List.append_assoc] at ih
    exact .expand hrhs ih

theorem derives {u w r : List Symbol} (h : g.LeftDerives u w r) : g.Derives u (w ++ r) := by
  induction h with
  | refl => exact Derives.refl _
  | @shift a _ _ _ _ _ ih => exact ih.append_left [a]
  | @expand _ _ u _ _ hrhs _ ih => exact (derives_cons hrhs u).trans ih

theorem begins {a : Symbol} {u w r : List Symbol} (h : g.LeftDerives u (a :: w) r) :
    g.Begins a u := by
  generalize hx : a :: w = x at h
  induction h with
  | refl => cases hx
  | shift ha _ _ => cases hx; exact .here ha
  | expand hrhs _ ih => exact (Produces.replace [] _ hrhs).begins (ih hx)

theorem of_vanishes {u : List Symbol} (h : g.Vanishes u) : g.LeftDerives u [] [] := by
  induction h with
  | nil => exact .refl _
  | @cons _ rhs rest h _ _ ihr ih =>
    exact .expand h ((ihr.append_right rest).trans ih)

/-- A word without nonterminals is read off as it stands. -/
theorem of_word {w : List Symbol} (hw : ∀ s ∈ w, s.isNonterminal = false) (v : List Symbol) :
    g.LeftDerives (w ++ v) w v := by
  induction w with
  | nil => exact .refl _
  | cons a w ih =>
    exact .shift (hw a List.mem_cons_self) (ih fun s hs => hw s (List.mem_cons_of_mem a hs))

/-- A replacement in front of a leftmost derivation is put where the derivation comes to it, or
behind it. -/
theorem of_produces {u v w r : List Symbol} (hp : g.Produces u v) (h : g.LeftDerives v w r) :
    ∃ r', g.LeftDerives u w r' ∧ g.Derives r' r := by
  obtain @⟨name, rhs, x, y, hrhs⟩ := hp
  generalize hv : x ++ rhs ++ y = v at h
  -- Where `x` is used up, the replaced nonterminal is at the left end and its turn has come.
  have front {w r : List Symbol} (h : g.LeftDerives (rhs ++ y) w r) :
      ∃ r', g.LeftDerives (.nonterminal name :: y) w r' ∧ g.Derives r' r :=
    ⟨r, .expand hrhs h, Derives.refl r⟩
  induction h generalizing x with
  | refl r =>
    subst hv
    exact ⟨_, .refl _, Relation.ReflTransGen.single (Produces.replace x y hrhs)⟩
  | @shift a u w r ha h ih =>
    cases x with
    | nil =>
      refine front ?_
      rw [List.nil_append] at hv
      rw [hv]
      exact .shift ha h
    | cons b x =>
      obtain ⟨rfl, rfl⟩ := List.cons.inj hv
      obtain ⟨r', hl, hd⟩ := ih x rfl
      exact ⟨r', .shift ha hl, hd⟩
  | @expand name' rhs' u w r hrhs' h ih =>
    cases x with
    | nil =>
      refine front ?_
      rw [List.nil_append] at hv
      rw [hv]
      exact .expand hrhs' h
    | cons b x =>
      simp only [List.cons_append, List.append_assoc, List.cons.injEq] at hv
      obtain ⟨rfl, rfl⟩ := hv
      obtain ⟨r', hl, hd⟩ := ih (rhs' ++ x) (by simp only [List.append_assoc])
      rw [List.append_assoc] at hl
      exact ⟨r', .expand hrhs' hl, hd⟩

end LeftDerives

/-- **A derivation can be made leftmost**: a form derives a word without nonterminals and more
behind it iff the word can be read off its left end, and what is left derives the rest. -/
theorem derives_append_iff {u w v : List Symbol} (hw : ∀ s ∈ w, s.isNonterminal = false) :
    g.Derives u (w ++ v) ↔ ∃ r, g.LeftDerives u w r ∧ g.Derives r v := by
  constructor
  · intro h
    induction h using Relation.ReflTransGen.head_induction_on with
    | refl => exact ⟨v, .of_word hw v, Derives.refl v⟩
    | head hp _ ih =>
      obtain ⟨r, hl, hd⟩ := ih
      obtain ⟨r', hl', hd'⟩ := LeftDerives.of_produces hp hl
      exact ⟨r', hl', hd'.trans hd⟩
  · rintro ⟨r, hl, hd⟩
    exact hl.derives.trans (hd.append_left w)

/-- A word is a prefix of what a nonterminal derives iff it can be read off its left end. -/
theorem isPrefix_iff {name : String} {w : List Symbol} (hw : ∀ s ∈ w, s.isNonterminal = false) :
    g.IsPrefix name w ↔ ∃ r, g.LeftDerives [.nonterminal name] w r := by
  constructor
  · rintro ⟨v, hv⟩
    obtain ⟨r, hl, -⟩ := (derives_append_iff hw).mp hv
    exact ⟨r, hl⟩
  · rintro ⟨r, hl⟩
    exact ⟨r, hl.derives⟩

/-- A word is derived iff it can be read off the left end, and what is left vanishes. -/
theorem derives_iff {u w : List Symbol} (hw : ∀ s ∈ w, s.isNonterminal = false) :
    g.Derives u w ↔ ∃ r, g.LeftDerives u w r ∧ g.Vanishes r := by
  have := derives_append_iff (g := g) (u := u) (v := []) hw
  rw [List.append_nil] at this
  rw [this]
  simp only [vanishes_iff_derives]

end Grammar

end Predictive
