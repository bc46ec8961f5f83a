import Predictive.Proofs.Follow
import Predictive.Validation

/-!
# Validation comes to an answer

A sweep looks up the flag of every leading nonterminal, and the flags have the nonterminals as keys
from the beginning to the end. So no look-up misses where the names are declared. A sweep that
changes something settles a name for good, so there are at most as many of them as names.

* `ProductiveFlags.Visited`: what a visit to one nonterminal does.
* `exists_productive`: every nonterminal gets its flag, and a further sweep changes none.
* `validate_ordinary`: a grammar is accepted or rejected; a look-up does not come in between.
-/

namespace Predictive

namespace Failure

variable {α β : Type} {x : Except Failure α} {f : α → Except Failure β}

/-- The outcome is a result or the rejection of a grammar. -/
def Ordinary (outcome : Except Failure α) : Prop :=
  (∃ a, outcome = .ok a) ∨ ∃ e, outcome = .error (.grammar e)

/-- A result of two stages has a result of the first one behind it. -/
theorem exists_of_bind_eq_ok {ε : Type} {x : Except ε α} {f : α → Except ε β} {b : β}
    (h : (x >>= f) = .ok b) : ∃ a, x = .ok a ∧ f a = .ok b := by
  cases x with
  | error e => cases h
  | ok a => exact ⟨a, rfl, h⟩

theorem Ordinary.bind (h : Ordinary x) (hf : ∀ a, x = .ok a → Ordinary (f a)) :
    Ordinary (x >>= f) := by
  rcases h with ⟨a, rfl⟩ | ⟨e, rfl⟩
  · exact hf a rfl
  · exact .inr ⟨e, rfl⟩

@[simp] theorem lift_eq_ok_iff {ε : Type} {wide : ε → Failure} {o : Except ε α} {a : α} :
    lift wide o = .ok a ↔ o = .ok a := by
  cases o <;> simp [lift]

theorem ordinary_lift {o : Except GrammarError α} : Ordinary (lift .grammar o) := by
  cases o with
  | error e => exact .inr ⟨e, rfl⟩
  | ok a => exact .inl ⟨a, rfl⟩

end Failure

namespace Grammar

namespace ProductiveFlags

variable {flags flags' : ProductiveFlags} {name : String} {alts : List (List Symbol)}

/-- The alternative does not begin with a nonterminal that is not settled yet. -/
def Ready (flags : ProductiveFlags) (rhs : List Symbol) : Prop :=
  ∀ leader rest, rhs = .nonterminal leader :: rest → flags.find? leader = some true

/-- What a visit to a nonterminal does: the flag is kept, or it is settled by the flags so far. -/
inductive Visited (flags : ProductiveFlags) (name : String) (alts : List (List Symbol)) :
    ProductiveFlags → Prop
  | kept (h : flags.find? name = some true ∨ alts = [] ∨ ∃ rhs ∈ alts, ¬ flags.Ready rhs) :
      Visited flags name alts flags
  | settled (hname : flags.find? name ≠ some true) (halts : alts ≠ [])
      (h : ∀ rhs ∈ alts, flags.Ready rhs) : Visited flags name alts (flags.insert name true)

/-- Every nonterminal that leads one of the alternatives is among the names. -/
def LeadersAmong (names : List String) (alts : List (List Symbol)) : Prop :=
  ∀ leader rest, .nonterminal leader :: rest ∈ alts → leader ∈ names

/-! ## No look-up misses -/

theorem alternative_nonterminal (flags : ProductiveFlags) (leader : String) (rest : List Symbol) :
    flags.alternative (.nonterminal leader :: rest) =
      match flags.find? leader with
      | some flag => .ok flag
      | none => .error (.unknownName leader) := rfl

theorem exists_alternative {rhs : List Symbol}
    (h : ∀ leader rest, rhs = .nonterminal leader :: rest → leader ∈ flags.keys) :
    ∃ b, flags.alternative rhs = .ok b ∧ (b = true ↔ flags.Ready rhs) := by
  cases rhs with
  | nil => exact ⟨true, rfl, by simp [Ready]⟩
  | cons s rest =>
    cases hs : s.isNonterminal with
    | true =>
      rw [Symbol.eq_nonterminal hs] at h ⊢
      obtain ⟨flag, hflag⟩ := OrderedMap.mem_keys.mp (h s.name rest rfl)
      refine ⟨flag, ?_, by simp [Ready, Symbol.nonterminal, hflag]⟩
      rw [alternative_nonterminal, hflag]
    | false =>
      refine ⟨true, by simp [alternative, hs], iff_of_true rfl fun leader rest he => ?_⟩
      rw [(List.cons.inj he).1] at hs
      cases hs

theorem exists_every (h : LeadersAmong flags.keys alts) :
    ∃ b, flags.every alts = .ok b ∧ (b = true ↔ ∀ rhs ∈ alts, flags.Ready rhs) := by
  induction alts with
  | nil => exact ⟨true, rfl, by simp⟩
  | cons rhs alts ih =>
    obtain ⟨b, hb, hready⟩ : ∃ b, flags.alternative rhs = .ok b ∧ (b = true ↔ flags.Ready rhs) :=
      exists_alternative fun leader rest he => h leader rest (he ▸ List.mem_cons_self)
    obtain ⟨b', hb', hready'⟩ := ih fun leader rest hm => h leader rest (List.mem_cons_of_mem _ hm)
    unfold every
    simp only [hb, List.forall_mem_cons, ← hready]
    cases b with
    | false => exact ⟨false, rfl, by simp⟩
    | true => exact ⟨b', hb', by simpa using hready'⟩

theorem exists_visited (h : LeadersAmong flags.keys alts) (name : String) :
    ∃ flags', flags.visit name alts = .ok flags' ∧ flags.Visited name alts flags' := by
  unfold visit
  split
  · rename_i hkept
    simp only [Bool.or_eq_true, decide_eq_true_eq, List.isEmpty_iff] at hkept
    exact ⟨flags, rfl, .kept (hkept.imp_right .inl)⟩
  · rename_i hopen
    simp only [Bool.or_eq_true, decide_eq_true_eq, List.isEmpty_iff, not_or] at hopen
    obtain ⟨b, hb, hready⟩ := exists_every h
    rw [hb]
    cases b with
    | false =>
      refine ⟨flags, rfl, .kept (.inr (.inr ?_))⟩
      simpa using hready
    | true => exact ⟨_, rfl, .settled hopen.1 hopen.2 (hready.mp rfl)⟩

/-! ## The sweeps stop -/

/-- The names that are not settled. -/
def unsettled (flags : ProductiveFlags) : List String :=
  flags.keys.filter (flags.find? · ≠ some true)

/-- The keys are the same, and the flags too unless fewer names are not settled. -/
def Progress (flags flags' : ProductiveFlags) : Prop :=
  flags'.keys = flags.keys ∧ (flags' = flags ∨ flags'.unsettled.length < flags.unsettled.length)

theorem Progress.refl (flags : ProductiveFlags) : flags.Progress flags := ⟨rfl, .inl rfl⟩

theorem Progress.trans {flags'' : ProductiveFlags} (h : flags.Progress flags')
    (h' : flags'.Progress flags'') : flags.Progress flags'' := by
  refine ⟨h'.1.trans h.1, ?_⟩
  rcases h'.2 with rfl | hlt'
  · exact h.2
  · rcases h.2 with rfl | hlt
    · exact .inr hlt'
    · exact .inr (Nat.lt_trans hlt' hlt)

theorem progress_insert (hk : name ∈ flags.keys) (hname : flags.find? name ≠ some true) :
    flags.Progress (flags.insert name true) := by
  have hkeys : (flags.insert name true).keys = flags.keys := by
    rw [OrderedMap.keys_insert, if_pos hk]
  refine ⟨hkeys, .inr ?_⟩
  have hfilter : unsettled (flags.insert name true) = flags.unsettled.filter (· ≠ name) := by
    unfold unsettled
    rw [hkeys, List.filter_filter]
    refine List.filter_congr fun other _ => ?_
    rw [OrderedMap.find?_insert]
    by_cases ho : other = name <;> simp [ho]
  rw [hfilter, List.length_filter_lt_length_iff_exists]
  exact ⟨name, List.mem_filter.mpr ⟨hk, by simpa using hname⟩, by simp⟩

theorem Visited.progress (h : flags.Visited name alts flags') (hk : name ∈ flags.keys) :
    flags.Progress flags' := by
  cases h with
  | kept => exact .refl flags
  | settled hname => exact progress_insert hk hname

/-- The names of the entries are among the names, and so are those that lead their alternatives. -/
def Closed (names : List String) (rules : List (String × List (List Symbol))) : Prop :=
  ∀ name alts, (name, alts) ∈ rules → name ∈ names ∧ LeadersAmong names alts

theorem exists_sweep {rules : List (String × List (List Symbol))}
    (h : Closed flags.keys rules) :
    ∃ flags', sweep rules flags = .ok flags' ∧ flags.Progress flags' := by
  induction rules generalizing flags with
  | nil => exact ⟨flags, rfl, .refl flags⟩
  | cons e rules ih =>
    obtain ⟨name, alts⟩ := e
    obtain ⟨hname, hleaders⟩ := h name alts List.mem_cons_self
    obtain ⟨next, hvisit, hvisited⟩ := exists_visited hleaders name
    have hprogress := hvisited.progress hname
    have hnext : Closed next.keys rules := fun name alts hm =>
      hprogress.1 ▸ h name alts (List.mem_cons_of_mem _ hm)
    obtain ⟨last, hsweep, hlast⟩ := ih hnext
    refine ⟨last, ?_, hprogress.trans hlast⟩
    unfold sweep
    rw [hvisit]
    exact hsweep

/-- **The sweeps stop at a fixed point** if their bound is above the number of names that are not
settled. -/
theorem exists_settle {rules : List (String × List (List Symbol))} {bound : Nat}
    (h : Closed flags.keys rules) (hb : flags.unsettled.length < bound) :
    ∃ flags', settle rules bound flags = .ok flags' ∧ flags'.keys = flags.keys ∧
      sweep rules flags' = .ok flags' := by
  induction bound generalizing flags with
  | zero => exact absurd hb (Nat.not_lt_zero _)
  | succ bound ih =>
    obtain ⟨next, hsweep, hkeys, hprogress⟩ := exists_sweep h
    unfold settle
    simp only [hsweep]
    by_cases he : next = flags
    · rw [if_pos he]
      exact ⟨flags, rfl, rfl, he ▸ hsweep⟩
    · have hlt := hprogress.resolve_left he
      have hnext : Closed next.keys rules := hkeys ▸ h
      obtain ⟨last, hsettle, hlast, hfixed⟩ := ih hnext (by omega)
      rw [if_neg he]
      exact ⟨last, hsettle, hlast.trans hkeys, hfixed⟩

end ProductiveFlags

/-! ## The stages of a validation -/

variable {g : Grammar}

theorem of_checkDeclared (h : g.checkDeclared = .ok ()) :
    g.rules.contains g.start = true ∧ ∀ p ∈ g.productions, ∀ s ∈ p.rhs, g.isDeclared s = true := by
  unfold checkDeclared at h
  split at h
  · rename_i hstart
    split at h
    · cases h
    · rename_i hnone
      refine ⟨hstart, fun p hp s hs => ?_⟩
      have hp' := List.findSome?_eq_none_iff.mp hnone p hp
      simpa using List.find?_eq_none.mp (Option.map_eq_none_iff.mp hp') s hs
  · cases h

theorem emptyFree_of_checkDeclared (h : g.checkDeclared = .ok ()) : g.EmptyFree :=
  fun p hp s hs he => by
    have := (of_checkDeclared h).2 p hp s hs
    unfold isDeclared at this
    rw [he] at this
    cases this

theorem namesDeclared_of_checkDeclared (h : g.checkDeclared = .ok ()) : g.NamesDeclared :=
  fun p hp s hs hn => by
    have := (of_checkDeclared h).2 p hp s hs
    unfold isDeclared at this
    rw [Symbol.eq_nonterminal hn] at this
    exact this

theorem closed_rules (hd : g.NamesDeclared) : ProductiveFlags.Closed g.nonterminals g.rules.entries
    := by
  intro name alts he
  have halts := OrderedMap.find?_eq_some_iff.mpr he
  refine ⟨OrderedMap.mem_keys.mpr ⟨alts, halts⟩, fun leader rest hm => ?_⟩
  exact hd.mem_nonterminals ⟨alts, halts, hm⟩ List.mem_cons_self

/-- **The flags come out, and no sweep changes them any more.** -/
theorem exists_productive (hd : g.NamesDeclared) :
    ∃ flags, g.productive = .ok flags ∧ flags.keys = g.nonterminals ∧
      ProductiveFlags.sweep g.rules.entries flags = .ok flags := by
  have hkeys : (g.rules.withKeysOf false).keys = g.nonterminals := OrderedMap.keys_withKeysOf _ _
  have hbound : (ProductiveFlags.unsettled (g.rules.withKeysOf false)).length <
      g.nonterminals.length + 1 :=
    Nat.lt_succ_of_le (hkeys ▸ List.length_filter_le _ _)
  obtain ⟨flags, hsettle, hlast, hfixed⟩ :=
    ProductiveFlags.exists_settle (hkeys ▸ closed_rules hd) hbound
  exact ⟨flags, hsettle, hlast.trans hkeys, hfixed⟩

theorem checkDeclared_of_validate {flags : ProductiveFlags} (h : g.validate = .ok flags) :
    g.checkDeclared = .ok () := by
  obtain ⟨⟨⟩, hlift, -⟩ := Failure.exists_of_bind_eq_ok h
  exact Failure.lift_eq_ok_iff.mp hlift

/-- **A grammar is accepted or rejected.** -/
theorem validate_ordinary (g : Grammar) : Failure.Ordinary g.validate := by
  refine Failure.ordinary_lift.bind fun _ hlift => ?_
  have hc : g.checkDeclared = .ok () := Failure.lift_eq_ok_iff.mp hlift
  obtain ⟨flags, hflags, -⟩ := exists_productive (namesDeclared_of_checkDeclared hc)
  rw [hflags]
  simp only [Failure.lift, bind, Except.bind]
  split
  · exact .inr ⟨_, rfl⟩
  · exact .inl ⟨_, rfl⟩

end Grammar

end Predictive
