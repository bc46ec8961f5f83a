import Predictive.Proofs.Lookahead
import Predictive.Proofs.Moves

/-!
# How high a stack grows on one token

The frames that are put on a stack during the work on a token, and are still there, take their
alternatives for that token, and what is done of them can not begin with it (`Frame.Opened`). So
they are nested in each other as in `Lookahead`.

* `length_le_of_moves`: no stack on the way is higher than at first by more than the number of
  nonterminals.
* `exists_moves_run`: the work on a token comes to its end.
-/

namespace Predictive

/-- The frame took its alternative for the token, and what is done of it can not begin with the
token. -/
def Frame.Opened (a : Automaton) (t : Symbol) (f : Frame) : Prop :=
  ∃ i p, f.alternative = some i ∧ a.table.lookup f.nonterminal t = some i ∧
    a.grammar.production? f.nonterminal i = .ok p ∧ ¬ a.grammar.Begins t (p.rhs.take f.position)

namespace Frame

variable {a : Automaton} {t : Symbol} {f : Frame}

/-- An opened frame gives its production by its cell. -/
theorem Opened.of_production? (h : f.Opened a t) {p : Production}
    (hp : f.production? a.grammar = .ok (some p)) :
    ∃ i, a.table.lookup f.nonterminal t = some i ∧ a.grammar.production? f.nonterminal i = .ok p ∧
      ¬ a.grammar.Begins t (p.rhs.take f.position) := by
  obtain ⟨i, q, hi, hl, hq, hb⟩ := h
  obtain ⟨j, hj, hp⟩ := Frame.production?_eq_some_iff.mp hp
  rw [hi] at hj
  cases hj
  rw [hq] at hp
  cases hp
  exact ⟨i, hl, hq, hb⟩

theorem Opened.nests (h : f.Opened a t) {name : String} (hw : f.Waits a.grammar name) :
    a.table.Nests a.grammar t name f.nonterminal := by
  obtain ⟨p, hp, hs⟩ := hw
  obtain ⟨i, hl, hq, hb⟩ := h.of_production? hp
  obtain ⟨hlt, hget⟩ := List.getElem?_eq_some_iff.mp hs
  refine ⟨i, p, p.rhs.take f.position, p.rhs.drop (f.position + 1), hl, hq, ?_, hb⟩
  rw [← hget, ← List.drop_eq_getElem_cons hlt, List.take_append_drop]

/-- If everything of an opened frame is done, its nonterminal can not begin with the token: the
table has only one alternative for it. -/
theorem Opened.not_begins (h : f.Opened a t) (hd : a.table.Decides a.grammar) (ht : t.IsToken)
    {p : Production} (hp : f.production? a.grammar = .ok (some p))
    (hs : p.rhs[f.position]? = none) : ¬ a.grammar.Begins t [.nonterminal f.nonterminal] := by
  intro hb
  obtain ⟨i, hl, hq, hn⟩ := h.of_production? hp
  obtain ⟨rhs, hr, hbegins⟩ := Grammar.begins_singleton.mp hb
  have heq : p.rhs = rhs := hd.unique ht (Grammar.hasAlternative_of_production? hq)
    (hd.selects ht hl hq) hr (.inl hbegins)
  rw [List.take_of_length_le (List.getElem?_eq_none_iff.mp hs), heq] at hn
  exact hn hbegins

/-- An opened frame goes on behind a nonterminal that can not begin with the token. -/
theorem Opened.advance (h : f.Opened a t) {name : String} (hw : f.Waits a.grammar name)
    (hn : ¬ a.grammar.Begins t [.nonterminal name]) : f.advance.Opened a t := by
  obtain ⟨p, hp, hs⟩ := hw
  obtain ⟨i, hi, -⟩ := Frame.production?_eq_some_iff.mp hp
  obtain ⟨j, hl, hq, hb⟩ := h.of_production? hp
  obtain ⟨i', -, hi', hl', -⟩ := h
  rw [hi] at hi'
  cases hi'
  rw [hl'] at hl
  cases hl
  refine ⟨i, p, hi, hl', hq, ?_⟩
  rw [position_advance, List.take_add_one, hs]
  intro hbegins
  rcases Grammar.begins_append.mp hbegins with hbegins | ⟨-, hbegins⟩
  · exact hb hbegins
  · exact hn hbegins

end Frame

namespace Automaton

variable {a : Automaton} {token : Token}

/-- The frame has come onto the stack during the work on the token. -/
def New (a : Automaton) (t : Symbol) (f : Frame) : Prop :=
  f.nonterminal ∈ a.grammar.nonterminals ∧ (f.alternative = none ∨ f.Opened a t)

theorem New.opened {t : Symbol} {f : Frame} (h : a.New t f) {p : Production}
    (hp : f.production? a.grammar = .ok (some p)) : f.Opened a t := by
  refine h.2.resolve_left fun hn => ?_
  rw [Frame.production?_eq_none_iff.mpr hn] at hp
  cases hp

theorem New.opened_of_waits {t : Symbol} {f : Frame} (h : a.New t f) {name : String}
    (hw : f.Waits a.grammar name) : f.Opened a t := by
  obtain ⟨p, hp, -⟩ := hw
  exact h.opened hp

/-- The stack is what is left of another one, advanced or not, with new frames on it. -/
def GrownFrom (a : Automaton) (t : Symbol) (height : Nat) (stack : Stack) : Prop :=
  ∃ new old, stack = new ++ old ∧ old.length ≤ height ∧ ∀ f ∈ new, a.New t f

namespace GrownFrom

variable {t : Symbol} {height : Nat} {f : Frame} {below : Stack}

theorem refl (stack : Stack) : a.GrownFrom t stack.length stack :=
  ⟨[], stack, rfl, Nat.le_refl _, by simp⟩

theorem push {stack : Stack} (h : a.GrownFrom t height stack) (hf : a.New t f) :
    a.GrownFrom t height (f :: stack) := by
  obtain ⟨new, old, rfl, hold, hnew⟩ := h
  refine ⟨f :: new, old, rfl, hold, fun f' hf' => ?_⟩
  rcases List.mem_cons.mp hf' with rfl | hf'
  · exact hf
  · exact hnew f' hf'

/-- The frame on top may be changed if it stays new. -/
theorem replace {f' : Frame} (h : a.GrownFrom t height (f :: below))
    (hf : a.New t f → a.New t f') : a.GrownFrom t height (f' :: below) := by
  obtain ⟨new, old, heq, hold, hnew⟩ := h
  cases new with
  | nil =>
    rw [List.nil_append] at heq
    rw [← heq] at hold
    exact ⟨[], f' :: below, rfl, hold, by simp⟩
  | cons g new =>
    obtain ⟨rfl, rfl⟩ := List.cons.inj heq
    have hbelow : a.GrownFrom t height (new ++ old) :=
      ⟨new, old, rfl, hold, fun g hg => hnew g (List.mem_cons_of_mem f hg)⟩
    exact hbelow.push (hf (hnew f List.mem_cons_self))

/-- The frame on top may be closed if the one below it stays new as it goes on. -/
theorem resume (h : a.GrownFrom t height (f :: below))
    (hf : ∀ f' ∈ below.head?, a.New t f → a.New t f' → a.New t f'.advance) :
    a.GrownFrom t height below.resume := by
  obtain ⟨new, old, heq, hold, hnew⟩ := h
  cases new with
  | nil =>
    rw [List.nil_append] at heq
    rw [← heq, List.length_cons] at hold
    refine ⟨[], below.resume, rfl, ?_, by simp⟩
    rw [Stack.length_resume]
    omega
  | cons g new =>
    obtain ⟨rfl, rfl⟩ := List.cons.inj heq
    cases new with
    | nil => exact ⟨[], old.resume, rfl, by rwa [Stack.length_resume], by simp⟩
    | cons f' new =>
      have hbelow : a.GrownFrom t height (f' :: (new ++ old)) :=
        ⟨f' :: new, old, rfl, hold, fun g hg => hnew g (List.mem_cons_of_mem f hg)⟩
      exact hbelow.replace (hf f' rfl (hnew f List.mem_cons_self))

end GrownFrom

/-- New frames that wait for each other are nested. -/
theorem isChain_of_new {t : Symbol} {name : String} {new old : List Frame}
    (hw : Stack.WaitsFor a.grammar name (new ++ old)) (hn : ∀ f ∈ new, a.New t f) :
    (name :: new.map (·.nonterminal)).IsChain (a.table.Nests a.grammar t) := by
  induction new generalizing name with
  | nil => exact .singleton name
  | cons f new ih =>
    have hopened : f.Opened a t := (hn f List.mem_cons_self).opened_of_waits hw.1
    rw [List.map_cons]
    exact .cons_cons (hopened.nests hw.1)
      (ih hw.2 fun f' hf => hn f' (List.mem_cons_of_mem f hf))

section Decided

variable (hd : a.table.Decides a.grammar)

include hd

/-- **A grown stack exceeds its old height by no more than the number of nonterminals.** -/
theorem GrownFrom.length_le {t : Symbol} (ht : t.IsToken) {height : Nat} {stack : Stack}
    (h : a.GrownFrom t height stack) (hs : stack.WellFormed a.grammar) :
    stack.length ≤ height + a.grammar.nonterminals.length := by
  obtain ⟨new, old, rfl, hold, hnew⟩ := h
  have hlen : new.length ≤ a.grammar.nonterminals.length := by
    cases new with
    | nil => exact Nat.zero_le _
    | cons f new =>
      have hchain : ((f :: new).map (·.nonterminal)).IsChain (a.table.Nests a.grammar t) :=
        isChain_of_new hs.2 fun f' hf => hnew f' (List.mem_cons_of_mem f hf)
      rw [← List.length_map (·.nonterminal)]
      refine hd.length_le_of_nested ht hchain fun name hname => ?_
      obtain ⟨f', hf', rfl⟩ := List.mem_map.mp hname
      exact (hnew f' hf').1
  rw [List.length_append]
  omega

/-- A turn keeps the frames that are not new, but for those it closes. -/
theorem Turn.grownFrom (ht : token.symbol.IsToken) {height : Nat} {stack next : Stack}
    {events : List Event} (h : a.Turn token stack events next) (hs : stack.WellFormed a.grammar)
    (hg : a.GrownFrom token.symbol height stack) : a.GrownFrom token.symbol height next := by
  cases h with
  | @choose f below i p hf hl hp =>
    refine hg.replace fun hnew => ?_
    exact ⟨hnew.1, .inr ⟨i, p, rfl, hl, hp, Grammar.not_begins_nil⟩⟩
  | @close f below p hf hsym =>
    refine hg.resume fun f' hf' hnew hnew' => ?_
    -- The closed frame was opened for the token, so the one below goes on behind it.
    have hopened : f.Opened a token.symbol := hnew.opened hf
    have hw : f'.Waits a.grammar f.nonterminal := by
      cases below with
      | nil => cases hf'
      | cons f'' below =>
        cases hf'
        exact hs.2.1
    have hopened' : f'.Opened a token.symbol := hnew'.opened_of_waits hw
    exact ⟨hnew'.1, .inr (hopened'.advance hw (hopened.not_begins hd ht hf hsym))⟩
  | @descend f below p name hf hsym hb =>
    obtain ⟨i, -, hp⟩ := Frame.production?_eq_some_iff.mp hf
    have hmem : name ∈ a.grammar.nonterminals :=
      hd.names.mem_nonterminals (Grammar.hasAlternative_of_production? hp)
        (List.mem_of_getElem? hsym)
    exact hg.push ⟨hmem, .inl rfl⟩

/-- **No stack on the way is higher than at first by more than the number of nonterminals.** -/
theorem length_le_of_moves (ht : token.symbol.IsToken) {stack next : Stack} {events : List Event}
    (hs : stack.WellFormed a.grammar) (h : a.Moves token stack events next) :
    next.length ≤ stack.length + a.grammar.nonterminals.length := by
  have hkept : next.WellFormed a.grammar ∧ a.GrownFrom token.symbol stack.length next := by
    refine h.invariant (P := fun s => s.WellFormed a.grammar ∧ a.GrownFrom token.symbol _ s)
      (fun hturn hk => ?_) ⟨hs, .refl stack⟩
    exact ⟨hturn.wellFormed hk.1, hturn.grownFrom hd ht hk.1 hk.2⟩
  exact hkept.2.length_le hd ht hkept.1

/-- No stack on the way exceeds the ceiling. -/
theorem length_le_ceiling (ht : token.symbol.IsToken) {stack next : Stack} {events : List Event}
    (hs : stack.WellFormed a.grammar) (h : a.Moves token stack events next) :
    next.length ≤ a.ceiling stack := by
  unfold ceiling
  cases hl : a.depthLimit with
  | none => exact Nat.le_succ_of_le (length_le_of_moves hd ht hs h)
  | some limit =>
    -- Below a limit the frames are counted before each descent.
    refine h.invariant (P := (·.length ≤ max stack.length limit.toNat)) (fun hturn hk => ?_)
      (Nat.le_max_left _ _)
    cases hturn with
    | choose => exact hk
    | close => exact Nat.le_trans (by simp) hk
    | descend hf hsym hb =>
      have hroom := blocked?_eq_none_iff.mp hb limit hl
      simp only [List.length_cons] at hroom hk ⊢
      omega

/-- **The work on a token comes to its end.** -/
theorem exists_moves_run (ht : token.symbol.IsToken) {stack : Stack}
    (hs : stack.WellFormed a.grammar) :
    ∃ events last outcome, a.Moves token stack events last ∧ a.Halt token last outcome ∧
      a.run token stack = outcome.after events :=
  exists_moves fun h => length_le_ceiling hd ht hs h

end Decided

end Automaton

end Predictive
