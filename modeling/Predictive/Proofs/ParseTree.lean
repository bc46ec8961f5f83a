import Predictive.Proofs.Shape

/-!
# The trace is a parse tree

The events of a parser tell how a tree is made, in order: an alternative that is taken opens a node, a
matched token is a leaf, and a nonterminal that is closed closes the node that was opened last
(`Reading.read?`). This reading never fails. After every event the nodes that are open are the frames
of the stack, all of them decided, and what is done of a frame are the children of its node
(`Reading.Follows`). So a nonterminal is closed when its node has all the children that its
alternative demands, and a parse that is accepted has made one tree.

Between two events the stack may have an undecided frame on top. It has no node yet, so that the nodes
are compared with the decided frames.

* `Turn.tracks`, `Halt.tracks`: the reading goes on with every move.
* `Parser.Intact.tracks_record`: it goes on with everything a parser is asked.
* `Reading.leaves_of_readAll?`: the leaves of a reading are the matched lexemes.
* `events_make_tree`: the main result.
-/

namespace Predictive

/-! ## Trees and how they are read -/

/-- A tree of alternatives, with lexemes at its leaves; the end of the stream has none. -/
inductive ParseTree where
  | leaf (lexeme : Option String)
  | node (production : Production) (children : List ParseTree)

namespace ParseTree

/-- The symbol that a tree stands for. -/
def symbol (g : Grammar) : ParseTree → Symbol
  | leaf lexeme => g.classify lexeme
  | node p _ => .nonterminal p.lhs

/-- Every node of the tree is by an alternative of the grammar, and its children stand for the
symbols of that, one for each. -/
inductive Fits (g : Grammar) : ParseTree → Prop
  | leaf (lexeme : Option String) : Fits g (.leaf lexeme)
  | node {p : Production} {children : List ParseTree} (hp : g.HasAlternative p.lhs p.rhs)
      (hs : children.map (symbol g) = p.rhs) (hc : ∀ t ∈ children, Fits g t) :
      Fits g (.node p children)

mutual

/-- The lexemes at the leaves, from the left. -/
def leaves : ParseTree → List (Option String)
  | leaf lexeme => [lexeme]
  | node _ children => leavesOf children

/-- The lexemes at the leaves of some trees in a row. -/
def leavesOf : List ParseTree → List (Option String)
  | [] => []
  | t :: ts => t.leaves ++ leavesOf ts

end

theorem leavesOf_append (ts more : List ParseTree) :
    leavesOf (ts ++ more) = leavesOf ts ++ leavesOf more := by
  induction ts with
  | nil => rfl
  | cons t ts ih => simp only [List.cons_append, leavesOf, ih, List.append_assoc]

end ParseTree

/-- A node that is not closed, with its children so far. -/
structure OpenNode where
  production : Production
  children : List ParseTree

/-- The node with one child more. -/
def OpenNode.attach (o : OpenNode) (t : ParseTree) : OpenNode :=
  { o with children := o.children ++ [t] }

/-- What has been read of a trace: the nodes that are open, the one that was opened last first, and
the trees that are complete. -/
structure Reading where
  opened : List OpenNode
  complete : List ParseTree

namespace Reading

/-- Nothing is read yet. -/
def empty : Reading := ⟨[], []⟩

/-- A tree is a child of the node that was opened last, or is complete if none is open. -/
def attach (r : Reading) (t : ParseTree) : Reading :=
  match r.opened with
  | [] => ⟨[], r.complete ++ [t]⟩
  | o :: opened => ⟨o.attach t :: opened, r.complete⟩

/-- Reads what a parser does. A leaf belongs to an open node, a nonterminal can only be closed if the
node that was opened last is one of it, and nothing can be accepted as long as a node is open. -/
def read? (r : Reading) : Action → Option Reading
  | .expand p => some ⟨⟨p, []⟩ :: r.opened, r.complete⟩
  | .shift lexeme => if r.opened.isEmpty then none else some (r.attach (.leaf lexeme))
  | .close name =>
    match r.opened with
    | [] => none
    | o :: opened =>
      if o.production.lhs = name then
        some (Reading.attach ⟨opened, r.complete⟩ (.node o.production o.children))
      else none
  | .accept => if r.opened.isEmpty then some r else none

/-- Reads some events, one after the other. -/
def readAll? (r : Reading) (events : List Event) : Option Reading :=
  events.foldlM (fun r e => r.read? e.action) r

theorem readAll?_cons (r : Reading) (e : Event) (events : List Event) :
    r.readAll? (e :: events) = (r.read? e.action).bind (·.readAll? events) := List.foldlM_cons

theorem read?_close_eq_some_iff {r r' : Reading} {name : String} :
    r.read? (.close name) = some r' ↔ ∃ o opened, r.opened = o :: opened ∧
      o.production.lhs = name ∧
      r' = Reading.attach ⟨opened, r.complete⟩ (.node o.production o.children) := by
  obtain ⟨opened, complete⟩ := r
  cases opened with
  | nil => simp [read?]
  | cons o opened => simp [read?, eq_comm]

theorem read?_shift_eq_some_iff {r r' : Reading} {lexeme : Option String} :
    r.read? (.shift lexeme) = some r' ↔ r.opened ≠ [] ∧ r' = r.attach (.leaf lexeme) := by
  obtain ⟨opened, complete⟩ := r
  cases opened with
  | nil => simp [read?]
  | cons o opened => simp [read?, eq_comm]

theorem read?_accept_eq_some_iff {r r' : Reading} :
    r.read? .accept = some r' ↔ r.opened = [] ∧ r' = r := by
  obtain ⟨opened, complete⟩ := r
  cases opened with
  | nil => simp [read?, eq_comm]
  | cons o opened => simp [read?]

/-- The lexemes at the leaves that are read, from the left. -/
def leaves (r : Reading) : List (Option String) :=
  ParseTree.leavesOf r.complete ++
    r.opened.reverse.flatMap fun o => ParseTree.leavesOf o.children

theorem leaves_attach (r : Reading) (t : ParseTree) :
    (r.attach t).leaves = r.leaves ++ t.leaves := by
  obtain ⟨opened, complete⟩ := r
  cases opened with
  | nil => simp [attach, leaves, ParseTree.leavesOf_append, ParseTree.leavesOf]
  | cons o opened =>
    simp [attach, OpenNode.attach, leaves, ParseTree.leavesOf_append, ParseTree.leavesOf]

end Reading

/-- The lexeme that is matched, if one is. -/
def Action.lexemes : Action → List (Option String)
  | shift lexeme => [lexeme]
  | _ => []

namespace Reading

/-- A reading gains the leaf that is matched. -/
theorem leaves_of_read? {r r' : Reading} {action : Action} (h : r.read? action = some r') :
    r'.leaves = r.leaves ++ action.lexemes := by
  cases action with
  | expand p =>
    cases h
    simp [leaves, Action.lexemes, ParseTree.leavesOf]
  | shift lexeme =>
    obtain ⟨-, rfl⟩ := read?_shift_eq_some_iff.mp h
    exact leaves_attach r _
  | close name =>
    obtain ⟨o, opened, ho, -, rfl⟩ := read?_close_eq_some_iff.mp h
    rw [leaves_attach]
    simp [leaves, ho, Action.lexemes, ParseTree.leaves]
  | accept =>
    obtain ⟨-, rfl⟩ := read?_accept_eq_some_iff.mp h
    exact (List.append_nil _).symm

/-- **The leaves of a reading are the matched lexemes**, in order. -/
theorem leaves_of_readAll? {r r' : Reading} {events : List Event}
    (h : r.readAll? events = some r') :
    r'.leaves = r.leaves ++ events.flatMap (·.action.lexemes) := by
  induction events generalizing r with
  | nil =>
    cases h
    exact (List.append_nil _).symm
  | cons e events ih =>
    rw [readAll?_cons] at h
    obtain ⟨next, hnext, hrest⟩ := Option.bind_eq_some_iff.mp h
    rw [ih hrest, leaves_of_read? hnext, List.append_assoc]
    rfl

end Reading

/-! ## Readings and stacks -/

/-- The node is the one of the frame: it is by the alternative that the frame has taken, and its
children stand for what is done of that. -/
structure OpenNode.Of (g : Grammar) (o : OpenNode) (f : Frame) : Prop where
  production : f.production? g = .ok (some o.production)
  symbols : o.children.map (ParseTree.symbol g) = o.production.rhs.take f.position
  fits : ∀ t ∈ o.children, t.Fits g

namespace OpenNode.Of

variable {g : Grammar} {o : OpenNode} {f : Frame}

theorem production_eq (h : o.Of g f) {p : Production} (hp : f.production? g = .ok (some p)) :
    o.production = p := by
  have hsame := h.production.symm.trans hp
  simpa using hsame

/-- The node is one of the nonterminal of the frame. -/
theorem lhs_eq (h : o.Of g f) : o.production.lhs = f.nonterminal := by
  obtain ⟨i, -, hp⟩ := Frame.production?_eq_some_iff.mp h.production
  exact Grammar.lhs_of_production? hp

theorem hasAlternative (h : o.Of g f) :
    g.HasAlternative o.production.lhs o.production.rhs := by
  rw [h.lhs_eq]
  obtain ⟨i, -, hp⟩ := Frame.production?_eq_some_iff.mp h.production
  exact Grammar.hasAlternative_of_production? hp

theorem attach (h : o.Of g f) {t : ParseTree} {p : Production}
    (hp : f.production? g = .ok (some p)) (hs : p.rhs[f.position]? = some (t.symbol g))
    (ht : t.Fits g) : (o.attach t).Of g f.advance := by
  refine ⟨h.production, ?_, fun t' ht' => ?_⟩
  · show (o.children ++ [t]).map _ = o.production.rhs.take (f.position + 1)
    rw [List.map_append, h.symbols, List.take_add_one, h.production_eq hp, hs]
    rfl
  · rcases List.mem_append.mp ht' with ht' | ht'
    · exact h.fits t' ht'
    · rw [List.mem_singleton.mp ht']
      exact ht

/-- A node whose alternative is done is a tree that fits. -/
theorem close (h : o.Of g f) (hs : o.production.rhs[f.position]? = none) :
    (ParseTree.node o.production o.children).Fits g := by
  refine .node h.hasAlternative ?_ h.fits
  rw [h.symbols, List.take_of_length_le (List.getElem?_eq_none_iff.mp hs)]

end OpenNode.Of

/-- The frames that have taken an alternative. -/
def Stack.decided (stack : Stack) : Stack := stack.filter (·.alternative.isSome)

namespace Stack

variable {g : Grammar} {f : Frame} {below : Stack}

theorem decided_cons_of_undecided (h : f.alternative = none) :
    decided (f :: below) = decided below := by
  simp [decided, h]

theorem decided_cons (h : f.alternative ≠ none) :
    decided (f :: below) = f :: decided below := by
  simp [decided, Option.isSome_iff_ne_none, h]

/-- All frames below another one are decided. -/
theorem WaitsFor.decided_eq {name : String} (h : WaitsFor g name below) :
    decided below = below := by
  refine List.filter_eq_self.mpr fun f hf => ?_
  obtain ⟨name, p, hp, -⟩ := h.mem hf
  exact Option.isSome_iff_ne_none.mpr (Frame.alternative_ne_none hp)

end Stack

namespace Reading

/-- The reading follows the stack: the nodes that are open are its decided frames, in order, and
there is a complete tree only if the stack is empty, which is one of the start then. -/
structure Follows (g : Grammar) (start : String) (r : Reading) (stack : Stack) : Prop where
  opened : List.Forall₂ (OpenNode.Of g) r.opened stack.decided
  wellFormed : stack.WellFormed g
  rooted : stack.Rooted start
  incomplete : stack ≠ [] → r.complete = []
  complete : stack = [] →
    ∃ t, r.complete = [t] ∧ t.Fits g ∧ t.symbol g = .nonterminal start

/-- The reading goes on with the events, and follows the stack after each of them, where all frames
are decided. -/
inductive Tracks (g : Grammar) (start : String) : Reading → List Event → Reading → Prop
  | nil (r : Reading) : Tracks g start r [] r
  | cons {r r' last : Reading} {e : Event} {events : List Event}
      (hr : r.read? e.action = some r') (hf : r'.Follows g start e.stack)
      (hd : e.stack.decided = e.stack) (h : Tracks g start r' events last) :
      Tracks g start r (e :: events) last

variable {g : Grammar} {start : String} {r r' last : Reading} {events more : List Event}

theorem follows_start (g : Grammar) (start : String) :
    empty.Follows g start [.undecided start] where
  opened := .nil
  wellFormed := Stack.wellFormed_start start
  rooted := Stack.rooted_start start
  incomplete := fun _ => rfl
  complete := by simp

namespace Tracks

theorem single {e : Event} (hr : r.read? e.action = some r') (hf : r'.Follows g start e.stack)
    (hd : e.stack.decided = e.stack) : Tracks g start r [e] r' := .cons hr hf hd (.nil r')

theorem append (h : Tracks g start r events r') (h' : Tracks g start r' more last) :
    Tracks g start r (events ++ more) last := by
  induction h with
  | nil => exact h'
  | cons hr hf hd _ ih => exact .cons hr hf hd (ih h')

theorem readAll?_eq (h : Tracks g start r events r') : r.readAll? events = some r' := by
  induction h with
  | nil => rfl
  | cons hr _ _ _ ih =>
    rw [readAll?_cons, hr]
    exact ih

/-- What happens at each of the events. -/
theorem of_event {earlier later : List Event} {e : Event}
    (h : Tracks g start r (earlier ++ e :: later) last) :
    ∃ before after, r.readAll? earlier = some before ∧ before.read? e.action = some after ∧
      after.Follows g start e.stack ∧ e.stack.decided = e.stack := by
  induction earlier generalizing r with
  | nil =>
    cases h with
    | cons hr hf hd _ => exact ⟨r, _, rfl, hr, hf, hd⟩
  | cons e' earlier ih =>
    cases h with
    | cons hr _ _ h =>
      obtain ⟨before, after, hbefore, hafter⟩ := ih h
      refine ⟨before, after, ?_, hafter⟩
      rw [readAll?_cons, hr]
      exact hbefore

end Tracks

namespace Follows

variable {stack : Stack} {f : Frame} {below : Stack}

/-- A decided frame on top is the one of the node that was opened last. -/
theorem top (h : r.Follows g start (f :: below)) {p : Production}
    (hf : f.production? g = .ok (some p)) :
    ∃ o opened, r = ⟨o :: opened, []⟩ ∧ o.production = p ∧ o.Of g f ∧
      List.Forall₂ (OpenNode.Of g) opened below := by
  have hopened := h.opened
  rw [Stack.decided_cons (Frame.alternative_ne_none hf), h.wellFormed.2.decided_eq] at hopened
  have hcomplete : r.complete = [] := h.incomplete (by simp)
  obtain ⟨opened, complete⟩ := r
  cases hcomplete
  cases hopened with
  | @cons o _ opened _ ho hbelow => exact ⟨o, opened, rfl, ho.production_eq hf, ho, hbelow⟩

/-- Of an empty stack there is one complete tree and no open node. -/
theorem tree (h : r.Follows g start []) :
    ∃ t, r = ⟨[], [t]⟩ ∧ t.Fits g ∧ t.symbol g = .nonterminal start := by
  obtain ⟨t, ht, hfits, hsymbol⟩ := h.complete rfl
  have hopened : r.opened = [] := List.forall₂_nil_right_iff.mp h.opened
  obtain ⟨opened, complete⟩ := r
  cases ht
  cases hopened
  exact ⟨t, rfl, hfits, hsymbol⟩

/-- A tree that has just been attached fits. -/
theorem fits_of_attach {t : ParseTree} (h : (r.attach t).Follows g start stack)
    (hd : stack.decided = stack) : t.Fits g := by
  obtain ⟨opened, complete⟩ := r
  have hopened := h.opened
  rw [hd] at hopened
  cases opened with
  | nil =>
    cases hopened
    obtain ⟨t', ht, hfits, -⟩ := h.tree
    obtain ⟨-, rfl⟩ : complete = [] ∧ t = t' := by
      simpa [attach, List.append_eq_singleton_iff] using ht
    exact hfits
  | cons o opened =>
    cases hopened with
    | cons ho _ => exact ho.fits t (List.mem_append_right _ List.mem_cons_self)

end Follows

/-- Nodes that are those of the frames of a stack follow it, and the frames are decided. -/
theorem follows_of_nodes {opened : List OpenNode} {stack : Stack} (hne : stack ≠ [])
    (ho : List.Forall₂ (OpenNode.Of g) opened stack) (hs : stack.WellFormed g)
    (hr : stack.Rooted start) :
    Reading.Follows g start ⟨opened, []⟩ stack ∧ stack.decided = stack := by
  have hd : stack.decided = stack := by
    clear hne hs hr
    induction ho with
    | nil => rfl
    | cons ho _ ih => rw [Stack.decided_cons (Frame.alternative_ne_none ho.production), ih]
  refine ⟨⟨?_, hs, hr, fun _ => rfl, fun hnil => absurd hnil hne⟩, hd⟩
  rw [hd]
  exact ho

end Reading

/-! ## Readings of moves -/

namespace Automaton

variable {a : Automaton} {token : Token} {stack next : Stack} {events : List Event}
  {outcome : Outcome} {start : String} {r : Reading}

/-- **The reading goes on with every turn.** -/
theorem Turn.tracks (h : a.Turn token stack events next) (hr : r.Follows a.grammar start stack) :
    ∃ r', Reading.Tracks a.grammar start r events r' ∧ r'.Follows a.grammar start next := by
  have hwf := h.wellFormed hr.wellFormed
  have hrooted := h.rooted hr.rooted
  cases h with
  | @choose f below i p hf hl hp =>
    have hopened := hr.opened
    rw [Stack.decided_cons_of_undecided hf, hr.wellFormed.2.decided_eq] at hopened
    have ho : OpenNode.Of a.grammar ⟨p, []⟩ (.decided f.nonterminal i) :=
      ⟨Frame.production?_decided hp, rfl, by simp⟩
    obtain ⟨hf', hd⟩ := Reading.follows_of_nodes (by simp) (.cons ho hopened) hwf hrooted
    have hread : r.read? (.expand p) = some ⟨⟨p, []⟩ :: r.opened, []⟩ := by
      rw [Reading.read?, hr.incomplete (by simp)]
    exact ⟨_, .single hread hf' hd, hf'⟩
  | @close f below p hf hs =>
    obtain ⟨o, opened, rfl, rfl, ho, hbelow⟩ := hr.top hf
    have hfits := ho.close hs
    have hread : Reading.read? ⟨o :: opened, []⟩ (.close f.nonterminal) =
        some (Reading.attach ⟨opened, []⟩ (.node o.production o.children)) :=
      Reading.read?_close_eq_some_iff.mpr ⟨o, opened, rfl, ho.lhs_eq, rfl⟩
    cases hbelow with
    | nil =>
      -- The last frame is closed: its tree is the complete one.
      have hsymbol : ParseTree.symbol a.grammar (.node o.production o.children) =
          .nonterminal start := by
        rw [ParseTree.symbol, ho.lhs_eq, hr.rooted f rfl]
      have hf' : Reading.Follows a.grammar start
          ⟨[], [.node o.production o.children]⟩ [] :=
        ⟨.nil, hwf, hrooted, fun hne => absurd rfl hne, fun _ => ⟨_, rfl, hfits, hsymbol⟩⟩
      exact ⟨_, .single hread hf' rfl, hf'⟩
    | @cons o' f' opened below ho' hopened =>
      -- The tree is one child more of the node below, which waits for it.
      obtain ⟨q, hq, hqs⟩ := hr.wellFormed.2.1
      have hchild : q.rhs[f'.position]? =
          some (ParseTree.symbol a.grammar (.node o.production o.children)) := by
        rw [hqs, ParseTree.symbol, ho.lhs_eq]
      obtain ⟨hf', hd⟩ := Reading.follows_of_nodes (List.cons_ne_nil _ _)
        (.cons (ho'.attach hq hchild hfits) hopened) hwf hrooted
      exact ⟨_, .single hread hf' hd, hf'⟩
  | @descend f below p name hf hs hb =>
    refine ⟨r, .nil r, ?_, hwf, hrooted, fun _ => hr.incomplete (by simp), by simp⟩
    rw [Stack.decided_cons_of_undecided rfl]
    exact hr.opened

theorem Moves.tracks (h : a.Moves token stack events next)
    (hr : r.Follows a.grammar start stack) :
    ∃ r', Reading.Tracks a.grammar start r events r' ∧ r'.Follows a.grammar start next := by
  induction h generalizing r with
  | refl => exact ⟨r, .nil r, hr⟩
  | turn ht _ ih =>
    obtain ⟨r', hturn, hr'⟩ := ht.tracks hr
    obtain ⟨last, hmoves, hlast⟩ := ih hr'
    exact ⟨last, hturn.append hmoves, hlast⟩

/-- **The reading goes on with a last move.** -/
theorem Halt.tracks (h : a.Halt token stack outcome) (hv : a.table.CellsValid a.grammar)
    (ht : token.symbol = a.grammar.classify token.lexeme)
    (hr : r.Follows a.grammar start stack) :
    ∃ r', Reading.Tracks a.grammar start r outcome.events r' ∧
      r'.Follows a.grammar start outcome.stack := by
  have hsettled := (h.settled hv hr.wellFormed).1
  cases h with
  | finish =>
    unfold Automaton.finish
    split
    · have hopened : r.opened = [] := List.forall₂_nil_right_iff.mp hr.opened
      exact ⟨r, .single (Reading.read?_accept_eq_some_iff.mpr ⟨hopened, rfl⟩) hr rfl, hr⟩
    · exact ⟨r, .nil r, hr⟩
  | unselected | mismatch | blocked => exact ⟨r, .nil r, hr⟩
  | @shift f below p hf hsym hn =>
    obtain ⟨o, opened, rfl, rfl, ho, hbelow⟩ := hr.top hf
    have hs' : Stack.WellFormed a.grammar (f.advance :: below) :=
      ⟨Frame.atWork_advance hf hsym, hr.wellFormed.2⟩
    have hleaf : o.production.rhs[f.position]? =
        some (ParseTree.symbol a.grammar (.leaf token.lexeme)) := by
      rw [hsym, ht]
      rfl
    obtain ⟨hnext, hd⟩ := Reading.follows_of_nodes (List.cons_ne_nil _ _)
      (.cons (ho.attach hf hleaf (.leaf token.lexeme)) hbelow) hs' (hr.rooted.replace rfl)
    have hread : Reading.read? ⟨o :: opened, []⟩ (.shift token.lexeme) =
        some ⟨o.attach (.leaf token.lexeme) :: opened, []⟩ := rfl
    obtain ⟨last, hmoves, hlast⟩ := (moves_advance token hf hsym hr.wellFormed).1.tracks hnext
    exact ⟨last, .cons hread hnext hd hmoves, hlast⟩
  | misled | lost => rcases hsettled with ⟨c, hc⟩ | ⟨e, hc⟩ <;> cases hc

end Automaton

/-- A token is consumed: it is matched, or it is the end of the stream and is accepted. -/
def Action.consumes : Action → Bool
  | shift _ => true
  | accept => true
  | _ => false

/-- The actions of some events that consume a token, in order. -/
def Event.consuming (events : List Event) : List Action :=
  (events.map (·.action)).filter (·.consumes)

theorem Event.consuming_append (events more : List Event) :
    consuming (events ++ more) = consuming events ++ consuming more := by
  simp [consuming]

namespace Automaton

variable {a : Automaton} {token : Token} {stack next : Stack} {events : List Event}
  {outcome : Outcome}

theorem Turn.consuming (h : a.Turn token stack events next) : Event.consuming events = [] := by
  cases h <;> rfl

theorem Moves.consuming (h : a.Moves token stack events next) : Event.consuming events = [] := by
  induction h with
  | refl => rfl
  | turn ht _ ih => rw [Event.consuming_append, ht.consuming, ih, List.append_nil]

/-- A last move that consumes the token does so once. -/
theorem Halt.consuming (h : a.Halt token stack outcome) (hs : stack.WellFormed a.grammar)
    {c : Consumed} (hc : outcome.verdict = .consumed c) :
    Event.consuming outcome.events = [.shift token.lexeme] ∨
      Event.consuming outcome.events = [.accept] := by
  cases h with
  | finish =>
    unfold Automaton.finish at hc ⊢
    split at hc
    · rename_i hend
      rw [if_pos hend]
      exact .inr rfl
    · cases hc
  | shift hf hsym hn =>
    have hsilent := (moves_advance token hf hsym hs).1.consuming
    left
    rw [Outcome.after, Event.consuming_append, hsilent]
    rfl
  | unselected | mismatch | blocked | misled | lost => cases hc

end Automaton

/-! ## Readings of parsers -/

namespace Parser

variable {p : Parser} {lexeme : Option String}

/-- The events up to now can be read, and the reading follows the stack. -/
def Read (p : Parser) (done : List Event) : Prop :=
  ∃ r, Reading.Tracks p.automaton.grammar p.start .empty done r ∧
    r.Follows p.automaton.grammar p.start p.stack

namespace Intact

/-- **The reading goes on with a feed**, whatever comes of it. -/
theorem tracks (h : p.Intact) {r : Reading}
    (hr : r.Follows p.automaton.grammar p.start p.stack) (lexeme : Option String) :
    ∃ r', Reading.Tracks p.automaton.grammar p.start r (p.work lexeme) r' ∧
      r'.Follows p.automaton.grammar p.start (p.feed lexeme).parser.stack := by
  cases hh : p.halted with
  | some e =>
    rw [work_of_halted hh, feed_of_halted hh]
    exact ⟨r, .nil r, hr⟩
  | none =>
    obtain ⟨events, last, outcome, hm, hrun, hlast⟩ := p.run_spec lexeme
    rw [work_of_running hh, feed_of_running hh, hrun]
    obtain ⟨r', hmoves, hr'⟩ := hm.tracks hr
    rcases hlast with hhalt | rfl
    · obtain ⟨r'', hlast, hr''⟩ := hhalt.tracks h.valid rfl hr'
      exact ⟨r'', hmoves.append hlast, hr''⟩
    · exact ⟨r', hmoves.append (.nil r'), hr'⟩

/-- The reading begins anew with a reset. -/
theorem read_perform (h : p.Intact) {done : List Event} (hd : p.Read done) (op : Operation) :
    (p.perform op).parser.Read (p.noted done op) := by
  cases op with
  | reset => exact ⟨.empty, .nil _, Reading.follows_start _ _⟩
  | classify => exact hd
  | feed lexeme =>
    obtain ⟨r, hdone, hr⟩ := hd
    obtain ⟨r', hwork, hr'⟩ := h.tracks hr lexeme
    have hautomaton : (p.feed lexeme).parser.automaton = p.automaton := automaton_feed
    have hstart : (p.feed lexeme).parser.start = p.start := start_after [.feed lexeme]
    show ∃ r, Reading.Tracks (p.feed lexeme).parser.automaton.grammar _ _ _ r ∧
      r.Follows (p.feed lexeme).parser.automaton.grammar _ _
    rw [hautomaton, show (p.perform (.feed lexeme)).parser.start = p.start from hstart]
    exact ⟨r', hdone.append hwork, hr'⟩

/-- **Whatever a parser is asked, its events can be read**, and the reading follows its stack. -/
theorem read_record (h : p.Intact) {done : List Event} (hd : p.Read done)
    (ops : List Operation) : (p.after ops).Read (p.recordFrom done ops) := by
  induction ops generalizing p done with
  | nil => exact hd
  | cons op ops ih => exact ih (h.perform op) (h.read_perform hd op)

/-- A feed that consumes its token does so once. -/
theorem consuming_work (h : p.Intact) {c : Consumed}
    (hc : (p.feed lexeme).verdict = .consumed c) :
    Event.consuming (p.work lexeme) = [.shift lexeme] ∨
      Event.consuming (p.work lexeme) = [.accept] := by
  have hh := (running_of_consumed hc).1
  obtain ⟨events, last, outcome, hm, hrun, hlast⟩ := p.run_spec lexeme
  rw [feed_of_running hh, hrun] at hc
  rw [work_of_running hh, hrun, Outcome.after, Event.consuming_append, hm.consuming,
    List.nil_append]
  rcases hlast with hhalt | rfl
  · exact hhalt.consuming (hm.wellFormed h.wellFormed) hc
  · cases hc

end Intact

end Parser

/-- What an event does to a reading, and how the reading stands to the stack after it. -/
structure Event.Extends (g : Grammar) (e : Event) (before after : Reading) : Prop where
  read : before.read? e.action = some after
  /-- The open nodes are the frames, from the top down. -/
  frames : List.Forall₂ (OpenNode.Of g) after.opened e.stack
  decided : ∀ f ∈ e.stack, f.alternative.isSome = true
  /-- A nonterminal that is closed is the one of the node that was opened last, and the children of
  that stand for the symbols of its alternative. -/
  closed : ∀ name, e.action = .close name → ∃ o opened, before.opened = o :: opened ∧
    o.production.lhs = name ∧ o.children.map (ParseTree.symbol g) = o.production.rhs ∧
    (∀ t ∈ o.children, t.Fits g) ∧
    after = Reading.attach ⟨opened, before.complete⟩ (.node o.production o.children)
  /-- The end of the stream is accepted when no node is open. -/
  accepted : e.action = .accept → before.opened = [] ∧ after = before

theorem Reading.Tracks.extends {g : Grammar} {start : String} {r last : Reading}
    {earlier later : List Event} {e : Event}
    (h : Tracks g start r (earlier ++ e :: later) last) :
    ∃ before after, r.readAll? earlier = some before ∧ e.Extends g before after := by
  obtain ⟨before, after, hbefore, hread, hfollows, hd⟩ := h.of_event
  refine ⟨before, after, hbefore, hread, ?_, fun f hf => ?_, fun name hname => ?_, fun hname => ?_⟩
  · have hopened := hfollows.opened
    rwa [hd] at hopened
  · exact List.filter_eq_self.mp hd f hf
  · rw [hname] at hread
    obtain ⟨o, opened, ho, hlhs, rfl⟩ := Reading.read?_close_eq_some_iff.mp hread
    cases hfollows.fits_of_attach hd with
    | node hp hs hc => exact ⟨o, opened, ho, hlhs, hs, hc, rfl⟩
  · rw [hname] at hread
    exact Reading.read?_accept_eq_some_iff.mp hread

variable {g : Grammar} {settings : Settings} {analysis : Analysis} {limit : Option Int}
  {start : Option String} {p : Parser}

/-- **The trace is a parse tree.** Whatever a parser for an analysed grammar has been asked since its
creation or its last reset, its listener can read the events as the making of a tree. After every
event the nodes that are open are the frames of the stack, and all of those are decided; a
nonterminal is closed with the node that was opened last, whose children stand for the symbols of the
alternative that has opened it; and the end of the stream is accepted only when no node is open. When
everything is derived, the events have made one tree, of the start, and the lexemes at its leaves are
those that were matched. Every feed that consumes its token has one event for it, which matches or
accepts it. -/
theorem events_make_tree (h : Analysis.run g settings = .ok analysis)
    (hp : Parser.create ⟨analysis.grammar, analysis.table, limit⟩ start true = .ok p)
    (ops : List Operation) :
    (∃ r, Reading.empty.readAll? (p.record ops) = some r ∧
      ((p.after ops).accepted = true → ∃ t, r = ⟨[], [t]⟩ ∧ t.Fits g ∧
        t.symbol g = .nonterminal (Parser.startOf g start) ∧
        t.leaves = (p.record ops).flatMap (·.action.lexemes))) ∧
    (∀ earlier e later, p.record ops = earlier ++ e :: later →
      ∃ before after, Reading.empty.readAll? earlier = some before ∧
        e.Extends g before after) ∧
    ∀ lexeme,
      p.record (ops ++ [.feed lexeme]) =
        p.record ops ++ ((p.after ops).feed lexeme).events ∧
      ∀ c, ((p.after ops).feed lexeme).verdict = .consumed c →
        Event.consuming ((p.after ops).feed lexeme).events = [.shift lexeme] ∨
          Event.consuming ((p.after ops).feed lexeme).events = [.accept] := by
  have hsound := Analysis.sound_of_create h hp
  obtain ⟨-, rfl⟩ := Parser.create_eq_ok_iff.mp hp
  have hg : analysis.grammar = g := (Analysis.of_run h).1
  rw [hg] at hsound ⊢
  generalize hnew : Parser.fresh ⟨g, analysis.table, limit⟩ (Parser.startOf g start) true = p
    at hsound ⊢
  have hgrammar : (p.after ops).automaton.grammar = g := by rw [Parser.automaton_after, ← hnew]; rfl
  have hstart : (p.after ops).start = Parser.startOf g start := by
    rw [Parser.start_after, ← hnew]
    rfl
  have hlistening : (p.after ops).listening = true := by
    rw [Parser.listening_after, ← hnew]
    rfl
  have hempty : p.Read [] := by
    rw [← hnew]
    exact ⟨.empty, .nil _, Reading.follows_start _ _⟩
  obtain ⟨r, htracks, hfollows⟩ := hsound.intact.read_record hempty ops
  rw [hgrammar, hstart] at htracks hfollows
  refine ⟨⟨r, htracks.readAll?_eq, fun haccepted => ?_⟩, fun earlier e later he => ?_,
    fun lexeme => ⟨?_, fun c hc => ?_⟩⟩
  · have hnil : (p.after ops).stack = [] := by
      unfold Parser.accepted at haccepted
      simp only [Bool.and_eq_true, List.isEmpty_iff] at haccepted
      exact haccepted.1
    rw [hnil] at hfollows
    obtain ⟨t, rfl, hfits, hsymbol⟩ := hfollows.tree
    have hleaves : Reading.leaves ⟨[], [t]⟩ =
        Reading.empty.leaves ++ (p.record ops).flatMap (·.action.lexemes) :=
      Reading.leaves_of_readAll? htracks.readAll?_eq
    refine ⟨t, rfl, hfits, hsymbol, ?_⟩
    simpa [Reading.leaves, Reading.empty, ParseTree.leavesOf] using hleaves
  · rw [Parser.record] at he
    rw [he] at htracks
    exact htracks.extends
  · rw [Parser.events_feed hlistening]
    exact p.recordFrom_append ops [.feed lexeme]
  · rw [Parser.events_feed hlistening]
    exact (hsound.intact.after ops).consuming_work hc

/-- Of an `a` and the end of the stream two runs make one tree, with both at its leaves. -/
theorem twoRuns_make_tree :
    ∃ analysis p t, Analysis.run .twoRuns .defaults = .ok analysis ∧
      Parser.create ⟨analysis.grammar, analysis.table, some 3⟩ none true = .ok p ∧
      Reading.empty.readAll? (p.record [.feed (some "a"), .feed none]) = some ⟨[], [t]⟩ ∧
      t.Fits .twoRuns ∧ t.symbol .twoRuns = .nonterminal "S" ∧ t.leaves = [some "a", none] := by
  obtain ⟨analysis, h, hp⟩ := Analysis.exists_create (g := .twoRuns) (s := .defaults)
    (by decide +kernel) none (by decide +kernel) (some 3) true
  have hcomputed : ((Analysis.run .twoRuns .defaults).toOption.map fun a =>
      let p := Parser.fresh ⟨a.grammar, a.table, some 3⟩ "S" true
      ((p.after [.feed (some "a"), .feed none]).accepted,
        (p.record [.feed (some "a"), .feed none]).flatMap (·.action.lexemes))) =
      some (true, [some "a", none]) := by decide +kernel
  rw [h] at hcomputed
  obtain ⟨haccepted, hlexemes⟩ := Prod.mk.inj (Option.some.inj hcomputed)
  obtain ⟨r, hread, htree⟩ := (events_make_tree h hp [.feed (some "a"), .feed none]).1
  obtain ⟨t, rfl, hfits, hsymbol, hleaves⟩ := htree haccepted
  exact ⟨analysis, _, t, h, hp, hread, hfits, hsymbol, hleaves.trans hlexemes⟩

end Predictive
