import Predictive.Grammar

/-!
# The stack of a predictive parse

A frame is a nonterminal whose derivation is in progress: undecided, or with the alternative that
was taken and the number of its symbols that are done. A stack lists its frames from the top down.
An event is an action of the automaton together with the stack right after it.
-/

namespace Predictive

/-- A nonterminal whose derivation is in progress. -/
structure Frame where
  nonterminal : String
  /-- The alternative that was taken, if one was. -/
  alternative : Option Int
  /-- The number of symbols of the alternative that are done. -/
  position : Nat
  deriving DecidableEq

namespace Frame

/-- A nonterminal before the choice of an alternative. -/
def undecided (name : String) : Frame := ⟨name, none, 0⟩

/-- A nonterminal right after the choice of an alternative. -/
def decided (name : String) (index : Int) : Frame := ⟨name, some index, 0⟩

/-- One symbol more is done. -/
def advance (f : Frame) : Frame := { f with position := f.position + 1 }

/-- The production that a frame works at, if it is decided. -/
def production? (g : Grammar) (f : Frame) : Except LookupFault (Option Production) :=
  match f.alternative with
  | none => .ok none
  | some index =>
    match g.production? f.nonterminal index with
    | .ok p => .ok (some p)
    | .error e => .error e

/-- The names of a production with a dot before the symbol that is next. -/
def dotted (p : Production) (position : Nat) : String :=
  let names := p.rhs.map Symbol.name
  p.lhs ++ " -> " ++ " ".intercalate (names.take position ++ "•" :: names.drop position)

/-- The written form of a frame. -/
def render (g : Grammar) (f : Frame) : Except LookupFault String :=
  match f.production? g with
  | .error e => .error e
  | .ok none => .ok f.nonterminal
  | .ok (some p) => .ok (dotted p f.position)

end Frame

/-- The frames from the top down. -/
abbrev Stack := List Frame

namespace Stack

/-- Goes on with the frame on top after the one above it is closed. -/
def resume : Stack → Stack
  | [] => []
  | f :: below => f.advance :: below

@[simp] theorem length_resume (stack : Stack) : stack.resume.length = stack.length := by
  cases stack <;> rfl

/-- The written forms of some frames, in order. -/
def renderFrames (g : Grammar) : List Frame → Except LookupFault (List String)
  | [] => .ok []
  | f :: fs => do
    let first ← f.render g
    let rest ← renderFrames g fs
    return first :: rest

/-- The written form of a stack from the bottom up. -/
def render (g : Grammar) (stack : Stack) : Except LookupFault (List String) :=
  renderFrames g stack.reverse

/-- The number of frames that are undecided. -/
def undecidedCount (stack : Stack) : Nat := stack.countP (·.alternative.isNone)

end Stack

/-- What an automaton does that a listener can see. -/
inductive Action where
  /-- A nonterminal is replaced by one of its alternatives. -/
  | expand (production : Production)
  /-- A token is consumed; the end of the stream has no lexeme. -/
  | shift (lexeme : Option String)
  /-- The derivation of a nonterminal is complete. -/
  | close (nonterminal : String)
  /-- The end of the stream comes when nothing is left to derive. -/
  | accept
  deriving DecidableEq

/-- The written form of an action. -/
def Action.text : Action → String
  | expand p => p.text
  | shift lexeme => "match " ++ lexeme.getD Symbol.endMark
  | close nonterminal => "pop " ++ nonterminal
  | accept => "accept"

/-- An action with the stack right after it. -/
structure Event where
  action : Action
  stack : Stack
  deriving DecidableEq

end Predictive
