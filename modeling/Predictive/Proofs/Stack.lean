import Predictive.Automaton.Stack
import Predictive.Proofs.Derivation

/-!
# The shape of a stack

Only the frame on top may be undecided; every frame below waits for the one above it, which works at
its next symbol (`Stack.WellFormed`). What is left to derive is read from the top down: an undecided
frame owes its nonterminal, a decided one the symbols that are not done, and a waiting one those
behind the symbol that is being worked at (`Stack.rest`).

* `Stack.rest_resume`: a frame that has nothing left is closed without a change to the rest.
* `Stack.WellFormed.exists_render`: a stack of this shape has a written form.
-/

namespace Predictive

variable {g : Grammar}

/-! ## Frames -/

namespace Frame

/-- The frame is decided, and its next symbol is the nonterminal. -/
def Waits (g : Grammar) (f : Frame) (name : String) : Prop :=
  ∃ p, f.production? g = .ok (some p) ∧ p.rhs[f.position]? = some (.nonterminal name)

/-- The frame is undecided and nothing of it is done, or it is decided and no more is done than its
alternative has. -/
def AtWork (g : Grammar) (f : Frame) : Prop :=
  (f.alternative = none ∧ f.position = 0) ∨
    ∃ p, f.production? g = .ok (some p) ∧ f.position ≤ p.rhs.length

/-- The frame is decided, and some of its alternative is done, but not all. -/
def Midway (g : Grammar) (f : Frame) : Prop :=
  ∃ p, f.production? g = .ok (some p) ∧ 0 < f.position ∧ f.position < p.rhs.length

/-- What is left to derive of a frame. -/
def todo (g : Grammar) (f : Frame) : List Symbol :=
  match f.production? g with
  | .ok (some p) => p.rhs.drop f.position
  | _ => [.nonterminal f.nonterminal]

theorem production?_eq_none_iff {f : Frame} :
    f.production? g = .ok none ↔ f.alternative = none := by
  unfold production?
  cases f.alternative with
  | none => simp
  | some i =>
    simp only [reduceCtorEq, iff_false]
    split <;> simp

theorem production?_eq_some_iff {f : Frame} {p : Production} :
    f.production? g = .ok (some p) ↔
      ∃ i, f.alternative = some i ∧ g.production? f.nonterminal i = .ok p := by
  unfold production?
  cases f.alternative with
  | none => simp
  | some i =>
    simp only [Option.some.injEq, exists_eq_left']
    cases g.production? f.nonterminal i <;> simp

/-- A frame with a production is decided. -/
theorem alternative_ne_none {f : Frame} {p : Production} (h : f.production? g = .ok (some p)) :
    f.alternative ≠ none := by
  obtain ⟨i, hi, -⟩ := production?_eq_some_iff.mp h
  rw [hi]
  exact Option.some_ne_none i

@[simp] theorem position_advance (f : Frame) : f.advance.position = f.position + 1 := rfl

theorem production?_decided {name : String} {i : Int} {p : Production}
    (h : g.production? name i = .ok p) : (decided name i).production? g = .ok (some p) :=
  production?_eq_some_iff.mpr ⟨i, rfl, h⟩

theorem atWork_undecided (name : String) : (undecided name).AtWork g := .inl ⟨rfl, rfl⟩

theorem atWork_decided {name : String} {i : Int} {p : Production}
    (h : g.production? name i = .ok p) : (decided name i).AtWork g :=
  .inr ⟨p, production?_decided h, Nat.zero_le _⟩

theorem todo_of_undecided {f : Frame} (h : f.alternative = none) :
    f.todo g = [.nonterminal f.nonterminal] := by
  unfold todo
  rw [production?_eq_none_iff.mpr h]

theorem todo_of_production? {f : Frame} {p : Production} (h : f.production? g = .ok (some p)) :
    f.todo g = p.rhs.drop f.position := by
  unfold todo
  rw [h]

/-- One symbol is taken off what is left of a decided frame. -/
theorem todo_eq_cons {f : Frame} {p : Production} (h : f.production? g = .ok (some p))
    {s : Symbol} (hs : p.rhs[f.position]? = some s) : f.todo g = s :: f.advance.todo g := by
  obtain ⟨hlt, rfl⟩ := List.getElem?_eq_some_iff.mp hs
  rw [todo_of_production? h, todo_of_production? (f := f.advance) h, List.drop_eq_getElem_cons hlt,
    position_advance]

theorem todo_eq_nil {f : Frame} {p : Production} (h : f.production? g = .ok (some p))
    (hs : p.rhs[f.position]? = none) : f.todo g = [] := by
  rw [todo_of_production? h, List.drop_eq_nil_iff]
  exact List.getElem?_eq_none_iff.mp hs

theorem atWork_advance {f : Frame} {p : Production} (h : f.production? g = .ok (some p))
    {s : Symbol} (hs : p.rhs[f.position]? = some s) : f.advance.AtWork g :=
  .inr ⟨p, h, (List.getElem?_eq_some_iff.mp hs).1⟩

theorem AtWork.exists_render {f : Frame} (h : f.AtWork g) : ∃ text, f.render g = .ok text := by
  unfold render
  rcases h with ⟨hn, -⟩ | ⟨p, hp, -⟩
  · rw [production?_eq_none_iff.mpr hn]
    exact ⟨_, rfl⟩
  · rw [hp]
    exact ⟨_, rfl⟩

theorem Waits.exists_render {f : Frame} {name : String} (h : f.Waits g name) :
    ∃ text, f.render g = .ok text := by
  obtain ⟨p, hp, -⟩ := h
  unfold render
  rw [hp]
  exact ⟨_, rfl⟩

end Frame

/-! ## Stacks -/

namespace Stack

/-- Each of the frames waits for the one above it, the first one for the nonterminal. -/
def WaitsFor (g : Grammar) : String → List Frame → Prop
  | _, [] => True
  | name, f :: below => f.Waits g name ∧ WaitsFor g f.nonterminal below

/-- The frame on top is at work, and each of the others waits for the one above it. -/
def WellFormed (g : Grammar) : Stack → Prop
  | [] => True
  | f :: below => f.AtWork g ∧ WaitsFor g f.nonterminal below

/-- What is left to derive behind a frame that is worked at above some others. -/
def behind (g : Grammar) (below : List Frame) : List Symbol :=
  below.flatMap fun f => f.advance.todo g

/-- What is left to derive, from the top down. -/
def rest (g : Grammar) : Stack → List Symbol
  | [] => []
  | f :: below => f.todo g ++ behind g below

@[simp] theorem behind_cons (f : Frame) (below : List Frame) :
    behind g (f :: below) = f.advance.todo g ++ behind g below := rfl

@[simp] theorem rest_nil : rest g [] = [] := rfl

@[simp] theorem rest_cons (f : Frame) (below : List Frame) :
    rest g (f :: below) = f.todo g ++ behind g below := rfl

@[simp] theorem rest_resume (below : List Frame) : rest g (resume below) = behind g below := by
  cases below <;> rfl

theorem wellFormed_start (name : String) : WellFormed g [.undecided name] :=
  ⟨Frame.atWork_undecided name, trivial⟩

theorem WaitsFor.resume {name : String} {below : List Frame} (h : WaitsFor g name below) :
    (Stack.resume below).WellFormed g := by
  cases below with
  | nil => trivial
  | cons f below =>
    obtain ⟨⟨p, hp, hs⟩, hbelow⟩ := h
    exact ⟨Frame.atWork_advance hp hs, hbelow⟩

theorem WaitsFor.mem {name : String} {below : List Frame} (h : WaitsFor g name below) {f : Frame}
    (hf : f ∈ below) : ∃ name, f.Waits g name := by
  induction below generalizing name with
  | nil => exact absurd hf List.not_mem_nil
  | cons f' below ih =>
    obtain ⟨hw, hbelow⟩ := h
    rcases List.mem_cons.mp hf with rfl | hf
    · exact ⟨name, hw⟩
    · exact ih hbelow hf

theorem exists_renderFrames {frames : List Frame}
    (h : ∀ f ∈ frames, ∃ text, f.render g = .ok text) :
    ∃ texts, renderFrames g frames = .ok texts := by
  induction frames with
  | nil => exact ⟨[], rfl⟩
  | cons f frames ih =>
    obtain ⟨text, ht⟩ := h f List.mem_cons_self
    obtain ⟨texts, hts⟩ := ih fun f' hf => h f' (List.mem_cons_of_mem f hf)
    refine ⟨text :: texts, ?_⟩
    simp only [renderFrames, ht, hts, bind, Except.bind, pure, Except.pure]

/-- **A well-formed stack has a written form.** -/
theorem WellFormed.exists_render {stack : Stack} (h : stack.WellFormed g) :
    ∃ texts, stack.render g = .ok texts := by
  refine exists_renderFrames fun f hf => ?_
  rw [List.mem_reverse] at hf
  cases stack with
  | nil => exact absurd hf List.not_mem_nil
  | cons top below =>
    rcases List.mem_cons.mp hf with rfl | hf
    · exact h.1.exists_render
    · obtain ⟨name, hw⟩ := h.2.mem hf
      exact hw.exists_render

end Stack

end Predictive
