import Predictive.Proofs.Analysable
import Predictive.Proofs.Lookahead
import Predictive.Proofs.Record

/-!
# Left recursion has no cells

Validation looks at the leading symbols of the alternatives only, so a nonterminal may still be left
recursive behind a prefix that vanishes. Such a nonterminal gets no cell in the table, if what stands
behind the recursion derives a word: a token with a cell would call for the alternative that leads to
the recursion, and for the one inside it, and so on for ever, while nesting is well founded.

* `Grammar.fronts_iff_derives`: `Fronts name u r` follows the spine of a derivation from `u` to a
  form that has `name` in front.
* `ParsingTable.Decides.nested_of_fronts`: a token that calls for what is in front nests it, step by
  step, in the nonterminal that the spine starts from.
* `leftRecursion_without_cells`: the row is empty, and no parser takes an alternative.
-/

namespace Predictive

namespace Grammar

/-- A nonterminal can come to stand in front of a form, and `behind` is what the way there leaves
behind it: each nonterminal on the left is replaced or vanishes, and nothing else is touched. -/
inductive Fronts (g : Grammar) (name : String) : List Symbol → List Symbol → Prop
  | here (rest : List Symbol) : Fronts g name (.nonterminal name :: rest) rest
  | within {outer : String} {rhs behind : List Symbol} (rest : List Symbol)
      (h : g.HasAlternative outer rhs) (hrhs : Fronts g name rhs behind) :
      Fronts g name (.nonterminal outer :: rest) (behind ++ rest)
  | beyond {outer : String} {rest behind : List Symbol} (h : g.Vanishes [.nonterminal outer])
      (hrest : Fronts g name rest behind) : Fronts g name (.nonterminal outer :: rest) behind

variable {g : Grammar} {name : String} {u v behind : List Symbol}

/-! ## The spine of a derivation -/

theorem Fronts.derives (h : g.Fronts name u behind) :
    g.Derives u (.nonterminal name :: behind) := by
  induction h with
  | here rest => exact Derives.refl _
  | within rest h _ ih => exact (derives_cons h rest).trans (ih.append_right rest)
  | @beyond outer rest _ h _ ih =>
    have hvanish : g.Derives (.nonterminal outer :: rest) rest :=
      (vanishes_iff_derives.mp h).append_right rest
    exact hvanish.trans ih

/-- A nonterminal comes in front of two forms in a row within the first of them, or beyond it. -/
theorem fronts_append : g.Fronts name (u ++ v) behind ↔
    (∃ r, g.Fronts name u r ∧ behind = r ++ v) ∨ (g.Vanishes u ∧ g.Fronts name v behind) := by
  induction u generalizing behind with
  | nil =>
    constructor
    · intro h
      exact .inr ⟨.nil, h⟩
    · rintro (⟨r, h, -⟩ | ⟨-, h⟩)
      · cases h
      · exact h
  | cons s u ih =>
    constructor
    · intro h
      cases h with
      | here => exact .inl ⟨u, .here u, rfl⟩
      | within _ h hrhs => exact .inl ⟨_, .within u h hrhs, (List.append_assoc ..).symm⟩
      | beyond h hrest =>
        rcases ih.mp hrest with ⟨r, hr, rfl⟩ | ⟨hu, hv⟩
        · exact .inl ⟨r, .beyond h hr, rfl⟩
        · exact .inr ⟨vanishes_cons.mpr ⟨h, hu⟩, hv⟩
    · rintro (⟨r, h, rfl⟩ | ⟨h, hv⟩)
      · cases h with
        | here => exact .here (u ++ v)
        | within _ h hrhs =>
          rw [List.append_assoc]
          exact .within (u ++ v) h hrhs
        | beyond h hrest => exact .beyond h (ih.mpr (.inl ⟨r, hrest, rfl⟩))
      · cases h with
        | cons h hrhs hrest =>
          exact .beyond (vanishes_singleton.mpr ⟨_, h, hrhs⟩) (ih.mpr (.inr ⟨hrest, hv⟩))

/-- A replacement is part of the spine, or happens in front of it or behind it. -/
theorem Produces.fronts (hp : g.Produces u v) (h : g.Fronts name v behind) :
    ∃ r, g.Fronts name u r ∧ g.Derives r behind := by
  obtain @⟨outer, rhs, x, y, hrhs⟩ := hp
  rcases fronts_append.mp h with ⟨r, hxr, rfl⟩ | ⟨hxr, hy⟩
  · rcases fronts_append.mp hxr with ⟨r', hx, rfl⟩ | ⟨hx, hr⟩
    · refine ⟨r' ++ .nonterminal outer :: y, fronts_append.mpr (.inl ⟨r', hx, rfl⟩), ?_⟩
      exact Relation.ReflTransGen.single (.replace r' y hrhs)
    · refine ⟨r ++ y, fronts_append.mpr (.inr ⟨hx, .within y hrhs hr⟩), Derives.refl _⟩
  · obtain ⟨hx, hr⟩ := vanishes_append.mp hxr
    have houter : g.Vanishes [.nonterminal outer] := vanishes_singleton.mpr ⟨rhs, hrhs, hr⟩
    exact ⟨behind, fronts_append.mpr (.inr ⟨hx, .beyond houter hy⟩), Derives.refl _⟩

/-- **Every derivation of a form with a nonterminal in front has a spine**, and the rest of the
derivation happens behind that nonterminal. -/
theorem fronts_iff_derives : (∃ r, g.Fronts name u r ∧ g.Derives r behind) ↔
    g.Derives u (.nonterminal name :: behind) := by
  constructor
  · rintro ⟨r, h, hr⟩
    exact h.derives.trans (hr.append_left [.nonterminal name])
  · intro h
    induction h using Relation.ReflTransGen.head_induction_on with
    | refl => exact ⟨behind, .here behind, Derives.refl _⟩
    | head hp _ ih =>
      obtain ⟨r, hr, hd⟩ := ih
      obtain ⟨r', hr', hd'⟩ := hp.fronts hr
      exact ⟨r', hr', hd'.trans hd⟩

/-- A derivation with at least one step begins with an alternative. -/
theorem exists_fronts_of_transGen {root : String}
    (h : Relation.TransGen g.Produces [.nonterminal root] (.nonterminal name :: behind)) :
    ∃ rhs r, g.HasAlternative root rhs ∧ g.Fronts name rhs r ∧ g.Derives r behind := by
  obtain ⟨rhs, hp, hd⟩ := Relation.TransGen.head'_iff.mp h
  obtain ⟨r, hr, hdr⟩ := fronts_iff_derives.mpr hd
  exact ⟨rhs, r, produces_singleton.mp hp, hr, hdr⟩

/-! ## What a token calls for -/

variable {t : Symbol} {outer : String}

/-- Where a prefix vanishes, what a token calls for behind it is called for. -/
theorem Selects.append_left (hu : g.Vanishes u) (h : g.Selects outer v t) :
    g.Selects outer (u ++ v) t := by
  rcases h with hb | ⟨hv, hf⟩
  · exact .inl (begins_append.mpr (.inr ⟨hu, hb⟩))
  · exact .inr ⟨vanishes_append.mpr ⟨hu, hv⟩, hf⟩

/-- What calls for a part of an alternative follows the nonterminal in front of the part. -/
theorem Selects.follows (h : g.Selects outer v t) {x : List Symbol}
    (hr : g.HasAlternative outer (x ++ .nonterminal name :: v)) : g.Follows t name := by
  rcases h with hb | ⟨hv, hf⟩
  · exact follows_of_begins hr.mem_nonterminals
      (by simpa only [List.append_nil] using derives_cons hr []) hb
  · exact hf.of_vanishes hr hv

/-- What calls for the beginning of a rest, in front of which a nonterminal stands, calls for it as an
alternative of that nonterminal. -/
theorem Selects.within (h : g.Selects outer (u ++ v) t) {x : List Symbol}
    (hr : g.HasAlternative outer (x ++ .nonterminal name :: v)) : g.Selects name u t := by
  rcases h with hb | ⟨hv, hf⟩
  · rcases begins_append.mp hb with hb | ⟨hu, hb⟩
    · exact .inl hb
    · have hs : g.Selects outer v t := .inl hb
      exact .inr ⟨hu, hs.follows hr⟩
  · obtain ⟨hu, hv⟩ := vanishes_append.mp hv
    have hs : g.Selects outer v t := .inr ⟨hv, hf⟩
    exact .inr ⟨hu, hs.follows hr⟩

/-- What calls for a derived form calls for the form that it is derived from. -/
theorem Selects.of_derives (h : g.Selects outer v t) (hd : g.Derives u v) :
    g.Selects outer u t := by
  rcases h with hb | ⟨hv, hf⟩
  · exact .inl (hd.begins hb)
  · exact .inr ⟨hd.vanishes hv, hf⟩

end Grammar

/-! ## Tables -/

namespace ParsingTable.Decides

variable {g : Grammar} {table : ParsingTable} {t : Symbol} {u v : List Symbol} {outer name : String}
  (h : table.Decides g) (ht : t.IsToken)

include h ht

/-- What vanishes in front of a token can not begin with it. -/
theorem not_begins_of_vanishes (hu : g.Vanishes u)
    (hf : ∀ name, .nonterminal name ∈ u → g.Follows t name) : ¬ g.Begins t u := by
  induction hu with
  | nil => exact Grammar.not_begins_nil
  | @cons name rhs rest hr hrhs _ ihrhs ihrest =>
    intro hb
    have hname : g.Follows t name := hf name List.mem_cons_self
    rcases Grammar.begins_cons.mp hb with hb | ⟨-, hb⟩
    · obtain ⟨rhs', hr', hb'⟩ := Grammar.begins_singleton.mp hb
      obtain rfl : rhs = rhs' := h.unique ht hr (.inr ⟨hrhs, hname⟩) hr' (.inl hb')
      exact ihrhs (fun _ hm => hname.of_mem hr hrhs hm) hb'
    · exact ihrest (fun name' hm => hf name' (List.mem_cons_of_mem _ hm)) hb

/-- Behind a prefix that vanishes, the nonterminal that the token calls for is nested. -/
theorem nests_of_selects (hr : g.HasAlternative outer (u ++ .nonterminal name :: v))
    (hu : g.Vanishes u) (hs : g.Selects outer (.nonterminal name :: v) t) :
    table.Nests g t name outer := by
  refine (h.nests_iff_of_selects ht hr (hs.append_left hu)).mpr ⟨u, v, rfl, ?_⟩
  refine h.not_begins_of_vanishes ht hu ?_
  intro name' hm
  obtain ⟨x, y, rfl⟩ := List.append_of_mem hm
  have hy : g.Vanishes y := (Grammar.vanishes_cons.mp (Grammar.vanishes_append.mp hu).2).2
  exact (hs.append_left hy).follows (by simpa only [List.append_assoc, List.cons_append] using hr)

/-- **A token that calls for what comes in front nests it** in the nonterminal whose alternative has
the spine. Of that alternative `done` has vanished, and `u` is left. -/
theorem nested_of_fronts {behind : List Symbol} (hu : g.Fronts name u behind) (done : List Symbol)
    (hr : g.HasAlternative outer (done ++ u)) (hdone : g.Vanishes done)
    (hs : g.Selects outer (.nonterminal name :: behind) t) :
    Relation.TransGen (table.Nests g t) name outer := by
  induction hu generalizing outer done with
  | here rest => exact .single (h.nests_of_selects ht hr hdone hs)
  | @within inner rhs behind rest hinner hrhs ih =>
    -- The token calls for the inner alternative, by what is in front or by what is behind.
    have hsinner : g.Selects inner (.nonterminal name :: behind) t :=
      Grammar.Selects.within (v := rest) hs hr
    have hsouter : g.Selects outer (.nonterminal inner :: rest) t :=
      hs.of_derives (Grammar.Fronts.within rest hinner hrhs).derives
    exact (ih [] hinner .nil hsinner).tail (h.nests_of_selects ht hr hdone hsouter)
  | @beyond inner rest behind hinner hrest ih =>
    refine ih (done ++ [.nonterminal inner]) ?_ (Grammar.vanishes_append.mpr ⟨hdone, hinner⟩) hs
    simpa only [List.append_assoc, List.cons_append, List.nil_append] using hr

/-- **A nonterminal that leads back to itself is not called for** by what comes in front then. -/
theorem not_selects_of_fronts {rhs behind : List Symbol} (hr : g.HasAlternative name rhs)
    (hrhs : g.Fronts name rhs behind) : ¬ g.Selects name (.nonterminal name :: behind) t := by
  intro hs
  have hcircle := h.nested_of_fronts ht hrhs [] hr .nil hs
  exact (h.nests_wellFounded ht).transGen.irrefl.irrefl name hcircle

end ParsingTable.Decides

/-! ## Alternatives that are taken -/

namespace Automaton

variable {a : Automaton} {token : Token} {stack next : Stack} {events : List Event}
  {outcome : Outcome} {e : Event} {p : Production}

theorem Turn.lookup_of_expand (h : a.Turn token stack events next) (he : e ∈ events)
    (hp : e.action = .expand p) : ∃ i, a.table.lookup p.lhs token.symbol = some i := by
  cases h with
  | @choose f below i q hf hl hq =>
    rw [List.mem_singleton.mp he, Action.expand.injEq] at hp
    subst hp
    exact ⟨i, (Grammar.lhs_of_production? hq).symm ▸ hl⟩
  | close hf hs =>
    rw [List.mem_singleton.mp he] at hp
    cases hp
  | descend hf hs hb => exact absurd he List.not_mem_nil

theorem Moves.lookup_of_expand (h : a.Moves token stack events next) (he : e ∈ events)
    (hp : e.action = .expand p) : ∃ i, a.table.lookup p.lhs token.symbol = some i := by
  induction h with
  | refl => exact absurd he List.not_mem_nil
  | turn ht _ ih =>
    rcases List.mem_append.mp he with he | he
    · exact ht.lookup_of_expand he hp
    · exact ih he

/-- Frames that are complete are only closed. -/
theorem close_of_mem_collapse {top : Frame} {below : List Frame}
    (he : e ∈ (a.collapse token top below).events) : ∃ name, e.action = .close name := by
  induction below generalizing top with
  | nil =>
    unfold collapse at he
    split at he
    · exact absurd he List.not_mem_nil
    · exact absurd he List.not_mem_nil
    · exact ⟨_, congrArg Event.action (List.mem_singleton.mp he)⟩
  | cons f below ih =>
    unfold collapse at he
    split at he
    · exact absurd he List.not_mem_nil
    · exact absurd he List.not_mem_nil
    · rcases List.mem_append.mp he with he | he
      · exact ⟨_, congrArg Event.action (List.mem_singleton.mp he)⟩
      · exact ih he

/-- The last move on a token takes no alternative. -/
theorem Halt.not_expand (h : a.Halt token stack outcome) (he : e ∈ outcome.events) :
    e.action ≠ .expand p := by
  intro hp
  cases h with
  | finish =>
    unfold Automaton.finish at he
    split at he
    · rw [List.mem_singleton.mp he] at hp
      cases hp
    · exact absurd he List.not_mem_nil
  | shift hf hs hn =>
    rcases List.mem_append.mp he with he | he
    · rw [List.mem_singleton.mp he] at hp
      cases hp
    · obtain ⟨name, hclose⟩ := close_of_mem_collapse he
      rw [hclose] at hp
      cases hp
  | unselected | mismatch | blocked | misled | lost => exact absurd he List.not_mem_nil

end Automaton

/-- **A parser takes an alternative only where the cell of the token says so.** -/
theorem Parser.lookup_of_expand {p : Parser} {lexeme : Option String} {e : Event}
    {q : Production} (he : e ∈ p.work lexeme) (hq : e.action = .expand q) :
    ∃ i, p.automaton.table.lookup q.lhs (p.classify lexeme) = some i := by
  by_cases hh : p.halted = none
  · obtain ⟨events, last, outcome, hm, hrun, hlast⟩ := p.run_spec lexeme
    rw [work_of_running hh, hrun] at he
    rcases List.mem_append.mp he with he | he
    · exact hm.lookup_of_expand he hq
    · rcases hlast with hhalt | rfl
      · exact absurd hq (hhalt.not_expand he)
      · exact absurd he List.not_mem_nil
  · obtain ⟨error, herror⟩ := Option.ne_none_iff_exists'.mp hh
    rw [work_of_halted herror] at he
    exact absurd he List.not_mem_nil

/-! ## Analyses -/

variable {g : Grammar} {settings : Settings} {analysis : Analysis} {name : String}
  {behind w : List Symbol}

/-- No token calls for a nonterminal that is left recursive in front of something that derives a
word. If it could begin with a token, that one would call for it in front; if it vanishes, so does
what stands behind, or the first symbol of the word calls for it. -/
theorem Analysis.not_selects_of_leftRecursive (h : run g settings = .ok analysis)
    (hrec : Relation.TransGen g.Produces [.nonterminal name] (.nonterminal name :: behind))
    (hw : ∀ s ∈ w, s.isNonterminal = false) (hd : g.Derives behind w) {a : Symbol}
    (ha : a.IsToken) {rhs : List Symbol} (hr : g.HasAlternative name rhs) :
    ¬ g.Selects name rhs a := by
  obtain ⟨rhs', r, hr', hfronts, hdr⟩ := Grammar.exists_fronts_of_transGen hrec
  have circle {t : Symbol} (ht : t.IsToken) : ¬ g.Selects name (.nonterminal name :: r) t :=
    (decides h).not_selects_of_fronts ht hr' hfronts
  have hrw : g.Derives r w := hdr.trans hd
  intro hs
  rcases hs with hb | ⟨hv, hf⟩
  · refine circle ha (.inl ?_)
    exact Grammar.begins_cons.mpr (.inl (Grammar.begins_singleton.mpr ⟨rhs, hr, hb⟩))
  · have hname : g.Vanishes [.nonterminal name] := Grammar.vanishes_singleton.mpr ⟨rhs, hr, hv⟩
    cases w with
    | nil =>
      have hrv : g.Vanishes r := Grammar.vanishes_iff_derives.mpr hrw
      exact circle ha (.inr ⟨Grammar.vanishes_cons.mpr ⟨hname, hrv⟩, hf⟩)
    | cons b w =>
      have hbegins : g.Begins b r := hrw.begins (.here (hw b List.mem_cons_self))
      have hroot : g.Derives [.nonterminal name] (.nonterminal name :: b :: w) :=
        hrec.to_reflTransGen.trans (hd.append_left [.nonterminal name])
      have hb : b.IsToken := (emptyFree h).isToken_of_derives hroot (by simp)
        (hw b List.mem_cons_self)
      exact circle hb (.inl (Grammar.begins_cons.mpr (.inr ⟨hname, hbegins⟩)))

/-- **Left recursion has no cells.** Leading symbols alone never lead an analysed grammar back to a
nonterminal. If a nonterminal derives a form with itself in front all the same, and what stands
behind it derives a word, the row of the nonterminal is empty, and no parser ever takes one of its
alternatives. -/
theorem leftRecursion_without_cells (h : Analysis.run g settings = .ok analysis)
    (hrec : Relation.TransGen g.Produces [.nonterminal name] (.nonterminal name :: behind))
    (hw : ∀ s ∈ w, s.isNonterminal = false) (hd : g.Derives behind w) :
    (∀ outer, ¬ Relation.TransGen g.Leads outer outer) ∧
    analysis.table.row name = ∅ ∧
    ∀ (start : Option String) (limit : Option Int) (listening : Bool) (p : Parser),
      Parser.create ⟨analysis.grammar, analysis.table, limit⟩ start listening = .ok p →
      ∀ (ops : List Operation) (lexeme : Option String), ∀ e ∈ (p.after ops).work lexeme,
        ∀ rhs, e.action ≠ .expand ⟨name, rhs⟩ := by
  have hcells : ∀ s, analysis.table.lookup name s = none := by
    intro s
    rw [Option.eq_none_iff_forall_ne_some]
    intro i hi
    obtain ⟨k, -, hs, rhs, hk, hsel⟩ := (Analysis.lookup_eq_some_iff h).mp hi
    exact Analysis.not_selects_of_leftRecursive h hrec hw hd hs
      (Grammar.hasAlternative_iff.mpr ⟨k, hk⟩) hsel
  refine ⟨?_, ?_, ?_⟩
  · intro outer hback
    obtain ⟨flags, hflags⟩ := (Analysis.run_eq_ok_iff.mp h).1
    obtain ⟨leader, ⟨rest, hrhs⟩, -⟩ := Relation.TransGen.head'_iff.mp hback
    have hproductive := (Grammar.validate_isOk_iff.mp ⟨flags, hflags⟩).2 outer hrhs.mem_nonterminals
    exact hproductive.not_leads_back hback
  · refine OrderedMap.ext ?_ ?_
    · rw [OrderedMap.keys_empty, List.eq_nil_iff_forall_not_mem]
      intro s hs
      obtain ⟨i, hi⟩ := OrderedMap.mem_keys.mp hs
      rw [show (analysis.table.row name).find? s = none from hcells s] at hi
      cases hi
    · exact hcells
  · intro start limit listening p hp ops lexeme e he rhs haction
    obtain ⟨i, hi⟩ := Parser.lookup_of_expand he haction
    have htable : (p.after ops).automaton.table = analysis.table := by
      rw [Parser.automaton_after, (Parser.create_eq_ok_iff.mp hp).2]
      rfl
    rw [htable, hcells] at hi
    cases hi

/-- The name `A` derives `A c`, as `B` in front of it vanishes. It has no cell. -/
theorem hiddenRecursion_without_cells :
    ∃ analysis, Analysis.run .hiddenRecursion .defaults = .ok analysis ∧
      Relation.TransGen Grammar.hiddenRecursion.Produces [.nonterminal "A"]
        [.nonterminal "A", .terminal "c"] ∧
      analysis.table.row "A" = ∅ ∧
      analysis.table.lookup "S" (.terminal "x") = some 0 := by
  obtain ⟨analysis, h⟩ := Analysis.exists_run (g := .hiddenRecursion) (s := .defaults)
    (by decide +kernel)
  have hA : Grammar.hiddenRecursion.HasAlternative "A"
      [.nonterminal "B", .nonterminal "A", .terminal "c"] := ⟨_, rfl, by simp⟩
  have hB : Grammar.hiddenRecursion.HasAlternative "B" [] := ⟨_, rfl, by simp⟩
  have hrec : Relation.TransGen Grammar.hiddenRecursion.Produces [.nonterminal "A"]
      [.nonterminal "A", .terminal "c"] :=
    .tail (.single (.replace [] [] hA)) (.replace [] [.nonterminal "A", .terminal "c"] hB)
  have hcell : (Analysis.run .hiddenRecursion .defaults).toOption.map
      (·.table.lookup "S" (.terminal "x")) = some (some 0) := by decide +kernel
  rw [h] at hcell
  exact ⟨analysis, h, hrec,
    (leftRecursion_without_cells h hrec (w := [.terminal "c"]) (by decide)
      (Grammar.Derives.refl _)).2.1, Option.some.inj hcell⟩

end Predictive
