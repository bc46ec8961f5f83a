import Predictive.Proofs.Ambiguities

/-!
# The report on ambiguities

The ambiguities of a nonterminal are found in one scan of its alternatives, each with its symbols in
order. The scan keeps two tables (`Ambiguity.Tables`): in which alternative a symbol has been seen
first, and which symbols are reported already. Whatever it has read, the tables tell of every symbol
the first alternative that holds it, and whether there are two of them.

* `Ambiguity.Tables.scan_eq`: the scan finds the ambiguities.
* `FirstSets.pairwise_ambiguities`: they come in the order of declaration, then in that of the
  second alternative, then in that of the symbols.
* `FirstSets.mem_ambiguities_iff`: each names the first two alternatives that hold its symbol.
* `ambiguities_reported_once`: the report as a whole.
-/

namespace Predictive

namespace Ambiguity

variable {name : String} {s : Symbol} {earlier : List SymbolSet} {set : SymbolSet} {i j : ℕ}

/-! ## One scan with two tables -/

/-- The ambiguity that comes to light at a symbol of the next alternative. -/
def arising (name : String) (earlier : List SymbolSet) (s : Symbol) : Option Ambiguity :=
  match holders s earlier with
  | [i] => some ⟨name, s, i, earlier.length⟩
  | _ => none

theorem atAlternative_eq (name : String) (earlier : List SymbolSet) (set : SymbolSet) :
    atAlternative name earlier set = set.toList.filterMap (arising name earlier) := rfl

/-- What a scan remembers of the alternatives that it has read. -/
structure Tables where
  /-- The first alternative that holds a symbol. -/
  seen : OrderedMap Symbol ℕ
  /-- The symbols that are reported. -/
  reported : SymbolSet

namespace Tables

/-- Reads one symbol of an alternative. -/
def read (name : String) (index : ℕ) (t : Tables) (s : Symbol) : Tables × Option Ambiguity :=
  match t.seen.find? s with
  | none => (⟨t.seen.insert s index, t.reported⟩, none)
  | some first =>
    if s ∈ t.reported then (t, none)
    else (⟨t.seen, t.reported.insert s⟩, some ⟨name, s, first, index⟩)

/-- Reads some symbols of an alternative. -/
def readAll (name : String) (index : ℕ) : Tables → List Symbol → Tables × List Ambiguity
  | t, [] => (t, [])
  | t, s :: symbols =>
    let (t, found) := t.read name index s
    let (t, later) := readAll name index t symbols
    (t, found.toList ++ later)

/-- Reads some alternatives, of which the first has the given index. -/
def scan (name : String) (index : ℕ) : Tables → List SymbolSet → List Ambiguity
  | _, [] => []
  | t, set :: later =>
    let (t, found) := readAll name index t set.toList
    found ++ scan name (index + 1) t later

/-- The tables know of a symbol in which places it is held. -/
structure Knows (t : Tables) (s : Symbol) (places : List ℕ) : Prop where
  seen : t.seen.find? s = places.head?
  reported : s ∈ t.reported ↔ 2 ≤ places.length

variable {t : Tables}

/-- A symbol is found ambiguous where exactly one earlier alternative holds it, and the tables know
of the new place. Of the other symbols they know what they have known. -/
theorem read_spec (name : String) (hs : s ∈ set) (h : t.Knows s (holders s earlier)) :
    (t.read name earlier.length s).2 = arising name earlier s ∧
      (t.read name earlier.length s).1.Knows s (holders s (earlier ++ [set])) ∧
      ∀ s' places, s' ≠ s → t.Knows s' places →
        (t.read name earlier.length s).1.Knows s' places := by
  rw [holders_concat, if_pos hs]
  obtain ⟨hseen, hreported⟩ := h
  unfold read arising
  rw [hseen]
  match hplaces : holders s earlier with
  | [] =>
    rw [hplaces] at hreported
    refine ⟨rfl, ⟨by simp, by simpa using hreported⟩, fun s' places hne h' => ⟨?_, h'.reported⟩⟩
    simpa [hne] using h'.seen
  | [i] =>
    rw [hplaces] at hreported hseen
    have hnew : s ∉ t.reported := fun hm => by simpa using hreported.mp hm
    simp only [List.head?_cons, if_neg hnew]
    refine ⟨trivial, ⟨by simpa using hseen, by simp⟩, fun s' places hne h' => ⟨h'.seen, ?_⟩⟩
    simpa [hne] using h'.reported
  | i :: j :: rest =>
    rw [hplaces] at hreported hseen
    have hold : s ∈ t.reported := hreported.mpr (by simp)
    simp only [List.head?_cons, if_pos hold]
    exact ⟨trivial, ⟨by simpa using hseen, by simp [hold]⟩, fun s' places _ h' => h'⟩

/-- What is left of an alternative adds its ambiguities. Of the symbols that are read the tables
know the places up to this alternative, and of the others those up to the one before. -/
theorem readAll_spec (name : String) {symbols : List Symbol} (hsub : ∀ s ∈ symbols, s ∈ set)
    (hnodup : symbols.Nodup) (hleft : ∀ s ∈ symbols, t.Knows s (holders s earlier))
    (hread : ∀ s ∉ symbols, t.Knows s (holders s (earlier ++ [set]))) :
    (readAll name earlier.length t symbols).2 = symbols.filterMap (arising name earlier) ∧
      ∀ s, (readAll name earlier.length t symbols).1.Knows s (holders s (earlier ++ [set])) := by
  induction symbols generalizing t with
  | nil => exact ⟨rfl, fun s => hread s List.not_mem_nil⟩
  | cons s symbols ih =>
    obtain ⟨hs, hnodup⟩ := List.nodup_cons.mp hnodup
    obtain ⟨hfound, hknows, hothers⟩ :=
      read_spec name (hsub s List.mem_cons_self) (hleft s List.mem_cons_self)
    have ne_of_mem {s' : Symbol} (hs' : s' ∈ symbols) : s' ≠ s := fun heq => hs (heq ▸ hs')
    obtain ⟨hlater, hall⟩ := ih (fun s' hs' => hsub s' (List.mem_cons_of_mem s hs')) hnodup
      (fun s' hs' => hothers s' _ (ne_of_mem hs') (hleft s' (List.mem_cons_of_mem s hs')))
      fun s' hs' => by
        by_cases heq : s' = s
        · exact heq ▸ hknows
        · exact hothers s' _ heq (hread s' (by simp [heq, hs']))
    refine ⟨?_, hall⟩
    show (t.read name earlier.length s).2.toList ++
      (readAll name earlier.length (t.read name earlier.length s).1 symbols).2 = _
    rw [hlater, hfound, List.filterMap_cons]
    cases arising name earlier s <;> rfl

/-- **The scan finds the ambiguities** of the alternatives that are left. -/
theorem scan_eq (name : String) (earlier later : List SymbolSet)
    (h : ∀ s, t.Knows s (holders s earlier)) :
    scan name earlier.length t later = amongAlternatives name earlier later := by
  induction later generalizing t earlier with
  | nil => rfl
  | cons set later ih =>
    have hrest (s : Symbol) (hs : s ∉ set.toList) : t.Knows s (holders s (earlier ++ [set])) := by
      have hs : s ∉ set := hs
      rw [holders_concat, if_neg hs, List.append_nil]
      exact h s
    obtain ⟨hfound, hknows⟩ :=
      readAll_spec name (fun s hs => hs) set.nodup_toList (fun s _ => h s) hrest
    show (readAll name earlier.length t set.toList).2 ++
      scan name (earlier.length + 1) (readAll name earlier.length t set.toList).1 later = _
    have hlength : earlier.length + 1 = (earlier ++ [set]).length := by simp
    rw [hfound, hlength, ih _ hknows, amongAlternatives, atAlternative_eq]

end Tables

/-! ## The order of the entries -/

/-- The order of the report: that of the names, then that of the second alternatives, then that of
the symbols. -/
def Before (names : List String) (x y : Ambiguity) : Prop :=
  [x.nonterminal, y.nonterminal].Sublist names ∨
    x.nonterminal = y.nonterminal ∧
      (x.second < y.second ∨ x.second = y.second ∧ compare x.symbol y.symbol = .lt)

theorem pairwise_atAlternative (name : String) (earlier : List SymbolSet) (set : SymbolSet) :
    (atAlternative name earlier set).Pairwise
      fun x y => x.second = y.second ∧ compare x.symbol y.symbol = .lt := by
  refine List.pairwise_filterMap.mpr (set.ascending.imp fun {s s'} hlt x hx y hy => ?_)
  split at hx
  · cases hx
    split at hy
    · cases hy
      exact ⟨rfl, hlt⟩
    · cases hy
  · cases hx

theorem length_le_second {later : List SymbolSet} {x : Ambiguity}
    (hx : x ∈ amongAlternatives name earlier later) : earlier.length ≤ x.second := by
  induction later generalizing earlier with
  | nil => exact absurd hx List.not_mem_nil
  | cons set later ih =>
    rcases List.mem_append.mp hx with hx | hx
    · exact Nat.le_of_eq (mem_atAlternative.mp hx).2.2.2.symm
    · have := ih hx
      rw [List.length_append] at this
      exact Nat.le_of_add_right_le this

/-- The entries of one nonterminal come in the order of the second alternative, then in that of the
symbols. -/
theorem pairwise_amongAlternatives (name : String) (earlier later : List SymbolSet) :
    (amongAlternatives name earlier later).Pairwise fun x y =>
      x.second < y.second ∨ x.second = y.second ∧ compare x.symbol y.symbol = .lt := by
  induction later generalizing earlier with
  | nil => exact .nil
  | cons set later ih =>
    refine List.pairwise_append.mpr ⟨(pairwise_atAlternative name earlier set).imp .inr, ih _, ?_⟩
    intro x hx y hy
    left
    have hsecond := length_le_second hy
    rw [List.length_append, List.length_singleton] at hsecond
    have := (mem_atAlternative.mp hx).2.2.2
    omega

/-! ## The first two places -/

theorem pairwise_holders (s : Symbol) (sets : List SymbolSet) :
    (holders s sets).Pairwise (· < ·) := by
  have hsub : (holders s sets).Sublist (sets.zipIdx.map Prod.snd) := List.filter_sublist.map _
  rw [List.zipIdx_map_snd, ← List.range_eq_range'] at hsub
  exact List.pairwise_lt_range.sublist hsub

/-- A strictly ascending list begins with two numbers iff these are the least of its members. -/
theorem exists_eq_cons_cons_iff {places : List ℕ} (h : places.Pairwise (· < ·)) {i j : ℕ} :
    (∃ rest, places = i :: j :: rest) ↔
      i < j ∧ i ∈ places ∧ j ∈ places ∧ ∀ k ∈ places, k = i ∨ j ≤ k := by
  constructor
  · rintro ⟨rest, rfl⟩
    obtain ⟨hi, hrest⟩ := List.pairwise_cons.mp h
    obtain ⟨hj, -⟩ := List.pairwise_cons.mp hrest
    refine ⟨hi j List.mem_cons_self, List.mem_cons_self, by simp, fun k hk => ?_⟩
    rcases List.mem_cons.mp hk with rfl | hk
    · exact .inl rfl
    · rcases List.mem_cons.mp hk with rfl | hk
      · exact .inr (Nat.le_refl _)
      · exact .inr (Nat.le_of_lt (hj k hk))
  · rintro ⟨hlt, hi, hj, hleast⟩
    match places, h with
    | [], _ => exact absurd hi List.not_mem_nil
    | [k], _ =>
      rw [List.mem_singleton] at hi hj
      omega
    | k :: l :: rest, h =>
      obtain ⟨hk, hrest⟩ := List.pairwise_cons.mp h
      obtain ⟨hl, -⟩ := List.pairwise_cons.mp hrest
      have hkl : k < l := hk l List.mem_cons_self
      have hik : k = i := by
        rcases List.mem_cons.mp hi with rfl | hi
        · rfl
        · have := hk i hi
          have := hleast k List.mem_cons_self
          omega
      have hjl : l = j := by
        rcases List.mem_cons.mp hj with rfl | hj
        · omega
        · have := hleast l (by simp)
          rcases List.mem_cons.mp hj with rfl | hj
          · rfl
          · have := hl j hj
            omega
      exact ⟨rest, by rw [hik, hjl]⟩

end Ambiguity

namespace FirstSets

variable {first : FirstSets} {x : Ambiguity}

/-- FIRST of an alternative of a nonterminal holds a symbol. -/
def Holds (first : FirstSets) (name : String) (s : Symbol) (i : ℕ) : Prop :=
  ∃ set, first.ofAlternative? name i = .ok set ∧ s ∈ set

/-- An entry names the first two alternatives that hold its symbol. -/
structure NamesFirstTwo (first : FirstSets) (x : Ambiguity) : Prop where
  lt : x.first < x.second
  holds_first : first.Holds x.nonterminal x.symbol x.first
  holds_second : first.Holds x.nonterminal x.symbol x.second
  least : ∀ k, first.Holds x.nonterminal x.symbol k → k = x.first ∨ x.second ≤ k

theorem holds_iff {name : String} {s : Symbol} {i : ℕ} : first.Holds name s i ↔
    ∃ sets, first.alternatives.find? name = some sets ∧ i ∈ Ambiguity.holders s sets := by
  simp only [Ambiguity.mem_holders]
  unfold Holds ofAlternative?
  cases first.alternatives.find? name with
  | none => simp
  | some sets =>
    simp only [SignedIndex.get?_ofNat, Option.some.injEq, exists_eq_left']
    cases sets[i]? <;> simp

/-- **The entries of the report name the first two alternatives** that hold their symbols, and there
is an entry wherever there are two. -/
theorem mem_ambiguities_iff : x ∈ first.ambiguities ↔ first.NamesFirstTwo x := by
  rw [mem_ambiguities]
  constructor
  · rintro ⟨sets, hsets, hrest⟩
    obtain ⟨hlt, hfirst, hsecond, hleast⟩ :=
      (Ambiguity.exists_eq_cons_cons_iff (Ambiguity.pairwise_holders x.symbol sets)).mp hrest
    refine ⟨hlt, holds_iff.mpr ⟨sets, hsets, hfirst⟩, holds_iff.mpr ⟨sets, hsets, hsecond⟩,
      fun k hk => ?_⟩
    obtain ⟨sets', hsets', hk⟩ := holds_iff.mp hk
    rw [hsets] at hsets'
    cases hsets'
    exact hleast k hk
  · rintro ⟨hlt, hfirst, hsecond, hleast⟩
    obtain ⟨sets, hsets, hfirst⟩ := holds_iff.mp hfirst
    obtain ⟨sets', hsets', hsecond⟩ := holds_iff.mp hsecond
    rw [hsets] at hsets'
    cases hsets'
    refine ⟨sets, hsets, ?_⟩
    refine (Ambiguity.exists_eq_cons_cons_iff (Ambiguity.pairwise_holders _ _)).mpr
      ⟨hlt, hfirst, hsecond, fun k hk => hleast k (holds_iff.mpr ⟨sets, hsets, hk⟩)⟩

/-- The entries come in the order of declaration, and those of one nonterminal in order. -/
theorem pairwise_ambiguities (first : FirstSets) :
    first.ambiguities.Pairwise (Ambiguity.Before first.alternatives.keys) := by
  refine List.pairwise_flatMap.mpr ⟨fun e _ => ?_, ?_⟩
  · refine (Ambiguity.pairwise_amongAlternatives e.1 [] e.2).imp_of_mem fun {x y} hx hy h => ?_
    have hname := (Ambiguity.mem_amongAlternatives.mp hx).1
    exact .inr ⟨hname.trans (Ambiguity.mem_amongAlternatives.mp hy).1.symm, h⟩
  · refine List.pairwise_iff_forall_sublist.mpr fun {e e'} hsub x hx y hy => .inl ?_
    rw [(Ambiguity.mem_amongAlternatives.mp hx).1, (Ambiguity.mem_amongAlternatives.mp hy).1]
    exact hsub.map Prod.fst

/-- FIRST of at least two alternatives of a nonterminal holds a symbol. -/
def HeldTwice (first : FirstSets) (name : String) (s : Symbol) : Prop :=
  ∃ i j, i ≠ j ∧ first.Holds name s i ∧ first.Holds name s j

theorem mem_subjects_iff_heldTwice {name : String} {s : Symbol} :
    (name, s) ∈ first.subjects ↔ first.HeldTwice name s := by
  rw [mem_subjects]
  unfold HeldTwice
  simp only [holds_iff, Ambiguity.mem_holders]
  constructor
  · rintro ⟨sets, hsets, i, j, set, set', hne, hi, hs, hj, hs'⟩
    exact ⟨i, j, hne, ⟨sets, hsets, set, hi, hs⟩, sets, hsets, set', hj, hs'⟩
  · rintro ⟨i, j, hne, ⟨sets, hsets, set, hi, hs⟩, sets', hsets', set', hj, hs'⟩
    rw [hsets] at hsets'
    cases hsets'
    exact ⟨sets, hsets, i, j, set, set', hne, hi, hs, hj, hs'⟩

/-- The entries about one symbol of a nonterminal. -/
def entriesAbout (first : FirstSets) (name : String) (s : Symbol) : List Ambiguity :=
  first.ambiguities.filter fun x => x.nonterminal = name ∧ x.symbol = s

theorem mem_entriesAbout {name : String} {s : Symbol} : x ∈ first.entriesAbout name s ↔
    x ∈ first.ambiguities ∧ x.nonterminal = name ∧ x.symbol = s := by
  simp [entriesAbout]

/-- A symbol that two alternatives hold has one entry. -/
theorem exists_entriesAbout_eq {name : String} {s : Symbol} (h : first.HeldTwice name s) :
    ∃ x, first.entriesAbout name s = [x] ∧ first.NamesFirstTwo x := by
  obtain ⟨x, hx, heq⟩ := List.mem_map.mp (mem_subjects_iff_heldTwice.mpr h)
  obtain ⟨hname, hsymbol⟩ := Prod.mk.inj heq
  have hmem : x ∈ first.entriesAbout name s := mem_entriesAbout.mpr ⟨hx, hname, hsymbol⟩
  refine ⟨x, ?_, mem_ambiguities_iff.mp hx⟩
  by_contra hne
  have hnodup : (first.entriesAbout name s).Nodup := first.nodup_ambiguities.filter _
  rcases (hnodup.ne_singleton_iff x).mp hne with hnil | ⟨y, hy, hyx⟩
  · rw [hnil] at hmem
    exact List.not_mem_nil hmem
  · obtain ⟨hy, hname', hsymbol'⟩ := mem_entriesAbout.mp hy
    have hsubject : (y.nonterminal, y.symbol) = (x.nonterminal, x.symbol) := by
      rw [hname, hname', hsymbol, hsymbol']
    exact hyx (List.inj_on_of_nodup_map first.nodup_subjects hy hx hsubject)

/-- A symbol that at most one alternative holds has none. -/
theorem entriesAbout_eq_nil {name : String} {s : Symbol} (h : ¬ first.HeldTwice name s) :
    first.entriesAbout name s = [] := by
  refine List.eq_nil_iff_forall_not_mem.mpr fun x hx => h ?_
  obtain ⟨hmem, rfl, rfl⟩ := mem_entriesAbout.mp hx
  exact mem_subjects_iff_heldTwice.mp (List.mem_map.mpr ⟨x, hmem, rfl⟩)

/-- What a scan with two tables finds among the alternatives of every nonterminal. -/
theorem ambiguities_eq_scan (first : FirstSets) :
    first.ambiguities = first.alternatives.entries.flatMap fun e =>
      Ambiguity.Tables.scan e.1 0 ⟨∅, ∅⟩ e.2 := by
  have hstart (s : Symbol) :
      (⟨∅, ∅⟩ : Ambiguity.Tables).Knows s (Ambiguity.holders s []) := ⟨rfl, by
    simp [Ambiguity.holders]⟩
  exact List.flatMap_congr fun e _ => (Ambiguity.Tables.scan_eq e.1 [] e.2 hstart).symm

end FirstSets

/-- **Each ambiguity is reported once.** The warnings about the FIRST sets of any grammar are those
that a scan of the alternatives with two tables finds. There is exactly one for each nonterminal and
each symbol, the mark of the empty string included, that FIRST of two of its alternatives holds, and
it names the first two of these; there is no other. The warnings come in the order of declaration,
then in that of the second alternative, then in that of the symbols. -/
theorem ambiguities_reported_once (g : Grammar) :
    ∃ found : List Ambiguity,
      (FirstSets.ofGrammar g).diagnostics = found.map (fun x => {
        severity := .warning
        code := .ambiguousFirstSet
        message := "Nonterminal '" ++ x.nonterminal ++ "' has '" ++ x.symbol.name ++
          "' token in multiple alternatives"
        nonterminal := some x.nonterminal
        symbol := some x.symbol.name
        hint := some ("alternatives " ++ toString x.first ++ " and " ++ toString x.second) }) ∧
      (found = (FirstSets.ofGrammar g).alternatives.entries.flatMap fun e =>
        Ambiguity.Tables.scan e.1 0 ⟨∅, ∅⟩ e.2) ∧
      found.Pairwise (Ambiguity.Before g.nonterminals) ∧
      (∀ name s, (FirstSets.ofGrammar g).HeldTwice name s →
        ∃ x, (found.filter fun x => x.nonterminal = name ∧ x.symbol = s) = [x] ∧
          (FirstSets.ofGrammar g).NamesFirstTwo x) ∧
      ∀ name s, ¬ (FirstSets.ofGrammar g).HeldTwice name s →
        (found.filter fun x => x.nonterminal = name ∧ x.symbol = s) = [] := by
  have hkeys : (FirstSets.ofGrammar g).alternatives.keys = g.nonterminals :=
    OrderedMap.keys_mapValues _ _
  refine ⟨(FirstSets.ofGrammar g).ambiguities, rfl, FirstSets.ambiguities_eq_scan _,
    hkeys ▸ FirstSets.pairwise_ambiguities _, fun name s h => ?_, fun name s h => ?_⟩
  · exact FirstSets.exists_entriesAbout_eq h
  · exact FirstSets.entriesAbout_eq_nil h

/-- Three alternatives begin with `a`, and two of them vanish. -/
def Grammar.threefold : Grammar :=
  .build "S" (.ofList [
    ("S", [[.terminal "a"], [.nonterminal "B"], [.nonterminal "B", .nonterminal "B"]]),
    ("B", [[.terminal "a"], []])]) (.ofList ["a"])

example : (FirstSets.ofGrammar .threefold).ambiguities =
    [⟨"S", .terminal "a", 0, 1⟩, ⟨"S", .empty, 1, 2⟩] := by decide +kernel

end Predictive
