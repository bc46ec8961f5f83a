/-!
# Finite maps in the order of first insertion

`OrderedMap κ α` maps finitely many keys to values and remembers the order in which the keys came
first. Writing a key again keeps its place and replaces its value.

* `keys_insert`, `find?_insert`: what one write does to the keys and to the values.
* `find?_mapValues`, `find?_gather`, `find?_of_traverse`: the values of maps that are built whole.
* `traverse_mapValues`: a traversal that undoes what was done to the values gives the map back.
* `exists_of_traverse_error`: a traversal that fails does so at the first entry that makes it fail.
* `mem_keys`: a key is listed exactly when it has a value.
-/

namespace Predictive

/-- A finite map whose keys are listed in the order of their first insertion. -/
structure OrderedMap (κ α : Type) where
  /-- The keys with their values, in order. -/
  entries : List (κ × α)
  /-- No key occurs twice. -/
  distinct : (entries.map Prod.fst).Nodup
  deriving DecidableEq

namespace OrderedMap

variable {κ α β : Type}

/-- The map without keys. -/
def empty : OrderedMap κ α := ⟨[], .nil⟩

instance : EmptyCollection (OrderedMap κ α) := ⟨empty⟩
instance : Inhabited (OrderedMap κ α) := ⟨∅⟩

/-- The keys, in order. -/
def keys (m : OrderedMap κ α) : List κ := m.entries.map Prod.fst

/-- The values, in the order of their keys. -/
def values (m : OrderedMap κ α) : List α := m.entries.map Prod.snd

/-- Replaces every value by one computed from its key and itself. -/
def mapValues (f : κ → α → β) (m : OrderedMap κ α) : OrderedMap κ β where
  entries := m.entries.map fun e => (e.1, f e.1 e.2)
  distinct := by simpa [Function.comp_def] using m.distinct

/-- The same keys, every one with one value. -/
def withKeysOf (m : OrderedMap κ α) (v : β) : OrderedMap κ β := m.mapValues fun _ _ => v

/-- Keeps the entries that satisfy a test. -/
def filter (p : κ → α → Bool) (m : OrderedMap κ α) : OrderedMap κ α where
  entries := m.entries.filter fun e => p e.1 e.2
  distinct := (List.filter_sublist.map _).nodup m.distinct

/-- Replaces the values of a list of entries, in order, until one computation fails. -/
def traverseEntries {ε : Type} (f : κ → α → Except ε β) :
    List (κ × α) → Except ε (List (κ × β))
  | [] => .ok []
  | e :: es =>
    match f e.1 e.2 with
    | .error err => .error err
    | .ok v =>
      match traverseEntries f es with
      | .error err => .error err
      | .ok rest => .ok ((e.1, v) :: rest)

theorem keys_traverseEntries {ε : Type} {f : κ → α → Except ε β} {es : List (κ × α)}
    {es' : List (κ × β)} (h : traverseEntries f es = .ok es') :
    es'.map Prod.fst = es.map Prod.fst := by
  induction es generalizing es' with
  | nil => cases h; rfl
  | cons e es ih =>
    unfold traverseEntries at h
    split at h
    · cases h
    · split at h
      · cases h
      · next rest hr =>
        cases h
        simp [ih hr]

/-- Replaces every value by the result of a computation that may fail; the first failure in the
order of the keys decides. -/
def traverse {ε : Type} (f : κ → α → Except ε β) (m : OrderedMap κ α) :
    Except ε (OrderedMap κ β) :=
  match h : traverseEntries f m.entries with
  | .ok es => .ok ⟨es, keys_traverseEntries h ▸ m.distinct⟩
  | .error err => .error err

variable [DecidableEq κ]

/-- The value of a key. -/
def find? (m : OrderedMap κ α) (k : κ) : Option α := m.entries.lookup k

/-- The key has a value. -/
def contains (m : OrderedMap κ α) (k : κ) : Bool := (m.find? k).isSome

theorem lookup_cons_eq_ite (k : κ) (e : κ × α) (es : List (κ × α)) :
    (e :: es).lookup k = if k = e.1 then some e.2 else es.lookup k := by
  rw [show e = (e.1, e.2) from rfl, List.lookup_cons]
  split <;> simp_all

/-- Writes a key of a list of entries: in place if it is there, else at the end. -/
def write (k : κ) (v : α) : List (κ × α) → List (κ × α)
  | [] => [(k, v)]
  | e :: es => if e.1 = k then (k, v) :: es else e :: write k v es

theorem keys_write (k : κ) (v : α) (es : List (κ × α)) :
    (write k v es).map Prod.fst =
      if k ∈ es.map Prod.fst then es.map Prod.fst else es.map Prod.fst ++ [k] := by
  induction es with
  | nil => rfl
  | cons e es ih =>
    unfold write
    by_cases h : e.1 = k
    · simp [h]
    · have h' : ¬ k = e.1 := fun e => h e.symm
      simp only [h, if_false, List.map_cons, ih, List.mem_cons, h', false_or]
      split <;> rfl

theorem lookup_write (k k' : κ) (v : α) (es : List (κ × α)) :
    (write k v es).lookup k' = if k' = k then some v else es.lookup k' := by
  induction es with
  | nil => simp only [write, lookup_cons_eq_ite]
  | cons e es ih =>
    unfold write
    split
    · next h =>
      subst h
      simp only [lookup_cons_eq_ite]
      split <;> rfl
    · next h =>
      simp only [lookup_cons_eq_ite, ih]
      split
      · next h' =>
        subst h'
        simp [h]
      · rfl

theorem distinct_write {k : κ} {v : α} {es : List (κ × α)} (h : (es.map Prod.fst).Nodup) :
    ((write k v es).map Prod.fst).Nodup := by
  rw [keys_write]
  split
  · exact h
  · next hk =>
    refine List.nodup_append.mpr ⟨h, by simp, fun a ha b hb => ?_⟩
    rw [List.mem_singleton.mp hb]
    exact fun e => hk (e ▸ ha)

/-- Gives a key a value; a key that is there keeps its place. -/
def insert (m : OrderedMap κ α) (k : κ) (v : α) : OrderedMap κ α :=
  ⟨write k v m.entries, distinct_write m.distinct⟩

/-- Reads a list of entries: a repeated key keeps its first place and takes its last value. -/
def ofList (es : List (κ × α)) : OrderedMap κ α :=
  es.foldl (fun m e => m.insert e.1 e.2) ∅

/-- Joins the lists that come with equal keys, in order. -/
def gather {γ : Type} (es : List (κ × List γ)) : OrderedMap κ (List γ) :=
  es.foldl (fun m e => m.insert e.1 ((m.find? e.1).getD [] ++ e.2)) ∅

/-- Replaces the value of one key, if it has one. -/
def modify (m : OrderedMap κ α) (k : κ) (f : α → α) : OrderedMap κ α :=
  m.mapValues fun k' v => if k' = k then f v else v

/-! ## Keys and values after each operation -/

omit [DecidableEq κ] in
@[simp] theorem keys_empty : (∅ : OrderedMap κ α).keys = [] := rfl

@[simp] theorem find?_empty (k : κ) : (∅ : OrderedMap κ α).find? k = none := rfl

omit [DecidableEq κ] in
@[simp] theorem keys_mapValues (f : κ → α → β) (m : OrderedMap κ α) :
    (m.mapValues f).keys = m.keys := by
  simp [keys, mapValues, Function.comp_def]

omit [DecidableEq κ] in
@[simp] theorem keys_withKeysOf (m : OrderedMap κ α) (v : β) : (m.withKeysOf v).keys = m.keys :=
  keys_mapValues _ m

@[simp] theorem keys_modify (m : OrderedMap κ α) (k : κ) (f : α → α) :
    (m.modify k f).keys = m.keys := keys_mapValues _ m

theorem keys_insert (m : OrderedMap κ α) (k : κ) (v : α) :
    (m.insert k v).keys = if k ∈ m.keys then m.keys else m.keys ++ [k] :=
  keys_write k v m.entries

@[simp] theorem find?_insert (m : OrderedMap κ α) (k k' : κ) (v : α) :
    (m.insert k v).find? k' = if k' = k then some v else m.find? k' :=
  lookup_write k k' v m.entries

private theorem lookup_map (f : κ → α → β) (es : List (κ × α)) (k : κ) :
    (es.map fun e => (e.1, f e.1 e.2)).lookup k = (es.lookup k).map (f k) := by
  induction es with
  | nil => rfl
  | cons e es ih =>
    simp only [List.map_cons, lookup_cons_eq_ite, ih]
    split
    · next h => simp [h]
    · rfl

@[simp] theorem find?_mapValues (f : κ → α → β) (m : OrderedMap κ α) (k : κ) :
    (m.mapValues f).find? k = (m.find? k).map (f k) := lookup_map f m.entries k

@[simp] theorem find?_withKeysOf (m : OrderedMap κ α) (v : β) (k : κ) :
    (m.withKeysOf v).find? k = (m.find? k).map fun _ => v := find?_mapValues _ m k

theorem find?_modify (m : OrderedMap κ α) (k k' : κ) (f : α → α) :
    (m.modify k f).find? k' = if k' = k then (m.find? k').map f else m.find? k' := by
  rw [modify, find?_mapValues]
  by_cases h : k' = k <;> simp [h]

private theorem lookup_eq_some_iff_mem {es : List (κ × α)} (h : (es.map Prod.fst).Nodup) {k : κ}
    {v : α} : es.lookup k = some v ↔ (k, v) ∈ es := by
  induction es with
  | nil => simp
  | cons e es ih =>
    obtain ⟨a, b⟩ := e
    have ⟨ha, hes⟩ := List.nodup_cons.mp h
    simp only [List.lookup_cons, List.mem_cons, Prod.mk.injEq]
    by_cases hk : k = a
    · subst hk
      have : (k, v) ∉ es := fun hm => ha (List.mem_map.mpr ⟨_, hm, rfl⟩)
      simp only [beq_self_eq_true, Option.some.injEq, true_and, this, or_false]
      exact eq_comm
    · have hb : (k == a) = false := by simpa using hk
      simp [hb, hk, ih hes]

/-- A key has a value exactly when the pair is among the entries. -/
theorem find?_eq_some_iff {m : OrderedMap κ α} {k : κ} {v : α} :
    m.find? k = some v ↔ (k, v) ∈ m.entries := lookup_eq_some_iff_mem m.distinct

/-- The listed keys are the ones that have a value. -/
theorem mem_keys {m : OrderedMap κ α} {k : κ} : k ∈ m.keys ↔ ∃ v, m.find? k = some v := by
  simp only [find?_eq_some_iff, keys, List.mem_map, Prod.exists, exists_and_right, exists_eq_right]

theorem find?_eq_none_iff {m : OrderedMap κ α} {k : κ} : m.find? k = none ↔ k ∉ m.keys := by
  rw [mem_keys]
  cases m.find? k <;> simp

theorem contains_iff {m : OrderedMap κ α} {k : κ} : m.contains k = true ↔ k ∈ m.keys := by
  rw [contains, mem_keys, Option.isSome_iff_exists]

/-- A key keeps its value if the entry satisfies the test, and has none otherwise. -/
theorem find?_filter_eq_some_iff {p : κ → α → Bool} {m : OrderedMap κ α} {k : κ} {v : α} :
    (m.filter p).find? k = some v ↔ m.find? k = some v ∧ p k v = true := by
  rw [find?_eq_some_iff, find?_eq_some_iff, filter, List.mem_filter]

/-- Looking up some keys in order misses none. -/
theorem map_fst_filterMap_find? {m : OrderedMap κ α} {ks : List κ} (h : ∀ k ∈ ks, k ∈ m.keys) :
    (ks.filterMap fun k => (m.find? k).map (k, ·)).map Prod.fst = ks := by
  induction ks with
  | nil => rfl
  | cons k ks ih =>
    obtain ⟨v, hv⟩ := mem_keys.mp (h k List.mem_cons_self)
    rw [List.filterMap_cons, hv, Option.map_some, List.map_cons,
      ih fun k' hk' => h k' (List.mem_cons_of_mem k hk')]

private theorem find?_foldl_gather {γ : Type} (k : κ) (es : List (κ × List γ))
    (m : OrderedMap κ (List γ)) :
    ((es.foldl (fun m e => m.insert e.1 ((m.find? e.1).getD [] ++ e.2)) m).find? k).getD [] =
      (m.find? k).getD [] ++ (es.filter (·.1 = k)).flatMap Prod.snd := by
  induction es generalizing m with
  | nil => simp
  | cons e es ih =>
    rw [List.foldl_cons, ih, find?_insert]
    by_cases h : k = e.1
    · simp [h]
    · have h' : ¬ e.1 = k := fun e => h e.symm
      simp [h, h']

/-- A gathered value joins, in order, all lists that come with its key. -/
theorem find?_gather {γ : Type} (k : κ) (es : List (κ × List γ)) :
    ((gather es).find? k).getD [] = (es.filter (·.1 = k)).flatMap Prod.snd :=
  find?_foldl_gather k es ∅

private theorem lookup_of_traverseEntries {ε : Type} {f : κ → α → Except ε β}
    {es : List (κ × α)} {es' : List (κ × β)} (h : traverseEntries f es = .ok es') (k : κ) :
    match es.lookup k with
    | none => es'.lookup k = none
    | some v => ∃ w, f k v = .ok w ∧ es'.lookup k = some w := by
  induction es generalizing es' with
  | nil => cases h; rfl
  | cons e es ih =>
    unfold traverseEntries at h
    split at h
    · cases h
    · next w hw =>
      split at h
      · cases h
      · next rest hr =>
        cases h
        simp only [lookup_cons_eq_ite]
        by_cases hk : k = e.1
        · subst hk
          simp only [if_true]
          exact ⟨w, hw, rfl⟩
        · simp only [hk, if_false]
          exact ih hr

omit [DecidableEq κ] in
theorem entries_of_traverse {ε : Type} {f : κ → α → Except ε β} {m : OrderedMap κ α}
    {n : OrderedMap κ β} (h : m.traverse f = .ok n) :
    traverseEntries f m.entries = .ok n.entries := by
  unfold traverse at h
  split at h
  · next es hes => cases h; exact hes
  · cases h

omit [DecidableEq κ] in
theorem keys_of_traverse {ε : Type} {f : κ → α → Except ε β} {m : OrderedMap κ α}
    {n : OrderedMap κ β} (h : m.traverse f = .ok n) : n.keys = m.keys :=
  keys_traverseEntries (entries_of_traverse h)

omit [DecidableEq κ] in
/-- A traversal that fails does so at the first entry whose computation fails. -/
theorem exists_of_traverseEntries_error {ε : Type} {f : κ → α → Except ε β} {es : List (κ × α)}
    {err : ε} (h : traverseEntries f es = .error err) :
    ∃ before e after, es = before ++ e :: after ∧ (∀ b ∈ before, ∃ w, f b.1 b.2 = .ok w) ∧
      f e.1 e.2 = .error err := by
  induction es with
  | nil => cases h
  | cons e es ih =>
    unfold traverseEntries at h
    split at h
    · next err' he =>
      cases h
      exact ⟨[], e, es, rfl, fun b hb => absurd hb List.not_mem_nil, he⟩
    · next w hw =>
      split at h
      · next err' hr =>
        cases h
        obtain ⟨before, e', after, rfl, hbefore, he'⟩ := ih hr
        refine ⟨e :: before, e', after, rfl, fun b hb => ?_, he'⟩
        rcases List.mem_cons.mp hb with rfl | hb
        · exact ⟨w, hw⟩
        · exact hbefore b hb
      · cases h

omit [DecidableEq κ] in
/-- The first failure in the order of the keys decides. -/
theorem exists_of_traverse_error {ε : Type} {f : κ → α → Except ε β} {m : OrderedMap κ α}
    {err : ε} (h : m.traverse f = .error err) :
    ∃ before e after, m.entries = before ++ e :: after ∧
      (∀ b ∈ before, ∃ w, f b.1 b.2 = .ok w) ∧ f e.1 e.2 = .error err := by
  unfold traverse at h
  split at h
  · cases h
  · next err' herr =>
    cases h
    exact exists_of_traverseEntries_error herr

/-- Every value of a traversed map is the result of the computation. -/
theorem find?_of_traverse {ε : Type} {f : κ → α → Except ε β} {m : OrderedMap κ α}
    {n : OrderedMap κ β} (h : m.traverse f = .ok n) (k : κ) :
    match m.find? k with
    | none => n.find? k = none
    | some v => ∃ w, f k v = .ok w ∧ n.find? k = some w :=
  lookup_of_traverseEntries (entries_of_traverse h) k

/-- Two maps with the same keys in the same order and the same values are equal. -/
theorem ext {m n : OrderedMap κ α} (hk : m.keys = n.keys) (hv : ∀ k, m.find? k = n.find? k) :
    m = n := by
  have entries_eq (m : OrderedMap κ α) :
      m.entries = m.keys.filterMap fun k => (m.find? k).map (k, ·) := by
    have (es : List (κ × α)) (hs : ∀ e ∈ es, m.find? e.1 = some e.2) :
        es = (es.map Prod.fst).filterMap fun k => (m.find? k).map (k, ·) := by
      induction es with
      | nil => rfl
      | cons e es ih =>
        simp only [List.map_cons, List.filterMap_cons, hs e (by simp), Option.map_some]
        rw [← ih fun e he => hs e (by simp [he])]
    exact this m.entries fun e he => find?_eq_some_iff.mpr he
  have : m.entries = n.entries := by
    rw [entries_eq m, entries_eq n, hk]
    simp [hv]
  obtain ⟨_, _⟩ := m
  simp only at this
  subst this
  rfl

end OrderedMap

end Predictive
