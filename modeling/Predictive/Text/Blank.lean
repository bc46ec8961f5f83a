/-!
# Blank characters, trimming and words

Blanks are the white space of Unicode together with the four separators U+001C to U+001F. Text is
handled as a list of characters.

* `mem_words`: a word is never empty, and holds what is in the text but no blank.
-/

namespace Predictive.Text

/-- A character that separates words. -/
def isBlank (c : Char) : Bool :=
  let n := c.toNat
  (0x09 ≤ n && n ≤ 0x0D) || (0x1C ≤ n && n ≤ 0x20) || n = 0x85 || n = 0xA0 || n = 0x1680 ||
    (0x2000 ≤ n && n ≤ 0x200A) || n = 0x2028 || n = 0x2029 || n = 0x202F || n = 0x205F ||
    n = 0x3000

/-- Drops the characters of a kind at both ends. -/
def trim (p : Char → Bool) (cs : List Char) : List Char :=
  ((cs.dropWhile p).reverse.dropWhile p).reverse

/-- Drops the blanks at both ends. -/
def strip (cs : List Char) : List Char := trim isBlank cs

/-- The longest runs of characters that are not blank, in order. -/
def words (cs : List Char) : List (List Char) :=
  (cs.splitOnP isBlank).filter (!·.isEmpty)

/-- The words of a string. -/
def stringWords (s : String) : List String := (words s.toList).map String.ofList

/-- The parts between two separators hold what is in the text and no separator. -/
theorem mem_of_mem_splitOnP {p : Char → Bool} {cs w : List Char}
    (h : w ∈ cs.splitOnP p) : ∀ c ∈ w, c ∈ cs ∧ p c = false := by
  induction cs generalizing w with
  | nil =>
    rw [List.splitOnP_nil, List.mem_singleton] at h
    simp [h]
  | cons a cs ih =>
    have later {v : List Char} (hv : v ∈ cs.splitOnP p) (c : Char) (hc : c ∈ v) :
        c ∈ a :: cs ∧ p c = false := ⟨List.mem_cons_of_mem a (ih hv c hc).1, (ih hv c hc).2⟩
    rw [List.splitOnP_cons_eq_if_modifyHead] at h
    split at h
    · rcases List.mem_cons.mp h with rfl | h
      · simp
      · exact later h
    · next hp =>
      match hs : cs.splitOnP p with
      | [] => simp [hs] at h
      | v :: vs =>
        rw [hs, List.modifyHead_cons] at h
        rcases List.mem_cons.mp h with rfl | h
        · intro c hc
          rcases List.mem_cons.mp hc with rfl | hc
          · exact ⟨List.mem_cons_self, by simpa using hp⟩
          · exact later (by simp [hs]) c hc
        · exact later (by simp [hs, h])

theorem mem_words {cs w : List Char} (h : w ∈ words cs) :
    w ≠ [] ∧ ∀ c ∈ w, c ∈ cs ∧ isBlank c = false := by
  have ⟨hm, hne⟩ := List.mem_filter.mp h
  exact ⟨by simpa using hne, mem_of_mem_splitOnP hm⟩

end Predictive.Text
