import Predictive.Proofs.Lenient
import Predictive.Proofs.Spacing

/-!
# Decimal digits are read leniently

The decimal digits of a positive integer begin with no zero, so that a lenient reading takes nothing
away from them.

* `Lenient.IntegerText.read_toString`: they are read as the integer, unless they are too many.
* `Lenient.readsDigits`: the lenient validator reads them.
-/

namespace Predictive.Lenient

theorem isBlank_of_isDigit {c : Char} (h : c.isDigit = true) : Text.isBlank c = false := by
  have ⟨hlow, hhigh⟩ := Char.isDigit_iff_toNat.mp h
  have hzero : '0'.toNat = 48 := rfl
  have hnine : '9'.toNat = 57 := rfl
  simp only [Text.isBlank, Bool.or_eq_false_iff, Bool.and_eq_false_iff, decide_eq_false_iff_not]
  omega

namespace IntegerText

variable {cs : List Char}

/-- Decimal digits, the first of which is no zero. -/
structure Plain (cs : List Char) : Prop where
  ne_nil : cs ≠ []
  digit : ∀ c ∈ cs, c.isDigit = true
  head : cs.head? ≠ some '0'

/-- The digits of a positive number do not begin with a zero. -/
theorem head?_toDigits {n : Nat} (hn : 0 < n) : (Nat.toDigits 10 n).head? ≠ some '0' := by
  induction n using Nat.strongRecOn with
  | ind n ih =>
    rw [Nat.toDigits_eq_if (by decide)]
    split
    · next hsmall =>
      have hdigit : ∀ m < 10, 0 < m → m.digitChar ≠ '0' := by decide
      simpa using hdigit n hsmall hn
    · rw [List.head?_append, Option.or_of_isSome (List.isSome_head?.mpr Nat.toDigits_ne_nil)]
      exact ih (n / 10) (by omega) (by omega)

theorem plain_toDigits {n : Nat} (hn : 0 < n) : Plain (Nat.toDigits 10 n) where
  ne_nil := Nat.toDigits_ne_nil
  digit _ hc := Nat.isDigit_of_mem_toDigits (by decide) (by decide) hc
  head := head?_toDigits hn

theorem value_toDigits (n : Nat) : value (Nat.toDigits 10 n) = n := by
  have h := Nat.ofDigitChars_ten_toDigits (n := n)
  rwa [Nat.ofDigitChars_eq_foldl] at h

namespace Plain

/-- Signs, points and underscores are no digits. -/
theorem not_mem (h : Plain cs) {c : Char} (hc : c.isDigit = false) : c ∉ cs := by
  intro hm
  rw [h.digit c hm] at hc
  cases hc

theorem trim_eq_self (h : Plain cs) : Text.trim isWhiteSpace cs = cs := by
  have hsolid {c : Char} (hc : c ∈ cs) : isWhiteSpace c = false := by
    rw [isWhiteSpace, isBlank_of_isDigit (h.digit c hc), Bool.false_and]
  exact Text.trim_eq_self ⟨fun c hc => hsolid (List.mem_of_mem_head? hc),
    fun c hc => hsolid (List.mem_of_getLast? hc)⟩

theorem withoutZeros?_eq_some (h : Plain cs) : withoutZeros? cs = some cs := by
  cases cs with
  | nil => exact absurd rfl h.ne_nil
  | cons c cs =>
    have hzero : c ≠ '0' := fun hc => h.head (congrArg some hc)
    rw [withoutZeros?, if_neg hzero, if_pos (h.digit c List.mem_cons_self)]

/-- Nothing has to be taken away: there is no leading zero, no fraction and no underscore. -/
theorem bare?_eq_some (h : Plain cs) : bare? cs = some cs := by
  have hfraction : withoutFraction cs = cs := by
    have hpoint : cs.dropWhile (· ≠ '.') = [] := by
      rw [List.dropWhile_eq_nil_iff]
      intro c hc
      have hne : c ≠ '.' := fun hpoint => h.not_mem (by decide) (hpoint ▸ hc)
      simpa using hne
    rw [withoutFraction, hpoint]
  have hgroups : ungrouped cs = cs := by
    rw [ungrouped, List.splitOn_eq_singleton (h.not_mem (by decide))]
    simp [h.ne_nil]
  rw [bare?, h.withoutZeros?_eq_some, Option.map_some, hfraction, hgroups]

theorem clean?_eq_some (h : Plain cs) : clean? cs = some cs := by
  have hminus : '-' ∉ cs := h.not_mem (by decide)
  have hplus : '+' ∉ cs := h.not_mem (by decide)
  unfold clean?
  split
  · exact absurd List.mem_cons_self hminus
  · exact absurd List.mem_cons_self hplus
  · exact h.bare?_eq_some

theorem signed_eq (h : Plain cs) : signed cs = (digits cs).map fun n => (n : Int) := by
  have hminus : '-' ∉ cs := h.not_mem (by decide)
  unfold signed
  split
  · exact absurd List.mem_cons_self hminus
  · rfl

theorem digits_eq (h : Plain cs) :
    digits cs = if cs.length ≤ maxDigits then .ok (value cs) else .error .tooLong := by
  have hfirst : ¬ (cs.isEmpty || (cs.head? = some '0' && cs.length ≠ 1)) = true := by
    simp [h.ne_nil, h.head]
  have hrun : cs.takeWhile Char.isDigit = cs := List.takeWhile_eq_self_iff.mpr h.digit
  have hall : ¬ cs.any (!·.isDigit) = true := by
    rw [List.any_eq_true]
    rintro ⟨c, hc, hnot⟩
    rw [h.digit c hc] at hnot
    cases hnot
  rw [digits, if_neg hfirst, hrun, if_neg hall]
  by_cases hlength : cs.length ≤ maxDigits
  · rw [if_neg (Nat.not_lt.mpr hlength), if_pos hlength]
  · rw [if_pos (Nat.not_le.mp hlength), if_neg hlength]

end Plain

/-- **The decimal digits of a positive integer are read as this integer**, unless they are too
many. -/
theorem read_toString {k : Int} (hk : 1 ≤ k) : read (toString k) =
    if (toString k).length ≤ maxDigits then .ok k else .error .tooLong := by
  obtain ⟨n, rfl⟩ := Int.eq_ofNat_of_zero_le (show 0 ≤ k by omega)
  have hplain : Plain (Nat.toDigits 10 n) := plain_toDigits (by omega)
  have htext : (toString (n : Int)).toList = Nat.toDigits 10 n := Nat.toList_repr
  have hread : read (toString (n : Int)) = signed (Nat.toDigits 10 n) := by
    rw [read, htext, hplain.trim_eq_self, hplain.clean?_eq_some]
  rw [hread, hplain.signed_eq, hplain.digits_eq, value_toDigits, ← htext, String.length_toList]
  split <;> rfl

end IntegerText

/-- **The lenient validator reads the digits of a positive integer**, if it allows so many. -/
theorem readsDigits {n : Int} (hn : 1 ≤ n) (hlength : (toString n).length ≤ IntegerText.maxDigits) :
    (validator some).ReadsDigits n := by
  have hread : readInteger some (.text (toString n)) = .ok n := by
    simp only [readInteger, readNumeral, IntegerText.read_toString hn, if_pos hlength]
  show readAtLeast some 1 (.text (toString n)) = .ok n
  rw [readAtLeast, hread]
  exact if_pos hn

end Predictive.Lenient
