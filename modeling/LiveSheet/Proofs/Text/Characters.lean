import LiveSheet.Text.Class

/-! How the character classes lie to each other. The letters, digits and underscores of variable
names are word characters and continue identifiers; blanks are neither, and neither are marks. -/

namespace LiveSheet.Text

/-- What holds of the characters of a list is decided one by one, and not by a search through all characters. -/
instance decidableForallMem (cs : List Char) (p : Char → Prop) [DecidablePred p] : Decidable (∀ c ∈ cs, p c) :=
  List.decidableBAll p cs

/-- No range of the one list meets a range of the other. -/
def apart (xs ys : List (Nat × Nat)) : Bool :=
  xs.all fun x => ys.all fun y => decide (x.2 < y.1) || decide (y.2 < x.1)

theorem not_inRanges_of_apart {xs ys : List (Nat × Nat)} (h : apart xs ys = true) {c : Char}
    (hx : inRanges xs c = true) : inRanges ys c = false := by
  simp only [inRanges, List.any_eq_true, Bool.and_eq_true, decide_eq_true_eq] at hx
  obtain ⟨⟨low, high⟩, hmem, hlow, hhigh⟩ := hx
  simp only [apart, List.all_eq_true, Bool.or_eq_true, decide_eq_true_eq] at h
  refine Bool.eq_false_iff.2 fun hy => ?_
  simp only [inRanges, List.any_eq_true, Bool.and_eq_true, decide_eq_true_eq] at hy
  obtain ⟨⟨low', high'⟩, hmem', hlow', hhigh'⟩ := hy
  have happart := h _ hmem _ hmem'
  simp only at hlow hhigh hlow' hhigh' happart
  omega

theorem apart_blanks_letters : apart ClassTable.blanks ClassTable.letters = true := by decide +kernel

theorem apart_blanks_numerals : apart ClassTable.blanks ClassTable.numerals = true := by decide +kernel

theorem apart_blanks_wordMarks : apart ClassTable.blanks ClassTable.wordMarks = true := by decide +kernel

theorem isAlpha_iff {c : Char} :
    c.isAlpha = true ↔ (65 ≤ c.toNat ∧ c.toNat ≤ 90) ∨ (97 ≤ c.toNat ∧ c.toNat ≤ 122) := by
  change (decide (65 ≤ c.val ∧ c.val ≤ 90) || (decide (97 ≤ c.val) && decide (c.val ≤ 122))) = true ↔ _
  simp only [Bool.or_eq_true, Bool.and_eq_true, decide_eq_true_eq, UInt32.le_iff_toNat_le]
  rfl

theorem isDigit_iff {c : Char} : c.isDigit = true ↔ 48 ≤ c.toNat ∧ c.toNat ≤ 57 := by
  change (decide (48 ≤ c.val) && decide (c.val ≤ 57)) = true ↔ _
  simp only [Bool.and_eq_true, decide_eq_true_eq, UInt32.le_iff_toNat_le]
  rfl

theorem lt_of_isAlphanum {c : Char} (h : c.isAlphanum = true) : c.toNat < 0x80 := by
  rcases Bool.or_eq_true _ _ ▸ h with h | h
  · have := isAlpha_iff.1 h
    omega
  · have := isDigit_iff.1 h
    omega

theorem isAlphanum_of_isVariablePart {c : Char} (h : isVariablePart c = true) : c.isAlphanum = true ∨ c = '_' := by
  simpa [isVariablePart] using h

theorem lt_of_isVariablePart {c : Char} (h : isVariablePart c = true) : c.toNat < 0x80 := by
  rcases isAlphanum_of_isVariablePart h with h | rfl
  · exact lt_of_isAlphanum h
  · decide

theorem isVariablePart_of_isVariableStart {c : Char} (h : isVariableStart c = true) : isVariablePart c = true := by
  simp only [isVariableStart, isVariablePart, Char.isAlphanum, Bool.or_eq_true] at h ⊢
  rcases h with h | h
  · exact Or.inl (Or.inl h)
  · exact Or.inr h

theorem isVariablePart_of_isVariableName {cs : List Char} (h : isVariableName cs = true) :
    ∀ c ∈ cs, isVariablePart c = true := by
  cases cs with
  | nil => cases h
  | cons c cs =>
    simp only [isVariableName, Bool.and_eq_true, List.all_eq_true] at h
    exact List.forall_mem_cons.2 ⟨isVariablePart_of_isVariableStart h.1, h.2⟩

theorem isWord_of_isVariablePart {c : Char} (h : isVariablePart c = true) : isWord c = true := by
  rw [isWord, if_pos (lt_of_isVariablePart h)]
  exact h

theorem isNamePart_of_isVariablePart {c : Char} (h : isVariablePart c = true) : isNamePart c = true := by
  have hlt := lt_of_isVariablePart h
  simp only [isNamePart, isLetter, isNumeral, if_pos hlt]
  simp only [isVariablePart, Char.isAlphanum, Bool.or_eq_true] at h ⊢
  rcases h with (h | h) | h
  · exact Or.inl (Or.inl (Or.inl h))
  · exact Or.inl (Or.inl (Or.inr h))
  · exact Or.inl (Or.inr h)

theorem isNameStart_of_isVariableStart {c : Char} (h : isVariableStart c = true) : isNameStart c = true := by
  have hlt := lt_of_isVariablePart (isVariablePart_of_isVariableStart h)
  simp only [isNameStart, isLetter, if_pos hlt]
  simp only [isVariableStart, Bool.or_eq_true] at h ⊢
  exact Or.inl h

theorem isNamePart_of_isNameStart {c : Char} (h : isNameStart c = true) : isNamePart c = true := by
  simp only [isNameStart, isNamePart, Bool.or_eq_true] at h ⊢
  rcases h with (h | h) | h
  · exact Or.inl (Or.inl (Or.inl h))
  · exact Or.inl (Or.inr h)
  · exact Or.inr h

theorem isNamePart_of_isDigit {c : Char} (h : c.isDigit = true) : isNamePart c = true := by
  refine isNamePart_of_isVariablePart ?_
  simp [isVariablePart, Char.isAlphanum, h]

theorem isWord_of_isDigit {c : Char} (h : c.isDigit = true) : isWord c = true := by
  refine isWord_of_isVariablePart ?_
  simp [isVariablePart, Char.isAlphanum, h]

theorem mem_of_isBlank {c : Char} (h : isBlank c = true) (hlt : c.toNat < 0x80) :
    c ∈ [' ', '\t', '\n', '\x0b', '\x0c', '\x0d'] := by
  rw [isBlank, if_pos hlt] at h
  simp only [Bool.or_eq_true, Bool.and_eq_true, decide_eq_true_eq, beq_iff_eq, Char.le_def, UInt32.le_iff_toNat_le] at h
  rcases h with rfl | ⟨hlow, hhigh⟩
  · simp
  · simp at hlow hhigh
    have hcases : c.toNat = 9 ∨ c.toNat = 10 ∨ c.toNat = 11 ∨ c.toNat = 12 ∨ c.toNat = 13 := by
      omega
    have heq : ∀ d : Char, c.toNat = d.toNat → c = d := fun d hd => Char.ext (UInt32.toNat_inj.1 hd)
    rcases hcases with h | h | h | h | h
    · rw [heq '\t' h]; simp
    · rw [heq '\n' h]; simp
    · rw [heq '\x0b' h]; simp
    · rw [heq '\x0c' h]; simp
    · rw [heq '\x0d' h]; simp

theorem not_isNamePart_of_isBlank {c : Char} (h : isBlank c = true) : isNamePart c = false := by
  by_cases hlt : c.toNat < 0x80
  · have hmem := mem_of_isBlank h hlt
    revert hmem
    simp only [List.mem_cons, List.not_mem_nil, or_false]
    rintro (rfl | rfl | rfl | rfl | rfl | rfl) <;> decide
  · rw [isBlank, if_neg hlt] at h
    have hunder : c ≠ '_' := fun heq => hlt (heq ▸ by decide)
    have hdollar : c ≠ '$' := fun heq => hlt (heq ▸ by decide)
    simp [isNamePart, isLetter, isNumeral, if_neg hlt, not_inRanges_of_apart apart_blanks_letters h,
      not_inRanges_of_apart apart_blanks_numerals h, hunder, hdollar]

theorem not_isWord_of_isBlank {c : Char} (h : isBlank c = true) : isWord c = false := by
  by_cases hlt : c.toNat < 0x80
  · have hmem := mem_of_isBlank h hlt
    revert hmem
    simp only [List.mem_cons, List.not_mem_nil, or_false]
    rintro (rfl | rfl | rfl | rfl | rfl | rfl) <;> decide
  · rw [isBlank, if_neg hlt] at h
    simp [isWord, if_neg hlt, not_inRanges_of_apart apart_blanks_letters h,
      not_inRanges_of_apart apart_blanks_wordMarks h]

theorem not_isVariablePart_of_isBlank {c : Char} (h : isBlank c = true) : isVariablePart c = false := by
  refine Bool.eq_false_iff.2 fun hpart => ?_
  have hname := isNamePart_of_isVariablePart hpart
  rw [not_isNamePart_of_isBlank h] at hname
  exact Bool.false_ne_true hname

end LiveSheet.Text
