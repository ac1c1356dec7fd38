import LiveSheet.Token.Lexer

/-! Places in a text. A place can be read off the characters before it, and moves over further characters one by
one. -/

namespace LiveSheet.Position

/-- The place behind the characters of a text up to it: one line more than they have line ends, and one column more
than there are characters since the last of these. -/
def behind (before : List Char) : Position :=
  ⟨1 + before.count '\n', 1 + (before.reverse.takeWhile (· ≠ '\n')).length⟩

def past (p : Position) (c : Char) : Position := if c = '\n' then p.nextLine else p.right 1

def through (p : Position) (cs : List Char) : Position := cs.foldl past p

@[simp] theorem right_zero (p : Position) : p.right 0 = p := rfl

@[simp] theorem right_right (p : Position) (m n : Nat) : (p.right m).right n = p.right (m + n) := by
  simp [right, Nat.add_assoc]

theorem past_of_ne {c : Char} (hc : c ≠ '\n') (p : Position) : p.past c = p.right 1 := if_neg hc

@[simp] theorem through_nil (p : Position) : p.through [] = p := rfl

@[simp] theorem through_cons (p : Position) (c : Char) (cs : List Char) :
    p.through (c :: cs) = (p.past c).through cs := rfl

@[simp] theorem through_append (p : Position) (cs ds : List Char) :
    p.through (cs ++ ds) = (p.through cs).through ds := List.foldl_append

theorem through_of_not_mem {cs : List Char} (h : '\n' ∉ cs) (p : Position) : p.through cs = p.right cs.length := by
  induction cs generalizing p with
  | nil => rfl
  | cons c cs ih =>
    obtain ⟨hc, hcs⟩ := List.ne_and_not_mem_of_not_mem_cons h
    rw [through_cons, past_of_ne (Ne.symm hc), ih hcs, right_right, List.length_cons, Nat.add_comm]

theorem past_behind (before : List Char) (c : Char) : (behind before).past c = behind (before ++ [c]) := by
  by_cases hc : c = '\n'
  · subst hc
    simp [past, behind, nextLine, Nat.add_assoc]
  · simp [past, behind, right, hc, List.count_append, Nat.add_comm]

theorem through_behind (before cs : List Char) : (behind before).through cs = behind (before ++ cs) := by
  induction cs generalizing before with
  | nil => simp
  | cons c cs ih => rw [through_cons, past_behind, ih, List.append_assoc, List.singleton_append]

/-! ## Line ends left out -/

/-- The characters counted are those of the text without some of its line ends. -/
structure Trims (counted text : List Char) : Prop where
  sub : counted.Sublist text
  length : text.length + counted.count '\n' = counted.length + text.count '\n'

namespace Trims

theorem refl (text : List Char) : Trims text text := ⟨.refl text, rfl⟩

theorem append {cs ds text text' : List Char} (h : Trims cs text) (h' : Trims ds text') : Trims (cs ++ ds) (text ++ text') := by
  refine ⟨h.sub.append h'.sub, ?_⟩
  have hlength := h.length
  have hlength' := h'.length
  simp only [List.length_append, List.count_append]
  omega

theorem flatMap {α : Type} {f g : α → List Char} {xs : List α} (h : ∀ x ∈ xs, Trims (f x) (g x)) :
    Trims (xs.flatMap f) (xs.flatMap g) := by
  induction xs with
  | nil => exact refl []
  | cons x xs ih =>
    obtain ⟨hx, hxs⟩ := List.forall_mem_cons.1 h
    simpa using hx.append (ih hxs)

theorem flatMap_eq_iff {α : Type} {f g : α → List Char} {xs : List α} (h : ∀ x ∈ xs, Trims (f x) (g x)) :
    xs.flatMap f = xs.flatMap g ↔ ∀ x ∈ xs, f x = g x := by
  refine ⟨fun heq => ?_, fun h => congrArg List.flatten (List.map_congr_left h)⟩
  induction xs with
  | nil => exact List.forall_mem_nil _
  | cons x xs ih =>
    obtain ⟨hx, hxs⟩ := List.forall_mem_cons.1 h
    rw [List.flatMap_cons, List.flatMap_cons] at heq
    have hlength := congrArg List.length heq
    rw [List.length_append, List.length_append] at hlength
    have hle := hx.sub.length_le
    have hle' := (flatMap hxs).sub.length_le
    have heqx : f x = g x := hx.sub.eq_of_length (by omega)
    rw [heqx] at heq
    exact List.forall_mem_cons.2 ⟨heqx, ih hxs (List.append_cancel_left heq)⟩

theorem behind_eq_iff {counted text : List Char} (h : Trims counted text) :
    behind counted = behind text ↔ counted = text := by
  refine ⟨fun heq => ?_, congrArg behind⟩
  have hline : 1 + counted.count '\n' = 1 + text.count '\n' := congrArg Position.line heq
  have hlength := h.length
  exact h.sub.eq_of_length (by omega)

end Trims

end LiveSheet.Position
