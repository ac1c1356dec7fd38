import LiveSheet.Proofs.Eval.SourceText
import LiveSheet.Proofs.Expr.Exchange

/-! Expressions that hold values and do nothing: literals, lists of them, minus signs, and the names that numbers beyond
the literals are written with. -/

namespace LiveSheet

/-- There is nothing in it to call, and no name but those of two constants. -/
inductive Expr.Inert : Expr → Prop
  | number (n : Float) : Inert (.number n)
  | string (s : String) : Inert (.string s)
  | boolean (b : Bool) : Inert (.boolean b)
  | null : Inert .null
  | infinity : Inert (.identifier "Infinity")
  | nan : Inert (.identifier "NaN")
  | negate {e : Expr} : Inert e → Inert (.unary .negate e)
  | array {items : List Expr} : (∀ e ∈ items, Inert e) → Inert (.array items)

namespace Eval

variable {σ : Type}

theorem exec_evalAll {items : List Expr} (env : Setting σ) (m : Machine σ)
    (h : ∀ e ∈ items, ∃ w, exec (eval env false e) m = (.ok w, m)) :
    ∃ ws, exec (evalAll env items) m = (.ok ws, m) := by
  induction items with
  | nil => exact ⟨[], rfl⟩
  | cons e items ih =>
    obtain ⟨⟨w, hw⟩, hitems⟩ := List.forall_mem_cons.1 h
    obtain ⟨ws, hws⟩ := ih hitems
    refine ⟨w :: ws, ?_⟩
    rw [evalAll, exec_bind, hw]
    simp only [exec_bind, hws]
    rfl

theorem exec_inert {e : Expr} (h : e.Inert) (env : Setting σ) (awaited : Bool) (m : Machine σ) :
    ∃ w, exec (eval env awaited e) m = (.ok w, m) := by
  induction h generalizing awaited with
  | number | string | boolean | null => exact ⟨_, rfl⟩
  | infinity | nan => exact ⟨_, exec_nameValue rfl env m⟩
  | @negate e _ ih =>
    obtain ⟨w, hw⟩ := ih false
    refine ⟨w.unary .negate, ?_⟩
    rw [eval, exec_bind, hw]
    rfl
  | array _ ih =>
    obtain ⟨ws, hws⟩ := exec_evalAll env m fun e he => ih e he false
    refine ⟨.array ws, ?_⟩
    rw [eval, exec_bind, hws]
    rfl

end Eval

namespace Parser

variable {us : List Token} {e : Expr}

/-- The tokens are an operand that holds values, maybe with signs in front. -/
inductive Depicts : List Token → Expr → Prop
  | bare {us : List Token} {e : Expr} : (∀ template, Derives template .primary us e) → e.Inert → Depicts us e
  | negated {us : List Token} {e : Expr} : Depicts us e → Depicts (.minus :: us) (.unary .negate e)

theorem Depicts.inert (h : Depicts us e) : e.Inert := by
  induction h with
  | bare _ h => exact h
  | negated _ ih => exact ih.negate

theorem Depicts.signed (h : Depicts us e) : Signed us := by
  induction h with
  | bare h _ => exact .bare fun template => ⟨_, h template⟩
  | negated _ ih => exact ih.negated

theorem Depicts.derives (h : Depicts us e) (template : String → Except SheetError (List (Part Expr))) :
    Derives template .ternary us e := by
  have hprefixed : Derives template .prefixed us e := by
    induction h with
    | bare h _ => exact .bare (.operandOnly (h template))
    | negated _ ih => exact ih.negate
  exact Printing.derives_phrase hprefixed

theorem depicts_atom {t : Token} (h : atom? t = some e) (he : e.Inert) : Depicts [t] e :=
  .bare (fun _ => derives_atom h) he

theorem depicts_array {items : List (List Token × Expr)} (h : ∀ item ∈ items, Depicts item.1 item.2) :
    Depicts (.leftBracket :: ([Token.comma].intercalate (items.map Prod.fst) ++ [.rightBracket]))
      (.array (items.map Prod.snd)) :=
  .bare (fun template => .array (fun item hitem => (h item hitem).derives template) (.inl rfl))
    (.array (List.forall_mem_map.2 fun item hitem => (h item hitem).inert))

end Parser

end LiveSheet
