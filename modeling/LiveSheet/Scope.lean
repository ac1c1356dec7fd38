import Std.Data.ExtTreeMap

/-!
Scopes: one for the whole sheet, and one for each page.
-/

namespace LiveSheet

inductive ScopeId where
  | global
  | page (name : String)
  deriving DecidableEq, Repr

namespace ScopeId

def page? : ScopeId → Option String
  | global => none
  | page name => some name

/-- The global scope comes first, then the pages in the order of their names. -/
instance : Ord ScopeId := ⟨compareOn page?⟩

instance : Std.TransOrd ScopeId := inferInstanceAs (Std.TransCmp (compareOn page?))

instance : Std.LawfulEqOrd ScopeId where
  eq_of_compare {id id'} h := by
    have heq : id.page? = id'.page? := Std.compare_eq_iff_eq.1 h
    cases id <;> cases id' <;> simp_all [page?]

def key : ScopeId → String
  | global => "global"
  | page name => "page:" ++ name

theorem key_injective {id id' : ScopeId} (h : id.key = id'.key) : id = id' := by
  have hfirst : ∀ name, (global).key ≠ (page name).key := by
    intro name h
    have := congrArg (fun s : String => s.toList.head?) h
    simp [key] at this
  cases id with
  | global =>
    cases id' with
    | global => rfl
    | page name => exact absurd h (hfirst name)
  | page name =>
    cases id' with
    | global => exact absurd h.symm (hfirst name)
    | page name' =>
      have := congrArg String.toList h
      simp only [key, String.toList_append, List.append_cancel_left_eq] at this
      exact congrArg page (String.toList_inj.1 this)

def text : ScopeId → String
  | global => "global"
  | page name => "page '" ++ name ++ "'"

end ScopeId

end LiveSheet
