import LiveSheet.Proofs.Json.Reading
import LiveSheet.Store.State

/-! How deep the brackets of data nest that is read. -/

namespace LiveSheet

/-- The brackets of data fit within a limit. -/
inductive Datum.Within : Nat → Datum → Prop where
  | invalid (depth : Nat) : Within depth .invalid
  | null (depth : Nat) : Within depth .null
  | bool (depth : Nat) (b : Bool) : Within depth (.bool b)
  | number (depth : Nat) (n : Float) : Within depth (.number n)
  | string (depth : Nat) (s : String) : Within depth (.string s)
  | array (depth : Nat) (items : List Datum) : (∀ item ∈ items, Within depth item) → Within (depth + 1) (.array items)
  | table (depth : Nat) (entries : List (String × Datum)) :
      (∀ e ∈ entries, Within depth e.2) → Within (depth + 1) (.table entries)

theorem exists_mem_of_mapM_eq_some {α β : Type} {f : α → Option β} {l : List α} {l' : List β}
    (h : l.mapM f = some l') : ∀ b ∈ l', ∃ a ∈ l, f a = some b := by
  induction l generalizing l' with
  | nil =>
    cases h
    simp
  | cons a l ih =>
    rw [List.mapM_cons] at h
    obtain ⟨b, hb, h⟩ := Option.bind_eq_some_iff.1 h
    obtain ⟨bs, hbs, heq⟩ := Option.bind_eq_some_iff.1 h
    cases heq
    refine List.forall_mem_cons.2 ⟨⟨a, List.mem_cons_self, hb⟩, fun b' hb' => ?_⟩
    obtain ⟨a', ha', hb'⟩ := ih hbs b' hb'
    exact ⟨a', List.mem_cons_of_mem _ ha', hb'⟩

namespace Json

variable {n depth : Nat} {cs left : List Char} {d : Datum}

theorem within_array {items : List Datum} (h : ∀ d ∈ items, Datum.Within (depth - 1) d) :
    Datum.Within depth (if depth = 0 then .invalid else .array items) := by
  cases depth with
  | zero => exact .invalid _
  | succ depth => exact .array _ _ h

theorem within_object {members : List (Option String × Datum)} (h : ∀ m ∈ members, Datum.Within (depth - 1) m.2) :
    Datum.Within depth (if depth = 0 then .invalid else ofMembers members) := by
  cases depth with
  | zero => exact .invalid _
  | succ depth =>
    rw [if_neg (Nat.succ_ne_zero depth), ofMembers]
    cases hkeys : members.mapM fun m : Option String × Datum => m.1.map (·, m.2) with
    | none => exact .invalid _
    | some entries =>
      refine .table _ _ fun e he => ?_
      obtain ⟨m, hm, heq⟩ := exists_mem_of_mapM_eq_some hkeys e he
      obtain ⟨_, _, rfl⟩ := Option.map_eq_some_iff.1 heq
      exact h m hm

/-- With a number of nested calls, whatever is read nests within the limit. -/
structure Shallow (n : Nat) : Prop where
  value : ∀ depth cs d left, value? n depth cs = some (d, left) → Datum.Within depth d
  items : ∀ depth cs items left, items? n depth cs = some (items, left) → ∀ d ∈ items, Datum.Within depth d
  members : ∀ depth cs members left, members? n depth cs = some (members, left) → ∀ m ∈ members, Datum.Within depth m.2

variable (ih : Shallow n)
include ih

theorem within_value? (h : value? (n + 1) depth cs = some (d, left)) : Datum.Within depth d := by
  rw [value?] at h
  split at h
  · cases h
  · obtain ⟨⟨text, _⟩, _, heq⟩ := Option.map_eq_some_iff.1 h
    cases heq
    cases text with
    | none => exact .invalid _
    | some text => exact .string _ _
  · obtain ⟨_, _, heq⟩ := Option.map_eq_some_iff.1 h
    cases heq
    exact .null _
  · obtain ⟨_, _, heq⟩ := Option.map_eq_some_iff.1 h
    cases heq
    exact .bool _ _
  · obtain ⟨_, _, heq⟩ := Option.map_eq_some_iff.1 h
    cases heq
    exact .bool _ _
  · simp only at h
    split at h
    · cases h
      exact within_array fun _ h => absurd h List.not_mem_nil
    · obtain ⟨⟨items, _⟩, hitems, heq⟩ := Option.bind_eq_some_iff.1 h
      cases heq
      exact within_array (ih.items _ _ _ _ hitems)
  · simp only at h
    split at h
    · cases h
      exact within_object fun _ h => absurd h List.not_mem_nil
    · obtain ⟨⟨members, _⟩, hmembers, heq⟩ := Option.bind_eq_some_iff.1 h
      cases heq
      exact within_object (ih.members _ _ _ _ hmembers)
  · obtain ⟨⟨literal, _⟩, _, heq⟩ := Option.map_eq_some_iff.1 h
    cases heq
    cases float? literal with
    | none => exact .invalid _
    | some x => exact .number _ _

theorem within_items? {items : List Datum} (h : items? (n + 1) depth cs = some (items, left)) :
    ∀ d ∈ items, Datum.Within depth d := by
  rw [items?] at h
  obtain ⟨⟨item, rest⟩, hitem, h⟩ := Option.bind_eq_some_iff.1 h
  have hfirst := ih.value depth cs item rest hitem
  simp only at h
  split at h
  · obtain ⟨⟨items, _⟩, hitems, heq⟩ := Option.bind_eq_some_iff.1 h
    cases heq
    exact List.forall_mem_cons.2 ⟨hfirst, ih.items _ _ _ _ hitems⟩
  · cases h
    exact List.forall_mem_singleton.2 hfirst
  · cases h

theorem within_members? {members : List (Option String × Datum)} (h : members? (n + 1) depth cs = some (members, left)) :
    ∀ m ∈ members, Datum.Within depth m.2 := by
  rw [members?] at h
  split at h
  · obtain ⟨⟨key, rest⟩, _, h⟩ := Option.bind_eq_some_iff.1 h
    simp only at h
    split at h
    · obtain ⟨⟨value, rest⟩, hvalue, h⟩ := Option.bind_eq_some_iff.1 h
      have hfirst := ih.value depth _ value rest hvalue
      simp only at h
      split at h
      · obtain ⟨⟨members, _⟩, hmembers, heq⟩ := Option.bind_eq_some_iff.1 h
        cases heq
        exact List.forall_mem_cons.2 ⟨hfirst, ih.members _ _ _ _ hmembers⟩
      · cases h
        exact List.forall_mem_singleton.2 hfirst
      · cases h
    · cases h
  · cases h

omit ih

theorem shallow (n : Nat) : Shallow n := by
  induction n with
  | zero => exact ⟨nofun, nofun, nofun⟩
  | succ n ih => exact ⟨fun _ _ _ _ => within_value? ih, fun _ _ _ _ => within_items? ih, fun _ _ _ _ => within_members? ih⟩

theorem within_of_parse? {text : String} (h : parse? text = some d) : Datum.Within depthLimit d := by
  obtain ⟨left, hread, _⟩ := parse?_eq_some.1 h
  exact (shallow _).value _ _ _ _ hread

end Json

end LiveSheet
