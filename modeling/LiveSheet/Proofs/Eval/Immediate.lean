import Mathlib
import LiveSheet.Proofs.Eval.Exec
import LiveSheet.Proofs.Expr.Erased

/-! Deferred and immediate operations do the same once they are awaited. A program with its deferred calls
awaited runs as the program without any `await` does where every operation is immediate. -/

namespace LiveSheet

variable {σ α β : Type}

def Operation.immediate (op : Operation σ) : Operation σ := { op with deferred := false }

def Integration.immediate (i : Integration σ) : Integration σ :=
  { i with operations := i.operations.map fun _ op => op.immediate }

namespace IntegrationSet

variable (set : IntegrationSet σ)

/-- The set with every operation immediate. -/
def immediate : IntegrationSet σ := { set with byName := set.byName.map fun _ i => i.immediate }

/-- Integrations stand under their own names, as they do from when they are registered. -/
def Keyed : Prop := ∀ owner i, set.get? owner = some i → i.name = owner

theorem get?_immediate (name : String) : set.immediate.get? name = (set.get? name).map Integration.immediate :=
  Std.ExtTreeMap.getElem?_map

theorem contains_immediate (name : String) : set.immediate.contains name = set.contains name :=
  Std.ExtTreeMap.contains_map

theorem keyed_empty : Keyed (.empty : IntegrationSet σ) := by
  intro owner i h
  simp [get?, empty] at h

variable {set}

theorem Keyed.register (h : set.Keyed) (integration : Integration σ) : (set.register integration).Keyed := by
  intro owner i hi
  rw [get?, IntegrationSet.register, NameMap.get?_insert] at hi
  split at hi
  · next hname => exact Option.some.inj hi ▸ hname
  · exact h owner i hi

theorem Keyed.mem_deferredCalls (h : set.Keyed) {owner name : String} {i : Integration σ} {op : Operation σ}
    (hi : set.get? owner = some i) (hop : i.operations[name]? = some op) (hdeferred : op.deferred = true) :
    owner ++ "." ++ name ∈ set.deferredCalls := by
  refine List.mem_flatMap.2 ⟨(owner, i), Std.ExtTreeMap.mem_toList_iff_getElem?_eq_some.2 hi, ?_⟩
  refine List.mem_map.2 ⟨(name, op), List.mem_filter.2 ⟨?_, hdeferred⟩, ?_⟩
  · exact Std.ExtTreeMap.mem_toList_iff_getElem?_eq_some.2 hop
  · rw [h owner i hi]

end IntegrationSet

namespace Eval

/-- Two evaluations do the same on machines with a property, and the property is kept. -/
def Agree (I : Machine σ → Prop) (x y : Eval σ α) : Prop := ∀ m, I m → exec x m = exec y m ∧ I (exec x m).2

namespace Agree

variable {I : Machine σ → Prop} {x y : Eval σ α}

theorem refl (h : Preserves I x) : Agree I x x := fun m hm => ⟨rfl, h m hm⟩

theorem pure (a : α) : Agree I (Pure.pure a : Eval σ α) (Pure.pure a) := refl (.pure a)

theorem fail (fault : EvalFault) : Agree I (fail fault : Eval σ α) (Eval.fail fault) := refl (.fail fault)

theorem bind {f g : α → Eval σ β} (h : Agree I x y) (hf : ∀ a, Agree I (f a) (g a)) :
    Agree I (x >>= f) (y >>= g) := by
  intro m hm
  obtain ⟨heq, hm'⟩ := h m hm
  rw [exec_bind, exec_bind, ← heq]
  generalize exec x m = answer at hm'
  obtain ⟨_ | a, m'⟩ := answer
  · exact ⟨rfl, hm'⟩
  · exact hf a m' hm'

theorem map (f : α → β) (h : Agree I x y) :
    Agree I (x >>= fun a => Pure.pure (f a)) (y >>= fun a => Pure.pure (f a)) := h.bind fun a => pure (f a)

theorem get_bind {f g : Machine σ → Eval σ α} (h : ∀ m, I m → Agree I (f m) (g m)) :
    Agree I (get >>= f) (get >>= g) := fun m hm => h m hm m hm

end Agree

theorem call_other (env : Setting σ) (awaited : Bool) {callee : Expr} (h : callee.isPath = false)
    (args : Eval σ (List Value)) : call env awaited callee args = fail .notCallable := by
  cases callee with
  | identifier name => cases h
  | member object name => cases h
  | _ => rfl

section

variable (declared : NameSet) (m : Machine σ) (names : List String)

theorem owner?_awaitCalls (env : Setting σ) (object : Expr) :
    owner? env m (object.awaitCalls names false) = owner? env m object := by
  cases object with
  | call callee args =>
    rw [Expr.awaitCalls]
    split <;> rfl
  | _ => simp only [Expr.awaitCalls, owner?]

theorem awaitCalls_ne_self {object : Expr} (h : object ≠ .self) : object.awaitCalls names false ≠ .self := by
  cases object with
  | self => exact absurd rfl h
  | call callee args =>
    rw [Expr.awaitCalls]
    split <;> simp
  | _ => simp [Expr.awaitCalls]

theorem eraseAwaits_ne_self {object : Expr} (h : object ≠ .self) (hcore : object.awaitedCore? ≠ some .self) :
    object.eraseAwaits ≠ .self := by
  cases hc : object.awaitedCore? with
  | none =>
    cases object with
    | self => exact absurd rfl h
    | await e => cases hc
    | _ => simp [Expr.eraseAwaits]
  | some core =>
    obtain ⟨hnone, herase⟩ := Expr.awaitedCore?_of_some hc
    rw [← herase]
    cases core with
    | self => exact absurd hc hcore
    | await e => cases hnone
    | _ => simp [Expr.eraseAwaits]

theorem eq_identifier_of_owner? {env : Setting σ} {m : Machine σ} {object : Expr} {owner : String}
    (h : owner? env m object = some owner) : object = .identifier owner := by
  cases object with
  | identifier name =>
    rw [owner?] at h
    split at h
    · cases h
    · rw [Option.some.inj h]
  | _ => cases h

theorem isShadowed_congr (set set' : IntegrationSet σ) (name : String) :
    isShadowed ⟨set', declared⟩ m name = isShadowed ⟨set, declared⟩ m name := rfl

/-- An expression that names no owner names none without its `await`s, or it hides one. -/
theorem owner?_eraseAwaits (set set' : IntegrationSet σ) (object : Expr) :
    owner? ⟨set', declared⟩ m object.eraseAwaits = owner? ⟨set, declared⟩ m object ∨
      owner? ⟨set, declared⟩ m object = none ∧ ∃ name, object.awaitedCore? = some (.identifier name) ∧
        owner? ⟨set', declared⟩ m object.eraseAwaits = some name := by
  have hsame : ∀ e : Expr, e.awaitedCore? = none →
      owner? ⟨set', declared⟩ m e.eraseAwaits = owner? ⟨set, declared⟩ m e := by
    intro e he
    cases e with
    | await e => cases he
    | identifier name => rfl
    | _ => simp only [Expr.eraseAwaits, owner?]
  cases hc : object.awaitedCore? with
  | none => exact .inl (hsame object hc)
  | some core =>
    obtain ⟨hnone, herase⟩ := Expr.awaitedCore?_of_some hc
    have howner : owner? ⟨set, declared⟩ m object = none := by
      cases object with
      | await e => rfl
      | _ => cases hc
    rw [← herase, hsame core hnone, howner]
    cases core with
    | identifier name =>
      simp only [owner?]
      split
      · exact .inl rfl
      · exact .inr ⟨trivial, name, rfl, rfl⟩
    | _ => exact .inl rfl

end

section

variable {set : IntegrationSet σ} {declared : NameSet} {quiet : Prop}

/-- Nothing can be written to, or nothing is. -/
abbrev Unwritten (quiet : Prop) (m : Machine σ) : Prop := m.session = none ∨ quiet

theorem stable_unwritten (quiet : Prop) : Stable (Unwritten (σ := σ) quiet) where
  written m s _ _ _ _ h hs _ := .inr (h.resolve_left fun hnone => by rw [hnone] at hs; cases hs)
  performed _ _ _ _ _ h := h
  bound _ _ _ h := h
  sequenced _ _ _ h := h

theorem nameValue_immediate (name : String) :
    nameValue (⟨set, declared⟩ : Setting σ) name = nameValue ⟨set.immediate, declared⟩ name := by
  simp only [nameValue, declared?, set.contains_immediate]

theorem memberOf_agree {owner owner' : Option String} {name : String} {value value' : Eval σ Value}
    (howner : owner' = owner ∨ owner = none ∧ ∃ hidden, owner' = some hidden ∧ hidden ≠ MathLibrary.owner ∧
      set.contains hidden = false) (hvalue : Agree (Unwritten quiet) value value') :
    Agree (Unwritten quiet) (memberOf ⟨set, declared⟩ owner name value)
      (memberOf ⟨set.immediate, declared⟩ owner' name value') := by
  have hproperty : Agree (Unwritten quiet) (value >>= fun v => property v name)
      (value' >>= fun v => property v name) := hvalue.bind fun v => .refl (property_preserves v name)
  obtain rfl | ⟨rfl, hidden, rfl, hmath, hset⟩ := howner
  · cases owner' with
    | none => exact hproperty
    | some owner =>
      simp only [memberOf, set.contains_immediate]
      split
      · split
        · exact .pure _
        · exact .fail _
      · split
        · exact .fail _
        · exact hproperty
  · simp only [memberOf, set.contains_immediate, if_neg hmath, hset, Bool.false_eq_true, if_false]
    exact hproperty

theorem member_agree {object : Expr} {name : String} {value value' : Eval σ Value} (names : List String)
    (hshows : object.ShowsOwner set) (hvalue : Agree (Unwritten quiet) value value') :
    Agree (Unwritten quiet) (member ⟨set, declared⟩ (object.awaitCalls names false) name value)
      (member ⟨set.immediate, declared⟩ object.eraseAwaits name value') := by
  by_cases hself : object = .self
  · subst hself
    rw [Expr.awaitCalls, Expr.eraseAwaits]
    exact .refl (variableValue_preserves _ name)
  · rw [member_eq _ (awaitCalls_ne_self names hself), member_eq _ (eraseAwaits_ne_self hself hshows.1)]
    refine .get_bind fun m _ => memberOf_agree ?_ hvalue
    rw [owner?_awaitCalls]
    refine (owner?_eraseAwaits declared m set set.immediate object).imp_right ?_
    rintro ⟨hnone, hidden, hcore, hhidden⟩
    exact ⟨hnone, hidden, hhidden, hshows.2 hidden hcore⟩

theorem item_agree {object : Expr} {value value' index index' : Eval σ Value} (names : List String)
    (hshows : object.awaitedCore? ≠ some .self) (hvalue : Agree (Unwritten quiet) value value')
    (hindex : Agree (Unwritten quiet) index index') :
    Agree (Unwritten quiet) (item ⟨set, declared⟩ (object.awaitCalls names false) value index)
      (item ⟨set.immediate, declared⟩ object.eraseAwaits value' index') := by
  by_cases hself : object = .self
  · subst hself
    rw [Expr.awaitCalls, Expr.eraseAwaits]
    exact hindex.bind fun key => .refl (variableValue_preserves _ key.display)
  · rw [item_eq _ (awaitCalls_ne_self names hself), item_eq _ (eraseAwaits_ne_self hself hshows)]
    refine hvalue.bind fun v => hindex.bind fun key => ?_
    split
    · exact .pure _
    · split
      · exact .pure _
      · exact .fail _

theorem callFunction_agree {awaited awaited' : Bool} {name : String} {args args' : Eval σ (List Value)}
    (hwrites : quiet → name ∉ Await.writers) (hargs : Agree (Unwritten quiet) args args') :
    Agree (Unwritten quiet) (callFunction ⟨set, declared⟩ awaited name args)
      (callFunction ⟨set.immediate, declared⟩ awaited' name args') := by
  refine .get_bind fun m hm => ?_
  have hsilent : (m.session.isSome && Await.writers.contains name) = false := by
    rcases hm with hnone | hquiet
    · rw [hnone, Option.isSome_none, Bool.false_and]
    · rw [Bool.and_eq_false_iff]
      exact .inr (by simpa using hwrites hquiet)
  simp only [hsilent, Bool.false_eq_true, if_false, isShadowed_congr declared m set set.immediate]
  by_cases hshadowed : isShadowed ⟨set, declared⟩ m name = true
  · simp only [hshadowed, if_true]
    exact .fail _
  · simp only [hshadowed, Bool.false_eq_true, if_false]
    split
    · exact hargs.bind fun values => .refl (.mk_pure _)
    · exact .fail _

theorem callOperation_agree {awaited awaited' : Bool} {owner name : String} {args args' : Eval σ (List Value)}
    (hawaited : ∀ i op, set.get? owner = some i → i.operations[name]? = some op → op.deferred = true →
      awaited = true) (hargs : Agree (Unwritten quiet) args args') :
    Agree (Unwritten quiet) (callOperation ⟨set, declared⟩ awaited owner name args)
      (callOperation ⟨set.immediate, declared⟩ awaited' owner name args') := by
  unfold callOperation
  simp only [set.get?_immediate]
  cases hi : set.get? owner with
  | none =>
    simp only [Option.map_none]
    split
    · exact hargs.bind fun values => .refl (.mk_pure _)
    · exact .fail _
  | some i =>
    have hop : i.immediate.operations[name]? = i.operations[name]?.map Operation.immediate :=
      Std.ExtTreeMap.getElem?_map
    simp only [Option.map_some, hop]
    cases ho : i.operations[name]? with
    | none => exact .fail _
    | some op =>
      have hpasses : (op.deferred && !awaited) = false := by
        cases hd : op.deferred with
        | false => rfl
        | true => rw [hawaited i op hi ho hd]; rfl
      simp only [Option.map_some, hpasses, Operation.immediate, Bool.false_and, Bool.false_eq_true, if_false]
      exact hargs.bind fun values => .refl fun m hm => (stable_unwritten quiet).performed m _ _ _ _ hm

theorem call_agree (hset : set.Keyed) {awaited awaited' : Bool} {callee : Expr} {args args' : Eval σ (List Value)}
    (hshows : callee.ShowsCallee) (hwrites : quiet → ∀ name ∈ Await.writers, callee ≠ .identifier name)
    (hawaited : awaited = true ∨ callee.isNamed set.deferredCalls = false)
    (hargs : Agree (Unwritten quiet) args args') :
    Agree (Unwritten quiet) (call ⟨set, declared⟩ awaited (callee.awaitCalls set.deferredCalls false) args)
      (call ⟨set.immediate, declared⟩ awaited' callee.eraseAwaits args') := by
  obtain ⟨hcore, howner⟩ := hshows
  by_cases hpath : callee.isPath = true
  · cases callee with
    | identifier name =>
      rw [Expr.awaitCalls, Expr.eraseAwaits]
      exact callFunction_agree (fun hquiet hmem => hwrites hquiet name hmem rfl) hargs
    | member object name =>
      rw [Expr.awaitCalls, Expr.eraseAwaits]
      refine .get_bind fun m _ => ?_
      rw [owner?_awaitCalls]
      rcases owner?_eraseAwaits declared m set set.immediate object with hsame | ⟨_, owner, hhidden, _⟩
      · rw [hsame]
        cases ho : owner? ⟨set, declared⟩ m object with
        | none => exact .fail _
        | some owner =>
          refine callOperation_agree (fun i op hi hop hdeferred => hawaited.resolve_right ?_) hargs
          obtain rfl := eq_identifier_of_owner? ho
          simp [Expr.isNamed, Expr.calleePath?, hset.mem_deferredCalls hi hop hdeferred]
      · exact absurd hhidden (howner object name rfl owner)
    | _ => cases hpath
  · rw [Bool.not_eq_true] at hpath
    have herased : callee.eraseAwaits.isPath = false := by
      cases hc : callee.awaitedCore? with
      | none => rw [Expr.isPath_eraseAwaits hc, hpath]
      | some core =>
        obtain ⟨hnone, herase⟩ := Expr.awaitedCore?_of_some hc
        rw [← herase, Expr.isPath_eraseAwaits hnone, hcore core hc]
    rw [call_other _ _ (by rw [Expr.isPath_awaitCalls, hpath]), call_other _ _ herased]
    exact .fail _

mutual

/-- An expression with its deferred calls awaited does what the one without `await`s does where every
operation is immediate. -/
theorem eval_agree (hset : set.Keyed) (awaited awaited' : Bool) : ∀ e : Expr,
    e.Everywhere (Expr.AwaitsValue set) → (quiet → e.Everywhere Expr.WritesNothing) →
    Agree (Unwritten quiet) (eval ⟨set, declared⟩ awaited (e.awaitCalls set.deferredCalls awaited))
      (eval ⟨set.immediate, declared⟩ awaited' e.eraseAwaits)
  | .number n, _, _ => .pure _
  | .string s, _, _ => .pure _
  | .boolean b, _, _ => .pure _
  | .null, _, _ => .pure _
  | .array items, h, hw => by
    rw [Expr.awaitCalls, Expr.eraseAwaits, eval, eval]
    exact (evalAll_agree hset items h.2 fun hq => (hw hq).2).map _
  | .template parts, h, hw => by
    rw [Expr.awaitCalls, Expr.eraseAwaits, eval, eval]
    exact (evalParts_agree hset parts h.2 fun hq => (hw hq).2).map _
  | .identifier name, _, _ => by
    rw [Expr.awaitCalls, Expr.eraseAwaits, eval, eval, nameValue_immediate]
    exact .refl (nameValue_preserves _ name)
  | .self, _, _ => .fail _
  | .member object name, h, hw => by
    rw [Expr.awaitCalls, Expr.eraseAwaits, eval, eval]
    exact member_agree _ h.1 (eval_agree hset false false object h.2 fun hq => (hw hq).2)
  | .index object index, h, hw => by
    rw [Expr.awaitCalls, Expr.eraseAwaits, eval, eval]
    exact item_agree _ h.1 (eval_agree hset false false object h.2.1 fun hq => (hw hq).2.1)
      (eval_agree hset false false index h.2.2 fun hq => (hw hq).2.2)
  | .call callee args, h, hw => by
    have hargs : Agree (Unwritten quiet) (evalAll ⟨set, declared⟩ (Expr.awaitAll set.deferredCalls args))
        (evalAll ⟨set.immediate, declared⟩ (Expr.eraseAll args)) :=
      evalAll_agree hset args h.2 fun hq => (hw hq).2
    have hcall : ∀ behind : Bool, behind = true ∨ callee.isNamed set.deferredCalls = false →
        Agree (Unwritten quiet)
          (call ⟨set, declared⟩ behind (callee.awaitCalls set.deferredCalls false)
            (evalAll ⟨set, declared⟩ (Expr.awaitAll set.deferredCalls args)))
          (call ⟨set.immediate, declared⟩ awaited' callee.eraseAwaits
            (evalAll ⟨set.immediate, declared⟩ (Expr.eraseAll args))) :=
      fun behind hbehind => call_agree hset h.1
        (fun hq name hname heq => (hw hq).1 name hname args (by rw [heq])) hbehind hargs
    rw [Expr.awaitCalls, Expr.eraseAwaits, eval]
    cases hnamed : !awaited && callee.isNamed set.deferredCalls with
    | true =>
      simp only [if_true]
      rw [eval, eval]
      exact hcall true (.inl rfl)
    | false =>
      simp only [Bool.false_eq_true, if_false]
      rw [eval]
      cases awaited with
      | true => exact hcall true (.inl rfl)
      | false => exact hcall false (.inr hnamed)
  | .unary op operand, h, hw => by
    rw [Expr.awaitCalls, Expr.eraseAwaits, eval, eval]
    exact (eval_agree hset false false operand h.2 fun hq => (hw hq).2).map _
  | .binary op left right, h, hw => by
    rw [Expr.awaitCalls, Expr.eraseAwaits, eval, eval]
    refine (eval_agree hset false false left h.2.1 fun hq => (hw hq).2.1).bind fun a => ?_
    have hright : Agree (Unwritten quiet) (eval ⟨set, declared⟩ false (right.awaitCalls set.deferredCalls false))
        (eval ⟨set.immediate, declared⟩ false right.eraseAwaits) :=
      eval_agree hset false false right h.2.2 fun hq => (hw hq).2.2
    split
    · split
      · exact hright
      · exact .pure _
    · split
      · exact .pure _
      · exact hright
    · exact hright.map _
  | .ternary condition ifTrue ifFalse, h, hw => by
    rw [Expr.awaitCalls, Expr.eraseAwaits, eval, eval]
    refine (eval_agree hset false false condition h.2.1 fun hq => (hw hq).2.1).bind fun a => ?_
    split
    · exact eval_agree hset false false ifTrue h.2.2.1 fun hq => (hw hq).2.2.1
    · exact eval_agree hset false false ifFalse h.2.2.2 fun hq => (hw hq).2.2.2
  | .await operand, h, hw => by
    rw [Expr.awaitCalls, Expr.eraseAwaits, eval]
    exact eval_agree hset true awaited' operand h.2 fun hq => (hw hq).2

theorem evalAll_agree (hset : set.Keyed) : ∀ es : List Expr, Expr.AllEverywhere (Expr.AwaitsValue set) es →
    (quiet → Expr.AllEverywhere Expr.WritesNothing es) →
    Agree (Unwritten quiet) (evalAll ⟨set, declared⟩ (Expr.awaitAll set.deferredCalls es))
      (evalAll ⟨set.immediate, declared⟩ (Expr.eraseAll es))
  | [], _, _ => .pure _
  | e :: es, h, hw => by
    rw [Expr.awaitAll, Expr.eraseAll, evalAll, evalAll]
    exact (eval_agree hset false false e h.1 fun hq => (hw hq).1).bind fun v =>
      (evalAll_agree hset es h.2 fun hq => (hw hq).2).map _

theorem evalParts_agree (hset : set.Keyed) : ∀ ps : List (Part Expr),
    Expr.PartsEverywhere (Expr.AwaitsValue set) ps → (quiet → Expr.PartsEverywhere Expr.WritesNothing ps) →
    Agree (Unwritten quiet) (evalParts ⟨set, declared⟩ (Expr.awaitParts set.deferredCalls ps))
      (evalParts ⟨set.immediate, declared⟩ (Expr.eraseParts ps))
  | [], _, _ => .pure _
  | p :: ps, h, hw => by
    rw [Expr.awaitParts, Expr.eraseParts, evalParts, evalParts]
    exact (evalPart_agree hset p h.1 fun hq => (hw hq).1).bind fun s =>
      (evalParts_agree hset ps h.2 fun hq => (hw hq).2).map _

theorem evalPart_agree (hset : set.Keyed) : ∀ p : Part Expr, Expr.PartEverywhere (Expr.AwaitsValue set) p →
    (quiet → Expr.PartEverywhere Expr.WritesNothing p) →
    Agree (Unwritten quiet) (evalPart ⟨set, declared⟩ (Expr.awaitPart set.deferredCalls p))
      (evalPart ⟨set.immediate, declared⟩ (Expr.erasePart p))
  | .text s, _, _ => .pure _
  | .code e, h, hw => by
    rw [Expr.awaitPart, Expr.erasePart, evalPart, evalPart]
    exact (eval_agree hset false false e h hw).map _

end

theorem run_agree (hset : set.Keyed) (last : Value) (p : Program) (hp : p.AwaitsValues set)
    (hw : quiet → p.WritesNothing) : Agree (Unwritten quiet)
      (run ⟨set, declared⟩ last (p.awaitCalls set.deferredCalls))
      (run ⟨set.immediate, declared⟩ last p.eraseAwaits) := by
  induction p generalizing last with
  | nil => exact .pure _
  | cons statement rest ih =>
    have he : Agree (Unwritten quiet) (eval ⟨set, declared⟩ false (statement.value.awaitCalls set.deferredCalls false))
        (eval ⟨set.immediate, declared⟩ false statement.value.eraseAwaits) :=
      eval_agree hset false false statement.value (hp statement List.mem_cons_self)
        fun hq => hw hq statement List.mem_cons_self
    have hrest := fun last => ih last (fun s hs => hp s (List.mem_cons_of_mem _ hs))
      fun hq s hs => hw hq s (List.mem_cons_of_mem _ hs)
    cases statement with
    | bind name e =>
      exact he.bind fun v => Agree.bind (.refl fun m hm => (stable_unwritten quiet).bound m name v hm)
        fun _ => hrest .null
    | expr e => exact he.bind fun v => hrest v

/-- A program that writes nothing does the same with its deferred calls awaited as it does without any `await`
where every operation is immediate: the same answer, the same calls in the same order, the same everything. -/
theorem run_immediate (set : IntegrationSet σ) (hset : set.Keyed) (declared : NameSet) (m : Machine σ) (p : Program)
    (hp : p.AwaitsValues set) (hw : m.session = none ∨ p.WritesNothing) :
    exec (run ⟨set, declared⟩ .null (p.awaitCalls (Await.deferredCalls set .expression))) m =
      exec (run ⟨set.immediate, declared⟩ .null p.eraseAwaits) m :=
  (run_agree hset .null p hp id m hw).1

def dice : IntegrationSet Unit := IntegrationSet.empty.register
  ⟨"Dice", NameMap.ofEntries [("roll", ⟨true, .host, fun args s => (.ok (args.head?.getD .null), s)⟩)]⟩

def bare : Machine Unit := ⟨.start () .none, ∅, ∅, none⟩

def rollOf (e : Expr) : Expr := .call (.member (.identifier "Dice") "roll") [e]

def rollTwice : Program := [.bind "n" (.await (rollOf (.boolean true))),
  .expr (.ternary (rollOf (.identifier "n")) (.identifier "n") .null)]

theorem run_immediate_rollTwice : dice.Keyed ∧ rollTwice.AwaitsValues dice ∧
    (exec (run ⟨dice, ∅⟩ .null (rollTwice.awaitCalls (Await.deferredCalls dice .expression))) bare).1 =
      .ok (.bool true) ∧
    exec (run ⟨dice, ∅⟩ .null (rollTwice.awaitCalls (Await.deferredCalls dice .expression))) bare =
      exec (run ⟨dice.immediate, ∅⟩ .null rollTwice.eraseAwaits) bare := by
  have hkeyed : dice.Keyed := IntegrationSet.keyed_empty.register _
  have hvalues : rollTwice.AwaitsValues dice := by
    simp [rollTwice, rollOf, Program.AwaitsValues, Statement.value, Expr.Everywhere, Expr.AllEverywhere,
      Expr.AwaitsValue, Expr.ShowsCallee, Expr.awaitedCore?]
  refine ⟨hkeyed, hvalues, ?_, run_immediate dice hkeyed ∅ bare rollTwice hvalues (.inl rfl)⟩
  cbv

def rollHidden : Program := [.expr (.call (.member (.await (.identifier "Dice")) "roll") [.boolean true])]

theorem run_immediate_rollHidden : ¬∀ (set : IntegrationSet Unit) (declared : NameSet) (m : Machine Unit)
    (p : Program), set.Keyed → m.session = none → p.WritesNothing →
    (exec (run ⟨set, declared⟩ .null (p.awaitCalls (Await.deferredCalls set .expression))) m).map id (·.world.calls) =
      (exec (run ⟨set.immediate, declared⟩ .null p.eraseAwaits) m).map id (·.world.calls) := by
  intro h
  have hwrites : rollHidden.WritesNothing := by
    simp [rollHidden, Program.WritesNothing, Statement.value, Expr.Everywhere, Expr.AllEverywhere, Expr.WritesNothing]
  have hanswers := congrArg Prod.fst (h dice ∅ bare rollHidden (IntegrationSet.keyed_empty.register _) rfl hwrites)
  have hawaited : (exec (run ⟨dice, ∅⟩ .null (rollHidden.awaitCalls (Await.deferredCalls dice .expression))) bare).1 =
      .error (.evaluation (.notFunction "roll")) := by cbv
  have herased : (exec (run ⟨dice.immediate, ∅⟩ .null rollHidden.eraseAwaits) bare).1 = .ok (.bool true) := by cbv
  simp only [Prod.map_fst, id, hawaited, herased] at hanswers
  cases hanswers

end

end Eval

end LiveSheet
