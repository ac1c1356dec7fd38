import Mathlib
import LiveSheet.Proofs.Eval.Isolated
import LiveSheet.Proofs.Expr.Descent
import LiveSheet.Proofs.Expr.Erased
import LiveSheet.Proofs.Reference.Descent
import LiveSheet.Proofs.Reference.Placeholders

/-! Two evaluations side by side. Where nothing can be written, machines that agree on the names an expression reads,
on the locals and on what the integrations answer give it the same value and agree afterwards. -/

namespace LiveSheet

variable {σ α β : Type}

/-- A key of `this` is written out, so the name it stands for can be read off. -/
def Expr.LiteralKey : Expr → Prop
  | .index .self (.string _) => True
  | .index .self _ => False
  | _ => True

def Program.LiteralKeys (p : Program) : Prop := ∀ s ∈ p, s.value.Everywhere Expr.LiteralKey

namespace Eval

/-- Worlds that answer alike: to the sequencing of a text and to the calls of registered operations. -/
structure Matching (set : IntegrationSet σ) (W : World σ → World σ → Prop) : Prop where
  sequence : ∀ {w w'}, W w w' → ∀ mode text, (w'.sequence mode text).1 = (w.sequence mode text).1 ∧
    W (w.sequence mode text).2 (w'.sequence mode text).2
  perform : ∀ {w w'}, W w w' → ∀ {owner i name op}, set.get? owner = some i → i.operations[name]? = some op →
    ∀ args, (w'.perform owner name op args).1 = (w.perform owner name op args).1 ∧
      W (w.perform owner name op args).2 (w'.perform owner name op args).2

theorem matching_eq (set : IntegrationSet σ) : Matching set Eq where
  sequence h _ _ := ⟨by rw [h], by rw [h]⟩
  perform h _ _ _ _ _ _ _ := ⟨by rw [h], by rw [h]⟩

/-- Machines without a session that agree on some names. -/
structure Alike (W : World σ → World σ → Prop) (declared : NameSet) (S : String → Prop) (m m' : Machine σ) : Prop where
  world : W m.world m'.world
  locals : m'.locals = m.locals
  known : ∀ n, S n → known declared m'.values n = known declared m.values n
  session : m.session = none
  session' : m'.session = none

variable {W : World σ → World σ → Prop} {set : IntegrationSet σ} {declared : NameSet} {S : String → Prop}

/-- An evaluation gives machines that are alike the same answer and leaves them alike. -/
def Even (W : World σ → World σ → Prop) (declared : NameSet) (S : String → Prop) (x : Eval σ α) : Prop :=
  ∀ m m', Alike W declared S m m' →
    (exec x m').1 = (exec x m).1 ∧ Alike W declared S (exec x m).2 (exec x m').2

namespace Even

theorem pure (a : α) : Even W declared S (pure a : Eval σ α) := fun _ _ h => ⟨rfl, h⟩

theorem fail (fault : EvalFault) : Even W declared S (fail fault : Eval σ α) := fun _ _ h => ⟨rfl, h⟩

theorem mk_pure (r : Except SheetError α) : Even W declared S (ExceptT.mk (Pure.pure r) : Eval σ α) :=
  fun _ _ h => ⟨rfl, h⟩

theorem bind {x : Eval σ α} {f : α → Eval σ β} (hx : Even W declared S x) (hf : ∀ a, Even W declared S (f a)) :
    Even W declared S (x >>= f) := by
  intro m m' h
  rw [exec_bind, exec_bind]
  obtain ⟨hanswer, hafter⟩ := hx m m' h
  generalize exec x m = answer at hanswer hafter
  generalize exec x m' = answer' at hanswer hafter
  obtain ⟨a, m⟩ := answer
  obtain ⟨a', m'⟩ := answer'
  obtain rfl : a' = a := hanswer
  cases a' with
  | error e => exact ⟨rfl, hafter⟩
  | ok a => exact hf a m m' hafter

theorem map {x : Eval σ α} (f : α → β) (hx : Even W declared S x) :
    Even W declared S (x >>= fun a => Pure.pure (f a)) :=
  hx.bind fun a => pure (f a)

theorem get_bind {f : Machine σ → Eval σ α}
    (h : ∀ m m', Alike W declared S m m' → f m' = f m ∧ Even W declared S (f m)) :
    Even W declared S (get >>= f) := by
  intro m m' hm
  obtain ⟨heq, heven⟩ := h m m' hm
  rw [exec_get_bind, exec_get_bind, heq]
  exact heven m m' hm

end Even

theorem Alike.owner?_eq {m m' : Machine σ} (h : Alike W declared S m m') {object : Expr}
    (hreads : ∀ n ∈ object.reads, S n) : owner? ⟨set, declared⟩ m' object = owner? ⟨set, declared⟩ m object := by
  rw [owner?_eq_unshadowed, owner?_eq_unshadowed]
  cases object with
  | identifier name =>
    have hknown := h.known name (hreads name (by simp [Expr.reads]))
    simp only [unshadowed, h.locals, hknown]
  | _ => rfl

theorem variableValue_even {name : String} (hname : S name) :
    Even W declared S (variableValue ⟨set, declared⟩ name : Eval σ Value) := by
  refine .get_bind fun m m' h => ⟨?_, ?_⟩
  · simp only [declared?_eq_known, h.known name hname]
  · split
    · exact .pure _
    · exact .fail _

theorem nameValue_even {name : String} (hname : S name) :
    Even W declared S (nameValue ⟨set, declared⟩ name : Eval σ Value) := by
  refine .get_bind fun m m' h => ⟨?_, ?_⟩
  · simp only [declared?_eq_known, h.locals, h.known name hname]
  · repeat' split
    all_goals first | exact .pure _ | exact .fail _

theorem property_even (v : Value) (name : String) : Even W declared S (property v name : Eval σ Value) := by
  unfold property
  split
  · exact .pure _
  · exact .pure _
  · exact .fail _

theorem memberOf_even (owner : Option String) (name : String) {value : Eval σ Value}
    (hvalue : Even W declared S value) : Even W declared S (memberOf ⟨set, declared⟩ owner name value) := by
  have hproperty : Even W declared S (value >>= fun v => property v name) := hvalue.bind fun v => property_even v name
  cases owner with
  | none => exact hproperty
  | some owner =>
    rw [memberOf]
    split
    · split
      · exact .pure _
      · exact .fail _
    · split
      · exact .fail _
      · exact hproperty

theorem member_even {object : Expr} {name : String} {value : Eval σ Value}
    (hreads : ∀ n ∈ (Expr.member object name).reads, S n) (hvalue : Even W declared S value) :
    Even W declared S (member ⟨set, declared⟩ object name value) := by
  rw [Expr.reads] at hreads
  by_cases hself : object = .self
  · subst hself
    exact variableValue_even (hreads name (List.mem_append_left _ (List.mem_singleton.2 rfl)))
  · rw [member_eq _ hself]
    refine .get_bind fun m m' h => ⟨?_, memberOf_even _ _ hvalue⟩
    rw [h.owner?_eq fun n hn => hreads n (List.mem_append_right _ hn)]

theorem item_even {object : Expr} {value index : Eval σ Value}
    (hself : object = .self → Even W declared S (index >>= fun key => variableValue ⟨set, declared⟩ key.display))
    (hvalue : Even W declared S value) (hindex : Even W declared S index) :
    Even W declared S (item ⟨set, declared⟩ object value index) := by
  by_cases hobject : object = .self
  · subst hobject
    exact hself rfl
  · rw [item_eq _ hobject]
    refine hvalue.bind fun v => hindex.bind fun key => ?_
    split
    · exact .pure _
    · split
      · exact .pure _
      · exact .fail _

theorem callFunction_even (awaited : Bool) {name : String} (hname : S name) {args : Eval σ (List Value)}
    (hargs : Even W declared S args) : Even W declared S (callFunction ⟨set, declared⟩ awaited name args) := by
  refine .get_bind fun m m' h => ⟨?_, ?_⟩
  · simp only [h.session, h.session', isShadowed, declared?_eq_known, h.locals, h.known name hname]
    rfl
  · simp only [h.session, Option.isSome_none, Bool.false_and, Bool.false_eq_true, if_false]
    split
    · exact .fail _
    · split
      · exact hargs.bind fun values => .mk_pure _
      · exact .fail _

theorem callOperation_even (hworld : Matching set W) (awaited : Bool) (owner name : String)
    {args : Eval σ (List Value)} (hargs : Even W declared S args) :
    Even W declared S (callOperation ⟨set, declared⟩ awaited owner name args) := by
  unfold callOperation
  cases hi : set.get? owner with
  | none =>
    simp only
    split
    · exact hargs.bind fun values => .mk_pure _
    · exact .fail _
  | some i =>
    simp only
    cases hop : i.operations[name]? with
    | none => exact .fail _
    | some op =>
      simp only
      split
      · exact .fail _
      · refine hargs.bind fun values m m' h => ?_
        obtain ⟨hanswer, hafter⟩ := hworld.perform h.world hi hop values
        exact ⟨hanswer, hafter, h.locals, h.known, h.session, h.session'⟩

theorem call_even (hworld : Matching set W) (awaited : Bool) {callee : Expr} (hreads : ∀ n ∈ callee.reads, S n)
    {args : Eval σ (List Value)} (hargs : Even W declared S args) :
    Even W declared S (call ⟨set, declared⟩ awaited callee args) := by
  unfold call
  split
  · exact callFunction_even awaited (hreads _ (by simp [Expr.reads])) hargs
  · refine .get_bind fun m m' h => ⟨?_, ?_⟩
    · rw [h.owner?_eq fun n hn => hreads n (by simp [Expr.reads, hn])]
    · split
      · exact callOperation_even hworld awaited _ _ hargs
      · exact .fail _
  · exact .fail _

mutual

/-- An expression has one value on machines that agree on what it reads; if it computes a key of `this`, that is every
name. -/
theorem eval_even (hworld : Matching set W) (awaited : Bool) : ∀ e : Expr, (∀ n ∈ e.reads, S n) →
    (∀ n, S n) ∨ e.Everywhere Expr.LiteralKey → Even W declared S (eval ⟨set, declared⟩ awaited e)
  | .number n, _, _ => .pure _
  | .string s, _, _ => .pure _
  | .boolean b, _, _ => .pure _
  | .null, _, _ => .pure _
  | .array items, hreads, hkeys => by
    rw [eval]
    exact (evalAll_even hworld items hreads (hkeys.imp_right And.right)).map _
  | .template parts, hreads, hkeys => by
    rw [eval]
    exact (evalParts_even hworld parts hreads (hkeys.imp_right And.right)).map _
  | .identifier name, hreads, _ => nameValue_even (hreads name (List.mem_singleton.2 rfl))
  | .self, _, _ => .fail _
  | .member object name, hreads, hkeys => by
    have hobject := eval_even hworld false object (fun n hn => hreads n (List.mem_append_right _ hn))
      (hkeys.imp_right And.right)
    exact member_even hreads hobject
  | .index object index, hreads, hkeys => by
    have hobject := eval_even hworld false object
      (fun n hn => hreads n (List.mem_append_right _ (List.mem_append_left _ hn))) (hkeys.imp_right fun h => h.2.1)
    have hindex := eval_even hworld false index
      (fun n hn => hreads n (List.mem_append_right _ (List.mem_append_right _ hn))) (hkeys.imp_right fun h => h.2.2)
    refine item_even ?_ hobject hindex
    rintro rfl
    rcases hkeys with hall | hkeys
    · exact hindex.bind fun key => variableValue_even (hall _)
    · cases index with
      | string s => exact variableValue_even (hreads s (List.mem_append_left _ (List.mem_singleton.2 rfl)))
      | _ => exact absurd hkeys.1 id
  | .call callee args, hreads, hkeys =>
    call_even hworld awaited (fun n hn => hreads n (List.mem_append_left _ hn))
      (evalAll_even hworld args (fun n hn => hreads n (List.mem_append_right _ hn)) (hkeys.imp_right And.right))
  | .unary op operand, hreads, hkeys => by
    rw [eval]
    exact (eval_even hworld false operand hreads (hkeys.imp_right And.right)).map _
  | .binary op left right, hreads, hkeys => by
    rw [eval]
    have hleft := eval_even hworld false left (fun n hn => hreads n (List.mem_append_left _ hn))
      (hkeys.imp_right fun h => h.2.1)
    have hright := eval_even hworld false right (fun n hn => hreads n (List.mem_append_right _ hn))
      (hkeys.imp_right fun h => h.2.2)
    refine hleft.bind fun a => ?_
    split
    · split
      · exact hright
      · exact .pure _
    · split
      · exact .pure _
      · exact hright
    · exact hright.map _
  | .ternary condition ifTrue ifFalse, hreads, hkeys => by
    rw [eval]
    have hcondition := eval_even hworld false condition (fun n hn => hreads n (List.mem_append_left _ hn))
      (hkeys.imp_right fun h => h.2.1)
    refine hcondition.bind fun a => ?_
    split
    · exact eval_even hworld false ifTrue
        (fun n hn => hreads n (List.mem_append_right _ (List.mem_append_left _ hn))) (hkeys.imp_right fun h => h.2.2.1)
    · exact eval_even hworld false ifFalse
        (fun n hn => hreads n (List.mem_append_right _ (List.mem_append_right _ hn))) (hkeys.imp_right fun h => h.2.2.2)
  | .await operand, hreads, hkeys => eval_even hworld true operand hreads (hkeys.imp_right And.right)

theorem evalAll_even (hworld : Matching set W) : ∀ es : List Expr, (∀ n ∈ Expr.readsAll es, S n) →
    (∀ n, S n) ∨ Expr.AllEverywhere Expr.LiteralKey es → Even W declared S (evalAll ⟨set, declared⟩ es)
  | [], _, _ => .pure _
  | e :: es, hreads, hkeys => by
    rw [evalAll]
    have he := eval_even hworld false e (fun n hn => hreads n (List.mem_append_left _ hn)) (hkeys.imp_right And.left)
    exact he.bind fun v =>
      (evalAll_even hworld es (fun n hn => hreads n (List.mem_append_right _ hn)) (hkeys.imp_right And.right)).map _

theorem evalParts_even (hworld : Matching set W) : ∀ ps : List (Part Expr), (∀ n ∈ Expr.readsParts ps, S n) →
    (∀ n, S n) ∨ Expr.PartsEverywhere Expr.LiteralKey ps → Even W declared S (evalParts ⟨set, declared⟩ ps)
  | [], _, _ => .pure _
  | p :: ps, hreads, hkeys => by
    rw [evalParts]
    have hp := evalPart_even hworld p (fun n hn => hreads n (List.mem_append_left _ hn)) (hkeys.imp_right And.left)
    exact hp.bind fun s =>
      (evalParts_even hworld ps (fun n hn => hreads n (List.mem_append_right _ hn)) (hkeys.imp_right And.right)).map _

theorem evalPart_even (hworld : Matching set W) : ∀ p : Part Expr, (∀ n ∈ Expr.readsPart p, S n) →
    (∀ n, S n) ∨ Expr.PartEverywhere Expr.LiteralKey p → Even W declared S (evalPart ⟨set, declared⟩ p)
  | .text s, _, _ => .pure _
  | .code e, hreads, hkeys => by
    rw [evalPart]
    exact (eval_even hworld false e hreads hkeys).map _

end

theorem run_even (hworld : Matching set W) (last : Value) (p : Program) (hreads : ∀ n ∈ p.reads, S n)
    (hkeys : (∀ n, S n) ∨ p.LiteralKeys) : Even W declared S (run ⟨set, declared⟩ last p) := by
  induction p generalizing last with
  | nil => exact .pure _
  | cons statement rest ih =>
    have hrest := fun last => ih last (fun n hn => hreads n (List.mem_append_right _ hn))
      (hkeys.imp_right fun h s hs => h s (List.mem_cons_of_mem _ hs))
    have hkey := hkeys.imp_right fun h : Program.LiteralKeys _ => h statement List.mem_cons_self
    have hread : ∀ n ∈ statement.reads, S n := fun n hn => hreads n (List.mem_append_left _ hn)
    cases statement with
    | bind name e =>
      refine (eval_even hworld false e hread hkey).bind fun v => Even.bind ?_ fun _ => hrest .null
      intro m m' h
      refine ⟨rfl, h.world, ?_, h.known, h.session, h.session'⟩
      exact congrArg (·.insert name v) h.locals
    | expr e => exact (eval_even hworld false e hread hkey).bind fun v => hrest v

/-- A program sees no more of a scope than the names it mentions. Where these have the same values, or none, it comes
to the same answer, calls the same operations in the same order and leaves the host in the same state. -/
theorem run_eq_of_reads (env : Setting σ) {p : Program} (hkeys : p.LiteralKeys) {A B : NameMap Value}
    (hreads : ∀ n ∈ p.reads, A[n]? = B[n]?) (world : World σ) :
    let a := exec (run env .null p) ⟨world, A, ∅, none⟩
    let b := exec (run env .null p) ⟨world, B, ∅, none⟩
    a.1 = b.1 ∧ a.2.world.calls = b.2.world.calls ∧ a.2.world = b.2.world := by
  have halike : Alike Eq env.declared (· ∈ p.reads) ⟨world, A, ∅, none⟩ ⟨world, B, ∅, none⟩ :=
    ⟨rfl, rfl, fun n hn => by rw [known, known, hreads n hn], rfl, rfl⟩
  obtain ⟨hanswer, hafter⟩ :=
    run_even (matching_eq env.integrations) .null p (fun _ hn => hn) (.inr hkeys) _ _ halike
  exact ⟨hanswer.symm, congrArg World.calls hafter.world, hafter.world⟩

def parrot : Integration Unit where
  name := "Parrot"
  operations := NameMap.ofEntries [("say", ⟨false, .host, fun args s => (.ok (args.head?.getD .null), s)⟩)]

def squawk : Program :=
  [.bind "bonus" (.index .self (.string "level")),
    .expr (.call (.member (.identifier "Parrot") "say") [.binary .add (.identifier "bonus") (.identifier "rate")])]

theorem run_eq_of_reads_squawk :
    let env : Setting Unit := ⟨IntegrationSet.empty.register parrot, NameSet.ofNames ["level", "rate", "gold"]⟩
    let A : NameMap Value := NameMap.ofEntries [("level", .number 3), ("rate", .string "%"), ("gold", .number 7)]
    let B : NameMap Value := NameMap.ofEntries [("level", .number 3), ("rate", .string "%"), ("spare", .null)]
    Program.parse "let bonus = this['level']; Parrot.say(bonus + rate)" = .ok squawk ∧ squawk.LiteralKeys ∧
      (∀ n ∈ squawk.reads, A[n]? = B[n]?) ∧
      let a := exec (run env .null squawk) ⟨World.start () .none, A, ∅, none⟩
      let b := exec (run env .null squawk) ⟨World.start () .none, B, ∅, none⟩
      a.1 = b.1 ∧ a.2.world.calls = b.2.world.calls ∧ a.2.world = b.2.world ∧ a.2.world.calls.length = 1 := by
  intro env A B
  have hparse : Program.parse "let bonus = this['level']; Parrot.say(bonus + rate)" = .ok squawk := by cbv
  have hkeys : squawk.LiteralKeys := by
    simp [squawk, Program.LiteralKeys, Statement.value, Expr.Everywhere, Expr.AllEverywhere, Expr.LiteralKey]
  have hreads : ∀ n ∈ squawk.reads, A[n]? = B[n]? := by
    intro n hn
    have hn : n ∈ ["level", "Parrot", "bonus", "rate"] := hn
    simp only [List.mem_cons, List.not_mem_nil, or_false] at hn
    rcases hn with rfl | rfl | rfl | rfl <;> rfl
  obtain ⟨hanswer, hcalls, hworld⟩ := run_eq_of_reads env hkeys hreads (World.start () .none)
  exact ⟨hparse, hkeys, hreads, hanswer, hcalls, hworld, by rfl⟩

theorem evaluate_even (hworld : Matching set W) {m m' : Machine σ} (h : Alike W declared S m m') (mode : Await.Mode)
    (text : String)
    (hasks : ∀ n ∈ Placeholder.asks (known declared m.values) .source (m.world.sequence mode text).1, S n)
    (hprogram : ∀ source program, Placeholder.expand (known declared m.values) .source (m.world.sequence mode text).1 =
      .ok source → Program.parse source = .ok program →
      (∀ n ∈ program.reads, S n) ∧ ((∀ n, S n) ∨ program.LiteralKeys)) :
    (exec (evaluate ⟨set, declared⟩ mode text) m').1 = (exec (evaluate ⟨set, declared⟩ mode text) m).1 ∧
      Alike W declared S (exec (evaluate ⟨set, declared⟩ mode text) m).2
        (exec (evaluate ⟨set, declared⟩ mode text) m').2 := by
  obtain ⟨hsequenced, hworlds⟩ := hworld.sequence h.world mode text
  have hexpand : Placeholder.expand (known declared m'.values) .source (m.world.sequence mode text).1 =
      Placeholder.expand (known declared m.values) .source (m.world.sequence mode text).1 :=
    congrArg (·.map String.ofList) (Placeholder.expandFrom_congr fun n hn => (h.known n (hasks n hn)).symm).symm
  rw [exec_evaluate, exec_evaluate, hsequenced, hexpand]
  have hready : Alike W declared S { m with world := (m.world.sequence mode text).2 }
      { m' with world := (m'.world.sequence mode text).2 } :=
    ⟨hworlds, h.locals, h.known, h.session, h.session'⟩
  have heven : Even W declared S (do
      let source ← ExceptT.mk (pure
        (Placeholder.expand (known declared m.values) .source (m.world.sequence mode text).1))
      let program ← ExceptT.mk (pure (Program.parse source))
      run ⟨set, declared⟩ .null program) := by
    cases hsource : Placeholder.expand (known declared m.values) .source (m.world.sequence mode text).1 with
    | error e => exact .mk_pure (.error e)
    | ok source =>
      change Even W declared S (do
        let program ← ExceptT.mk (pure (Program.parse source))
        run ⟨set, declared⟩ .null program)
      cases hparse : Program.parse source with
      | error e => exact .mk_pure (.error e)
      | ok program =>
        obtain ⟨hreads, hkeys⟩ := hprogram source program hsource hparse
        exact run_even hworld .null program hreads hkeys
  exact heven _ _ hready

end Eval

namespace References

variable {set : IntegrationSet σ} {declared : NameSet} {A B : NameMap Value} {text : String} {names : List String}

def programOf (set : IntegrationSet σ) (declared : NameSet) (values : NameMap Value) (text : String) :
    Except SheetError Program := do
  let source ← Placeholder.expand (Eval.known declared values) .source (Await.sequence set .expression text)
  Program.parse source

/-- The names that evaluating a text reads: those its placeholders ask for, and those its program mentions. -/
def readNames (set : IntegrationSet σ) (declared : NameSet) (values : NameMap Value) (text : String) :
    Except SheetError (List String) := do
  let program ← programOf set declared values text
  return Placeholder.asks (Eval.known declared values) .source (Await.sequence set .expression text) ++ program.reads

theorem evaluate_eq_of_readNames {world : World σ} (h : readNames world.integrations declared A text = .ok names)
    (hkeys : ∀ p, programOf world.integrations declared A text = .ok p → p.LiteralKeys)
    (hnames : ∀ n ∈ names, Eval.known declared B n = Eval.known declared A n) :
    Resolution.evaluate declared B text world = Resolution.evaluate declared A text world := by
  obtain ⟨program, hprogram, heq⟩ := Parser.bind_eq_ok.1 h
  cases heq
  obtain ⟨source, hsource, hparse⟩ := Parser.bind_eq_ok.1 hprogram
  have hsequence : (world.sequence .expression text).1 = Await.sequence world.integrations .expression text :=
    Await.Registry.sequence_fst world.registry .expression text
  have halike : Eval.Alike Eq declared
      (· ∈ Placeholder.asks (Eval.known declared A) .source (Await.sequence world.integrations .expression text) ++
        program.reads)
      ⟨world, A, ∅, none⟩ ⟨world, B, ∅, none⟩ := ⟨rfl, rfl, hnames, rfl, rfl⟩
  have heven := Eval.evaluate_even (Eval.matching_eq world.integrations) halike .expression text
    (fun n hn => List.mem_append_left _ (hsequence ▸ hn)) ?_
  · exact Prod.ext heven.1 heven.2.world.symm
  · intro source' program' hsource' hparse'
    rw [hsequence, hsource] at hsource'
    cases hsource'
    rw [hparse] at hparse'
    cases hparse'
    exact ⟨fun n hn => List.mem_append_right _ hn, .inr (hkeys program hprogram)⟩

end References

theorem Resolution.evaluate_congr_of_parse {declared : NameSet} {A B : NameMap Value} {text : String} {world : World σ}
    {program : Program} (hdeferred : Await.deferredCalls world.integrations .expression = [])
    (hexpand : ∀ lookup, Placeholder.expand lookup .source text = .ok text) (hparse : Program.parse text = .ok program)
    (hkeys : program.LiteralKeys) (hreads : ∀ n ∈ program.reads, A[n]? = B[n]?) :
    evaluate declared A text world = evaluate declared B text world := by
  have halike : Eval.Alike Eq declared (· ∈ program.reads)
      ⟨(world.sequence .expression text).2, A, ∅, none⟩ ⟨(world.sequence .expression text).2, B, ∅, none⟩ :=
    ⟨rfl, rfl, fun n hn => by rw [Eval.known, Eval.known, hreads n hn], rfl, rfl⟩
  have heven :=
    Eval.run_even (Eval.matching_eq world.integrations) .null program (fun _ hn => hn) (.inr hkeys) _ _ halike
  rw [evaluate_of_parse hdeferred (hexpand _) hparse, evaluate_of_parse hdeferred (hexpand _) hparse]
  exact Prod.ext heven.1.symm heven.2.world

end LiveSheet
