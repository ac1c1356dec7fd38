import LiveSheet.Proofs.Await.Sequencing
import LiveSheet.Proofs.Command.Visits
import LiveSheet.Proofs.Eval.SourceText
import LiveSheet.Proofs.Placeholder.Splitting

/-! What the statements of a script see of each other. They are run one after the other on the same variables; the
placeholders of the script are expanded before the first of them. -/

namespace LiveSheet.CommandRun
open Eval

variable {σ : Type} (world : World σ) (scope : ScopeId) (definitions : VariableSet) (values : NameMap Value)
  (script : String)

def setting : Setting σ :=
  ⟨(world.invoked script).2.integrations, NameSet.ofNames (definitions.names ++ values.keys)⟩

def start : Machine σ :=
  ⟨((world.invoked script).2.sequence .command script).2, values, ∅, some ⟨scope, definitions, ∅⟩⟩

def sequenced : String := ((world.invoked script).2.sequence .command script).1

def shown (name : String) : Option Value :=
  declared? (setting world definitions values script) (start world scope definitions values script) name

def source : Except SheetError String :=
  Placeholder.expand (shown world scope definitions values script) .source (sequenced world script)

def program : Except SheetError Program := do
  Program.parse (← source world scope definitions values script)

variable {world scope definitions values script}

theorem outcome_of_program {p : Program} (h : program world scope definitions values script = .ok p) :
    (run world scope definitions values script).1.outcome =
      (exec (Eval.run (setting world definitions values script) .null p)
        (start world scope definitions values script)).1 := by
  obtain ⟨text, htext, hparse⟩ := Parser.bind_eq_ok.1 h
  change (exec (evaluate (setting world definitions values script) .command script)
    ⟨(world.invoked script).2, values, ∅, some ⟨scope, definitions, ∅⟩⟩).1 = _
  rw [exec_evaluate]
  change (exec (do
    let source ← ExceptT.mk (pure (source world scope definitions values script))
    let program ← ExceptT.mk (pure (Program.parse source))
    Eval.run (setting world definitions values script) .null program)
      (start world scope definitions values script)).1 = _
  rw [htext]
  simp only [exec_bind, exec_mk_pure, hparse]

theorem source_eq {x : String} {v : Value} {front back : List Char} (hname : Text.isVariableName x.toList = true)
    (hv : shown world scope definitions values script x = some v)
    (htext : (sequenced world script).toList = front ++ (placeholder x ++ back))
    (hfront : Placeholder.Closed .source .code front) (hcode : Placeholder.Mode.source.afterAll front .code = .code) :
    source world scope definitions values script = (do
      let front' ← Placeholder.expandFrom (shown world scope definitions values script) .source .code front
      let back' ← Placeholder.expandFrom (shown world scope definitions values script) .source .code back
      return String.ofList (front' ++ (v.sourceChars ++ back'))) := by
  rw [source, Placeholder.expand, htext, Placeholder.expandFrom_append hfront, hcode, expandFrom_placeholder hname hv]
  cases Placeholder.expandFrom (shown world scope definitions values script) .source .code front with
  | error e => rfl
  | ok front' => cases Placeholder.expandFrom (shown world scope definitions values script) .source .code back <;> rfl

/-- Later statements see earlier writes: a declared variable that some statements write to is read as its bounds allow
the last of these writes, until it is written to again, and the run goes on with that. A placeholder sees none: it
shows what the variable holds before the first statement. -/
theorem reads_after_writes (world : World σ) (scope : ScopeId) (definitions : VariableSet) (values : NameMap Value)
    (script : String) :
    let env := setting world definitions values script
    let m₀ := start world scope definitions values script
    (∀ before after, program world scope definitions values script = .ok (before ++ after) →
      ∀ last m, exec (Eval.run env .null before) m₀ = (.ok last, m) →
        (run world scope definitions values script).1.outcome = (exec (Eval.run env last after) m).1 ∧
        ∀ x d w, definitions.get? x = some d → lastWritten? (writesRun env m₀ before) x = some w →
          ∀ ws awaited e m₁ k ws' m₂, RunVisits env after m ws awaited e m₁ k → Names env m₁ e x ws' m₂ →
            (∀ u ∈ ws ++ ws', u.name ≠ x) →
            exec (eval env awaited e) m₁ = (.ok (d.clamp w), m₂) ∧
            (run world scope definitions values script).1.outcome = (exec (k (d.clamp w)) m₂).1) ∧
    ∀ x v front back, Text.isVariableName x.toList = true → declared? env m₀ x = some v →
      (sequenced world script).toList = front ++ (placeholder x ++ back) → Placeholder.Closed .source .code front →
      Placeholder.Mode.source.afterAll front .code = .code →
      source world scope definitions values script = do
        let front' ← Placeholder.expandFrom (declared? env m₀) .source .code front
        let back' ← Placeholder.expandFrom (declared? env m₀) .source .code back
        return String.ofList (front' ++ (v.sourceChars ++ back')) := by
  intro env m₀
  refine ⟨fun before after hprogram last m hbefore => ?_, fun x v front back hname hv htext hfront hcode =>
    source_eq hname hv htext hfront hcode⟩
  have houtcome : (run world scope definitions values script).1.outcome = (exec (Eval.run env last after) m).1 := by
    rw [outcome_of_program hprogram, exec_run_append, exec_bind_of_ok hbefore]
  refine ⟨houtcome, fun x d w hd hw ws awaited e m₁ k ws' m₂ hvisits hnames hunwritten => ?_⟩
  have hwrites := (((run_performs env .null before m₀).after hbefore).trans hvisits.after).trans hnames.after
  have hcopies : m₀.copies? = some ⟨scope, definitions, values, m₀.world.store, ∅, m₀.world.events⟩ := rfl
  have hlast : lastWritten? (writesRun env m₀ before ++ ws ++ ws') x = some w := by
    rw [List.append_assoc, lastWritten?_append hunwritten, hw]
  have hvalue : m₂.values[x]? = some (d.clamp w) := by
    rw [hwrites.values_eq hcopies]
    exact (Copies.foldl_write hd _).2 w hlast
  have hread : exec (eval env awaited e) m₁ = (.ok (d.clamp w), m₂) := hnames.exec_eval hvalue awaited
  exact ⟨hread, by rw [houtcome, hvisits.exec_eq last, exec_bind_of_ok hread]⟩

/-! ## A torch that is lit again -/

def torch : VariableSet where
  declared := [⟨"x", .literal (.string "old"), none, none⟩]
  nodup := by decide

def lit : NameMap Value := (∅ : NameMap Value).insert "x" (.string "old")

def rekindle : String := "setValue('x', 'new'); x + \x7bx\x7d"

def rekindling : Program := [.expr (.await (.call (.identifier "setValue") [.string "x", .string "new"]))]

theorem sequence_rekindle : Await.sequence (World.start () .none).integrations .command rekindle =
    "(await setValue('x', 'new')); x + \x7bx\x7d" := by
  have hdeferred : Await.deferredCalls (World.start () .none).integrations .command = Await.writers := by decide +kernel
  have hcall : Await.firstMatch (Await.callPatterns Await.writers) [] rekindle.toList =
      some ⟨"setValue", "setValue(".toList, "'x', 'new'); x + \x7bx\x7d".toList⟩ := by
    rw [Await.callPatterns_writers]
    cbv
  have hargs : Await.sequenceCalls Await.writers "'x', 'new'".toList = "'x', 'new'".toList :=
    Await.sequenceCalls_of_isIdle Await.callable_writers (by rw [Await.isIdle, Await.callPatterns_writers]; cbv)
  have hsplit : Await.splitParen "'x', 'new'); x + \x7bx\x7d".toList =
      some ("'x', 'new'".toList, "; x + \x7bx\x7d".toList) := by cbv
  rw [Await.sequenceCalls] at hargs
  rw [Await.sequence, hdeferred, Await.sequenceCalls, Await.sequenceFrom_call hcall (by cbv) hsplit, hargs,
    sequenceFrom_of_not_mem (by decide)]
  cbv

theorem program_rekindle : program (World.start () .none) .global torch lit rekindle =
    .ok (rekindling ++ [.expr (.binary .add (.identifier "x") (.string "old"))]) := by
  have hshown : shown (World.start () .none) .global torch lit rekindle "x" = some (.string "old") := by
    rw [shown, declared?, start, lit, NameMap.get?_insert, if_pos rfl]
  have hsequenced : (sequenced (World.start () .none) rekindle).toList =
      "(await setValue('x', 'new')); x + ".toList ++ (placeholder "x" ++ []) := by
    rw [sequenced, sequence_fst]
    exact congrArg String.toList sequence_rekindle
  rw [program, source_eq (by decide) hshown hsequenced (Placeholder.closed_of_not_mem (by decide)) (by decide)]
  cbv

theorem exec_rekindling : ∃ m,
    exec (Eval.run (setting (World.start () .none) torch lit rekindle) .null rekindling)
      (start (World.start () .none) .global torch lit rekindle) = (.ok (.string "new"), m) ∧
    m.values["x"]? = some (.string "new") ∧ m.locals = ∅ := by
  refine ⟨_, rfl, ?_, rfl⟩
  exact (NameMap.get?_insert lit "x" "x" (.string "new")).trans (if_pos rfl)

/-- The name after the write reads it, and the sum is that of what it reads. -/
theorem reads_after_writes_rekindle :
    let env := setting (World.start () .none) torch lit rekindle
    let m₀ := start (World.start () .none) .global torch lit rekindle
    lastWritten? (writesRun env m₀ rekindling) "x" = some (.string "new") ∧
    ∃ m k, exec (Eval.run env .null rekindling) m₀ = (.ok (.string "new"), m) ∧
      RunVisits env [.expr (.binary .add (.identifier "x") (.string "old"))] m [] false (.identifier "x") m k ∧
      Names env m (.identifier "x") "x" [] m ∧ exec (eval env false (.identifier "x")) m = (.ok (.string "new"), m) ∧
      (run (World.start () .none) .global torch lit rekindle).1.outcome = (exec (k (.string "new")) m).1 := by
  intro env m₀
  obtain ⟨m, hbefore, hvalue, hlocals⟩ := exec_rekindling
  have hwritten : lastWritten? (writesRun env m₀ rekindling) "x" = some (.string "new") := rfl
  have hvisits := @RunVisits.statement Unit env [] []
    (.expr (.binary .add (.identifier "x") (.string "old"))) m m m .null _ _ _ _ rfl
    (.inside .left (.here false (.identifier "x") m))
  have hnames : Names env m (.identifier "x") "x" [] m := .bare (by rw [hlocals]; rfl)
  obtain ⟨hsees, -⟩ := reads_after_writes (World.start () .none) .global torch lit rekindle
  obtain ⟨-, hreads⟩ := hsees _ _ program_rekindle _ m hbefore
  obtain ⟨hread, houtcome⟩ := hreads "x" ⟨"x", .literal (.string "old"), none, none⟩ _ rfl hwritten [] false _ m _ [] m
    hvisits hnames (by simp)
  exact ⟨hwritten, m, _, hbefore, hvisits, hnames, hread, houtcome⟩

/-- The placeholder after the write shows what the variable held before. -/
theorem reads_after_writes_placeholder :
    let outcome := (run (World.start () .none) .global torch lit rekindle).1.outcome
    program (World.start () .none) .global torch lit rekindle =
      .ok (rekindling ++ [.expr (.binary .add (.identifier "x") (.string "old"))]) ∧
    lastWritten? (writesRun (setting (World.start () .none) torch lit rekindle)
      (start (World.start () .none) .global torch lit rekindle) rekindling) "x" = some (.string "new") ∧
    outcome = .ok (.string "newold") ∧ outcome ≠ .ok (.string "newnew") := by
  intro outcome
  have houtcome : outcome = .ok (.string "newold") := by
    obtain ⟨m, hbefore, hvalue, hlocals⟩ := exec_rekindling
    have hname := exec_nameValue_of_value hvalue (by rw [hlocals]; rfl)
      (setting (World.start () .none) torch lit rekindle)
    change (run (World.start () .none) .global torch lit rekindle).1.outcome = _
    rw [outcome_of_program program_rekindle, exec_run_append, exec_bind_of_ok hbefore]
    simp only [Eval.run, eval, exec_bind, hname]
    rfl
  refine ⟨program_rekindle, rfl, houtcome, ?_⟩
  rw [houtcome]
  exact fun h => absurd (Value.string.inj (Except.ok.inj h)) (by decide)

end LiveSheet.CommandRun
