import LiveSheet.Proofs.Await.Sequencing
import LiveSheet.Proofs.Engine.Refresh
import LiveSheet.Proofs.Store.Keeping

/-! Commands are confined to their scope. Other scopes keep their variables, and of their values only those change that
a loaded page takes from the global scope. -/

namespace LiveSheet

namespace CommandRun

variable {σ : Type}

/-- What was written so far was told the host, and where the store keeps that, it holds the same for other scopes. -/
def Apart (scope : ScopeId) (world : World σ) (m : Machine σ) : Prop :=
  ∃ s new, m.session = some s ∧ s.scope = scope ∧ m.world.events = new ++ world.events ∧
    ((∀ event ∈ new, event.kind = .modified → world.store.Keeps event.value) →
      (∀ value, world.store.Keeps value → m.world.store.Keeps value) ∧
      ∀ id ≠ scope, m.world.store.load id = world.store.load id)

theorem stable_apart (scope : ScopeId) (world : World σ) : Eval.Stable (Apart scope world) where
  written := by
    rintro m s name value stored next ⟨s', new, hs', rfl, hevents, hstore⟩ hs _
    obtain rfl : s' = s := Option.some.inj (hs'.symm.trans hs)
    let told : List Event := [⟨.resolved, s'.scope, name, stored⟩, ⟨.modified, s'.scope, name, stored⟩]
    refine ⟨_, told ++ new, rfl, rfl, by rw [List.append_assoc, ← hevents]; rfl, fun hkeeps => ?_⟩
    obtain ⟨hstored, hnew⟩ := List.forall_mem_cons.1 (List.forall_mem_cons.1 hkeeps).2
    -- The file changes with every write, so what it can still keep is carried along with what it holds.
    obtain ⟨hlater, hload⟩ := hstore hnew
    have hstored : m.world.store.Keeps stored := hlater stored (hstored rfl)
    refine ⟨fun value hvalue => hstored.keep (hlater value hvalue) _ _, fun id hid => ?_⟩
    exact (hstored.load_keep (Ne.symm hid) name).trans (hload id hid)
  performed _ _ _ _ _ h := h
  bound _ _ _ h := h
  sequenced _ _ _ h := h

theorem apart_run (world : World σ) (scope : ScopeId) (definitions : VariableSet) (values : NameMap Value)
    (script : String) :
    let world' := (run world scope definitions values script).2
    ∃ new, world'.events = new ++ world.events ∧
      ((∀ event ∈ new, event.kind = .modified → world.store.Keeps event.value) →
        ∀ id ≠ scope, world'.store.load id = world.store.load id) := by
  intro world'
  obtain ⟨m, s, ⟨s', new, _, _, hevents, hstore⟩, _, _, _, _, hworld⟩ := run_of_stable definitions values
    (stable_apart scope world) world scope script ⟨_, [], rfl, rfl, rfl, fun _ => ⟨fun _ h => h, fun _ _ => rfl⟩⟩
    fun _ h => ⟨_, h.choose_spec.choose_spec.1⟩
  refine ⟨new, ?_, fun hnew => ?_⟩
  · rw [← hevents, ← hworld]
  · intro id hid
    exact (congrArg (·.store.load id) hworld).trans ((hstore hnew).2 id hid)

end CommandRun

namespace Engine

variable {σ : Type} {e e' : Engine σ} {id : ScopeId} {s : ScopeState}

/-- What a command in a scope leaves as it is. -/
structure Confined (id : ScopeId) (s : ScopeState) (outcome : Outcome) (e e' : Engine σ) : Prop where
  integrations : e'.integrations = e.integrations
  absent : ∀ id', e.scope? id' = none → e'.scope? id' = none
  own : ∃ definitions values, e'.scope? id = some { s with definitions, values } ∧
    definitions.names = s.definitions.names ∧
    ∀ n, n ∉ outcome.recomputed → definitions.get? n = s.definitions.get? n ∧ values[n]? = s.values[n]?
  other : ∀ id' t, id' ≠ id → e.scope? id' = some t → ∃ values, e'.scope? id' = some { t with values } ∧
    (id ≠ .global ∨ t.loaded = false → values = t.values) ∧
    ∀ n, (id', n) ∉ outcome.refreshed →
      values[n]? = if id = .global ∧ t.loaded = true ∧ n ∈ outcome.recomputed ∧ n ∉ t.definitions.names then
        e'.global.values[n]? else t.values[n]?
  stored : ∃ new, e'.world.events = new ++ e.world.events ∧
    ((∀ event ∈ new, event.kind = .modified → e.world.store.Keeps event.value) →
      ∀ id' ≠ id, e'.world.store.load id' = e.world.store.load id')

theorem scope?_commanded (e : Engine σ) (id id' : ScopeId) (s : ScopeState) (script : String) :
    (e.commanded id s script).scope? id' = if id = id' then
      some { s with
        definitions := (e.scriptRun id s script).1.definitions
        values := (e.follow id s script).2.1.values }
      else e.scope? id' := by
  rw [commanded, scope?_setScope, scope?_mk]

theorem ran_later (e : Engine σ) (id : ScopeId) (s : ScopeState) (script : String) :
    (e.ran id s script).world.store = (e.scriptRun id s script).2.store ∧
      Resolution.Tells (e.scriptRun id s script).2 (e.ran id s script).world := by
  have hcommanded : (e.commanded id s script).world.store = (e.scriptRun id s script).2.store ∧
      Resolution.Tells (e.scriptRun id s script).2 (e.commanded id s script).world := by
    rw [commanded, world_setScope]
    exact ⟨Propagation.store_propagate _ _ _ _ _ _, Propagation.tells_propagate _ _ _ _ _ _⟩
  cases id with
  | page name => exact hcommanded
  | global =>
    refine refreshPages_preserves _ (I := fun e' => e'.world.store = (e.scriptRun .global s script).2.store ∧
      Resolution.Tells (e.scriptRun .global s script).2 e'.world) (fun e' name s' h _ => ?_) _ hcommanded
    exact ⟨(store_refreshPass e' s' name _).trans h.1, h.2.trans (tells_refreshPass e' s' name _)⟩

theorem scope?_ran_self (hs : e.scope? id = some s) (script : String) : (e.ran id s script).scope? id = some { s with
    definitions := (e.scriptRun id s script).1.definitions
    values := (e.follow id s script).2.1.values } := by
  cases id with
  | page name => rw [ran, scope?_commanded, if_pos rfl]
  | global => exact congrArg some (ran_global_frame e s script).1

theorem scope?_ran_page {page : String} (hne : id ≠ .page page) (s : ScopeState) (script : String) :
    (e.ran (.page page) s script).scope? id = e.scope? id := by
  rw [ran, scope?_commanded, if_neg (Ne.symm hne)]

theorem scope?_ran_unloaded {page : String} (h : ∀ t, e.pages[page]? = some t → t.loaded = false) (script : String) :
    (e.ran .global e.global script).scope? (.page page) = e.pages[page]? :=
  (pages_refreshPages_of_idle (e.carried script) fun t ht hloaded => by
    rw [h t ht] at hloaded
    cases hloaded).1

theorem scope?_ran_loaded {page : String} {t : ScopeState} (ht : e.pages[page]? = some t) (hloaded : t.loaded = true)
    (script : String) : ∃ values, (e.ran .global e.global script).scope? (.page page) = some { t with values } ∧
      ∀ n, (.page page, n) ∉ e.refreshedBy .global e.global script →
        values[n]? = if n ∈ (e.follow .global e.global script).2.1.order ∧ n ∉ t.definitions.names then
          (e.ran .global e.global script).global.values[n]? else t.values[n]? := by
  obtain ⟨e₁, hglobal, _, hpages, horder⟩ := pages_refreshPages (e := e.commanded .global e.global script)
    (e.carried script) (NameMap.nodup_keys e.pages) ((NameMap.mem_keys_iff _ _).2 ⟨t, ht⟩) ht hloaded
  refine ⟨_, hpages, fun n hn => ?_⟩
  rw [(settled_refreshPass e₁ t page _).kept n (mt (horder n).2 hn), get?_shown, hglobal, carried]
  simp only [NameSet.mem_ofNames]
  split
  · next hn =>
    obtain ⟨v, hv, _⟩ := (settled_follow e .global e.global script).told n hn.1
    have hvalue : (e.commanded .global e.global script).global.values[n]? = some v := hv
    rw [(ran_global_frame e e.global script).1, hvalue, Option.some_or]
  · rfl

theorem confined_ran (hs : e.scope? id = some s) (script : String) {outcome : Outcome}
    (hrecomputed : outcome.recomputed = (e.follow id s script).2.1.order)
    (hrefreshed : outcome.refreshed = e.refreshedBy id s script) : Confined id s outcome e (e.ran id s script) where
  integrations := (kept_integrations e.integrations).ran rfl hs script
  absent id' h := by
    have hne : id' ≠ id := by
      rintro rfl
      cases hs.symm.trans h
    cases id with
    | page name => rw [scope?_ran_page hne, h]
    | global =>
      cases hs
      cases id' with
      | global => cases h
      | page name => exact (scope?_ran_unloaded (fun t ht => by cases ht.symm.trans h) script).trans h
  own := by
    have hwritten := overwritten_scriptRun e id s script
    refine ⟨_, _, scope?_ran_self hs script, hwritten.names_eq, fun n hn => ?_⟩
    rw [hrecomputed] at hn
    exact ⟨hwritten.get?_eq n (mt (mem_order_follow e id s script) hn), follow_kept e id s script hn⟩
  other id' t hne ht := by
    cases id with
    | page name =>
      refine ⟨t.values, (scope?_ran_page hne s script).trans ht, fun _ => rfl, fun n _ => ?_⟩
      rw [if_neg (by simp)]
    | global =>
      cases hs
      cases id' with
      | global => cases hne rfl
      | page name =>
        by_cases hloaded : t.loaded = true
        · obtain ⟨values, hpage, hvalues⟩ := scope?_ran_loaded ht hloaded script
          refine ⟨values, hpage, by simp [hloaded], fun n hn => ?_⟩
          rw [hvalues n (hrefreshed ▸ hn), hrecomputed]
          simp [hloaded]
        · have hunloaded : ∀ t', e.pages[name]? = some t' → t'.loaded = false := fun t' ht' => by
            rw [Option.some.inj (ht'.symm.trans ht)]
            exact Bool.eq_false_iff.2 hloaded
          refine ⟨t.values, (scope?_ran_unloaded hunloaded script).trans ht, fun _ => rfl, fun n _ => ?_⟩
          rw [if_neg (by simp [hloaded])]
  stored := by
    obtain ⟨new, hnew, hkeeps⟩ := CommandRun.apart_run e.world id s.definitions s.values script
    obtain ⟨hstore, later, hlater, _⟩ := ran_later e id s script
    refine ⟨later ++ new, by rw [hlater, scriptRun, hnew, List.append_assoc], fun h id' hid => ?_⟩
    rw [hstore]
    exact hkeeps (fun event hevent => h event (List.mem_append_right _ hevent)) id' hid

/-- A command in a scope that exists leaves everything else as it is, whether it completes or fails, and one in a scope
that does not exist changes nothing, although commands change the engine in place. In other scopes of a store only a
file can lose something, and only if a value is written that it cannot hold. -/
theorem run_confined (e : Engine σ) (id : ScopeId) (script : String) :
    match e.scope? id with
    | none => e.run id script = .error (.unknownScope id.text) ∧
        (runInPlace id script).on e = (.error (.unknownScope id.text), e)
    | some s => ∃ outcome e', e.run id script = .ok (outcome, e') ∧ (runInPlace id script).on e = (.ok outcome, e') ∧
        Confined id s outcome e e' := by
  rw [on_runInPlace]
  cases hs : e.scope? id with
  | none =>
    have hrun := run_eq_error hs script
    refine ⟨hrun, ?_⟩
    rw [hrun]
    rfl
  | some s =>
    obtain ⟨outcome, hrun, hrecomputed, hrefreshed⟩ := run_eq hs script
    refine ⟨outcome, _, hrun, ?_, confined_ran hs script hrecomputed hrefreshed⟩
    rw [hrun]
    rfl

def nested : Nat → Value
  | 0 => .null
  | depth + 1 => .array [nested depth]

theorem nest_nested (depth : Nat) : (nested depth).nest = depth := by
  induction depth with
  | zero => rfl
  | succ depth ih => simp [nested, Value.nest, Value.nestItems, ih]

theorem legible_nested (depth : Nat) : (nested depth).Legible := by
  induction depth with
  | zero => trivial
  | succ depth ih => exact ⟨ih, trivial⟩

def held (depth : Nat) : VariableSet where
  declared := [⟨"a", .literal (nested depth), none, none⟩]
  nodup := List.nodup_singleton _
  index := NameMap.positions ["a"]

def health : VariableSet where
  declared := [⟨"hp", .literal (.bool true), none, none⟩]
  nodup := by decide

def hoard (store : Store) (depth : Nat) : Engine Unit where
  world := World.start () store
  global := ⟨held depth, NameMap.ofEntries [("a", nested depth)], ∅, ∅, true⟩
  pages := NameMap.ofEntries [("inn", ⟨health, NameMap.ofEntries [("hp", .bool true)], ∅, ∅, true⟩)]
  tables := ∅

theorem sequence_wrap (store : Store) : Await.sequence (World.start () store).integrations .command
    "setValue('a', [a])" = "(await setValue('a', [a]))" := by
  have hdeferred : Await.deferredCalls (World.start () store).integrations .command = Await.writers := by
    change Await.deferredCalls (World.start () .none).integrations .command = _
    decide +kernel
  have hcall : Await.firstMatch (Await.callPatterns Await.writers) [] "setValue('a', [a])".toList =
      some ⟨"setValue", "setValue(".toList, "'a', [a])".toList⟩ := by
    rw [Await.callPatterns_writers]
    cbv
  have hargs : Await.sequenceCalls Await.writers "'a', [a]".toList = "'a', [a]".toList :=
    Await.sequenceCalls_of_isIdle Await.callable_writers (by rw [Await.isIdle, Await.callPatterns_writers]; cbv)
  have hsplit : Await.splitParen "'a', [a])".toList = some ("'a', [a]".toList, []) := by cbv
  rw [Await.sequenceCalls] at hargs
  rw [Await.sequence, hdeferred, Await.sequenceCalls, Await.sequenceFrom_call hcall (by cbv) hsplit, hargs,
    Await.sequenceFrom_end]
  cbv

theorem scriptRun_hoard (store : Store) (depth : Nat) :
    let c := (hoard store depth).scriptRun .global (hoard store depth).global "setValue('a', [a])"
    c.2.store = store.keep .global "a" (nested (depth + 1)) ∧
      c.2.events = [⟨.resolved, .global, "a", nested (depth + 1)⟩, ⟨.modified, .global, "a", nested (depth + 1)⟩] := by
  have hparse : Program.parse "(await setValue('a', [a]))" =
      .ok [.expr (.await (.call (.identifier "setValue") [.string "a", .array [.identifier "a"]]))] := by cbv
  intro c
  have hrun : c = _ := CommandRun.run_of_parse .global (held depth) (hoard store depth).global.values
    (sequence_wrap store) (by cbv) hparse
  rw [hrun]
  exact ⟨rfl, rfl⟩

def innFile : Store := (Store.file "/state.json" .none).keep (.page "inn") "hp" (.bool true)

def innDocument : Store.Document := .write ∅ (.page "inn") "hp" (.bool true)

theorem mirrors_innFile : ∃ text, innFile = .file "/state.json" text ∧ Store.Mirrors "/state.json" text innDocument := by
  have hnew := Store.mirrors_new "/state.json"
  exact ⟨_, (Store.keep_file hnew (.page "inn") "hp" (.bool true)).1, hnew.write _ _ trivial (Nat.zero_le _)⟩

theorem keeps_innFile {value : Value} (h : value.Legible) (hnest : value.nest ≤ Store.Document.depth) :
    innFile.Keeps value := by
  have hnew : ∀ v : Value, v.Legible → v.nest ≤ Store.Document.depth → (Store.file "/state.json" .none).Keeps v := by
    refine fun v hv hnest => ⟨hv, hnest, fun state hstate => ?_⟩
    cases hstate
    simp [Store.Document.All]
  exact (hnew (.bool true) trivial (Nat.zero_le _)).keep (hnew value h hnest) _ _

theorem load_innFile : ∃ kept, innFile.load (.page "inn") = .ok kept ∧ kept["hp"]? = some (.bool true) := by
  obtain ⟨text, hfile, hmirrors⟩ := mirrors_innFile
  refine ⟨innDocument.filed.values (.page "inn"), ?_, ?_⟩
  · rw [hfile, Store.load, hmirrors.read]
    rfl
  · rw [innDocument, Store.Document.filed_write, Store.Document.values_write, if_pos rfl, NameMap.get?_insert, if_pos rfl]
    rfl

/-- An array in the global scope leaves what the file holds for the page as it is. -/
theorem run_confined_shallow : ∃ outcome e', (hoard innFile 0).run .global "setValue('a', [a])" = .ok (outcome, e') ∧
    e'.world.store.load (.page "inn") = innFile.load (.page "inn") := by
  have hglobal : (hoard innFile 0).scope? .global = some (hoard innFile 0).global := rfl
  obtain ⟨outcome, e', hrun, -, hconfined⟩ := run_confined (hoard innFile 0) .global "setValue('a', [a])"
  obtain ⟨_, hrun', _⟩ := run_eq hglobal "setValue('a', [a])"
  obtain ⟨_, later, hlater, hkind⟩ := ran_later (hoard innFile 0) .global (hoard innFile 0).global "setValue('a', [a])"
  obtain ⟨new, hnew, hload⟩ := hconfined.stored
  refine ⟨outcome, e', hrun, hload (fun event hevent hmodified => ?_) _ nofun⟩
  cases hrun.symm.trans hrun'
  rw [(scriptRun_hoard innFile 0).2] at hlater
  have hmem : event ∈ later ++ [⟨.resolved, .global, "a", nested 1⟩, ⟨.modified, .global, "a", nested 1⟩] := by
    rw [← hlater, hnew]
    exact List.mem_append_left _ hevent
  have hkeeps : innFile.Keeps (nested 1) := keeps_innFile (legible_nested 1) (by decide)
  rcases List.mem_append.1 hmem with hmem | hmem
  · rw [hkind event hmem] at hmodified
    cases hmodified
  · simp only [List.mem_cons, List.not_mem_nil, or_false] at hmem
    rcases hmem with rfl | rfl
    · exact hkeeps
    · exact hkeeps

/-- One array more than the file can hold, written in the global scope, and what it holds for the page is lost. -/
theorem run_confined_deep : ∃ outcome e' kept,
    (hoard innFile Store.Document.depth).run .global "setValue('a', [a])" = .ok (outcome, e') ∧
      innFile.load (.page "inn") = .ok kept ∧ kept["hp"]? = some (.bool true) ∧
      e'.world.store.load (.page "inn") = .error (.invalidState "/state.json") := by
  have hglobal : (hoard innFile Store.Document.depth).scope? .global =
      some (hoard innFile Store.Document.depth).global := rfl
  obtain ⟨outcome, hrun, _⟩ := run_eq hglobal "setValue('a', [a])"
  obtain ⟨kept, hkept, hvalue⟩ := load_innFile
  refine ⟨outcome, _, kept, hrun, hkept, hvalue, ?_⟩
  obtain ⟨text, hfile, hmirrors⟩ := mirrors_innFile
  have hdeep : Store.Document.depth < (nested (Store.Document.depth + 1)).nest := by
    rw [nest_nested]
    exact Nat.lt_succ_self _
  rw [(ran_later _ _ _ _).1, (scriptRun_hoard innFile Store.Document.depth).1, hfile,
    (Store.keep_file hmirrors .global "a" _).1, Store.load, Store.readFile_deep hmirrors .global "a"
      (legible_nested _) hdeep]
  rfl

end Engine

end LiveSheet
