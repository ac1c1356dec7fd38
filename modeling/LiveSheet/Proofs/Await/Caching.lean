import LiveSheet.Await.Registry

/-! What is remembered of the integrations makes no difference. However often they change and whatever was
asked before, an answer is the one that would be given with nothing remembered. -/

namespace LiveSheet.Await

variable {σ : Type}

/-- A change of the registered integrations. -/
inductive Change (σ : Type) where
  | register (integration : Integration σ)
  | remove (name : String)
  | clear

def Change.apply (set : IntegrationSet σ) : Change σ → IntegrationSet σ
  | .register integration => set.register integration
  | .remove name => set.remove name
  | .clear => set.clear

inductive Query where
  | sequence (mode : Mode) (text : String)
  | invoked (text : String)

inductive Answer where
  | text (sequenced : String)
  | names (found : NameSet)

inductive Step (σ : Type) where
  | change (c : Change σ)
  | invalidate
  | query (q : Query)

def Step.apply (set : IntegrationSet σ) : Step σ → IntegrationSet σ
  | .change c => c.apply set
  | .invalidate | .query _ => set

def Step.isChange : Step σ → Bool
  | .change _ => true
  | .invalidate | .query _ => false

/-- A change counts once, or not at all if there was nothing to take out. -/
theorem version_apply (set : IntegrationSet σ) (s : Step σ) : set.version ≤ (s.apply set).version ∧
    (s.apply set).version ≤ set.version + [s].countP Step.isChange := by
  cases s with
  | change c =>
    change set.version ≤ (c.apply set).version ∧ (c.apply set).version ≤ set.version + 1
    cases c with
    | register integration => exact ⟨Nat.le_succ _, Nat.le_refl _⟩
    | remove name =>
      rw [Change.apply, IntegrationSet.remove]
      split
      · exact ⟨Nat.le_succ _, Nat.le_refl _⟩
      · exact ⟨Nat.le_refl _, Nat.le_succ _⟩
    | clear =>
      rw [Change.apply, IntegrationSet.clear]
      split
      · exact ⟨Nat.le_refl _, Nat.le_succ _⟩
      · exact ⟨Nat.le_succ _, Nat.le_refl _⟩
  | invalidate | query q => exact ⟨Nat.le_refl _, Nat.le_refl _⟩

theorem version_foldl_apply (set : IntegrationSet σ) (steps : List (Step σ)) :
    (steps.foldl Step.apply set).version ≤ set.version + steps.countP Step.isChange := by
  induction steps generalizing set with
  | nil => exact Nat.le_refl _
  | cons s steps ih =>
    have hstep := (version_apply set s).2
    have hsteps := ih (s.apply set)
    rw [← List.singleton_append, List.countP_append]
    exact Nat.le_trans hsteps (by omega)

namespace Registry

/-- Integrations for which nothing was worked out. -/
def fresh (set : IntegrationSet σ) : Registry σ := ⟨set, .empty, Cache.sound_empty set⟩

def change (r : Registry σ) : Change σ → Registry σ
  | .register integration => r.register integration
  | .remove name => r.remove name
  | .clear => r.clear

def ask (r : Registry σ) : Query → Answer × Registry σ
  | .sequence mode text => (r.sequence mode text).map .text id
  | .invoked text => (r.invoked text).map .names id

def step (r : Registry σ) : Step σ → Registry σ
  | .change c => r.change c
  | .invalidate => r.invalidate
  | .query q => (r.ask q).2

def after (r : Registry σ) (steps : List (Step σ)) : Registry σ := steps.foldl step r

theorem integrations_change (r : Registry σ) (c : Change σ) :
    (r.change c).integrations = c.apply r.integrations := by
  cases c <;> rfl

theorem integrations_ask (r : Registry σ) (q : Query) : (r.ask q).2.integrations = r.integrations := by
  cases q with
  | sequence mode text => exact integrations_sequence r mode text
  | invoked text => exact integrations_invoked r text

theorem integrations_step (r : Registry σ) (s : Step σ) :
    (r.step s).integrations = s.apply r.integrations := by
  cases s with
  | change c => exact integrations_change r c
  | invalidate => rfl
  | query q => exact integrations_ask r q

theorem integrations_after (r : Registry σ) (steps : List (Step σ)) :
    (r.after steps).integrations = steps.foldl Step.apply r.integrations := by
  induction steps generalizing r with
  | nil => rfl
  | cons s steps ih =>
    simp only [after, List.foldl_cons, ← integrations_step] at ih ⊢
    exact ih (r.step s)

theorem ask_fst (r : Registry σ) (q : Query) : (r.ask q).1 = ((fresh r.integrations).ask q).1 := by
  cases q with
  | sequence mode text =>
    exact congrArg Answer.text ((sequence_fst r mode text).trans (sequence_fst (fresh _) mode text).symm)
  | invoked text =>
    exact congrArg Answer.names ((invoked_fst r text).trans (invoked_fst (fresh _) text).symm)

theorem version_ask (r : Registry σ) (q : Query) : (r.ask q).2.cache.version = some r.integrations.version := by
  cases q with
  | sequence mode text =>
    change (r.sequence mode text).2.cache.version = _
    unfold sequence
    simp only
    split
    · exact Cache.version_atVersion ..
    · change ((r.cache.atVersion _).patterns _ mode).2.version = _
      rw [Cache.version_patterns, Cache.version_atVersion]
  | invoked text =>
    change ((r.cache.atVersion _).names _).2.version = _
    rw [Cache.version_names, Cache.version_atVersion]

/-- The cache is never of a version from before it was first filled. -/
theorem le_version_cache {first : Nat} {r : Registry σ} (h : first ≤ r.integrations.version)
    (hcache : ∀ v ∈ r.cache.version, first ≤ v) (steps : List (Step σ)) :
    ∀ v ∈ (r.after steps).cache.version, first ≤ v := by
  induction steps generalizing r with
  | nil => exact hcache
  | cons s steps ih =>
    have hstep : first ≤ (r.step s).integrations.version := by
      rw [integrations_step]
      exact Nat.le_trans h (version_apply _ s).1
    refine ih hstep ?_
    cases s with
    | change c => cases c <;> exact hcache
    | invalidate => nofun
    | query q =>
      intro v hv
      rw [step, version_ask] at hv
      obtain rfl := Option.some.inj hv
      exact h

/-- As long as the integrations change fewer than 2 ^ 64 times, a version of 64 bits tells just as well whether the
cache is of the integrations as they stand. -/
theorem toUInt64_version_after (set : IntegrationSet σ) (steps : List (Step σ))
    (h : steps.countP Step.isChange < UInt64.size) :
    let r := (fresh set).after steps
    r.cache.version.map Nat.toUInt64 = some r.integrations.version.toUInt64 ↔
      r.cache.version = some r.integrations.version := by
  intro r
  refine ⟨fun hsame => ?_, fun hsame => by rw [hsame, Option.map_some]⟩
  obtain ⟨v, hv, hsame⟩ := Option.map_eq_some_iff.1 hsame
  have hfirst : set.version ≤ v := le_version_cache (r := fresh set) (Nat.le_refl _) nofun steps v hv
  have hlast : v ≤ r.integrations.version := r.sound.version_le v hv
  have hcount : r.integrations.version ≤ set.version + steps.countP Step.isChange := by
    rw [integrations_after]
    exact version_foldl_apply set steps
  have hlow : v % UInt64.size = r.integrations.version % UInt64.size := congrArg UInt64.toNat hsame
  simp only [UInt64.size] at h hlow
  have heq : v = r.integrations.version := by omega
  rw [hv, heq]

/-- After any steps an answer is that of the integrations as they stand, with nothing worked out for them;
what is remembered then is of their version, and never too much. -/
theorem ask_after (set : IntegrationSet σ) (steps : List (Step σ)) (q : Query) :
    let r := (fresh set).after steps
    let set' := steps.foldl Step.apply set
    (r.ask q).1 = ((fresh set').ask q).1 ∧ (r.ask q).2.cache.version = some set'.version ∧
      r.cache.texts.size ≤ Cache.limit ∧ (r.ask q).2.cache.texts.size ≤ Cache.limit := by
  intro r set'
  have hset : r.integrations = set' := integrations_after (fresh set) steps
  refine ⟨?_, ?_, r.sound.size_le, (r.ask q).2.sound.size_le⟩
  · rw [ask_fst, hset]
  · rw [version_ask, hset]

end Registry

end LiveSheet.Await
