import Std.Data.HashMap
import LiveSheet.Await.Sequence

/-!
The registered integrations together with what sequencing has worked out for them so far: the
patterns of their calls and of their names, and sequenced texts. All of it is kept until the
integrations change, and the texts until too many are kept; what is remembered is always what
working it out again would give.
-/

namespace LiveSheet.Await

def sequenceMatches (patterns : List Pattern) (text : String) : String :=
  String.ofList (sequenceFrom patterns (Text.nonCodeSpans text.toList) 0 [] text.toList)

def foundNames (patterns : List Pattern) (text : String) : NameSet :=
  NameSet.ofNames (foundFrom patterns (Text.nonCodeSpans text.toList) 0 [] text.toList)

variable {σ : Type}

def setPatterns (set : IntegrationSet σ) (mode : Mode) : List Pattern := callPatterns (deferredCalls set mode)

def namePatterns (set : IntegrationSet σ) : List Pattern := set.namespaces.map ownerPattern

theorem sequenceMatches_setPatterns (set : IntegrationSet σ) (mode : Mode) (text : String) :
    sequenceMatches (setPatterns set mode) text = sequence set mode text := rfl

theorem foundNames_namePatterns (set : IntegrationSet σ) (text : String) :
    foundNames (namePatterns set) text = invoked set text := rfl

structure Cache where
  version : Option Nat
  /-- The patterns of calls, by the kind of text they are looked for in. -/
  calls : Std.HashMap Mode (List Pattern)
  owners : Option (List Pattern)
  texts : Std.HashMap (Mode × String) String

namespace Cache

def empty : Cache := ⟨none, ∅, none, ∅⟩

def limit : Nat := 1024

/-- The cache for a version: this one if it was built for it, else an empty one. -/
def atVersion (cache : Cache) (version : Nat) : Cache :=
  if cache.version = some version then cache else { empty with version := some version }

def patterns (cache : Cache) (set : IntegrationSet σ) (mode : Mode) : List Pattern × Cache :=
  match cache.calls[mode]? with
  | some patterns => (patterns, cache)
  | none => (setPatterns set mode, { cache with calls := cache.calls.insert mode (setPatterns set mode) })

def names (cache : Cache) (set : IntegrationSet σ) : List Pattern × Cache :=
  match cache.owners with
  | some patterns => (patterns, cache)
  | none => (namePatterns set, { cache with owners := some (namePatterns set) })

/-- Keeps a sequenced text. A full cache gives up the texts it has first. -/
def keep (cache : Cache) (mode : Mode) (text sequenced : String) : Cache :=
  let texts := if limit ≤ cache.texts.size then ∅ else cache.texts
  { cache with texts := texts.insert (mode, text) sequenced }

/-- What a cache holds is right for the integrations, and there is not too much of it. -/
structure Sound (cache : Cache) (set : IntegrationSet σ) : Prop where
  version_le : ∀ v ∈ cache.version, v ≤ set.version
  calls_eq : cache.version = some set.version → ∀ mode patterns,
    cache.calls[mode]? = some patterns → patterns = setPatterns set mode
  owners_eq : cache.version = some set.version → ∀ patterns ∈ cache.owners, patterns = namePatterns set
  texts_eq : cache.version = some set.version → ∀ mode text sequenced,
    cache.texts[(mode, text)]? = some sequenced → sequenced = sequence set mode text
  size_le : cache.texts.size ≤ limit

@[simp] theorem version_atVersion (cache : Cache) (version : Nat) :
    (cache.atVersion version).version = some version := by
  unfold atVersion
  split
  · assumption
  · rfl

@[simp] theorem version_patterns (cache : Cache) (set : IntegrationSet σ) (mode : Mode) :
    (cache.patterns set mode).2.version = cache.version := by
  unfold patterns
  split <;> rfl

@[simp] theorem version_names (cache : Cache) (set : IntegrationSet σ) :
    (cache.names set).2.version = cache.version := by
  unfold names
  split <;> rfl

theorem sound_empty (set : IntegrationSet σ) : empty.Sound set where
  version_le := by simp [empty]
  calls_eq := by simp [empty]
  owners_eq := by simp [empty]
  texts_eq := by simp [empty]
  size_le := by simp [empty]

namespace Sound

variable {cache : Cache} {set set' : IntegrationSet σ}

/-- A cache for an earlier version is right for a later one: nothing of it counts. -/
theorem of_lt (h : cache.Sound set) (lt : set.version < set'.version) : cache.Sound set' where
  version_le v hv := by have := h.version_le v hv; omega
  calls_eq hv := by have := h.version_le _ hv; omega
  owners_eq hv := by have := h.version_le _ hv; omega
  texts_eq hv := by have := h.version_le _ hv; omega
  size_le := h.size_le

theorem atVersion (h : cache.Sound set) : (cache.atVersion set.version).Sound set := by
  unfold Cache.atVersion
  split
  · exact h
  · exact ⟨by simp, by simp [empty], by simp [empty], by simp [empty], by simp [empty]⟩

theorem patterns_fst (h : cache.Sound set) (hv : cache.version = some set.version) (mode : Mode) :
    (cache.patterns set mode).1 = setPatterns set mode := by
  unfold Cache.patterns
  split
  · next hp => exact h.calls_eq hv mode _ hp
  · rfl

theorem sequenceMatches_patterns (h : cache.Sound set) (hv : cache.version = some set.version) (mode : Mode)
    (text : String) : sequenceMatches (cache.patterns set mode).1 text = sequence set mode text := by
  rw [h.patterns_fst hv, sequenceMatches_setPatterns]

theorem patterns (h : cache.Sound set) (mode : Mode) : (cache.patterns set mode).2.Sound set := by
  unfold Cache.patterns
  split
  · exact h
  · refine ⟨h.version_le, fun hv mode' out => ?_, h.owners_eq, h.texts_eq, h.size_le⟩
    rw [Std.HashMap.getElem?_insert]
    split
    · next heq =>
      obtain rfl := eq_of_beq heq
      exact fun hout => (Option.some.inj hout).symm
    · exact h.calls_eq hv mode' out

theorem names_fst (h : cache.Sound set) (hv : cache.version = some set.version) :
    (cache.names set).1 = namePatterns set := by
  unfold Cache.names
  split
  · next hp => exact h.owners_eq hv _ hp
  · rfl

theorem names (h : cache.Sound set) : (cache.names set).2.Sound set := by
  unfold Cache.names
  split
  · exact h
  · exact ⟨h.version_le, h.calls_eq, fun _ out hout => (Option.some.inj hout).symm, h.texts_eq, h.size_le⟩

theorem keep (h : cache.Sound set) {mode : Mode} {text sequenced : String}
    (hs : sequenced = sequence set mode text) : (cache.keep mode text sequenced).Sound set where
  version_le := h.version_le
  calls_eq := h.calls_eq
  owners_eq := h.owners_eq
  texts_eq hv mode' text' out := by
    have := h.texts_eq hv
    simp only [Cache.keep, Std.HashMap.getElem?_insert]
    split
    · next heq =>
      obtain ⟨rfl, rfl⟩ := Prod.mk.injEq .. ▸ eq_of_beq heq
      exact fun hout => (Option.some.inj hout).symm.trans hs
    · split
      · simp
      · exact this mode' text' out
  size_le := by
    have := h.size_le
    simp only [Cache.keep]
    split <;> grind [Std.HashMap.size_insert_le, limit]

end Sound

end Cache

structure Registry (σ : Type) where
  integrations : IntegrationSet σ
  cache : Cache
  sound : cache.Sound integrations

namespace Registry

def empty : Registry σ := ⟨.empty, .empty, Cache.sound_empty _⟩

def register (r : Registry σ) (integration : Integration σ) : Registry σ where
  integrations := r.integrations.register integration
  cache := r.cache
  sound := r.sound.of_lt (Nat.lt_succ_self _)

def remove (r : Registry σ) (name : String) : Registry σ where
  integrations := r.integrations.remove name
  cache := r.cache
  sound := by
    unfold IntegrationSet.remove
    split
    · exact r.sound.of_lt (Nat.lt_succ_self _)
    · exact r.sound

def clear (r : Registry σ) : Registry σ where
  integrations := r.integrations.clear
  cache := r.cache
  sound := by
    unfold IntegrationSet.clear
    split
    · exact r.sound
    · exact r.sound.of_lt (Nat.lt_succ_self _)

def invalidate (r : Registry σ) : Registry σ := ⟨r.integrations, .empty, Cache.sound_empty _⟩

def invoked (r : Registry σ) (text : String) : NameSet × Registry σ :=
  let cache := r.cache.atVersion r.integrations.version
  (foundNames (cache.names r.integrations).1 text,
    ⟨r.integrations, (cache.names r.integrations).2, r.sound.atVersion.names⟩)

def sequence (r : Registry σ) (mode : Mode) (text : String) : String × Registry σ :=
  let cache := r.cache.atVersion r.integrations.version
  match cache.texts[(mode, text)]? with
  | some sequenced => (sequenced, ⟨r.integrations, cache, r.sound.atVersion⟩)
  | none =>
    let sequenced := sequenceMatches (cache.patterns r.integrations mode).1 text
    (sequenced, ⟨r.integrations, (cache.patterns r.integrations mode).2.keep mode text sequenced,
      (r.sound.atVersion.patterns mode).keep
        (r.sound.atVersion.sequenceMatches_patterns (Cache.version_atVersion ..) mode text)⟩)

@[simp] theorem sequence_fst (r : Registry σ) (mode : Mode) (text : String) :
    (r.sequence mode text).1 = Await.sequence r.integrations mode text := by
  unfold sequence
  simp only
  split
  · next h => exact r.sound.atVersion.texts_eq (Cache.version_atVersion ..) _ _ _ h
  · exact r.sound.atVersion.sequenceMatches_patterns (Cache.version_atVersion ..) mode text

@[simp] theorem invoked_fst (r : Registry σ) (text : String) :
    (r.invoked text).1 = Await.invoked r.integrations text := by
  unfold invoked
  simp only
  rw [r.sound.atVersion.names_fst (Cache.version_atVersion ..), foundNames_namePatterns]

@[simp] theorem integrations_sequence (r : Registry σ) (mode : Mode) (text : String) :
    (r.sequence mode text).2.integrations = r.integrations := by
  unfold sequence
  simp only
  split <;> rfl

@[simp] theorem integrations_invoked (r : Registry σ) (text : String) :
    (r.invoked text).2.integrations = r.integrations := rfl

end Registry

end LiveSheet.Await
