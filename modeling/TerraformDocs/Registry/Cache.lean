import TerraformDocs.LockFile.Basic
import TerraformDocs.Text.Blank

/-!
# Newest versions

A version source tells the newest published version of a provider, or nothing; its answers may
change from one question to the next, so a source carries a state.  A cache keeps what a source has
answered, except answers that are missing or blank, and asks for each provider until it knows one.
Main statements: what becomes of a question whose answer is known (`newestVersion_hit`) and of one
whose answer is not (`newestVersion_miss`).
-/

namespace TerraformDocs

abbrev VersionSource (σ : Type) := ProviderSource → StateM σ (Option String)

/-- The versions that are known, at most one for each provider. -/
structure VersionCache where
  entries : List (ProviderSource × String)
deriving DecidableEq, Repr

namespace VersionCache

def empty : VersionCache := ⟨[]⟩

def find? (cache : VersionCache) (provider : ProviderSource) : Option String :=
  (cache.entries.find? fun entry => entry.1 = provider).map Prod.snd

def insert (cache : VersionCache) (provider : ProviderSource) (version : String) : VersionCache :=
  ⟨cache.entries.filter (fun entry => entry.1 ≠ provider) ++ [(provider, version)]⟩

def size (cache : VersionCache) : Nat := cache.entries.length

@[simp] theorem find?_empty (provider : ProviderSource) : empty.find? provider = none := rfl

theorem find?_insert (cache : VersionCache) (provider asked : ProviderSource) (version : String) :
    (cache.insert provider version).find? asked =
      if asked = provider then some version else cache.find? asked := by
  have hkept : (cache.entries.filter (·.1 ≠ provider)).find? (·.1 = asked) =
      if asked = provider then none else cache.entries.find? (·.1 = asked) := by
    rw [List.find?_filter]
    split
    · next h => simp [h]
    · next h =>
      congr 1
      funext entry
      by_cases hentry : entry.1 = asked <;> simp [hentry, h]
  rw [find?, insert, List.find?_append, hkept]
  split
  · next h => simp [h]
  · next h => simp [find?, Ne.symm h]

def learn (cache : VersionCache) (provider : ProviderSource) : Option String → VersionCache
  | some version => cache.insert provider version
  | none => cache

theorem find?_learn {cache : VersionCache} {provider : ProviderSource}
    (h : cache.find? provider = none) (known : Option String) (asked : ProviderSource) :
    (cache.learn provider known).find? asked =
      if asked = provider then known else cache.find? asked := by
  cases known with
  | some version => exact find?_insert cache provider asked version
  | none =>
      by_cases hasked : asked = provider
      · simp [learn, hasked, h]
      · simp [learn, hasked]

end VersionCache

def isVersionAnswer (answer : String) : Bool := Text.trimChars answer.toList ≠ []

structure LookupState (σ : Type) where
  cache : VersionCache
  source : σ

/-- The newest version of a provider, from the cache or else from the source. -/
def newestVersion {σ : Type} (ask : VersionSource σ) (provider : ProviderSource) :
    StateM (LookupState σ) (Option String) := fun state =>
  match state.cache.find? provider with
  | some version => (some version, state)
  | none =>
    let (answer, source) := ask provider state.source
    match answer.filter isVersionAnswer with
    | some version => (some version, ⟨state.cache.insert provider version, source⟩)
    | none => (none, ⟨state.cache, source⟩)

theorem newestVersion_hit {σ : Type} {ask : VersionSource σ} {provider : ProviderSource}
    {state : LookupState σ} {version : String} (h : state.cache.find? provider = some version) :
    newestVersion ask provider state = (some version, state) := by
  simp only [newestVersion, h]

theorem newestVersion_miss {σ : Type} {ask : VersionSource σ} {provider : ProviderSource}
    {state : LookupState σ} (h : state.cache.find? provider = none) :
    newestVersion ask provider state =
      ((ask provider state.source).1.filter isVersionAnswer,
        ⟨state.cache.learn provider ((ask provider state.source).1.filter isVersionAnswer),
          (ask provider state.source).2⟩) := by
  rcases hask : ask provider state.source with ⟨answer, source⟩
  cases hgot : answer.filter isVersionAnswer with
  | some version => simp only [newestVersion, h, hask, hgot, VersionCache.learn]
  | none => simp only [newestVersion, h, hask, hgot, VersionCache.learn]

def isNewest {σ : Type} (ask : VersionSource σ) (provider : ProviderSource) (version : String) :
    StateM (LookupState σ) Bool := do
  return (← newestVersion ask provider) = some version

end TerraformDocs
