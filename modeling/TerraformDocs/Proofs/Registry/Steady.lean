import Mathlib.Tactic.Choose
import TerraformDocs.Registry.Cache

/-!
# Lookups with a steady source

A steady source always says the same of a provider.  What its cache holds is then what it would
answer again, so a lookup returns one value, whichever lookups have filled the cache before.
`Yields` and `Settles` state this of a computation; they pass through sequencing, so they hold of
every computation that uses the source through the cache alone.
-/

namespace TerraformDocs

namespace VersionCache

/-- The cache holds answers that are worth keeping, and nothing else. -/
def Holds (cache : VersionCache) (answer : ProviderSource → Option String) : Prop :=
  ∀ provider version, cache.find? provider = some version →
    (answer provider).filter isVersionAnswer = some version

theorem holds_empty (answer : ProviderSource → Option String) : empty.Holds answer := by
  intro provider version h
  simp at h

theorem Holds.learn {cache : VersionCache} {answer : ProviderSource → Option String}
    (h : cache.Holds answer) {provider : ProviderSource} (hnone : cache.find? provider = none) :
    (cache.learn provider ((answer provider).filter isVersionAnswer)).Holds answer := by
  intro asked found hfound
  rw [find?_learn hnone] at hfound
  split at hfound
  · next hasked => rwa [hasked]
  · exact h asked found hfound

end VersionCache

/-! ## What a computation yields -/

section Yields

variable {τ α β : Type} {inv : τ → Prop}

/-- From every state with `inv` the computation returns `value` and comes to another such state. -/
def Yields (inv : τ → Prop) (run : StateM τ α) (value : α) : Prop :=
  ∀ state, inv state → (run state).1 = value ∧ inv (run state).2

theorem Yields.pure (value : α) : Yields inv (Pure.pure value : StateM τ α) value :=
  fun _ hstate => ⟨rfl, hstate⟩

theorem Yields.bind {run : StateM τ α} {next : α → StateM τ β} {value : α} {result : β}
    (hrun : Yields inv run value) (hnext : Yields inv (next value) result) :
    Yields inv (run >>= next) result := by
  intro state hstate
  obtain ⟨hvalue, hafter⟩ := hrun state hstate
  have hresult := hnext _ hafter
  rw [← hvalue] at hresult
  exact hresult

theorem Yields.map {run : StateM τ α} {value : α} (hrun : Yields inv run value) (f : α → β) :
    Yields inv (f <$> run) (f value) := by
  rw [← bind_pure_comp]
  exact hrun.bind (.pure _)

theorem Yields.mapM {run : α → StateM τ β} {value : α → β} {items : List α}
    (hrun : ∀ item ∈ items, Yields inv (run item) (value item)) :
    Yields inv (items.mapM run) (items.map value) := by
  induction items with
  | nil => exact .pure []
  | cons item items ih =>
      rw [List.mapM_cons, List.map_cons]
      have hfirst := hrun item (by simp)
      have hothers := ih fun other hmem => hrun other (by simp [hmem])
      exact hfirst.bind (hothers.bind (.pure _))

def Settles (inv : τ → Prop) (run : StateM τ α) : Prop := ∃ value, Yields inv run value

theorem Settles.pure (value : α) : Settles inv (Pure.pure value : StateM τ α) :=
  ⟨value, .pure value⟩

theorem Settles.bind {run : StateM τ α} {next : α → StateM τ β} (hrun : Settles inv run)
    (hnext : ∀ value, Settles inv (next value)) : Settles inv (run >>= next) := by
  obtain ⟨value, hvalue⟩ := hrun
  obtain ⟨result, hresult⟩ := hnext value
  exact ⟨result, hvalue.bind hresult⟩

theorem Settles.yields {run : StateM τ α} (hrun : Settles inv run) {state : τ}
    (hstate : inv state) : Yields inv run (run state).1 := by
  obtain ⟨value, hvalue⟩ := hrun
  rwa [(hvalue state hstate).1]

theorem Settles.state_eq {run : StateM τ α} (hrun : ∀ inv, Settles inv run) (state : τ) :
    (run state).2 = state := by
  obtain ⟨value, hvalue⟩ := hrun (· = state)
  exact (hvalue state rfl).2

theorem Settles.mapM {run : α → StateM τ β} (hrun : ∀ item, Settles inv (run item))
    (items : List α) : Settles inv (items.mapM run) := by
  choose value hvalue using hrun
  exact ⟨items.map value, .mapM fun item _ => hvalue item⟩

end Yields

/-! ## The source behind the cache -/

variable {σ : Type}

/-- The source always says the same of a provider. -/
def VersionSource.Steady (ask : VersionSource σ) : Prop :=
  ∀ provider source other, (ask provider source).1 = (ask provider other).1

inductive LookupState.Reached (ask : VersionSource σ) : LookupState σ → Prop
  | fresh (source : σ) : Reached ask ⟨.empty, source⟩
  | asked {state : LookupState σ} (provider : ProviderSource) :
      Reached ask state → Reached ask (newestVersion ask provider state).2

theorem newestVersion_of_holds {ask : VersionSource σ}
    {answer : ProviderSource → Option String}
    (h : ∀ provider source, (ask provider source).1 = answer provider)
    (provider : ProviderSource) :
    Yields (fun state : LookupState σ => state.cache.Holds answer)
      (newestVersion ask provider) ((answer provider).filter isVersionAnswer) := by
  intro state hstate
  cases hfound : state.cache.find? provider with
  | some version =>
      rw [newestVersion_hit hfound]
      exact ⟨(hstate provider version hfound).symm, hstate⟩
  | none =>
      rw [newestVersion_miss hfound, h]
      exact ⟨rfl, hstate.learn hfound⟩

theorem LookupState.Reached.holds {ask : VersionSource σ}
    {answer : ProviderSource → Option String}
    (h : ∀ provider source, (ask provider source).1 = answer provider)
    {state : LookupState σ} (reached : Reached ask state) : state.cache.Holds answer := by
  induction reached with
  | fresh source => exact VersionCache.holds_empty answer
  | asked provider _ ih => exact (newestVersion_of_holds h provider _ ih).2

theorem newestVersion_settles {ask : VersionSource σ} (steady : VersionSource.Steady ask)
    (provider : ProviderSource) :
    Settles (LookupState.Reached ask) (newestVersion ask provider) := by
  by_cases hsource : Nonempty σ
  · obtain ⟨source⟩ := hsource
    have h := fun asked other => steady asked other source
    exact ⟨_, fun state reached =>
      ⟨(newestVersion_of_holds h provider state (reached.holds h)).1, reached.asked provider⟩⟩
  · exact ⟨none, fun state _ => absurd ⟨state.source⟩ hsource⟩

end TerraformDocs
