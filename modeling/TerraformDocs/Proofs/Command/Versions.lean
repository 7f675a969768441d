import Mathlib.Tactic.Choose
import TerraformDocs.Command.Versions
import TerraformDocs.Proofs.Target.Steady

/-!
# Listed versions and linked versions

The rows for the locked providers are made one after another with one cache.  With a steady source,
or none, the row of the first lock of a provider tells what links show for it: the resolved version,
or `latest` if that is the newest one or there is none (`providerVersion_of_row`).
-/

namespace TerraformDocs

variable {σ : Type}

theorem Registry.source_steady (network : Network) (base : String) :
    VersionSource.Steady (source network base) := by
  intro provider requests other
  simp only [source]
  cases network (providerUrl base provider) with
  | unreachable => rfl
  | dropped => rfl
  | answered status body => rfl

namespace VersionRow

def shown (row : VersionRow) : String :=
  match row.resolved with
  | none => DocTarget.latest
  | some resolved => if row.isLatest = some true then DocTarget.latest else resolved

variable {context : LookupContext σ} {inv : LookupState σ → Prop}

theorem ofLock_yields (settled : context.Settled inv) (lock : ProviderLock) :
    ∃ row, Yields inv (ofLock context lock) row ∧
      ∀ name, context.lockFile.bind (·.providerNamed? name) = some lock →
        Yields inv (context.providerVersion name) (lock.source, row.shown) := by
  unfold LookupContext.providerVersion ofLock
  cases hnewest : context.newest with
  | none =>
      refine ⟨_, .bind (.pure none) (.pure _), fun name hlock => ?_⟩
      cases hversion : lock.version with
      | none =>
          simp only [hlock, hversion]
          exact .pure _
      | some locked =>
          simp only [hlock, hversion]
          exact .pure _
  | some ask =>
      cases hversion : lock.version with
      | none =>
          refine ⟨_, .bind (.pure none) (.pure _), fun name hlock => ?_⟩
          simp only [hlock, hversion]
          exact .pure _
      | some locked =>
          obtain ⟨known, hknown⟩ := LookupContext.isNewest_settles settled hnewest lock.source
            (context.strategy.resolve locked lock.constraints)
          refine ⟨_, .bind (hknown.map some) (.pure _), fun name hlock => ?_⟩
          simp only [hlock, hversion]
          refine hknown.bind ?_
          cases known with
          | true => exact .pure _
          | false => exact .pure _

theorem ofLock_settles (settled : context.Settled inv) (lock : ProviderLock) :
    Settles inv (ofLock context lock) := by
  obtain ⟨row, hrow, -⟩ := ofLock_yields settled lock
  exact ⟨row, hrow⟩

end VersionRow

namespace LookupContext

/--
Links show for a provider what the row of its first lock says: `latest` if the row is marked as the
newest version or has no version, and else exactly the row's version.
-/
theorem providerVersion_of_row (context : LookupContext σ) (steady : context.Steady)
    {earlier later : List ProviderLock} {lock : ProviderLock}
    (hlockFile : context.lockFile = some ⟨earlier ++ lock :: later⟩)
    (hearlier : ∀ other ∈ earlier, other.source.name ≠ lock.source.name)
    {first second : LookupState σ} (hfirst : context.Reached first)
    (hsecond : context.Reached second) :
    let rows := ((earlier ++ lock :: later).mapM (VersionRow.ofLock context) first).1
    let found := (context.providerVersion lock.source.name second).1
    ∃ row, rows[earlier.length]? = some row ∧
      (row.isLatest = some true ∨ row.resolved = none → found = (lock.source, "latest")) ∧
      ∀ version, row.resolved = some version → row.isLatest ≠ some true →
        found = (lock.source, version) := by
  intro rows found
  choose row hrow hshown using VersionRow.ofLock_yields steady.settled
  have hnamed : context.lockFile.bind (·.providerNamed? lock.source.name) = some lock := by
    rw [hlockFile, Option.bind_some, LockFile.providerNamed?, List.find?_eq_some_iff_append]
    exact ⟨by simp, earlier, later, rfl, by simpa using hearlier⟩
  have hrows : rows = (earlier ++ lock :: later).map row :=
    (Yields.mapM (fun other _ => hrow other) first hfirst).1
  have hfound : found = (lock.source, (row lock).shown) := (hshown lock _ hnamed second hsecond).1
  refine ⟨row lock, by simp [hrows], fun hlatest => ?_, fun version hversion hother => ?_⟩
  · rcases hlatest with hmarked | hnone
    · cases hresolved : (row lock).resolved <;>
        simp [hfound, VersionRow.shown, hresolved, hmarked, DocTarget.latest]
    · simp [hfound, VersionRow.shown, hnone, DocTarget.latest]
  · simp [hfound, VersionRow.shown, hversion, hother]

theorem providerVersion_of_row_twins :
    let network : Registry.Network := fun url =>
      if url = "https://r.io/v1/providers/corp/aws" then
        .answered 200 (Text.Utf8.encode "[\"5.31.0\"]")
      else .dropped
    let corp : ProviderLock := ⟨⟨"corp", "aws"⟩, some "5.31.9", some "~> 5.31.0", [], []⟩
    let earlier : List ProviderLock := [⟨⟨"hashicorp", "random"⟩, some "3.6.0", none, [], []⟩]
    let later : List ProviderLock := [⟨⟨"hashicorp", "aws"⟩, some "5.30.0", none, [], []⟩]
    let context : LookupContext (List String) :=
      ⟨.emptyAt [], some ⟨earlier ++ corp :: later⟩, "https://r.io", .low,
        some (Registry.source network "https://r.io")⟩
    context.Steady ∧ context.Reached (.fresh []) ∧
      (∀ other ∈ earlier, other.source.name ≠ corp.source.name) ∧
      (context.providerVersion "aws" (.fresh [])).1 = (⟨"corp", "aws"⟩, "latest") := by
  intro network corp earlier later context
  have steady : context.Steady := by
    intro ask hask
    cases hask
    exact Registry.source_steady network _
  have reached : context.Reached (.fresh []) := by
    intro ask hask
    cases hask
    exact .fresh []
  have hearlier : ∀ other ∈ earlier, other.source.name ≠ corp.source.name := by decide
  obtain ⟨row, hrow, hlatest, -⟩ :=
    providerVersion_of_row context steady rfl hearlier reached reached
  refine ⟨steady, reached, hearlier, hlatest (.inl ?_)⟩
  have hmarked : (((earlier ++ corp :: later).mapM (VersionRow.ofLock context)
      (.fresh [])).1[earlier.length]?).map (·.isLatest) = some (some true) := by
    decide +kernel
  rw [hrow] at hmarked
  exact Option.some.inj hmarked

end LookupContext

end TerraformDocs
