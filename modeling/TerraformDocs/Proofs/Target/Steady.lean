import TerraformDocs.Proofs.Registry.Steady
import TerraformDocs.Target.Lookup

/-!
# Lookups of a steady context

Every lookup asks for versions through the cache alone.  In a context that leaves versions as they
are, or asks a steady source, each of them therefore yields one value.
-/

namespace TerraformDocs.LookupContext

variable {σ : Type}

def Steady (context : LookupContext σ) : Prop :=
  ∀ ask ∈ context.newest, VersionSource.Steady ask

/-- The states that lookups in the context lead to; any state, if they ask no source. -/
def Reached (context : LookupContext σ) (state : LookupState σ) : Prop :=
  ∀ ask ∈ context.newest, LookupState.Reached ask state

def Settled (context : LookupContext σ) (inv : LookupState σ → Prop) : Prop :=
  ∀ ask ∈ context.newest, ∀ provider, Settles inv (newestVersion ask provider)

variable {context : LookupContext σ} {inv : LookupState σ → Prop}

theorem Steady.settled (steady : context.Steady) : context.Settled context.Reached := by
  intro ask hask provider
  have hreached : context.Reached = LookupState.Reached ask := by
    funext state
    simp [Reached, Option.mem_def.mp hask]
  rw [hreached]
  exact newestVersion_settles (steady ask hask) provider

def providerSource (context : LookupContext σ) (name : String) : ProviderSource :=
  match context.lockFile.bind (·.providerNamed? name) with
  | none => ⟨ProviderSource.defaultPublisher, name⟩
  | some lock => lock.source

theorem isNewest_settles (settled : context.Settled inv) {ask : VersionSource σ}
    (hask : context.newest = some ask) (provider : ProviderSource) (version : String) :
    Settles inv (isNewest ask provider version) :=
  (settled ask hask provider).bind fun _ => .pure _

theorem providerVersion_yields (settled : context.Settled inv) (name : String) :
    ∃ version,
      Yields inv (context.providerVersion name) (context.providerSource name, version) := by
  unfold providerVersion providerSource
  cases context.lockFile.bind (·.providerNamed? name) with
  | none => exact ⟨_, .pure _⟩
  | some lock =>
      dsimp only
      split
      · exact ⟨_, .pure _⟩
      · split
        · exact ⟨_, .pure _⟩
        · next ask hask =>
          obtain ⟨known, hknown⟩ := isNewest_settles settled hask lock.source _
          cases known with
          | true => exact ⟨DocTarget.latest, hknown.bind (.pure _)⟩
          | false => exact ⟨_, hknown.bind (.pure _)⟩

theorem providerVersion_settles (settled : context.Settled inv) (name : String) :
    Settles inv (context.providerVersion name) := by
  obtain ⟨version, hversion⟩ := providerVersion_yields settled name
  exact ⟨_, hversion⟩

theorem resourceTarget_settles (settled : context.Settled inv) (reference : ResourceReference)
    (fragment : Option String) : Settles inv (context.resourceTarget reference fragment) :=
  (providerVersion_settles settled reference.provider).bind fun _ => .pure _

theorem declarationTarget_settles_of_settled (settled : context.Settled inv) (document : Document)
    (path : Path) (line : Nat) (declaration : Declaration) :
    Settles inv (context.declarationTarget document path line declaration) := by
  cases declaration with
  | resource reference =>
      exact (resourceTarget_settles settled reference none).bind fun _ => .pure _
  | moduleCall name => exact .pure _

theorem declarationTarget_settles (steady : context.Steady) (document : Document) (path : Path)
    (line : Nat) (declaration : Declaration) :
    Settles context.Reached (context.declarationTarget document path line declaration) :=
  declarationTarget_settles_of_settled steady.settled document path line declaration

theorem targetAt_settles (settled : context.Settled inv) (document : Document) (path : Path)
    (position : Position) : Settles inv (context.targetAt document path position) := by
  unfold targetAt
  split
  · exact .pure _
  · split
    · exact declarationTarget_settles_of_settled settled document path _ _
    · split
      · exact .pure _
      · next block assigned _ =>
        cases block.declaration with
        | resource reference =>
            exact (resourceTarget_settles settled reference _).bind fun _ => .pure _
        | moduleCall name =>
            dsimp only
            split
            · exact declarationTarget_settles_of_settled settled document path _ _
            · exact .pure _

theorem links_settles (settled : context.Settled inv) (document : Document) (path : Path) :
    Settles inv (context.links document path) := by
  refine (Settles.mapM (fun index => ?_) _).bind fun _ => .pure _
  unfold linkAt
  split
  · exact .pure _
  · exact (declarationTarget_settles_of_settled settled document path _ _).bind fun _ => .pure _

end TerraformDocs.LookupContext
