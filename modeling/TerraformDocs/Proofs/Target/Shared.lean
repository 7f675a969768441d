import TerraformDocs.Proofs.Target.Steady

/-!
# Lookups that share a cache

Lookups of every kind, each in a context and for a document of its own, may share a cache and the
source behind it.  If the source is steady, no lookup can tell: each returns what it returns alone,
with an empty cache, so the order of the lookups does not matter either (`mapM_run_alone`).
-/

namespace TerraformDocs

variable {σ : Type}

inductive Lookup (σ : Type) where
  | version (context : LookupContext σ) (name : String)
  | target (context : LookupContext σ) (document : Document) (path : Path) (position : Position)
  | links (context : LookupContext σ) (document : Document) (path : Path)

inductive LookupResult where
  | version (found : ProviderSource × String)
  | target (target : Option DocTarget)
  | links (links : List DocumentLink)
deriving DecidableEq, Repr

namespace Lookup

def context : Lookup σ → LookupContext σ
  | version context _ => context
  | target context _ _ _ => context
  | links context _ _ => context

def run : Lookup σ → StateM (LookupState σ) LookupResult
  | version context name => .version <$> context.providerVersion name
  | target context document path position =>
    .target <$> context.targetAt document path position
  | links context document path => .links <$> context.links document path

def alone (lookup : Lookup σ) (source : σ) : LookupResult := (lookup.run ⟨.empty, source⟩).1

def Uses (ask : VersionSource σ) (lookup : Lookup σ) : Prop :=
  ∀ other ∈ lookup.context.newest, other = ask

variable {ask : VersionSource σ}

theorem Uses.settled {lookup : Lookup σ} (huses : lookup.Uses ask) (steady : ask.Steady) :
    lookup.context.Settled (LookupState.Reached ask) := by
  intro other hother provider
  rw [huses other hother]
  exact newestVersion_settles steady provider

theorem run_settles {lookup : Lookup σ} (huses : lookup.Uses ask) (steady : ask.Steady) :
    Settles (LookupState.Reached ask) lookup.run := by
  have settled := huses.settled steady
  cases lookup with
  | version context name =>
      exact (LookupContext.providerVersion_settles settled name).bind fun _ => .pure _
  | target context document path position =>
      exact (LookupContext.targetAt_settles settled document path position).bind fun _ => .pure _
  | links context document path =>
      exact (LookupContext.links_settles settled document path).bind fun _ => .pure _

theorem run_yields_alone {lookup : Lookup σ} (huses : lookup.Uses ask) (steady : ask.Steady)
    (source : σ) : Yields (LookupState.Reached ask) lookup.run (lookup.alone source) :=
  (run_settles huses steady).yields (.fresh source)

theorem mapM_run_yields {lookups : List (Lookup σ)} (huses : ∀ lookup ∈ lookups, lookup.Uses ask)
    (steady : ask.Steady) (source : σ) :
    Yields (LookupState.Reached ask) (lookups.mapM run) (lookups.map (·.alone source)) :=
  .mapM fun lookup hmem => run_yields_alone (huses lookup hmem) steady source

/-- With a steady source and a cache that earlier questions have filled, each lookup returns what
it returns alone, and leaves such a cache; and in another order the lookups return the same. -/
theorem mapM_run_alone (steady : ask.Steady) {lookups : List (Lookup σ)}
    (huses : ∀ lookup ∈ lookups, lookup.Uses ask) {state : LookupState σ}
    (reached : LookupState.Reached ask state) (source : σ) :
    (lookups.mapM run state).1 = lookups.map (·.alone source) ∧
      LookupState.Reached ask (lookups.mapM run state).2 ∧
      ∀ order : List (Lookup σ), order.Perm lookups →
        (order.zip (order.mapM run state).1).Perm (lookups.zip (lookups.mapM run state).1) := by
  obtain ⟨hresults, hreached⟩ := mapM_run_yields huses steady source state reached
  refine ⟨hresults, hreached, fun order horder => ?_⟩
  have horderUses : ∀ lookup ∈ order, lookup.Uses ask :=
    fun lookup hmem => huses lookup (horder.mem_iff.mp hmem)
  have horderResults := (mapM_run_yields horderUses steady source state reached).1
  rw [hresults, horderResults, ← List.map_prod_left_eq_zip, ← List.map_prod_left_eq_zip]
  exact horder.map _

theorem mapM_run_alone_filled :
    let ask : VersionSource Nat := fun provider asked =>
      (if provider.name = "aws" then some "5.31.0" else some " ", asked + 1)
    let aws : ProviderSource := ⟨"hashicorp", "aws"⟩
    let google : ProviderSource := ⟨"hashicorp", "google"⟩
    let lockFile : LockFile :=
      ⟨[⟨aws, some "5.31.0", none, [], []⟩, ⟨google, some "6.0.0", none, [], []⟩]⟩
    let context : LookupContext Nat :=
      ⟨.emptyAt [], some lockFile, "https://r.io", .high, some ask⟩
    let document : Document := ⟨["resource \"aws_instance\" \"web\" \x7b", "  ami = 1", "\x7d"]⟩
    let filled : LookupState Nat := (newestVersion ask aws ⟨.empty, 3⟩).2
    let lookups : List (Lookup Nat) :=
      [.version context "google", .target context document ⟨"main.tf"⟩ ⟨1, 3⟩,
        .links context document ⟨"main.tf"⟩]
    ask.Steady ∧ (∀ lookup ∈ lookups, lookup.Uses ask) ∧ LookupState.Reached ask filled ∧
      (lookups.mapM run filled).1 = [.version (google, "6.0.0"),
        .target (some (.url "https://r.io/providers/hashicorp/aws/latest/docs/resources/instance#ami")),
        .links [⟨"aws_instance.web", 1,
          .url "https://r.io/providers/hashicorp/aws/latest/docs/resources/instance"⟩]] := by
  intro ask aws google lockFile context document filled lookups
  have steady : ask.Steady := by
    intro provider source other
    rfl
  have huses : ∀ lookup ∈ lookups, lookup.Uses ask := by
    simp [lookups, Uses, Lookup.context, context]
  have reached : LookupState.Reached ask filled := (LookupState.Reached.fresh 3).asked aws
  obtain ⟨hresults, -⟩ := mapM_run_alone steady huses reached 0
  refine ⟨steady, huses, reached, hresults.trans ?_⟩
  decide +kernel

end Lookup

end TerraformDocs
