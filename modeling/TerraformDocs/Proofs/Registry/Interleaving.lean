import TerraformDocs.Proofs.Registry.History
import TerraformDocs.Proofs.Registry.Overlap

/-!
# What lookups that overlap return

On every schedule the cache grows and holds nothing but answers of the source, and so does what the
lookups carry from the source to the cache.  With a steady source each lookup returns what it
returns alone, and in the end the cache has one entry for each provider with an answer worth keeping
(`run_overlapping`).
-/

namespace TerraformDocs

variable {σ : Type}

/-! ## Answers -/

abbrev RecordedState (σ : Type) := LookupState (σ × List (ProviderSource × Option String))

abbrev RecordedOverlap (σ : Type) := Overlap (σ × List (ProviderSource × Option String))

/-- The source has been asked for the provider and has given an answer of which this is worth
keeping. -/
def Answered (exchanges : List (ProviderSource × Option String)) (provider : ProviderSource)
    (kept : Option String) : Prop :=
  ∃ answer, (provider, answer) ∈ exchanges ∧ answer.filter isVersionAnswer = kept

structure LookupState.Extends (earlier later : RecordedState σ) : Prop where
  exchanges : earlier.source.2 ⊆ later.source.2
  cached : ∀ provider, (earlier.cache.find? provider).isSome →
    (later.cache.find? provider).isSome

/-- The cache has at most one entry for each provider, and it is an answer of the source. -/
structure LookupState.Backed (state : RecordedState σ) : Prop where
  answered : ∀ provider version, state.cache.find? provider = some version →
    Answered state.source.2 provider (some version)
  nodup : (state.cache.entries.map Prod.fst).Nodup

/-- What a lookup at this stage has got is an answer of the source, and if it has returned a version
then the provider is in the cache. -/
def LookupStage.Backed (state : RecordedState σ) (provider : ProviderSource) : LookupStage → Prop
  | reading => True
  | asking => True
  | storing version => Answered state.source.2 provider (some version)
  | returned version => Answered state.source.2 provider version ∧
    (version.isSome → (state.cache.find? provider).isSome)

section Recorded

variable {ask : VersionSource σ} {state later : RecordedState σ}
  {provider : ProviderSource} {stage : LookupStage}

theorem Answered.mono {exchanges others : List (ProviderSource × Option String)}
    {kept : Option String} (h : Answered exchanges provider kept) (hsub : exchanges ⊆ others) :
    Answered others provider kept := by
  obtain ⟨answer, hmem, hkept⟩ := h
  exact ⟨answer, hsub hmem, hkept⟩

theorem Answered.eq_of_steady {exchanges : List (ProviderSource × Option String)}
    {kept : Option String} {answer : ProviderSource → Option String}
    (hsteady : ∀ exchange ∈ exchanges, exchange.2 = answer exchange.1)
    (h : Answered exchanges provider kept) : kept = (answer provider).filter isVersionAnswer := by
  obtain ⟨given, hmem, rfl⟩ := h
  obtain rfl : given = answer provider := hsteady _ hmem
  rfl

namespace LookupState.Extends

theorem refl (state : RecordedState σ) : state.Extends state :=
  ⟨List.Subset.refl _, fun _ => id⟩

theorem trans {last : RecordedState σ} (hfirst : state.Extends later)
    (hsecond : later.Extends last) : state.Extends last :=
  ⟨List.Subset.trans hfirst.exchanges hsecond.exchanges,
    fun provider h => hsecond.cached provider (hfirst.cached provider h)⟩

end LookupState.Extends

theorem LookupStage.Backed.mono (h : stage.Backed state provider) (hextends : state.Extends later) :
    stage.Backed later provider := by
  cases stage with
  | reading => trivial
  | asking => trivial
  | storing version => exact Answered.mono h hextends.exchanges
  | returned version =>
      exact ⟨h.1.mono hextends.exchanges, fun hversion => hextends.cached _ (h.2 hversion)⟩

namespace LookupStage.Steps

variable {result : LookupStage × RecordedState σ}
  (h : Steps ask.recorded provider state stage result)

include h

theorem state_extends : state.Extends result.2 := by
  cases h with
  | hit hfound => exact .refl state
  | miss hfound => exact .refl state
  | answer => exact ⟨List.subset_append_left _ _, fun _ => id⟩
  | store =>
      refine ⟨List.Subset.refl _, fun asked hcached => ?_⟩
      rw [VersionCache.find?_insert]
      split
      · rfl
      · exact hcached
  | stay => exact .refl state

theorem backed (hstate : state.Backed) (hstage : stage.Backed state provider) :
    result.2.Backed ∧ result.1.Backed result.2 provider := by
  have hextends := h.state_extends
  cases h with
  | hit hfound =>
      exact ⟨hstate, hstate.answered provider _ hfound, fun _ => by simp [hfound]⟩
  | miss hfound => exact ⟨hstate, trivial⟩
  | answer =>
      have hanswered : Answered (ask.recorded provider state.source).2.2 provider
          ((ask.recorded provider state.source).1.filter isVersionAnswer) :=
        ⟨_, List.mem_append_right _ (List.mem_singleton_self _), rfl⟩
      refine ⟨⟨fun asked version hfound => ?_, hstate.nodup⟩, ?_⟩
      · exact (hstate.answered asked version hfound).mono hextends.exchanges
      · revert hanswered
        cases (ask.recorded provider state.source).1.filter isVersionAnswer with
        | some version => exact id
        | none => exact fun hanswered => ⟨hanswered, by simp⟩
  | store =>
      refine ⟨⟨fun asked found hfound => ?_, VersionCache.nodup_insert hstate.nodup _ _⟩,
        hstage, fun _ => by simp [VersionCache.find?_insert]⟩
      rw [VersionCache.find?_insert] at hfound
      split at hfound
      · next hasked =>
        cases hfound
        rw [hasked]
        exact hstage
      · exact hstate.answered asked found hfound
  | stay => exact ⟨hstate, hstage⟩

theorem mem_exchanges {exchange : ProviderSource × Option String}
    (hexchange : exchange ∈ result.2.source.2) :
    exchange ∈ state.source.2 ∨ exchange = (provider, (ask provider state.source.1).1) := by
  cases h with
  | hit hfound => exact .inl hexchange
  | miss hfound => exact .inl hexchange
  | answer => simpa using List.mem_append.mp hexchange
  | store => exact .inl hexchange
  | stay => exact .inl hexchange

end LookupStage.Steps

def LookupState.unrecorded (state : RecordedState σ) : LookupState σ :=
  ⟨state.cache, state.source.1⟩

theorem LookupStage.next_unrecorded (ask : VersionSource σ) (provider : ProviderSource)
    (stage : LookupStage) (state : RecordedState σ) :
    ((stage.next ask.recorded provider state).1,
      (stage.next ask.recorded provider state).2.unrecorded) =
        stage.next ask provider state.unrecorded := by
  cases stage with
  | reading =>
      cases hfound : state.cache.find? provider with
      | some version =>
          have hsame : state.unrecorded.cache.find? provider = some version := hfound
          rw [next_hit hfound, next_hit hsame]
      | none =>
          have hsame : state.unrecorded.cache.find? provider = none := hfound
          rw [next_miss hfound, next_miss hsame]
  | asking => rfl
  | storing version => rfl
  | returned version => rfl

end Recorded

theorem VersionCache.find?_eq_some_iff {cache : VersionCache}
    (h : (cache.entries.map Prod.fst).Nodup) {provider : ProviderSource} {version : String} :
    cache.find? provider = some version ↔ (provider, version) ∈ cache.entries := by
  constructor
  · intro hfound
    obtain ⟨entry, hentry, rfl⟩ := Option.map_eq_some_iff.mp hfound
    obtain rfl : entry.1 = provider := by simpa using List.find?_some hentry
    exact List.mem_of_find?_eq_some hentry
  · intro hmem
    have hsome : (cache.find? provider).isSome := by
      rw [isSome_find?_iff]
      exact List.mem_map_of_mem hmem
    obtain ⟨found, hfound⟩ := Option.isSome_iff_exists.mp hsome
    obtain ⟨entry, hentry, rfl⟩ := Option.map_eq_some_iff.mp hfound
    have hkey : entry.1 = provider := by simpa using List.find?_some hentry
    have hsame : entry = (provider, version) :=
      List.inj_on_of_nodup_map h (List.mem_of_find?_eq_some hentry) hmem hkey
    rw [hfound, hsame]

/-! ## Runs -/

namespace Overlap

variable {ask : VersionSource σ}

def unrecorded (overlap : RecordedOverlap σ) : Overlap σ :=
  ⟨overlap.state.unrecorded, overlap.lookups⟩

structure Backed (overlap : RecordedOverlap σ) : Prop where
  state : overlap.state.Backed
  lookups : ∀ lookup ∈ overlap.lookups, lookup.stage.Backed overlap.state lookup.provider
  asked : ∀ exchange ∈ overlap.state.source.2,
    exchange.1 ∈ overlap.lookups.map PendingLookup.provider

theorem stepAt_unrecorded (overlap : RecordedOverlap σ) (index : Nat) :
    (overlap.stepAt ask.recorded index).unrecorded = overlap.unrecorded.stepAt ask index := by
  cases hlookup : overlap.lookups[index]? with
  | none =>
      have hsame : overlap.unrecorded.lookups[index]? = none := hlookup
      rw [stepAt_eq_self hlookup, stepAt_eq_self hsame]
  | some lookup =>
      have hsame : overlap.unrecorded.lookups[index]? = some lookup := hlookup
      have hnext := LookupStage.next_unrecorded ask lookup.provider lookup.stage overlap.state
      rw [stepAt_eq hlookup, stepAt_eq hsame]
      change _ = Overlap.mk (lookup.stage.next ask lookup.provider overlap.state.unrecorded).2
        (overlap.lookups.set index ⟨lookup.provider,
          (lookup.stage.next ask lookup.provider overlap.state.unrecorded).1⟩)
      rw [← hnext]
      rfl

theorem run_unrecorded (schedule : List Nat) (overlap : RecordedOverlap σ) :
    (run ask.recorded schedule overlap).unrecorded = run ask schedule overlap.unrecorded := by
  induction schedule generalizing overlap with
  | nil => rfl
  | cons index schedule ih => rw [run_cons, run_cons, ih, stepAt_unrecorded]

theorem stepAt_extends (overlap : RecordedOverlap σ) (index : Nat) :
    overlap.state.Extends (overlap.stepAt ask.recorded index).state := by
  cases hlookup : overlap.lookups[index]? with
  | none =>
      rw [stepAt_eq_self hlookup]
      exact .refl _
  | some lookup =>
      rw [stepAt_eq hlookup]
      exact (LookupStage.steps_next _ lookup.provider lookup.stage overlap.state).state_extends

theorem run_extends (ask : VersionSource σ) (schedule : List Nat) (overlap : RecordedOverlap σ) :
    overlap.state.Extends (run ask.recorded schedule overlap).state :=
  run_induction (fun later => overlap.state.Extends later.state)
    (fun later index h => h.trans (stepAt_extends later index)) (.refl _) schedule

theorem start_backed (providers : List ProviderSource) (source : σ) :
    (start providers (source, []) : RecordedOverlap σ).Backed := by
  refine ⟨⟨fun provider version h => ?_, List.nodup_nil⟩, fun lookup hmem => ?_, ?_⟩
  · simp [start] at h
  · obtain ⟨provider, -, rfl⟩ := List.mem_map.mp hmem
    trivial
  · simp [start]

theorem Backed.stepAt {overlap : RecordedOverlap σ} (h : overlap.Backed) (index : Nat) :
    (overlap.stepAt ask.recorded index).Backed := by
  cases hlookup : overlap.lookups[index]? with
  | none => rwa [stepAt_eq_self hlookup]
  | some lookup =>
      have hmem : lookup ∈ overlap.lookups := List.mem_of_getElem? hlookup
      have hsteps := LookupStage.steps_next ask.recorded lookup.provider lookup.stage overlap.state
      have hnext := hsteps.backed h.state (h.lookups lookup hmem)
      have hproviders := stepAt_providers ask.recorded overlap index
      rw [stepAt_eq hlookup] at hproviders ⊢
      refine ⟨hnext.1, fun other hother => ?_, fun exchange hexchange => ?_⟩
      -- the others have not moved, but the cache and the record under them have
      · rcases List.mem_or_eq_of_mem_set hother with hother | rfl
        · exact (h.lookups other hother).mono hsteps.state_extends
        · exact hnext.2
      · rw [hproviders]
        rcases hsteps.mem_exchanges hexchange with hold | rfl
        · exact h.asked exchange hold
        · exact List.mem_map_of_mem hmem

theorem run_backed (providers : List ProviderSource) (source : σ) (schedule : List Nat) :
    (run ask.recorded schedule (start providers (source, []))).Backed :=
  run_induction Backed (fun _ index h => h.stepAt index) (start_backed providers source) schedule

theorem exchanges_of_steady {answer : ProviderSource → Option String}
    (hsteady : ∀ provider source, (ask provider source).1 = answer provider)
    (providers : List ProviderSource) (source : σ) (schedule : List Nat) :
    ∀ exchange ∈ (run ask.recorded schedule (start providers (source, []))).state.source.2,
      exchange.2 = answer exchange.1 := by
  refine run_induction (fun overlap : RecordedOverlap σ =>
    ∀ exchange ∈ overlap.state.source.2, exchange.2 = answer exchange.1)
    (fun overlap index h => ?_) (by simp [start]) schedule
  cases hlookup : overlap.lookups[index]? with
  | none => rwa [stepAt_eq_self hlookup]
  | some lookup =>
      have hsteps := LookupStage.steps_next ask.recorded lookup.provider lookup.stage overlap.state
      rw [stepAt_eq hlookup]
      intro exchange hexchange
      rcases hsteps.mem_exchanges hexchange with hold | rfl
      · exact h exchange hold
      · exact hsteady _ _

section Steady

variable {answer : ProviderSource → Option String}
  (hsteady : ∀ provider source, (ask provider source).1 = answer provider)
  (providers : List ProviderSource) (source : σ) (schedule : List Nat)

include hsteady

theorem returned_eq_of_steady {provider : ProviderSource} {version : Option String}
    (h : ⟨provider, .returned version⟩ ∈
      (run ask.recorded schedule (start providers (source, []))).lookups) :
    version = (answer provider).filter isVersionAnswer :=
  ((run_backed providers source schedule).lookups _ h).1.eq_of_steady
    (exchanges_of_steady hsteady providers source schedule)

theorem mem_entries_of_steady
    (hreturned : ∀ lookup ∈ (run ask.recorded schedule (start providers (source, []))).lookups,
      ∃ version, lookup.stage = .returned version) (provider : ProviderSource) (version : String) :
    (provider, version) ∈
        (run ask.recorded schedule (start providers (source, []))).state.cache.entries ↔
      provider ∈ providers ∧ (answer provider).filter isVersionAnswer = some version := by
  have hbacked : (run ask.recorded schedule (start providers (source, []))).Backed :=
    run_backed providers source schedule
  have hexchanges := exchanges_of_steady hsteady providers source schedule
  have hproviders := run_providers ask.recorded providers (source, []) schedule
  rw [← VersionCache.find?_eq_some_iff hbacked.state.nodup]
  constructor
  · intro hfound
    have hanswered := hbacked.state.answered provider version hfound
    have hsame := hanswered.eq_of_steady hexchanges
    obtain ⟨given, hmem, -⟩ := hanswered
    have hasked := hbacked.asked _ hmem
    rw [hproviders] at hasked
    exact ⟨hasked, hsame.symm⟩
  · rintro ⟨hprovider, hkept⟩
    rw [← hproviders] at hprovider
    obtain ⟨⟨_, stage⟩, hlookup, rfl⟩ := List.mem_map.mp hprovider
    obtain ⟨result, hstage⟩ := hreturned _ hlookup
    obtain rfl : stage = .returned result := hstage
    have hresult := returned_eq_of_steady hsteady providers source schedule hlookup
    rw [hkept] at hresult
    have hsome := (hbacked.lookups _ hlookup).2 (by simp [hresult])
    obtain ⟨found, hfound⟩ := Option.isSome_iff_exists.mp hsome
    have hsame := (hbacked.state.answered _ found hfound).eq_of_steady hexchanges
    rw [hkept] at hsame
    rw [hfound, hsame]

end Steady

/--
On every schedule the lookups run as without the record, and one that is alone runs as
`newestVersion` does.  A provider that is cached stays cached, whatever is stored or returned is an
answer of the source on that provider and not blank, and a lookup has returned after three steps of
its own.  If the source is steady, each lookup returns what it returns alone, and when all have
returned, the cache has one entry for each of their providers on which the answer is not blank.
-/
theorem run_overlapping (ask : VersionSource σ) (providers : List ProviderSource) (source : σ)
    (schedule : List Nat) :
    let begun : RecordedOverlap σ := start providers (source, [])
    let overlap := run ask.recorded schedule begun
    let cache := overlap.state.cache
    let exchanges := overlap.state.source.2
    overlap.unrecorded = run ask schedule (start providers source) ∧
      (∀ provider state, run ask [0, 0, 0] ⟨state, [⟨provider, .reading⟩]⟩ =
        ⟨(newestVersion ask provider state).2,
          [⟨provider, .returned (newestVersion ask provider state).1⟩]⟩) ∧
      (∀ earlier later provider, schedule = earlier ++ later →
        ((run ask.recorded earlier begun).state.cache.find? provider).isSome →
          (cache.find? provider).isSome) ∧
      (∀ provider version, (provider, version) ∈ cache.entries ∨
        ⟨provider, .returned (some version)⟩ ∈ overlap.lookups →
          (provider, some version) ∈ exchanges ∧ isVersionAnswer version = true) ∧
      (∀ index provider, providers[index]? = some provider → 3 ≤ schedule.count index →
        ∃ version, overlap.lookups[index]? = some ⟨provider, .returned version⟩) ∧
      (ask.Steady →
        (∀ provider version, ⟨provider, .returned version⟩ ∈ overlap.lookups →
          version = (newestVersion ask provider ⟨.empty, source⟩).1) ∧
        ((∀ lookup ∈ overlap.lookups, ∃ version, lookup.stage = .returned version) →
          (cache.entries.map Prod.fst).Nodup ∧
            ∀ provider version, (provider, version) ∈ cache.entries ↔
              provider ∈ providers ∧ (ask provider source).1 = some version ∧
                isVersionAnswer version = true)) := by
  intro begun overlap cache exchanges
  have hbacked : overlap.Backed := run_backed providers source schedule
  refine ⟨run_unrecorded schedule begun, run_alone ask, ?_, ?_, ?_, ?_⟩
  · rintro earlier later provider rfl hcached
    have hextends := run_extends ask later (run ask.recorded earlier begun)
    rw [← run_append] at hextends
    exact hextends.cached provider hcached
  · intro provider version hkept
    have hanswered : Answered exchanges provider (some version) := by
      rcases hkept with hstored | hreturned
      · rw [← VersionCache.find?_eq_some_iff hbacked.state.nodup] at hstored
        exact hbacked.state.answered provider version hstored
      · exact (hbacked.lookups _ hreturned).1
    obtain ⟨answer, hmem, hfilter⟩ := hanswered
    obtain ⟨rfl, hworth⟩ := Option.filter_eq_some_iff.mp hfilter
    exact ⟨hmem, hworth⟩
  · intro index provider hprovider hsteps
    exact returned_of_three_steps ask.recorded (source, []) hprovider hsteps
  · intro steady
    have hsteady := fun provider other => steady provider other source
    refine ⟨fun provider version hreturned => ?_, fun hall => ⟨hbacked.state.nodup, ?_⟩⟩
    · rw [newestVersion_miss (VersionCache.find?_empty provider)]
      exact returned_eq_of_steady hsteady providers source schedule hreturned
    · intro provider version
      rw [mem_entries_of_steady hsteady providers source schedule hall, Option.filter_eq_some_iff]

theorem run_overlapping_twice :
    let ask : VersionSource Nat := fun provider asked =>
      (if provider.name = "aws" then some "5.31.0" else some " ", asked + 1)
    let aws : ProviderSource := ⟨"hashicorp", "aws"⟩
    let google : ProviderSource := ⟨"hashicorp", "google"⟩
    let overlap : Overlap (Nat × List (ProviderSource × Option String)) :=
      run ask.recorded [0, 2, 1, 2, 0, 1, 0, 2] (start [aws, google, aws] (0, []))
    ask.Steady ∧ overlap.state.source.2.length = 3 ∧
      overlap.lookups = [⟨aws, .returned (some "5.31.0")⟩, ⟨google, .returned none⟩,
        ⟨aws, .returned (some "5.31.0")⟩] ∧
      ∀ provider version, (provider, version) ∈ overlap.state.cache.entries ↔
        provider ∈ [aws, google, aws] ∧ (ask provider 0).1 = some version ∧
          isVersionAnswer version = true := by
  intro ask aws google overlap
  have steady : ask.Steady := by
    intro provider source other
    rfl
  have hasked : overlap.state.source.2.length = 3 := by decide +kernel
  have hlookups : overlap.lookups = [⟨aws, .returned (some "5.31.0")⟩, ⟨google, .returned none⟩,
      ⟨aws, .returned (some "5.31.0")⟩] := by decide +kernel
  have hreturned : ∀ lookup ∈ overlap.lookups, ∃ version, lookup.stage = .returned version := by
    rw [hlookups]
    simp
  have hrun := run_overlapping ask [aws, google, aws] 0 [0, 2, 1, 2, 0, 1, 0, 2]
  have hentries := ((hrun.2.2.2.2.2 steady).2 hreturned).2
  have hoverlap : overlap = run ask.recorded [0, 2, 1, 2, 0, 1, 0, 2]
    (start [aws, google, aws] (0, [])) := rfl
  refine ⟨steady, hasked, hlookups, ?_⟩
  rw [hoverlap]
  exact hentries

end Overlap

end TerraformDocs
