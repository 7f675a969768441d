import TerraformDocs.Proofs.Registry.Steady

/-!
# Lookups that overlap

The cache is locked while it is read and while it is written, but not while the source is asked.
So lookups on one cache may overlap: between two steps of one of them, any steps of the others can
fall, and two lookups may both ask for the same provider.  A schedule tells which lookup takes the
next step.  A lookup that is alone runs as `newestVersion` does (`run_alone`), and none takes more
than three steps (`returned_of_three_steps`).
-/

namespace TerraformDocs

variable {σ : Type}

/-! ## Steps -/

inductive LookupStage where
  | reading
  | asking
  | storing (version : String)
  | returned (version : Option String)
deriving DecidableEq, Repr

namespace LookupStage

def answered : Option String → LookupStage
  | some version => storing version
  | none => returned none

/-- One step of a lookup, into which no step of another can fall. -/
def next (ask : VersionSource σ) (provider : ProviderSource) :
    LookupStage → StateM (LookupState σ) LookupStage
  | reading => fun state =>
    match state.cache.find? provider with
    | some version => (returned (some version), state)
    | none => (asking, state)
  | asking => fun state =>
    let (answer, source) := ask provider state.source
    (answered (answer.filter isVersionAnswer), ⟨state.cache, source⟩)
  | storing version => fun state =>
    (returned (some version), ⟨state.cache.insert provider version, state.source⟩)
  | returned version => fun state => (returned version, state)

/-- Steps until the lookup returns, at most. -/
def remaining : LookupStage → Nat
  | reading => 3
  | asking => 2
  | storing _ => 1
  | returned _ => 0

section Next

variable {ask : VersionSource σ} {provider : ProviderSource} {state : LookupState σ}

theorem next_hit {version : String} (h : state.cache.find? provider = some version) :
    reading.next ask provider state = (returned (some version), state) := by
  simp only [next, h]

theorem next_miss (h : state.cache.find? provider = none) :
    reading.next ask provider state = (asking, state) := by
  simp only [next, h]

theorem next_asking :
    asking.next ask provider state =
      (answered ((ask provider state.source).1.filter isVersionAnswer),
        ⟨state.cache, (ask provider state.source).2⟩) := rfl

theorem next_returned {version : Option String} :
    (returned version).next ask provider state = (returned version, state) := rfl

end Next

inductive Steps (ask : VersionSource σ) (provider : ProviderSource) (state : LookupState σ) :
    LookupStage → LookupStage × LookupState σ → Prop where
  | hit {version : String} (h : state.cache.find? provider = some version) :
      Steps ask provider state reading (returned (some version), state)
  | miss (h : state.cache.find? provider = none) :
      Steps ask provider state reading (asking, state)
  | answer : Steps ask provider state asking
      (answered ((ask provider state.source).1.filter isVersionAnswer),
        ⟨state.cache, (ask provider state.source).2⟩)
  | store {version : String} : Steps ask provider state (storing version)
      (returned (some version), ⟨state.cache.insert provider version, state.source⟩)
  | stay {version : Option String} : Steps ask provider state (returned version)
      (returned version, state)

theorem steps_next (ask : VersionSource σ) (provider : ProviderSource) (stage : LookupStage)
    (state : LookupState σ) : Steps ask provider state stage (stage.next ask provider state) := by
  cases stage with
  | reading =>
      cases hfound : state.cache.find? provider with
      | some version =>
          rw [next_hit hfound]
          exact .hit hfound
      | none =>
          rw [next_miss hfound]
          exact .miss hfound
  | asking => exact .answer
  | storing version => exact .store
  | returned version => exact .stay

theorem Steps.remaining_le {ask : VersionSource σ} {provider : ProviderSource}
    {state : LookupState σ} {stage : LookupStage} {result : LookupStage × LookupState σ}
    (h : Steps ask provider state stage result) : result.1.remaining ≤ stage.remaining - 1 := by
  cases h with
  | hit hfound => exact Nat.zero_le _
  | miss hfound => exact Nat.le_refl 2
  | answer =>
      cases (ask provider state.source).1.filter isVersionAnswer <;> simp [answered, remaining]
  | store => exact Nat.le_refl 0
  | stay => exact Nat.le_refl 0

theorem remaining_eq_zero {stage : LookupStage} :
    stage.remaining = 0 ↔ ∃ version, stage = returned version := by
  cases stage <;> simp [remaining]

end LookupStage

structure PendingLookup where
  provider : ProviderSource
  stage : LookupStage
deriving DecidableEq, Repr

structure Overlap (σ : Type) where
  state : LookupState σ
  lookups : List PendingLookup

namespace Overlap

def start (providers : List ProviderSource) (source : σ) : Overlap σ :=
  ⟨⟨.empty, source⟩, providers.map (⟨·, .reading⟩)⟩

def stepAt (ask : VersionSource σ) (overlap : Overlap σ) (index : Nat) : Overlap σ :=
  match overlap.lookups[index]? with
  | none => overlap
  | some ⟨provider, stage⟩ =>
    let (later, state) := stage.next ask provider overlap.state
    ⟨state, overlap.lookups.set index ⟨provider, later⟩⟩

def run (ask : VersionSource σ) (schedule : List Nat) (overlap : Overlap σ) : Overlap σ :=
  schedule.foldl (stepAt ask) overlap

theorem stepAt_eq_self {ask : VersionSource σ} {overlap : Overlap σ} {index : Nat}
    (h : overlap.lookups[index]? = none) : overlap.stepAt ask index = overlap := by
  simp only [stepAt, h]

theorem stepAt_eq {ask : VersionSource σ} {overlap : Overlap σ} {index : Nat}
    {lookup : PendingLookup} (h : overlap.lookups[index]? = some lookup) :
    overlap.stepAt ask index =
      ⟨(lookup.stage.next ask lookup.provider overlap.state).2,
        overlap.lookups.set index
          ⟨lookup.provider, (lookup.stage.next ask lookup.provider overlap.state).1⟩⟩ := by
  rw [stepAt, h]
  rfl

theorem run_cons (ask : VersionSource σ) (index : Nat) (schedule : List Nat)
    (overlap : Overlap σ) :
    run ask (index :: schedule) overlap = run ask schedule (overlap.stepAt ask index) := rfl

theorem run_append (ask : VersionSource σ) (first second : List Nat) (overlap : Overlap σ) :
    run ask (first ++ second) overlap = run ask second (run ask first overlap) :=
  List.foldl_append

theorem run_alone (ask : VersionSource σ) (provider : ProviderSource) (state : LookupState σ) :
    run ask [0, 0, 0] ⟨state, [⟨provider, .reading⟩]⟩ =
      ⟨(newestVersion ask provider state).2,
        [⟨provider, .returned (newestVersion ask provider state).1⟩]⟩ := by
  have hstep (stage : LookupStage) (state : LookupState σ) :
      stepAt ask ⟨state, [⟨provider, stage⟩]⟩ 0 =
        ⟨(stage.next ask provider state).2, [⟨provider, (stage.next ask provider state).1⟩]⟩ := by
    have hlookup : (Overlap.mk state [⟨provider, stage⟩]).lookups[0]? =
      some ⟨provider, stage⟩ := rfl
    exact stepAt_eq hlookup
  simp only [run, List.foldl_cons, List.foldl_nil, hstep]
  cases hfound : state.cache.find? provider with
  | some version =>
      simp only [LookupStage.next_hit hfound, LookupStage.next_returned, newestVersion_hit hfound]
  | none =>
      simp only [LookupStage.next_miss hfound, LookupStage.next_asking, newestVersion_miss hfound]
      cases (ask provider state.source).1.filter isVersionAnswer <;> rfl

/-- What one step keeps, a run keeps. -/
theorem run_induction {ask : VersionSource σ} (inv : Overlap σ → Prop)
    (hstep : ∀ overlap index, inv overlap → inv (overlap.stepAt ask index))
    {overlap : Overlap σ} (h : inv overlap) (schedule : List Nat) :
    inv (run ask schedule overlap) := by
  induction schedule generalizing overlap with
  | nil => exact h
  | cons index schedule ih => exact ih (hstep overlap index h)

theorem stepAt_providers (ask : VersionSource σ) (overlap : Overlap σ) (index : Nat) :
    (overlap.stepAt ask index).lookups.map PendingLookup.provider =
      overlap.lookups.map PendingLookup.provider := by
  cases hlookup : overlap.lookups[index]? with
  | none => rw [stepAt_eq_self hlookup]
  | some lookup =>
      have hprovider : (overlap.lookups.map PendingLookup.provider)[index]? =
          some lookup.provider := by simp [hlookup]
      obtain ⟨hindex, hsame⟩ := List.getElem?_eq_some_iff.mp hprovider
      rw [stepAt_eq hlookup, List.map_set, ← hsame, List.set_getElem_self]

theorem run_providers (ask : VersionSource σ) (providers : List ProviderSource) (source : σ)
    (schedule : List Nat) :
    (run ask schedule (start providers source)).lookups.map PendingLookup.provider =
      providers := by
  refine run_induction (fun overlap => overlap.lookups.map PendingLookup.provider = providers)
    (fun overlap index h => ?_) ?_ schedule
  · rw [stepAt_providers, h]
  · simp [start, Function.comp_def]

/-! ## Progress -/

theorem lookups_stepAt_ne (ask : VersionSource σ) (overlap : Overlap σ) {index other : Nat}
    (h : other ≠ index) :
    (overlap.stepAt ask index).lookups[other]? = overlap.lookups[other]? := by
  cases hlookup : overlap.lookups[index]? with
  | none => rw [stepAt_eq_self hlookup]
  | some lookup => rw [stepAt_eq hlookup, List.getElem?_set_ne h.symm]

theorem lookups_stepAt_self (ask : VersionSource σ) {overlap : Overlap σ} {index : Nat}
    {lookup : PendingLookup} (h : overlap.lookups[index]? = some lookup) :
    (overlap.stepAt ask index).lookups[index]? =
      some ⟨lookup.provider, (lookup.stage.next ask lookup.provider overlap.state).1⟩ := by
  obtain ⟨hindex, -⟩ := List.getElem?_eq_some_iff.mp h
  rw [stepAt_eq h, List.getElem?_set_self hindex]

theorem remaining_run (ask : VersionSource σ) (schedule : List Nat) {overlap : Overlap σ}
    {index : Nat} {lookup : PendingLookup} (h : overlap.lookups[index]? = some lookup) :
    ∃ stage, (run ask schedule overlap).lookups[index]? = some ⟨lookup.provider, stage⟩ ∧
      stage.remaining ≤ lookup.stage.remaining - schedule.count index := by
  induction schedule generalizing overlap lookup with
  | nil => exact ⟨lookup.stage, h, Nat.le_refl _⟩
  | cons other schedule ih =>
      rw [run_cons]
      by_cases hother : other = index
      · subst hother
        obtain ⟨stage, hstage, hremaining⟩ := ih (lookups_stepAt_self ask h)
        have hstep := (LookupStage.steps_next ask lookup.provider lookup.stage
          overlap.state).remaining_le
        refine ⟨stage, hstage, Nat.le_trans hremaining ?_⟩
        rw [List.count_cons_self, Nat.add_comm, ← Nat.sub_sub]
        exact Nat.sub_le_sub_right hstep _
      · obtain ⟨stage, hstage, hremaining⟩ :=
          ih ((lookups_stepAt_ne ask overlap (Ne.symm hother)).trans h)
        exact ⟨stage, hstage, by rwa [List.count_cons_of_ne hother]⟩

theorem returned_of_three_steps (ask : VersionSource σ) {providers : List ProviderSource}
    (source : σ) {schedule : List Nat} {index : Nat} {provider : ProviderSource}
    (h : providers[index]? = some provider) (hsteps : 3 ≤ schedule.count index) :
    ∃ version, (run ask schedule (start providers source)).lookups[index]? =
      some ⟨provider, .returned version⟩ := by
  have hlookup : (start providers source).lookups[index]? = some ⟨provider, .reading⟩ := by
    simp [start, h]
  obtain ⟨stage, hstage, hremaining⟩ := remaining_run ask schedule hlookup
  have hzero : stage.remaining = 0 := by
    change stage.remaining ≤ 3 - schedule.count index at hremaining
    omega
  obtain ⟨version, rfl⟩ := LookupStage.remaining_eq_zero.mp hzero
  exact ⟨version, hstage⟩

end Overlap

end TerraformDocs
