import Mathlib.Data.Finset.Card
import TerraformDocs.Registry.Script

/-!
# The history of a cache

Calls on one cache make a history of steps, each with the questions that it put to the source.  A
cache recalls a history: it holds, for each provider, the answer worth keeping that the source has
given (`VersionCache.Recalls`).  One step keeps this (`CacheStep.Runs.recalls`), so every step of a
run is determined by the steps before it (`trace_follows`), whatever the source answers.
-/

namespace TerraformDocs

variable {σ : Type}

/-! ## Calls and steps -/

inductive CacheCall where
  | newest (provider : ProviderSource)
  | isNewest (provider : ProviderSource) (version : String)
deriving DecidableEq, Repr

inductive CacheReply where
  | version (version : Option String)
  | known (known : Bool)
deriving DecidableEq, Repr

namespace CacheCall

def provider : CacheCall → ProviderSource
  | newest provider => provider
  | isNewest provider _ => provider

def run (ask : VersionSource σ) : CacheCall → StateM (LookupState σ) CacheReply
  | newest provider => .version <$> newestVersion ask provider
  | isNewest provider version => .known <$> TerraformDocs.isNewest ask provider version

def reply (yielded : Option String) : CacheCall → CacheReply
  | newest _ => .version yielded
  | isNewest _ version => .known (yielded = some version)

end CacheCall

/-- The source with a record of the questions that are put to it and of its answers. -/
def VersionSource.recorded (ask : VersionSource σ) :
    VersionSource (σ × List (ProviderSource × Option String)) :=
  fun provider (source, exchanges) =>
    let (answer, source) := ask provider source
    (answer, (source, exchanges ++ [(provider, answer)]))

structure CacheStep where
  call : CacheCall
  before : VersionCache
  exchanges : List (ProviderSource × Option String)
  reply : CacheReply
  after : VersionCache
deriving DecidableEq, Repr

def CacheCall.step (ask : VersionSource σ) (call : CacheCall) :
    StateM (LookupState σ) CacheStep := fun state =>
  let (reply, later) := call.run ask.recorded ⟨state.cache, (state.source, [])⟩
  (⟨call, state.cache, later.source.2, reply, later.cache⟩, ⟨later.cache, later.source.1⟩)

def CacheCall.trace (ask : VersionSource σ) (calls : List CacheCall) :
    StateM (LookupState σ) (List CacheStep) :=
  calls.mapM (step ask)

theorem CacheCall.trace_nil (ask : VersionSource σ) (state : LookupState σ) :
    trace ask [] state = ([], state) := rfl

theorem CacheCall.trace_cons (ask : VersionSource σ) (call : CacheCall) (calls : List CacheCall)
    (state : LookupState σ) :
    trace ask (call :: calls) state =
      ((call.step ask state).1 :: (trace ask calls (call.step ask state).2).1,
        (trace ask calls (call.step ask state).2).2) := by
  rw [trace, List.mapM_cons]
  rfl

namespace CacheStep

def got? (step : CacheStep) : Option String :=
  step.exchanges.findSome? fun exchange => exchange.2.filter isVersionAnswer

end CacheStep

/-! ## One step -/

/-- What a step can be: a hit leaves source and cache alone, a miss asks the source once. -/
inductive CacheStep.Runs : CacheStep → Prop
  | hit {call : CacheCall} {cache : VersionCache} {version : String}
      (h : cache.find? call.provider = some version) :
      Runs ⟨call, cache, [], call.reply (some version), cache⟩
  | miss {call : CacheCall} {cache : VersionCache} (answer : Option String)
      (h : cache.find? call.provider = none) :
      Runs ⟨call, cache, [(call.provider, answer)], call.reply (answer.filter isVersionAnswer),
        cache.learn call.provider (answer.filter isVersionAnswer)⟩

namespace CacheCall

theorem run_eq (ask : VersionSource σ) (call : CacheCall) (state : LookupState σ) :
    call.run ask state =
      (call.reply (newestVersion ask call.provider state).1,
        (newestVersion ask call.provider state).2) := by
  cases call with
  | newest provider => rfl
  | isNewest provider version => rfl

theorem step_hit {ask : VersionSource σ} {call : CacheCall} {state : LookupState σ}
    {version : String} (h : state.cache.find? call.provider = some version) :
    call.step ask state =
      (⟨call, state.cache, [], call.reply (some version), state.cache⟩, state) := by
  have hrecorded : newestVersion ask.recorded call.provider ⟨state.cache, (state.source, [])⟩ =
      (some version, ⟨state.cache, (state.source, [])⟩) := newestVersion_hit h
  simp only [step, run_eq, hrecorded]

theorem step_miss {ask : VersionSource σ} {call : CacheCall} {state : LookupState σ}
    (h : state.cache.find? call.provider = none) :
    let answer := (ask call.provider state.source).1
    let after := state.cache.learn call.provider (answer.filter isVersionAnswer)
    call.step ask state =
      (⟨call, state.cache, [(call.provider, answer)], call.reply (answer.filter isVersionAnswer),
        after⟩, ⟨after, (ask call.provider state.source).2⟩) := by
  have hrecorded : newestVersion ask.recorded call.provider ⟨state.cache, (state.source, [])⟩ = _ :=
    newestVersion_miss h
  simp only [step, run_eq, hrecorded]
  rfl

theorem step_runs (ask : VersionSource σ) (call : CacheCall) (state : LookupState σ) :
    (call.step ask state).1.Runs := by
  cases hfound : state.cache.find? call.provider with
  | some version =>
      rw [step_hit hfound]
      exact .hit hfound
  | none =>
      rw [step_miss hfound]
      exact .miss _ hfound

theorem step_run (ask : VersionSource σ) (call : CacheCall) (state : LookupState σ) :
    ((call.step ask state).1.reply, (call.step ask state).2) = call.run ask state := by
  rw [run_eq]
  cases hfound : state.cache.find? call.provider with
  | some version => rw [step_hit hfound, newestVersion_hit hfound]
  | none => rw [step_miss hfound, newestVersion_miss hfound]

end CacheCall

/-! ## What a cache recalls -/

def CacheStep.left (steps : List CacheStep) : VersionCache :=
  (steps.getLast?.map CacheStep.after).getD .empty

/-- The cache is left by these steps and holds what the source has answered in them, each provider
once. -/
structure VersionCache.Recalls (cache : VersionCache) (steps : List CacheStep) : Prop where
  eq_left : cache = CacheStep.left steps
  find?_iff : ∀ provider version, cache.find? provider = some version ↔
    ∃ step ∈ steps, step.call.provider = provider ∧ step.got? = some version
  nodup : (cache.entries.map Prod.fst).Nodup

/-- The providers of which the source has given an answer worth keeping. -/
def CacheStep.answered (steps : List CacheStep) : Finset ProviderSource :=
  ((steps.filter fun step => step.got?.isSome).map fun step => step.call.provider).toFinset

namespace VersionCache

theorem isSome_find?_iff {cache : VersionCache} {provider : ProviderSource} :
    (cache.find? provider).isSome ↔ provider ∈ cache.entries.map Prod.fst := by
  simp only [find?, Option.isSome_map, List.find?_isSome, decide_eq_true_eq, List.mem_map]

theorem nodup_insert {cache : VersionCache} (h : (cache.entries.map Prod.fst).Nodup)
    (provider : ProviderSource) (version : String) :
    ((cache.insert provider version).entries.map Prod.fst).Nodup := by
  have hkept : ((cache.entries.filter (·.1 ≠ provider)).map Prod.fst).Nodup :=
    h.sublist (List.filter_sublist.map Prod.fst)
  rw [insert, List.map_append, List.map_singleton, ← List.concat_eq_append, List.nodup_concat]
  refine ⟨?_, hkept⟩
  simp

theorem nodup_learn {cache : VersionCache} (h : (cache.entries.map Prod.fst).Nodup)
    (provider : ProviderSource) (known : Option String) :
    ((cache.learn provider known).entries.map Prod.fst).Nodup := by
  cases known with
  | some version => exact nodup_insert h provider version
  | none => exact h

theorem recalls_empty : empty.Recalls [] := by
  refine ⟨rfl, ?_, List.nodup_nil⟩
  intro provider version
  simp

namespace Recalls

variable {cache : VersionCache} {steps : List CacheStep}

theorem find?_eq_none_iff (h : cache.Recalls steps) {provider : ProviderSource} :
    cache.find? provider = none ↔
      ∀ step ∈ steps, step.call.provider = provider → step.got? = none := by
  constructor
  · intro hnone step hstep hprovider
    cases hgot : step.got? with
    | none => rfl
    | some version =>
        have hfound := (h.find?_iff provider version).mpr ⟨step, hstep, hprovider, hgot⟩
        rw [hnone] at hfound
        cases hfound
  · intro hall
    cases hfound : cache.find? provider with
    | none => rfl
    | some version =>
        obtain ⟨step, hstep, hprovider, hgot⟩ := (h.find?_iff provider version).mp hfound
        rw [hall step hstep hprovider] at hgot
        cases hgot

theorem size_eq (h : cache.Recalls steps) : cache.size = (CacheStep.answered steps).card := by
  have hkeys : (cache.entries.map Prod.fst).toFinset = CacheStep.answered steps := by
    ext provider
    rw [List.mem_toFinset, ← isSome_find?_iff, Option.isSome_iff_exists]
    simp only [h.find?_iff, CacheStep.answered, List.mem_toFinset, List.mem_map, List.mem_filter,
      Option.isSome_iff_exists]
    constructor
    · rintro ⟨version, step, hstep, hprovider, hgot⟩
      exact ⟨step, ⟨hstep, version, hgot⟩, hprovider⟩
    · rintro ⟨step, ⟨hstep, version, hgot⟩, hprovider⟩
      exact ⟨version, step, hstep, hprovider, hgot⟩
  rw [← hkeys, List.toFinset_card_of_nodup h.nodup, List.length_map, size]

end Recalls

end VersionCache

namespace CacheStep

theorem got?_hit (call : CacheCall) (before : VersionCache) (reply : CacheReply)
    (after : VersionCache) : got? ⟨call, before, [], reply, after⟩ = none := rfl

theorem got?_miss (call : CacheCall) (before : VersionCache) (answer : Option String)
    (reply : CacheReply) (after : VersionCache) :
    got? ⟨call, before, [(call.provider, answer)], reply, after⟩ =
      answer.filter isVersionAnswer := by
  simp [got?]

theorem Runs.recalls {step : CacheStep} {earlier : List CacheStep} (h : step.Runs)
    (hbefore : step.before.Recalls earlier) : step.after.Recalls (earlier ++ [step]) := by
  cases h with
  | @hit call cache found hfound =>
      refine ⟨by simp [left], fun provider version => ?_, hbefore.nodup⟩
      rw [hbefore.find?_iff]
      simp [got?_hit]
  | @miss call cache answer hnone =>
      refine ⟨by simp [left], fun provider version => ?_,
        VersionCache.nodup_learn hbefore.nodup _ _⟩
      rw [VersionCache.find?_learn hnone]
      simp only [List.mem_append, List.mem_singleton, or_and_right, exists_or, exists_eq_left,
        got?_miss, ← hbefore.find?_iff]
      by_cases hprovider : provider = call.provider
      · subst hprovider
        simp [hnone]
      · simp [hprovider, Ne.symm hprovider]

structure Follows (step : CacheStep) (earlier : List CacheStep) : Prop where
  begins : step.before = left earlier
  asks_once : step.exchanges = [] ∨ ∃ answer, step.exchanges = [(step.call.provider, answer)]
  asks_iff : step.exchanges ≠ [] ↔
    ∀ old ∈ earlier, old.call.provider = step.call.provider → old.got? = none
  yields : ∀ old ∈ earlier ++ [step], old.call.provider = step.call.provider →
    ∀ version, old.got? = some version → step.reply = step.call.reply (some version)
  fails : step.exchanges ≠ [] → step.got? = none →
    step.reply = step.call.reply none ∧ step.after = step.before
  size_before : step.before.size = (answered earlier).card
  size_after : step.after.size = (answered (earlier ++ [step])).card

theorem Runs.follows {step : CacheStep} {earlier : List CacheStep} (h : step.Runs)
    (hbefore : step.before.Recalls earlier) : step.Follows earlier := by
  have hafter := h.recalls hbefore
  have hreply : step.reply = step.call.reply (step.after.find? step.call.provider) := by
    cases h with
    | hit hfound => rw [hfound]
    | miss answer hnone => rw [VersionCache.find?_learn hnone, if_pos rfl]
  refine ⟨hbefore.eq_left, ?_, ?_, ?_, ?_, hbefore.size_eq, hafter.size_eq⟩
  · cases h with
    | hit _ => exact .inl rfl
    | miss answer _ => exact .inr ⟨answer, rfl⟩
  · rw [← hbefore.find?_eq_none_iff]
    cases h with
    | hit hfound => simp [hfound]
    | miss answer hnone => simp [hnone]
  · intro old hold hprovider version hgot
    rw [hreply, (hafter.find?_iff _ _).mpr ⟨old, hold, hprovider, hgot⟩]
  · intro hasked hgot
    cases h with
    | hit _ => exact absurd rfl hasked
    | miss answer _ =>
        rw [got?_miss] at hgot
        simp only [hgot, VersionCache.learn, and_self]

end CacheStep

/-! ## Runs -/

namespace CacheCall

theorem trace_run (ask : VersionSource σ) (calls : List CacheCall) (state : LookupState σ) :
    ((trace ask calls state).1.map CacheStep.reply, (trace ask calls state).2) =
      calls.mapM (run ask) state := by
  induction calls generalizing state with
  | nil => rfl
  | cons call calls ih =>
      rw [trace_cons, List.mapM_cons]
      change _ = ((call.run ask state).1 :: (calls.mapM (run ask) (call.run ask state).2).1,
        (calls.mapM (run ask) (call.run ask state).2).2)
      rw [← step_run, ← ih]
      rfl

theorem trace_calls (ask : VersionSource σ) (calls : List CacheCall) (state : LookupState σ) :
    (trace ask calls state).1.map CacheStep.call = calls := by
  induction calls generalizing state with
  | nil => rfl
  | cons call calls ih =>
      rw [trace_cons, List.map_cons, ih]
      rfl

theorem trace_follows_of_recalls (ask : VersionSource σ) {calls : List CacheCall}
    {state : LookupState σ} {earlier : List CacheStep} (h : state.cache.Recalls earlier)
    {front later : List CacheStep} {step : CacheStep}
    (hsplit : (trace ask calls state).1 = front ++ step :: later) :
    step.Follows (earlier ++ front) := by
  induction calls generalizing state earlier front with
  | nil => simp [trace_nil] at hsplit
  | cons call calls ih =>
      have hruns := step_runs ask call state
      rw [trace_cons] at hsplit
      cases front with
      | nil =>
          obtain ⟨rfl, -⟩ := List.cons.inj hsplit
          rw [List.append_nil]
          exact hruns.follows h
      | cons first front =>
          obtain ⟨rfl, hrest⟩ := List.cons.inj hsplit
          have hfollows := ih (hruns.recalls h) hrest
          rwa [List.append_assoc] at hfollows

/-- A run that begins with an empty cache goes as without the record, and each of its steps
follows those before it. -/
theorem trace_follows (ask : VersionSource σ) (calls : List CacheCall) (source : σ) :
    let fresh : LookupState σ := ⟨.empty, source⟩
    let steps := (trace ask calls fresh).1
    steps.map CacheStep.call = calls ∧
      (steps.map CacheStep.reply, (trace ask calls fresh).2) = calls.mapM (run ask) fresh ∧
      ∀ earlier step later, steps = earlier ++ step :: later → step.Follows earlier := by
  intro fresh steps
  refine ⟨trace_calls ask calls fresh, trace_run ask calls fresh, ?_⟩
  intro earlier step later hsplit
  exact trace_follows_of_recalls ask VersionCache.recalls_empty hsplit

theorem trace_follows_retried :
    let aws : ProviderSource := ⟨"hashicorp", "aws"⟩
    let google : ProviderSource := ⟨"hashicorp", "google"⟩
    let script : VersionScript := .ofAnswers
      [("hashicorp/aws", [none, some " ", some "5.31.0", some "6.0.0"]),
        ("hashicorp/google", [some "6.9.0"])]
    let calls := [newest aws, isNewest aws " ", newest google, newest aws, isNewest aws "6.0.0"]
    let steps := (trace VersionScript.source calls ⟨.empty, script⟩).1
    let cache : VersionCache := ⟨[(google, "6.9.0"), (aws, "5.31.0")]⟩
    let last : CacheStep := ⟨isNewest aws "6.0.0", cache, [], .known false, cache⟩
    steps = steps.take 4 ++ last :: [] ∧ last.Follows (steps.take 4) := by
  intro aws google script calls steps cache last
  have hsplit : steps = steps.take 4 ++ last :: [] := by decide +kernel
  exact ⟨hsplit, (trace_follows VersionScript.source calls script).2.2 _ _ _ hsplit⟩

end CacheCall

end TerraformDocs
