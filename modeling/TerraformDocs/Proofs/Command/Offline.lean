import TerraformDocs.Command.Run
import TerraformDocs.Proofs.Command.Options
import TerraformDocs.Proofs.Command.Versions
import TerraformDocs.Proofs.Files.Walk

/-!
# Offline means offline

A network reaches a command through its session only: an offline session's context has no source of
newest versions, so what is looked up in it is looked up without a request.  An option of the
command line puts a session offline, and so does a setting (`runCommandLine_offline`).
-/

namespace TerraformDocs

def FileTree.LatestOff (files : FileTree) : Prop :=
  ∃ config, Config.load files ⟨"."⟩ = .ok config ∧ config.latest = false

/-! ## Sessions -/

namespace Session

theorem online_eq_false_of_open? {files : FileTree} {start : Path} {flags : LinkFlags}
    {session : Session} (h : open? files start flags = .ok session)
    (hoffline : flags.offline = true ∨ files.LatestOff) : session.online = false := by
  obtain ⟨config, hconfig, hsession⟩ := exists_of_bind_eq_ok h
  obtain ⟨lockFile, -, hopened⟩ := exists_of_bind_eq_ok hsession
  cases hopened
  rcases hoffline with hflag | ⟨loaded, hloaded, hlatest⟩
  · simp [hflag]
  · rw [hconfig] at hloaded
    cases hloaded
    cases flags.strategy with
    | none => simp [hlatest]
    | some name => simp [hlatest]

def offlineContext (session : Session) (files : FileTree) : LookupContext (List String) :=
  ⟨files, session.lockFile, session.config.registryUrl, session.config.strategy, none⟩

theorem context_of_offline {session : Session} (honline : session.online = false)
    (environment : Environment) :
    session.context environment = session.offlineContext environment.files := by
  simp [context, offlineContext, honline]

theorem offlineContext_settled (session : Session) (files : FileTree)
    (inv : LookupState (List String) → Prop) : (session.offlineContext files).Settled inv := by
  intro ask hask
  cases hask

end Session

/-! ## Commands -/

/-- On every network the command comes to the same end, without a request. -/
def IgnoresNetwork (command : Registry.Network → Except Error CommandRun) : Prop :=
  ∃ result, (∀ network, command network = result) ∧ ∀ run, result = .ok run → run.requests = []

namespace IgnoresNetwork

theorem bind {α : Type} {attempt : Except Error α}
    {next : α → Registry.Network → Except Error CommandRun}
    (hnext : ∀ value, attempt = .ok value → IgnoresNetwork (next value)) :
    IgnoresNetwork fun network => attempt >>= fun value => next value network := by
  cases attempt with
  | error problem => exact ⟨.error problem, fun _ => rfl, by simp⟩
  | ok value => exact hnext value rfl

theorem ends {command : Registry.Network → Except Error CommandRun} (h : IgnoresNetwork command) :
    ∃ run,
      (∀ network, (match command network with
        | .ok run => run
        | .error error => .fail "" "" error) = run) ∧
      run.requests = [] := by
  obtain ⟨result, hresult, hrequests⟩ := h
  cases result with
  | error error => exact ⟨.fail "" "" error, fun network => by rw [hresult], rfl⟩
  | ok run => exact ⟨run, fun network => by rw [hresult], hrequests run rfl⟩

end IgnoresNetwork

section Commands

variable (files : FileTree) (tools : Toolbox) {flags : LinkFlags}

theorem runLinks_ignoresNetwork (file : Path)
    (hoffline : flags.offline = true ∨ files.LatestOff) :
    IgnoresNetwork fun network => runLinks ⟨files, network, tools⟩ file flags := by
  simp only [runLinks]
  refine .bind fun document _ => .bind fun session hsession => ?_
  have honline := Session.online_eq_false_of_open? hsession hoffline
  simp only [Session.context_of_offline honline]
  refine ⟨_, fun _ => rfl, fun run hrun => ?_⟩
  cases hrun
  have hstate := Settles.state_eq fun inv =>
    LookupContext.links_settles (session.offlineContext_settled files inv) document file
  exact congrArg LookupState.source (hstate _)

theorem runLookup_ignoresNetwork (file : Path) (line column : Nat)
    (hoffline : flags.offline = true ∨ files.LatestOff) :
    IgnoresNetwork fun network => runLookup ⟨files, network, tools⟩ file line column flags := by
  simp only [runLookup]
  refine .bind fun document _ => .bind fun position _ => .bind fun session hsession => ?_
  have honline := Session.online_eq_false_of_open? hsession hoffline
  simp only [Session.context_of_offline honline]
  refine ⟨_, fun _ => rfl, fun run hrun => ?_⟩
  have hstate := Settles.state_eq fun inv =>
    LookupContext.targetAt_settles (session.offlineContext_settled files inv) document file position
  split at hrun
  next target state hfound =>
  have hkept := hstate (.fresh [])
  rw [hfound] at hkept
  split at hrun
  · cases hrun
    exact congrArg LookupState.source hkept
  · cases hrun
    exact congrArg LookupState.source hkept

theorem runVersions_ignoresNetwork (hoffline : flags.offline = true ∨ files.LatestOff) :
    IgnoresNetwork fun network => runVersions ⟨files, network, tools⟩ flags := by
  simp only [runVersions]
  refine .bind fun session hsession => ?_
  have honline := Session.online_eq_false_of_open? hsession hoffline
  simp only [Session.context_of_offline honline]
  refine ⟨_, fun _ => rfl, fun run hrun => ?_⟩
  split at hrun
  · cases hrun
  · next lockFile _ =>
    cases hrun
    have hstate := Settles.state_eq fun inv => Settles.mapM
      (VersionRow.ofLock_settles (session.offlineContext_settled files inv)) lockFile.providers
    exact congrArg LookupState.source (hstate _)

theorem runStatus_ignoresNetwork :
    IgnoresNetwork fun network => runStatus ⟨files, network, tools⟩ := by
  simp only [runStatus]
  refine .bind fun config _ => .bind fun state _ => ⟨_, fun _ => rfl, fun run hrun => ?_⟩
  split at hrun
  all_goals cases hrun
  all_goals rfl

theorem runInitCommand_ignoresNetwork :
    IgnoresNetwork fun network => runInitCommand ⟨files, network, tools⟩ := by
  simp only [runInitCommand]
  refine .bind fun config _ => .bind fun state _ => ⟨_, fun _ => rfl, fun run hrun => ?_⟩
  split at hrun
  · cases hrun
  · split at hrun
    all_goals cases hrun
    all_goals rfl

theorem Invocation.run_ignoresNetwork {invocation : Invocation}
    (hoffline : ∀ flags ∈ invocation.linkFlags?, flags.offline = true ∨ files.LatestOff) :
    ∃ run, (∀ network, invocation.run ⟨files, network, tools⟩ = run) ∧ run.requests = [] := by
  cases invocation with
  | init => exact (runInitCommand_ignoresNetwork files tools).ends
  | links file flags => exact (runLinks_ignoresNetwork files tools file (hoffline flags rfl)).ends
  | lookup file line column flags =>
      exact (runLookup_ignoresNetwork files tools file line column (hoffline flags rfl)).ends
  | status => exact (runStatus_ignoresNetwork files tools).ends
  | versions flags => exact (runVersions_ignoresNetwork files tools (hoffline flags rfl)).ends

end Commands

/--
With the option `--offline`, or where the settings turn `latest` off, a command line leads to the
same run whatever the network is, and no request is made.
-/
theorem runCommandLine_offline (files : FileTree) (tools : Toolbox)
    (first second : Registry.Network) (words : List String)
    (hoffline : "--offline" ∈ words.takeWhile (· ≠ "--") ∨ files.LatestOff) :
    runCommandLine ⟨files, first, tools⟩ words = runCommandLine ⟨files, second, tools⟩ words ∧
      ∀ run, runCommandLine ⟨files, first, tools⟩ words = .ok run → run.requests = [] := by
  unfold runCommandLine
  cases hwords : Invocation.ofWords words with
  | error problem => simp [Except.map]
  | ok invocation =>
      have hflags : ∀ flags ∈ invocation.linkFlags?, flags.offline = true ∨ files.LatestOff :=
        fun flags hflags =>
          hoffline.imp_left (Invocation.offline_iff_of_ofWords hwords flags hflags).mpr
      obtain ⟨run, hrun, hrequests⟩ := Invocation.run_ignoresNetwork files tools hflags
      rw [Except.map, Except.map, hrun first, hrun second]
      refine ⟨rfl, fun other hother => ?_⟩
      cases hother
      exact hrequests

def quietTree (latest : Bool) : FileTree where
  nodes := [
    (["w"], .directory),
    (["w", ".tfdoc.toml"], .file (Text.Utf8.encode
      (if latest then "latest = true\n" else "latest = false\n"))),
    (["w", ".terraform.lock.hcl"], .file (Text.Utf8.encode
      "provider \"registry.terraform.io/hashicorp/aws\" \x7b\n  version = \"5.31.0\"\n\x7d\n"))]
  working := ["w"]

def quietSession (latest : Bool) : Session where
  config := { Config.default with latest }
  lockFile := some ⟨[⟨⟨"hashicorp", "aws"⟩, some "5.31.0", none, [], []⟩]⟩
  online := false

section QuietTree

variable (latest : Bool)

theorem locate_quietTree {name : String}
    (h : name = ".tfdoc.toml" ∨ name = ".terraform.lock.hcl") :
    (quietTree latest).locate (Path.join ⟨"."⟩ ⟨name⟩) = .ok ["w", name] := by
  have hunlinked : (quietTree latest).Unlinked := by simp [FileTree.Unlinked, quietTree]
  rw [FileTree.locate_eq_foldlM hunlinked]
  rcases h with rfl | rfl <;> cases latest <;> decide

theorem load_quietTree :
    Config.load (quietTree latest) ⟨"."⟩ = .ok { Config.default with latest } := by
  have hplace : (quietTree latest).locate (Path.join ⟨"."⟩ ⟨Config.fileName⟩) =
      .ok ["w", ".tfdoc.toml"] := locate_quietTree latest (.inl rfl)
  simp only [Config.load, FileTree.readText, FileTree.readBytes, FileTree.lookup, hplace]
  cases latest <;> decide +kernel

theorem discover_quietTree :
    LockFile.discover (quietTree latest) ⟨"."⟩ Config.default.lockFile =
      .ok (quietSession latest).lockFile := by
  have hplace : (quietTree latest).locate (Path.join ⟨"."⟩ ⟨Config.default.lockFile⟩) =
      .ok ["w", ".terraform.lock.hcl"] := locate_quietTree latest (.inr rfl)
  have hfile : (quietTree latest).isFile (Path.join ⟨"."⟩ ⟨Config.default.lockFile⟩) = true := by
    simp only [FileTree.isFile, FileTree.lookup, hplace]
    cases latest <;> decide +kernel
  have hancestors : Path.ancestors ⟨"."⟩ = [⟨"."⟩, ⟨""⟩] := by decide +kernel
  have hlocate : LockFile.locate? (quietTree latest) ⟨"."⟩ Config.default.lockFile =
      some (Path.join ⟨"."⟩ ⟨Config.default.lockFile⟩) := by
    simp only [LockFile.locate?, hancestors, List.map_cons, List.find?_cons, hfile]
  simp only [LockFile.discover, hlocate, LockFile.read, FileTree.readNamed, FileTree.readText,
    FileTree.readBytes, FileTree.lookup, hplace]
  cases latest <;> decide +kernel

theorem run_quietTree {offline : Bool} (hoffline : (latest && !offline) = false)
    (network : Registry.Network) (tools : Toolbox) :
    Invocation.run ⟨quietTree latest, network, tools⟩ (.versions { offline }) =
      .succeed "hashicorp/aws  5.31.0  -> 5.31.0\n" [] := by
  have hopen : Session.open? (quietTree latest) ⟨"."⟩ { offline } = .ok (quietSession latest) := by
    have hlockFile := discover_quietTree latest
    simp only [Session.open?, load_quietTree]
    change (LockFile.discover _ _ Config.default.lockFile).bind _ = _
    rw [hlockFile, Except.bind, hoffline]
    rfl
  simp only [Invocation.run, runVersions, hopen]
  rfl

end QuietTree

theorem runCommandLine_offline_quiet :
    let answering : Registry.Network := fun _ =>
      .answered 200 (Text.Utf8.encode "[\"5.31.0\"]")
    let tools : Toolbox := fun _ _ _ => .error .notFound
    let run : CommandRun := ⟨0, "hashicorp/aws  5.31.0  -> 5.31.0\n", "", [], none⟩
    ((quietTree false).LatestOff ∧
      runCommandLine ⟨quietTree false, answering, tools⟩ ["versions"] = .ok run ∧
      runCommandLine ⟨quietTree false, Registry.disconnected, tools⟩ ["versions"] = .ok run) ∧
    "--offline" ∈ ["versions", "--offline"].takeWhile (· ≠ "--") ∧
      runCommandLine ⟨quietTree true, answering, tools⟩ ["versions", "--offline"] = .ok run ∧
      runCommandLine ⟨quietTree true, Registry.disconnected, tools⟩ ["versions", "--offline"] =
        .ok run := by
  intro answering tools run
  have hlatest : (quietTree false).LatestOff := ⟨_, load_quietTree false, rfl⟩
  have hoption : "--offline" ∈ ["versions", "--offline"].takeWhile (· ≠ "--") := by decide
  have hset : runCommandLine ⟨quietTree false, answering, tools⟩ ["versions"] = .ok run := by
    have hwords : Invocation.ofWords ["versions"] = .ok (.versions {}) := by decide
    rw [runCommandLine, hwords, Except.map, run_quietTree false rfl]
    rfl
  have hgiven : runCommandLine ⟨quietTree true, answering, tools⟩ ["versions", "--offline"] =
      .ok run := by
    have hwords : Invocation.ofWords ["versions", "--offline"] =
        .ok (.versions { offline := true }) := by decide
    rw [runCommandLine, hwords, Except.map, run_quietTree true rfl]
    rfl
  obtain ⟨hsetSame, -⟩ := runCommandLine_offline (quietTree false) tools answering
    Registry.disconnected ["versions"] (.inr hlatest)
  obtain ⟨hgivenSame, -⟩ := runCommandLine_offline (quietTree true) tools answering
    Registry.disconnected ["versions", "--offline"] (.inl hoption)
  exact ⟨⟨hlatest, hset, hsetSame.symm.trans hset⟩, hoption, hgiven,
    hgivenSame.symm.trans hgiven⟩

end TerraformDocs
