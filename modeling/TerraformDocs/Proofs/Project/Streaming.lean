import TerraformDocs.Project.Init
import TerraformDocs.Proofs.Text.LineEnds
import TerraformDocs.Proofs.Text.Utf8

/-!
# What is passed on of a tool's output

The init tool writes bytes.  They are cut into lines first and read as text line by line, so a fault
in one line does not reach back to the lines before it; no line behind it is passed on, and the run
has failed however the tool ends.  Without a fault the tool's exit status decides
(`runInit_passes_on`).
-/

namespace TerraformDocs

open TerraformDocs.Text

def ExitStatus.code? : ExitStatus → Option Int
  | code value => some value
  | signal => none

namespace InitRun

/-- The texts that are passed on of some lines of bytes, and the outcome, for a tool's end. -/
inductive PassesOn (command : String) (status : ExitStatus) :
    List (List UInt8) → List String → Except Error Unit → Prop
  | faulty (texts : List String) {fault : List UInt8} (hfault : ¬ Utf8.IsValid fault)
      (others : List (List UInt8)) :
      PassesOn command status (texts.map Utf8.encode ++ fault :: others) texts
        (.error (.io .notUtf8))
  | failed (texts : List String) (hstatus : status ≠ .code 0) :
      PassesOn command status (texts.map Utf8.encode) texts
        (.error (.initFailed command status.code?))
  | succeeded (texts : List String) (hstatus : status = .code 0) :
      PassesOn command status (texts.map Utf8.encode) texts (.ok ())

theorem verdict_of_ne {status : ExitStatus} (h : status ≠ .code 0) (command : String) :
    verdict command status = .error (.initFailed command status.code?) := by
  cases status with
  | signal => rfl
  | code value =>
      cases value with
      | zero => exact absurd rfl h
      | succ value => rfl

/-! ## Line by line -/

theorem textsBefore_encode (text : String) (others : List (List UInt8)) :
    textsBefore (Utf8.encode text :: others) =
      (text :: (textsBefore others).1, (textsBefore others).2) := by
  simp [textsBefore, Utf8.decode?_encode]

theorem textsBefore_fault {fault : List UInt8} (h : ¬ Utf8.IsValid fault)
    (others : List (List UInt8)) : textsBefore (fault :: others) = ([], true) := by
  simp [textsBefore, Utf8.decode?_eq_none_iff.mpr h]

theorem textsBefore_map_encode (texts : List String) (others : List (List UInt8)) :
    textsBefore (texts.map Utf8.encode ++ others) =
      (texts ++ (textsBefore others).1, (textsBefore others).2) := by
  induction texts with
  | nil => rfl
  | cons text texts ih =>
      rw [List.map_cons, List.cons_append, textsBefore_encode, ih, List.cons_append]

theorem textsBefore_texts (texts : List String) :
    textsBefore (texts.map Utf8.encode) = (texts, false) := by
  have hall := textsBefore_map_encode texts []
  simpa [textsBefore] using hall

section PassesOn

variable {command : String} {status : ExitStatus} {lines : List (List UInt8)}
  {texts : List String} {outcome : Except Error Unit}

theorem PassesOn.encode_cons (h : PassesOn command status lines texts outcome) (text : String) :
    PassesOn command status (Utf8.encode text :: lines) (text :: texts) outcome := by
  cases h with
  | faulty _ hfault others => exact .faulty (text :: texts) hfault others
  | failed _ hstatus => exact .failed (text :: texts) hstatus
  | succeeded _ hstatus => exact .succeeded (text :: texts) hstatus

theorem passesOn_textsBefore (command : String) (status : ExitStatus) (lines : List (List UInt8)) :
    PassesOn command status lines (textsBefore lines).1
      (if (textsBefore lines).2 then .error (.io .notUtf8) else verdict command status) := by
  induction lines with
  | nil =>
      by_cases hstatus : status = .code 0
      · rw [hstatus]
        exact .succeeded [] rfl
      · change PassesOn command status [] [] (verdict command status)
        rw [verdict_of_ne hstatus]
        exact .failed [] hstatus
  | cons line lines ih =>
      by_cases hline : Utf8.IsValid line
      · obtain ⟨text, rfl⟩ := hline
        rw [textsBefore_encode]
        exact ih.encode_cons text
      · rw [textsBefore_fault hline]
        exact .faulty [] hline lines

theorem PassesOn.textsBefore_eq (h : PassesOn command status lines texts outcome) :
    (textsBefore lines).1 = texts ∧
      (if (textsBefore lines).2 then .error (.io .notUtf8) else verdict command status) =
        outcome := by
  cases h with
  | faulty _ hfault others =>
      rw [textsBefore_map_encode, textsBefore_fault hfault]
      exact ⟨List.append_nil texts, rfl⟩
  | failed _ hstatus =>
      rw [textsBefore_texts]
      exact ⟨rfl, verdict_of_ne hstatus command⟩
  | succeeded _ hstatus =>
      rw [textsBefore_texts, hstatus]
      exact ⟨rfl, rfl⟩

end PassesOn

theorem ofToolRun_eq_iff {command : String} {run : ToolRun} {texts : List String}
    {outcome : Except Error Unit} :
    ((ofToolRun command run).lines = texts ∧ (ofToolRun command run).outcome = outcome) ↔
      ∃ lines, CutAtFeeds 10 13 run.output lines ∧
        PassesOn command run.status lines texts outcome := by
  constructor
  · rintro ⟨rfl, rfl⟩
    exact ⟨byteLines run.output, cutAtFeeds_linesOf (by decide) run.output,
      passesOn_textsBefore command run.status _⟩
  · rintro ⟨lines, hlines, hpasses⟩
    obtain rfl : byteLines run.output = lines := (linesOf_eq_iff (by decide)).mpr hlines
    exact hpasses.textsBefore_eq

end InitRun

/--
When the init tool starts, what is passed on of its output and the outcome are determined by its
lines and its exit status: the texts of the lines before the first one that is no text, in order and
unchanged, and an error of reading if there is such a line; otherwise all lines, and an error with
the exit code unless that is zero.
-/
theorem runInit_passes_on {tools : Toolbox} {files : FileTree} {program : String}
    {arguments : List String} {run : ToolRun} (h : tools files program arguments = .ok run)
    (texts : List String) (outcome : Except Error Unit) :
    let command := " ".intercalate (program :: arguments)
    let result := runInit tools files (program :: arguments)
    (result.lines = texts ∧ result.outcome = outcome) ↔
      ∃ lines, CutAtFeeds 10 13 run.output lines ∧
        InitRun.PassesOn command run.status lines texts outcome := by
  simp only [runInit, h]
  exact InitRun.ofToolRun_eq_iff

theorem runInit_passes_on_faulty :
    let stopped : ToolRun :=
      ⟨Utf8.encode "Initializing\r\n\nfür\n" ++ [0xC3, 10] ++ Utf8.encode "done\n", [], .code 0⟩
    let ended : ToolRun := ⟨Utf8.encode "a\rb\r\r\nc\r", [], .code 3⟩
    let tools : Toolbox := fun _ program _ => .ok (if program = "terraform" then stopped else ended)
    let result := fun program => runInit tools (.emptyAt []) [program, "init"]
    tools (.emptyAt []) "terraform" ["init"] = .ok stopped ∧
      (result "terraform").lines = ["Initializing", "", "für"] ∧
      (result "terraform").outcome = .error (.io .notUtf8) ∧
      tools (.emptyAt []) "tofu" ["init"] = .ok ended ∧
      (result "tofu").lines = ["a\rb\r", "c\r"] ∧
      (result "tofu").outcome = .error (.initFailed "tofu init" (some 3)) := by
  intro stopped ended tools result
  have hstopped : tools (.emptyAt []) "terraform" ["init"] = .ok stopped := rfl
  have hended : tools (.emptyAt []) "tofu" ["init"] = .ok ended := rfl
  have hfault : ¬ Utf8.IsValid [0xC3] := by decide
  have hstoppedLines : CutAtFeeds 10 13 stopped.output
      (["Initializing", "", "für"].map Utf8.encode ++ [0xC3] :: [Utf8.encode "done"]) :=
    (linesOf_eq_iff (by decide)).mp (by decide +kernel)
  have hendedLines : CutAtFeeds 10 13 ended.output (["a\rb\r", "c\r"].map Utf8.encode) :=
    (linesOf_eq_iff (by decide)).mp (by decide +kernel)
  obtain ⟨hfirst, hio⟩ := (runInit_passes_on hstopped _ _).mpr
    ⟨_, hstoppedLines, .faulty _ hfault _⟩
  obtain ⟨hall, hfailed⟩ := (runInit_passes_on hended _ _).mpr
    ⟨_, hendedLines, .failed _ (by decide)⟩
  exact ⟨hstopped, hfirst, hio, hended, hall, hfailed⟩

end TerraformDocs
