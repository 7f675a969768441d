import TerraformDocs.LockFile.Parser
import TerraformDocs.Proofs.LockFile.Quoting

/-!
# Lock files as they are written

`written` writes provider locks one below the other, each as a block with a line for every string
and a line for every item of a list.  A record is `Writable` when its strings can stand between
quotes as they are; the written form has then no comment, whatever the strings hold.
-/

namespace TerraformDocs.LockFile

open TerraformDocs.Text

/-! ## The written form -/

inductive Setting where
  | text (key value : String)
  | list (key : String) (items : List String)

namespace Setting

def itemLine (item : String) : String := "    \"" ++ item ++ "\","

def lines : Setting → List String
  | text key value => ["  " ++ key ++ " = \"" ++ value ++ "\""]
  | list key items => ("  " ++ key ++ " = [") :: (items.map itemLine ++ ["  ]"])

theorem mem_lines_text {key value line : String} :
    line ∈ (text key value).lines ↔ line = "  " ++ key ++ " = \"" ++ value ++ "\"" :=
  List.mem_singleton

theorem mem_lines_list {key line : String} {items : List String} :
    line ∈ (list key items).lines ↔
      line = "  " ++ key ++ " = [" ∨ (∃ item ∈ items, itemLine item = line) ∨ line = "  ]" := by
  simp [lines]

end Setting

/-- A provider lock with the host that its source names, if it names one. -/
structure HostedLock where
  host : Option String
  lock : ProviderLock

namespace HostedLock

def source (record : HostedLock) : String :=
  match record.host with
  | some host => host ++ "/" ++ record.lock.source.text
  | none => record.lock.source.text

def settings (record : HostedLock) : List Setting :=
  (record.lock.version.map (Setting.text "version")).toList ++
    (record.lock.constraints.map (Setting.text "constraints")).toList ++
    [.list "hashes" record.lock.hashes, .list "platforms" record.lock.platforms]

def lines (record : HostedLock) : List String :=
  ("provider \"" ++ record.source ++ "\" \x7b") ::
    (record.settings.flatMap Setting.lines ++ ["\x7d"])

theorem mem_lines {record : HostedLock} {line : String} :
    line ∈ record.lines ↔ line = "provider \"" ++ record.source ++ "\" \x7b" ∨
      (∃ setting ∈ record.settings, line ∈ setting.lines) ∨ line = "\x7d" := by
  simp [lines]

end HostedLock

def written (records : List HostedLock) : String :=
  String.join ((records.flatMap HostedLock.lines).map (· ++ "\n"))

/-! ## What can be written -/

def IsSourcePart (part : String) : Prop :=
  part ≠ "" ∧ ∀ c ∈ part.toList, c ≠ '/' ∧ c ≠ '"' ∧ c ≠ '\\' ∧ isBlank c = false

def IsQuotable (text : String) : Prop := ∀ c ∈ text.toList, c ≠ '"' ∧ c ≠ '\\' ∧ c ≠ '\n'

def IsItem (text : String) : Prop := IsQuotable text ∧ ']' ∉ text.toList

instance (part : String) : Decidable (IsSourcePart part) :=
  haveI := List.decidableBAll (fun c => c ≠ '/' ∧ c ≠ '"' ∧ c ≠ '\\' ∧ isBlank c = false)
    part.toList
  instDecidableAnd

instance (text : String) : Decidable (IsQuotable text) :=
  List.decidableBAll (fun c => c ≠ '"' ∧ c ≠ '\\' ∧ c ≠ '\n') text.toList

instance (text : String) : Decidable (IsItem text) := instDecidableAnd

structure HostedLock.Writable (record : HostedLock) : Prop where
  host : ∀ host ∈ record.host, IsSourcePart host
  publisher : IsSourcePart record.lock.source.publisher
  name : IsSourcePart record.lock.source.name
  version : ∀ version ∈ record.lock.version, IsQuotable version
  constraints : ∀ constraints ∈ record.lock.constraints, IsQuotable constraints
  hashes : ∀ item ∈ record.lock.hashes, IsItem item
  platforms : ∀ item ∈ record.lock.platforms, IsItem item

theorem HostedLock.Writable.source {record : HostedLock} (h : record.Writable) :
    ∀ c ∈ record.source.toList, c ≠ '"' ∧ c ≠ '\\' ∧ isBlank c = false := by
  have hslash : '/' ≠ '"' ∧ '/' ≠ '\\' ∧ isBlank '/' = false := by decide
  have hsource : ∀ c ∈ record.lock.source.text.toList,
      c ≠ '"' ∧ c ≠ '\\' ∧ isBlank c = false := by
    intro c hc
    simp only [ProviderSource.text, String.toList_append, List.mem_append] at hc
    rcases hc with (hc | hc) | hc
    · exact (h.publisher.2 c hc).2
    · obtain rfl : c = '/' := by simpa using hc
      exact hslash
    · exact (h.name.2 c hc).2
  intro c hc
  unfold HostedLock.source at hc
  split at hc
  · next host hhost =>
    simp only [String.toList_append, List.mem_append] at hc
    rcases hc with (hc | hc) | hc
    · exact ((h.host host hhost).2 c hc).2
    · obtain rfl : c = '/' := by simpa using hc
      exact hslash
    · exact hsource c hc
  · exact hsource c hc

def keys : List String := ["version", "constraints", "hashes", "platforms"]

def Setting.Writable : Setting → Prop
  | text key value => key ∈ keys ∧ IsQuotable value
  | list key items => key ∈ keys ∧ ∀ item ∈ items, IsItem item

theorem HostedLock.Writable.settings {record : HostedLock} (h : record.Writable) :
    ∀ setting ∈ record.settings, setting.Writable := by
  intro setting hmem
  simp only [HostedLock.settings, List.mem_append, Option.mem_toList, Option.map_eq_some_iff,
    List.mem_cons, List.not_mem_nil, or_false] at hmem
  rcases hmem with (⟨version, hversion, rfl⟩ | ⟨constraints, hconstraints, rfl⟩) | rfl | rfl
  · exact ⟨by decide, h.version version hversion⟩
  · exact ⟨by decide, h.constraints constraints hconstraints⟩
  · exact ⟨by decide, h.hashes⟩
  · exact ⟨by decide, h.platforms⟩

theorem chars_of_mem_keys {key : String} (h : key ∈ keys) :
    key.toList ≠ [] ∧ ∀ c ∈ key.toList, isKeyChar c = true ∧ isBlank c = false := by
  simp only [keys, List.mem_cons, List.not_mem_nil, or_false] at h
  rcases h with rfl | rfl | rfl | rfl <;> simp <;> decide

theorem IsQuotable.not_mem {text : String} (h : IsQuotable text) :
    '"' ∉ text.toList ∧ '\\' ∉ text.toList ∧ '\n' ∉ text.toList :=
  ⟨fun hmem => (h _ hmem).1 rfl, fun hmem => (h _ hmem).2.1 rfl, fun hmem => (h _ hmem).2.2 rfl⟩

theorem not_mem_feed_of_mem_keys {key : String} (h : key ∈ keys) : '\n' ∉ key.toList := by
  intro hmem
  exact absurd ((chars_of_mem_keys h).2 '\n' hmem).2 (by decide)

theorem Setting.Writable.not_mem_feed {setting : Setting} (h : setting.Writable) :
    ∀ line ∈ setting.lines, '\n' ∉ line.toList := by
  intro line hline
  cases setting with
  | text key value =>
      obtain rfl := Setting.mem_lines_text.mp hline
      simp [not_mem_feed_of_mem_keys h.1, h.2.not_mem]
  | list key items =>
      rcases Setting.mem_lines_list.mp hline with rfl | ⟨item, hitem, rfl⟩ | rfl
      · simp [not_mem_feed_of_mem_keys h.1]
      · simp [Setting.itemLine, (h.2 item hitem).1.not_mem]
      · decide

/-! ## Characters of the written form -/

def charsOf (lines : List String) : List Char := unlines (lines.map String.toList)

theorem toList_written (records : List HostedLock) :
    (written records).toList = charsOf (records.flatMap HostedLock.lines) := by
  simp [written, charsOf, unlines, String.toList_join, List.flatMap_map]

theorem charsOf_append (first second : List String) :
    charsOf (first ++ second) = charsOf first ++ charsOf second := by
  simp [charsOf]

theorem plain_itemLine {item : String} (h : IsItem item) :
    Quoting.Plain (Setting.itemLine item).toList := by
  obtain ⟨hquote, hbackslash, -⟩ := h.1.not_mem
  have hindent : Quoting.Plain [' ', ' ', ' ', ' '] := .of_unquoted (by simp)
  have hcomma : Quoting.Plain [','] := .of_unquoted (by simp)
  simpa [Setting.itemLine] using
    (hindent.append (.of_quoted hquote hbackslash)).append hcomma

theorem plain_key {key : String} (h : key ∈ keys) :
    Quoting.Plain (' ' :: ' ' :: (key.toList ++ [' ', '=', ' '])) := by
  simp only [keys, List.mem_cons, List.not_mem_nil, or_false] at h
  rcases h with rfl | rfl | rfl | rfl <;> exact .of_unquoted (by simp)

theorem plain_setting {setting : Setting} (h : setting.Writable) :
    ∀ line ∈ setting.lines, Quoting.Plain line.toList := by
  cases setting with
  | text key value =>
      obtain ⟨hquote, hbackslash, -⟩ := h.2.not_mem
      intro line hline
      obtain rfl := Setting.mem_lines_text.mp hline
      simpa using (plain_key h.1).append (.of_quoted hquote hbackslash)
  | list key items =>
      have hopen : Quoting.Plain ['['] := .of_unquoted (by simp)
      have hclose : Quoting.Plain [' ', ' ', ']'] := .of_unquoted (by simp)
      intro line hline
      rcases Setting.mem_lines_list.mp hline with rfl | ⟨item, hitem, rfl⟩ | rfl
      · simpa using (plain_key h.1).append hopen
      · exact plain_itemLine (h.2 item hitem)
      · simpa using hclose

/-! ## Comments -/

theorem beforeComment_record {record : HostedLock} (h : record.Writable) :
    ∀ line ∈ record.lines, Quoting.beforeComment .outside line.toList = line.toList := by
  have hopen : '#' ∉ Quoting.outside.exposed [' ', '{'] ∧
      '/' ∉ Quoting.outside.exposed [' ', '{'] := by decide
  have hclose : '#' ∉ Quoting.outside.exposed ['}'] ∧
      '/' ∉ Quoting.outside.exposed ['}'] := by decide
  have hempty : '#' ∉ Quoting.outside.exposed [] ∧ '/' ∉ Quoting.outside.exposed [] := by decide
  intro line hline
  rcases HostedLock.mem_lines.mp hline with rfl | ⟨setting, hsetting, hline⟩ | rfl
  · have hword : Quoting.Plain "provider ".toList := .of_unquoted (by simp)
    have hlabel : Quoting.Plain ('"' :: (record.source.toList ++ ['"'])) :=
      .of_quoted (fun hmem => (h.source _ hmem).1 rfl) (fun hmem => (h.source _ hmem).2.1 rfl)
    simpa using (hword.append hlabel).beforeComment_append hopen.1 hopen.2
  · have hplain := plain_setting (h.settings setting hsetting) line hline
    simpa using hplain.beforeComment_append hempty.1 hempty.2
  · decide

theorem lines_record {record : HostedLock} (h : record.Writable) :
    ∀ line ∈ record.lines, '\n' ∉ line.toList ∧ line.toList.getLast? ≠ some '\r' := by
  intro line hline
  rcases HostedLock.mem_lines.mp hline with rfl | ⟨setting, hsetting, hline⟩ | rfl
  · have hfeed : '\n' ∉ record.source.toList := by
      intro hmem
      exact absurd (h.source _ hmem).2.2 (by decide)
    simp [hfeed, List.getLast?_cons, List.getLast?_append]
  · refine ⟨(h.settings setting hsetting).not_mem_feed line hline, ?_⟩
    cases setting with
    | text key value =>
        obtain rfl := Setting.mem_lines_text.mp hline
        simp [List.getLast?_cons, List.getLast?_append]
    | list key items =>
        rcases Setting.mem_lines_list.mp hline with rfl | ⟨item, -, rfl⟩ | rfl <;>
          simp [Setting.itemLine, List.getLast?_cons, List.getLast?_append]
  · decide

theorem withoutComments_records {records : List HostedLock}
    (h : ∀ record ∈ records, record.Writable) :
    withoutComments (charsOf (records.flatMap HostedLock.lines)) =
      charsOf (records.flatMap HostedLock.lines) := by
  have hlines : ∀ line ∈ records.flatMap HostedLock.lines,
      '\n' ∉ line.toList ∧ line.toList.getLast? ≠ some '\r' := by
    intro line hline
    obtain ⟨record, hrecord, hline⟩ := List.mem_flatMap.mp hline
    exact lines_record (h record hrecord) line hline
  have hsplit : lines (charsOf (records.flatMap HostedLock.lines)) =
      (records.flatMap HostedLock.lines).map String.toList :=
    lines_unlines (List.forall_mem_map.mpr fun line hline => (hlines line hline).1)
      (List.forall_mem_map.mpr fun line hline => (hlines line hline).2)
  rw [withoutComments, hsplit, charsOf, unlines, List.flatMap_map, List.flatMap_map,
    List.flatMap_def, List.flatMap_def]
  congr 1
  apply List.map_congr_left
  intro line hline
  obtain ⟨record, hrecord, hline⟩ := List.mem_flatMap.mp hline
  rw [beforeComment_record (h record hrecord) line hline]

end TerraformDocs.LockFile
