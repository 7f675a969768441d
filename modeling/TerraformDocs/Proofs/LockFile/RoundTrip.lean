import TerraformDocs.Proofs.LockFile.Nested
import TerraformDocs.Proofs.LockFile.Written
import TerraformDocs.Proofs.Text.Exact

/-!
# Reading what is written

Reading a written lock file gives its locks in the same order (`ofText_written`).  Each reader takes
the lines that are for it and passes over the others: a block's settings hold no header, its strings
are no lists, and its lists no strings.
-/

namespace TerraformDocs.LockFile

open TerraformDocs.Text

/-! ## Settings -/

theorem skip_charsOf {α : Type} (reader : LineReader α) {ls : List String}
    (hfeed : ∀ line ∈ ls, '\n' ∉ line.toList)
    (h : ∀ line ∈ ls, ∀ rest, reader.read (line.toList ++ '\n' :: rest) = none)
    (rest : List Char) :
    reader.readingsFrom true (charsOf ls ++ rest) = reader.readingsFrom true rest :=
  reader.readingsFrom_skip_lines (List.forall_mem_map.mpr hfeed) (List.forall_mem_map.mpr h) rest

theorem key?_written {key : String} (h : key ∈ keys) {c : Char} (hc : isBlank c = false)
    (rest : List Char) :
    key? (' ' :: ' ' :: (key.toList ++ ' ' :: '=' :: ' ' :: c :: rest)) =
      some (key.toList, c :: rest) := by
  obtain ⟨hne, hchars⟩ := chars_of_mem_keys h
  have hstart (tail : List Char) : dropBlanks (key.toList ++ tail) = key.toList ++ tail := by
    cases hkey : key.toList with
    | nil => exact absurd hkey hne
    | cons d ds =>
        exact dropBlanks_cons_of_not_blank (hchars d (by simp [hkey])).2 _
  have hrun := run?_append hne (fun d hd => (hchars d hd).1)
    (show isKeyChar ' ' = false by decide) ('=' :: ' ' :: c :: rest)
  simp (disch := decide) [key?, hstart, hrun, dropBlanks_cons_of_not_blank,
    dropBlanks_cons_of_not_blank hc]

theorem stringSetting?_written {key value : String} (hkey : key ∈ keys)
    (hvalue : IsQuotable value) (rest : List Char) :
    stringSetting? (' ' :: ' ' :: (key.toList ++ ' ' :: '=' :: ' ' :: '"' ::
      (value.toList ++ '"' :: rest))) = some ((key.toList, value.toList), rest) := by
  simp (disch := decide) [stringSetting?, key?_written hkey, quoted?_append hvalue.not_mem.1]

theorem key?_space (cs : List Char) : key? (' ' :: cs) = key? cs := by
  simp [key?]

theorem key?_feed (cs : List Char) : key? ('\n' :: cs) = key? cs := by
  simp [key?]

theorem key?_eq_none {c : Char} (hblank : isBlank c = false) (hkey : isKeyChar c = false)
    (rest : List Char) : key? (c :: rest) = none := by
  simp [key?, dropBlanks_cons_of_not_blank hblank, run?, hkey]

theorem key?_itemLine (item : String) (rest : List Char) :
    key? ((Setting.itemLine item).toList ++ rest) = none := by
  simp (disch := decide) [Setting.itemLine, key?_space, key?_eq_none]

def Setting.string? : Setting → Option (List Char × List Char)
  | text key value => some (key.toList, value.toList)
  | list _ _ => none

def Setting.list? : Setting → Option (List Char × List (List Char))
  | text _ _ => none
  | list key items => some (key.toList, items.map String.toList)

/-! ### Strings -/

theorem strings_setting {setting : Setting} (h : setting.Writable) (rest : List Char) :
    (stringReader.readingsFrom true (charsOf setting.lines ++ rest)).map Prod.fst =
      setting.string?.toList ++ (stringReader.readingsFrom true rest).map Prod.fst := by
  cases setting with
  | text key value =>
      have hread := LineReader.readingsFrom_of_some stringReader
        (stringSetting?_written h.1 h.2 ('\n' :: rest))
      rw [LineReader.readingsFrom_false_feed] at hread
      simp [charsOf, Setting.lines, Setting.string?, hread]
  | list key items =>
      have hskip : ∀ line ∈ (Setting.list key items).lines, ∀ later,
          stringReader.read (line.toList ++ '\n' :: later) = none := by
        intro line hline later
        change stringSetting? _ = none
        rcases Setting.mem_lines_list.mp hline with rfl | ⟨item, -, rfl⟩ | rfl
        · simp [stringSetting?, key?_written h.1 (c := '[') (by decide), quoted?]
        · simp [stringSetting?, key?_itemLine]
        · simp (disch := decide) [stringSetting?, key?_space, key?_eq_none]
      rw [skip_charsOf stringReader h.not_mem_feed hskip]
      rfl

/-! ### Lists -/

theorem quotedItems_cons {front item : List Char} (hfront : '"' ∉ front) (hitem : '"' ∉ item)
    (rest : List Char) :
    quotedItems (front ++ '"' :: (item ++ '"' :: rest)) = item :: quotedItems rest := by
  rw [quotedItems]
  split
  · next h => simp [upTo?_append hfront] at h
  · next afterOpen h =>
    rw [upTo?_append hfront, Option.some.injEq, Prod.mk.injEq] at h
    obtain ⟨-, rfl⟩ := h
    split
    · next h => simp [upTo?_append hitem] at h
    · next later h =>
      rw [upTo?_append hitem, Option.some.injEq, Prod.mk.injEq] at h
      obtain ⟨rfl, rfl⟩ := h
      rfl

theorem quotedItems_eq_nil {cs : List Char} (h : '"' ∉ cs) : quotedItems cs = [] := by
  rw [quotedItems]
  split
  · rfl
  · next hopen => simp [upTo?_eq_none h] at hopen

theorem quotedItems_written {items : List String} (h : ∀ item ∈ items, IsItem item)
    {front back : List Char} (hfront : '"' ∉ front) (hback : '"' ∉ back) :
    quotedItems (front ++ (charsOf (items.map Setting.itemLine) ++ back)) =
      items.map String.toList := by
  induction items generalizing front with
  | nil => exact quotedItems_eq_nil (by simp [charsOf, hfront, hback])
  | cons item items ih =>
      have hitem := (h item (by simp)).1.not_mem.1
      have hrest : quotedItems ([',', '\n'] ++ (charsOf (items.map Setting.itemLine) ++ back)) =
          items.map String.toList :=
        ih (fun other hmem => h other (by simp [hmem])) (by decide)
      have hindent : '"' ∉ front ++ [' ', ' ', ' ', ' '] := by simp [hfront]
      have hcons := quotedItems_cons hindent hitem
        ([',', '\n'] ++ (charsOf (items.map Setting.itemLine) ++ back))
      rw [hrest] at hcons
      simpa [charsOf, Setting.itemLine] using hcons

theorem not_mem_bracket_items {items : List String} (h : ∀ item ∈ items, IsItem item) :
    ']' ∉ charsOf (items.map Setting.itemLine) := by
  induction items with
  | nil => simp [charsOf]
  | cons item items ih =>
      have hrest := ih fun other hmem => h other (by simp [hmem])
      simpa [charsOf, Setting.itemLine, (h item (by simp)).2] using hrest

theorem listSetting?_written {key : String} {items : List String} (hkey : key ∈ keys)
    (hitems : ∀ item ∈ items, IsItem item) (rest : List Char) :
    listSetting? (' ' :: ' ' :: (key.toList ++ ' ' :: '=' :: ' ' :: '[' :: '\n' ::
      (charsOf (items.map Setting.itemLine) ++ ' ' :: ' ' :: ']' :: rest))) =
      some ((key.toList, items.map String.toList), rest) := by
  have hbracket : ']' ∉ '\n' :: (charsOf (items.map Setting.itemLine) ++ [' ', ' ']) := by
    simp [not_mem_bracket_items hitems]
  have hclose := upTo?_append hbracket rest
  have hread : quotedItems (['\n'] ++ (charsOf (items.map Setting.itemLine) ++ [' ', ' '])) = _ :=
    quotedItems_written hitems (by decide) (by decide)
  simp only [List.cons_append, List.append_assoc, List.nil_append] at hclose hread
  simp (disch := decide) [listSetting?, key?_written hkey, hclose, hread]

theorem lists_setting {setting : Setting} (h : setting.Writable) (rest : List Char) :
    (listReader.readingsFrom true (charsOf setting.lines ++ rest)).map Prod.fst =
      setting.list?.toList ++ (listReader.readingsFrom true rest).map Prod.fst := by
  cases setting with
  | text key value =>
      have hread : listReader.read (' ' :: ' ' :: (key.toList ++ ' ' :: '=' :: ' ' :: '"' ::
          (value.toList ++ '"' :: '\n' :: rest))) = none := by
        change listSetting? _ = none
        simp (disch := decide) [listSetting?, key?_written h.1, List.isPrefixOf?]
      have hfeed := h.not_mem_feed _ (List.mem_singleton_self _)
      have hskip := LineReader.readingsFrom_skip_line listReader hfeed (by simpa using hread)
      simpa [charsOf, Setting.lines, Setting.list?] using congrArg (List.map Prod.fst) hskip
  | list key items =>
      have hread := LineReader.readingsFrom_of_some listReader
        (listSetting?_written h.1 h.2 ('\n' :: rest))
      rw [LineReader.readingsFrom_false_feed] at hread
      have hchars : charsOf (Setting.list key items).lines ++ rest =
          ' ' :: ' ' :: (key.toList ++ ' ' :: '=' :: ' ' :: '[' :: '\n' ::
            (charsOf (items.map Setting.itemLine) ++ ' ' :: ' ' :: ']' :: '\n' :: rest)) := by
        simp [charsOf, Setting.lines]
      rw [hchars, hread]
      rfl

/-! ### All settings of a block -/

theorem readingsFrom_settings {α : Type} {reader : LineReader α} {item? : Setting → Option α}
    (hread : ∀ {setting : Setting}, setting.Writable → ∀ rest,
      (reader.readingsFrom true (charsOf setting.lines ++ rest)).map Prod.fst =
        (item? setting).toList ++ (reader.readingsFrom true rest).map Prod.fst)
    {settings : List Setting} (h : ∀ setting ∈ settings, setting.Writable) :
    (reader.readingsFrom true (charsOf (settings.flatMap Setting.lines))).map Prod.fst =
      settings.filterMap item? := by
  induction settings with
  | nil => simp [charsOf]
  | cons setting settings ih =>
      obtain ⟨hsetting, hothers⟩ := List.forall_mem_cons.mp h
      rw [List.flatMap_cons, charsOf_append, hread hsetting, ih hothers]
      cases hitem : item? setting with
      | none => rw [List.filterMap_cons_none hitem, Option.toList_none, List.nil_append]
      | some item =>
          rw [List.filterMap_cons_some hitem, Option.toList_some, List.singleton_append]

theorem plain_settings {settings : List Setting} (h : ∀ setting ∈ settings, setting.Writable) :
    Quoting.Plain ('\n' :: charsOf (settings.flatMap Setting.lines)) := by
  have hfeed : Quoting.Plain ['\n'] := .of_unquoted (by simp)
  refine hfeed.append (.unlines ?_)
  intro line hline
  simp only [List.mem_map, List.mem_flatMap] at hline
  obtain ⟨text, ⟨setting, hsetting, htext⟩, rfl⟩ := hline
  exact plain_setting (h setting hsetting) text htext

def entry {α : Type} (key : String) (value : Option α) : List (List Char × α) :=
  (value.map fun value => (key.toList, value)).toList

theorem lastValue?_entries {α : Type} {key other : String} (hne : key ≠ other)
    (value second : Option α) :
    lastValue? key (entry key value ++ entry other second) = value ∧
      lastValue? other (entry key value ++ entry other second) = second := by
  have hkeys : key.toList ≠ other.toList := fun h => hne (String.toList_inj.mp h)
  cases value <;> cases second <;> simp [lastValue?, entry, hkeys, hkeys.symm]

theorem strings_record (record : HostedLock) :
    record.settings.filterMap Setting.string? =
      entry "version" (record.lock.version.map String.toList) ++
        entry "constraints" (record.lock.constraints.map String.toList) := by
  unfold HostedLock.settings
  cases record.lock.version <;> cases record.lock.constraints <;> rfl

theorem lists_record (record : HostedLock) :
    record.settings.filterMap Setting.list? =
      entry "hashes" (some (record.lock.hashes.map String.toList)) ++
        entry "platforms" (some (record.lock.platforms.map String.toList)) := by
  unfold HostedLock.settings
  cases record.lock.version <;> cases record.lock.constraints <;> rfl

theorem lockOf_written {record : HostedLock} (h : record.Writable) :
    lockOf record.lock.source ('\n' :: charsOf (record.settings.flatMap Setting.lines)) =
      record.lock := by
  have hstrings : stringReader.read ('\n' :: charsOf (record.settings.flatMap Setting.lines)) =
      stringReader.read (charsOf (record.settings.flatMap Setting.lines)) := by
    change stringSetting? _ = stringSetting? _
    simp [stringSetting?, key?_feed]
  have hlists : listReader.read ('\n' :: charsOf (record.settings.flatMap Setting.lines)) =
      listReader.read (charsOf (record.settings.flatMap Setting.lines)) := by
    change listSetting? _ = listSetting? _
    simp [listSetting?, key?_feed]
  obtain ⟨hversion, hconstraints⟩ :=
    lastValue?_entries (show "version" ≠ "constraints" by decide)
      (record.lock.version.map String.toList) (record.lock.constraints.map String.toList)
  obtain ⟨hhashes, hplatforms⟩ :=
    lastValue?_entries (show "hashes" ≠ "platforms" by decide)
      (some (record.lock.hashes.map String.toList))
      (some (record.lock.platforms.map String.toList))
  unfold lockOf
  simp only [(plain_settings h.settings).ownText, LineReader.readings,
    LineReader.readingsFrom_feed _ hstrings, LineReader.readingsFrom_feed _ hlists,
    readingsFrom_settings strings_setting h.settings,
    readingsFrom_settings lists_setting h.settings, strings_record, lists_record, hversion,
    hconstraints, hhashes, hplatforms]
  simp [Function.comp_def]

/-! ## Headers -/

theorem IsSourcePart.not_mem {part : String} (h : IsSourcePart part) : '/' ∉ part.toList :=
  fun hmem => (h.2 _ hmem).1 rfl

theorem ofChars?_source {record : HostedLock} (h : record.Writable) :
    ProviderSource.ofChars? record.source.toList = some record.lock.source := by
  have hpublisher : record.lock.source.publisher.toList ≠ [] := by simpa using h.publisher.1
  have hname : record.lock.source.name.toList ≠ [] := by simpa using h.name.1
  have hsource : record.lock.source.text.toList.splitOn '/' =
      [record.lock.source.publisher.toList, record.lock.source.name.toList] := by
    simp [ProviderSource.text, List.splitOn_append_cons_self_of_not_mem h.publisher.not_mem,
      List.splitOn_eq_singleton h.name.not_mem]
  have hsplit : record.source.toList.splitOn '/' = (record.host.map String.toList).toList ++
      [record.lock.source.publisher.toList, record.lock.source.name.toList] := by
    unfold HostedLock.source
    cases hhost : record.host with
    | none => exact hsource
    | some host =>
        have hpart := (h.host host hhost).not_mem
        simp only [String.toList_append, List.append_assoc]
        change (host.toList ++ '/' :: record.lock.source.text.toList).splitOn '/' = _
        rw [List.splitOn_append_cons_self_of_not_mem hpart, hsource]
        rfl
  unfold ProviderSource.ofChars?
  rw [trimChars_eq_self fun c hc => (h.source c hc).2.2, hsplit]
  cases record.host <;> simp [hpublisher, hname]

theorem header?_written {source : List Char} (hne : source ≠ []) (hquote : '"' ∉ source)
    (rest : List Char) :
    header? ("provider \"".toList ++ (source ++ '"' :: ' ' :: '{' :: rest)) =
      some (source, rest) := by
  have hlabel : label? ('"' :: (source ++ '"' :: ' ' :: '{' :: rest)) =
      some (source, ' ' :: '{' :: rest) :=
    label?_append hne hquote _
  have hgap : afterGap? (' ' :: '"' :: (source ++ '"' :: ' ' :: '{' :: rest)) =
      some ('"' :: (source ++ '"' :: ' ' :: '{' :: rest)) := by
    rw [afterGap?, if_pos (by decide), dropBlanks_cons_of_not_blank (by decide)]
  simp (disch := decide) [header?, dropBlanks_cons_of_not_blank, List.isPrefixOf?, hgap, hlabel]

theorem header?_eq_none {cs : List Char}
    (h : "provider".toList.isPrefixOf? (dropBlanks cs) = none) :
    header? cs = none := by
  rw [header?, h]
  rfl

theorem header?_setting {setting : Setting} (h : setting.Writable) :
    ∀ line ∈ setting.lines, ∀ rest, header? (line.toList ++ '\n' :: rest) = none := by
  have hkey {key : String} (hkey : key ∈ keys) (rest : List Char) :
      header? (' ' :: ' ' :: (key.toList ++ rest)) = none := by
    simp only [keys, List.mem_cons, List.not_mem_nil, or_false] at hkey
    apply header?_eq_none
    rcases hkey with rfl | rfl | rfl | rfl <;>
      simp (disch := decide) [dropBlanks_cons_of_not_blank, List.isPrefixOf?]
  intro line hline rest
  cases setting with
  | text key value =>
      obtain rfl := Setting.mem_lines_text.mp hline
      simpa using hkey h.1 _
  | list key items =>
      rcases Setting.mem_lines_list.mp hline with rfl | ⟨item, -, rfl⟩ | rfl
      · simpa using hkey h.1 _
      · apply header?_eq_none
        simp (disch := decide) [Setting.itemLine, dropBlanks_cons_of_not_blank,
          List.isPrefixOf?]
      · apply header?_eq_none
        simp (disch := decide) [dropBlanks_cons_of_not_blank, List.isPrefixOf?]

/-! ## Provider blocks -/

def HostedLock.behindHeader (record : HostedLock) (rest : List Char) : List Char :=
  '\n' :: (charsOf (record.settings.flatMap Setting.lines) ++ '}' :: '\n' :: rest)

theorem charsOf_record (record : HostedLock) (rest : List Char) :
    charsOf record.lines ++ rest =
      "provider \"".toList ++ (record.source.toList ++ '"' :: ' ' :: '{' ::
        record.behindHeader rest) := by
  simp [HostedLock.lines, HostedLock.behindHeader, charsOf]

theorem HostedLock.Writable.source_ne_nil {record : HostedLock} (h : record.Writable) :
    record.source.toList ≠ [] := by
  have hpublisher := h.publisher.1
  unfold HostedLock.source ProviderSource.text
  cases record.host <;> simp [hpublisher]

theorem headers_record {record : HostedLock} (h : record.Writable) (rest : List Char) :
    headerReader.readingsFrom true (charsOf record.lines ++ rest) =
      (record.source.toList, record.behindHeader rest) :: headerReader.readingsFrom true rest := by
  have hquote : '"' ∉ record.source.toList := fun hmem => (h.source _ hmem).1 rfl
  have hread : headerReader.read (charsOf record.lines ++ rest) =
      some (record.source.toList, record.behindHeader rest) := by
    rw [charsOf_record]
    exact header?_written h.source_ne_nil hquote _
  -- what stands between this header and the next one holds no header
  have hlines : ∀ line ∈ record.settings.flatMap Setting.lines ++ ["\x7d"],
      '\n' ∉ line.toList ∧ ∀ later, header? (line.toList ++ '\n' :: later) = none := by
    intro line hline
    rw [List.mem_append, List.mem_flatMap, List.mem_singleton] at hline
    rcases hline with ⟨setting, hsetting, hline⟩ | rfl
    · have hwritable := h.settings setting hsetting
      exact ⟨hwritable.not_mem_feed line hline, header?_setting hwritable line hline⟩
    · refine ⟨by decide, fun later => header?_eq_none ?_⟩
      simp (disch := decide) [dropBlanks_cons_of_not_blank, List.isPrefixOf?]
  have hskip := skip_charsOf headerReader (fun line hline => (hlines line hline).1)
    (fun line hline => (hlines line hline).2) rest
  have hbehind : record.behindHeader rest = '\n' :: (charsOf (record.settings.flatMap
      Setting.lines ++ ["\x7d"]) ++ rest) := by
    simp [HostedLock.behindHeader, charsOf]
  rw [LineReader.readingsFrom_of_some headerReader hread, hbehind,
    LineReader.readingsFrom_false_feed, hskip]

theorem lockAt?_record {record : HostedLock} (h : record.Writable) (rest : List Char) :
    lockAt? (record.source.toList, record.behindHeader rest) = some record.lock := by
  have hbody : Quoting.blockBody? 0 .outside (record.behindHeader rest) =
      some ('\n' :: charsOf (record.settings.flatMap Setting.lines)) :=
    (plain_settings h.settings).blockBody?_close ('\n' :: rest)
  simp [lockAt?, ofChars?_source h, hbody, lockOf_written h]

theorem locks_records {records : List HostedLock} (h : ∀ record ∈ records, record.Writable) :
    (headerReader.readings (charsOf (records.flatMap HostedLock.lines))).filterMap lockAt? =
      records.map HostedLock.lock := by
  unfold LineReader.readings
  induction records with
  | nil => simp [charsOf]
  | cons record records ih =>
      have hrecord := h record (by simp)
      rw [List.flatMap_cons, charsOf_append, headers_record hrecord,
        List.filterMap_cons_some (lockAt?_record hrecord _),
        ih fun other hmem => h other (by simp [hmem]), List.map_cons]

/-! ## Lock files -/

theorem ofText_written (records : List HostedLock) (h : ∀ record ∈ records, record.Writable) :
    ofText (written records) = ⟨records.map HostedLock.lock⟩ := by
  rw [ofText, ofChars, toList_written, withoutComments_records h, locks_records h]

theorem ofText_written_marks :
    ofText (String.intercalate "\n" ["provider \"registry.terraform.io/hashicorp/aws\" \x7b",
      "  version = \"5.31.0\"", "  constraints = \"~> 5.0 # \x7b // ]\"", "  hashes = [",
      "    \"h1:a//b#c\x7d=\",", "    \"zh:[\",", "  ]", "  platforms = [", "  ]", "\x7d",
      "provider \"acme/tool\" \x7b", "  hashes = [", "  ]", "  platforms = [",
      "    \"linux_amd64\",", "  ]", "\x7d", ""]) =
    ⟨[⟨⟨"hashicorp", "aws"⟩, some "5.31.0", some "~> 5.0 # \x7b // ]", ["h1:a//b#c\x7d=", "zh:["],
        []⟩,
      ⟨⟨"acme", "tool"⟩, none, none, [], ["linux_amd64"]⟩]⟩ := by
  calc
    _ = ofText (written
        [⟨some "registry.terraform.io", ⟨"hashicorp", "aws"⟩, some "5.31.0",
            some "~> 5.0 # \x7b // ]", ["h1:a//b#c\x7d=", "zh:["], []⟩,
          ⟨none, ⟨"acme", "tool"⟩, none, none, [], ["linux_amd64"]⟩]) :=
      congrArg ofText (by decide +kernel)
    _ = _ := ofText_written _ (by
      intro record hrecord
      simp only [List.mem_cons, List.not_mem_nil, or_false] at hrecord
      rcases hrecord with rfl | rfl <;> constructor <;> decide)

end TerraformDocs.LockFile
