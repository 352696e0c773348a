/-
The order of the lines of a file.

Each line of a file is entered into what the lines before it left, and a cycle is looked for among
the mentions held so far.  Where no two lines enter the same cell the order makes no difference: a
cycle among the first lines is one among all of them, a cycle among all of them is there when the
last of its lines is entered, and what is held in the end is what each line means by itself.

* **`EntryMentions`**, **`targets`**, **`Faulty`** — the mentions of all entries together, the cells
  they mean, and what can be wrong with them;
* **`Holds`** — cells hold what entries mean, and nothing else;
* **`exists_enterAll_iff`**, **`holds_enterAll`** — entries that are not faulty are entered, and are
  what is held then;
* **`load_perm`** — files that differ in the order of their lines are loaded as the same document,
  or none of them is loaded.
-/
import FormulaSheet.Proofs.Document.Reload
import FormulaSheet.Proofs.SheetFile.Lines

namespace FormulaSheet.Document

open Relation
open SheetFile (IsSheet entriesOf fileOf)

/-! ### What entries mean together -/

/-- The mentions of all entries together: the cell of an entry mentions the variables of the formula
that its input spells. -/
def EntryMentions (rules : NameRules) (entries : List (String × String)) (a b : String) : Prop :=
  ∃ entry ∈ entries, rules.resolve? entry.1 = some a ∧
    ∃ text f, entry.2.toList = '=' :: text ∧ Formula.parse rules text = .ok f ∧ b ∈ f.mentions

/-- The cells that entries mean, in the order of the entries. -/
def targets (rules : NameRules) (entries : List (String × String)) : List String :=
  entries.filterMap fun entry => rules.resolve? entry.1

/-- An entry has no good name or no good formula, or there is a cycle among all of them. -/
inductive Faulty (rules : NameRules) (entries : List (String × String)) : Prop
  | badName {entry : String × String} : entry ∈ entries → rules.resolve? entry.1 = none →
      Faulty rules entries
  | badFormula {entry : String × String} {text : List Char} {defect : FormulaError} :
      entry ∈ entries → entry.2.toList = '=' :: text → Formula.parse rules text = .error defect →
      Faulty rules entries
  | cycle {name : String} : TransGen (EntryMentions rules entries) name name → Faulty rules entries

/-- Cells hold what entries mean, and nothing else. -/
structure Holds (config : SheetConfig) (entries : List (String × String)) (cells : Cells) :
    Prop where
  entered : ∀ entry ∈ entries, ∃ name, Means config entry name cells[name]?
  empty : ∀ name : String, (∀ entry ∈ entries, config.rules.resolve? entry.1 ≠ some name) →
    cells[name]? = none

section Entries

variable {config : SheetConfig} {entries entries' : List (String × String)} {cells cells' : Cells}

theorem Faulty.congr {rules : NameRules} (h : Faulty rules entries)
    (hsame : ∀ entry, entry ∈ entries ↔ entry ∈ entries') : Faulty rules entries' := by
  cases h with
  | badName hentry hname => exact .badName ((hsame _).1 hentry) hname
  | badFormula hentry htext hdefect => exact .badFormula ((hsame _).1 hentry) htext hdefect
  | cycle hcycle =>
    refine .cycle (TransGen.mono (fun a b hab => ?_) _ _ hcycle)
    obtain ⟨entry, hentry, hab⟩ := hab
    exact ⟨entry, (hsame entry).1 hentry, hab⟩

theorem mem_mentions_iff {input b : String} {contents : Option Contents}
    (h : classify config input = .ok contents) : b ∈ contents.elim [] Contents.mentions ↔
      ∃ text f, input.toList = '=' :: text ∧ Formula.parse config.rules text = .ok f ∧
        b ∈ f.mentions := by
  constructor
  · intro hb
    have hclassified := classified config input
    rw [h] at hclassified
    cases hclassified with
    | formula hinput hf => exact ⟨_, _, hinput, hf, hb⟩
    | clear _ => cases hb
    | number _ _ => cases hb
    | text _ => cases hb
  · rintro ⟨text, f, hinput, hf, hb⟩
    rw [classify_of_equals hinput, hf] at h
    obtain rfl := Except.ok.inj h
    exact hb

theorem exists_means (h : ¬ Faulty config.rules entries) {entry : String × String}
    (hentry : entry ∈ entries) : ∃ name contents, Means config entry name contents := by
  cases hname : config.rules.resolve? entry.1 with
  | none => exact absurd (.badName hentry hname) h
  | some name =>
    have hclassified := classified config entry.2
    cases hcontents : classify config entry.2 with
    | ok contents => exact ⟨name, contents, hname, hcontents⟩
    | error e =>
      rw [hcontents] at hclassified
      cases hclassified with
      | badFormula htext hdefect => exact absurd (.badFormula hentry htext hdefect) h

theorem nodup_targets_of_perm {rules : NameRules} (hdistinct : (targets rules entries).Nodup)
    (hperm : entries'.Perm entries) : (targets rules entries').Nodup :=
  (hperm.filterMap _).nodup_iff.2 hdistinct

/-- If no cell is meant twice, each is meant by one entry. -/
theorem eq_of_nodup_targets {rules : NameRules} (hdistinct : (targets rules entries).Nodup)
    {entry entry' : String × String} {name : String} (hentry : entry ∈ entries)
    (hentry' : entry' ∈ entries) (hname : rules.resolve? entry.1 = some name)
    (hname' : rules.resolve? entry'.1 = some name) : entry = entry' := by
  by_contra hne
  -- `Pairwise.forall` asks for a symmetric relation, as it does not know which entry is first
  have hsymm : Std.Symm fun e e' : String × String => ∀ a, rules.resolve? e.1 = some a →
      ∀ a', rules.resolve? e'.1 = some a' → a ≠ a' :=
    ⟨fun e e' h a' ha' a ha => (h a ha a' ha').symm⟩
  exact (List.pairwise_filterMap.1 hdistinct).forall hentry hentry' hne name hname name hname' rfl

namespace Holds

theorem means (h : Holds config entries cells) {entry : String × String} (hentry : entry ∈ entries)
    {name : String} (hname : config.rules.resolve? entry.1 = some name) :
    Means config entry name cells[name]? := by
  obtain ⟨name', hmeans⟩ := h.entered entry hentry
  obtain rfl : name' = name := Option.some.inj (hmeans.name.symm.trans hname)
  exact hmeans

theorem mentions_iff (h : Holds config entries cells) {a b : String} :
    Mentions cells a b ↔ EntryMentions config.rules entries a b := by
  rw [Document.mentions_iff]
  constructor
  · intro hb
    by_cases ha : ∃ entry ∈ entries, config.rules.resolve? entry.1 = some a
    · obtain ⟨entry, hentry, hname⟩ := ha
      exact ⟨entry, hentry, hname, (mem_mentions_iff (h.means hentry hname).contents).1 hb⟩
    · rw [h.empty a fun entry hentry hname => ha ⟨entry, hentry, hname⟩] at hb
      cases hb
  · rintro ⟨entry, hentry, hname, hb⟩
    exact (mem_mentions_iff (h.means hentry hname).contents).2 hb

theorem cells_eq (h : Holds config entries cells) (h' : Holds config entries' cells')
    (hsame : ∀ entry, entry ∈ entries ↔ entry ∈ entries') : cells = cells' := by
  refine Std.ExtTreeMap.ext_getElem? fun name => ?_
  by_cases hname : ∃ entry ∈ entries, config.rules.resolve? entry.1 = some name
  · obtain ⟨entry, hentry, hname⟩ := hname
    exact ((h.means hentry hname).unique (h'.means ((hsame entry).1 hentry) hname)).2
  · rw [h.empty name fun entry hentry heq => hname ⟨entry, hentry, heq⟩,
      h'.empty name fun entry hentry heq => hname ⟨entry, (hsame entry).2 hentry, heq⟩]

/-- Entries that are held without a cycle are not faulty. -/
theorem not_faulty (h : Holds config entries cells)
    (hacyclic : ∀ a, ¬ TransGen (Mentions cells) a a) : ¬ Faulty config.rules entries := by
  intro hfaulty
  cases hfaulty with
  | badName hentry hname =>
    obtain ⟨name, hmeans⟩ := h.entered _ hentry
    rw [hmeans.name] at hname
    cases hname
  | badFormula hentry htext hdefect =>
    obtain ⟨name, hmeans⟩ := h.entered _ hentry
    have hcontents := hmeans.contents
    rw [classify_of_equals htext, hdefect] at hcontents
    cases hcontents
  | cycle hcycle =>
    exact hacyclic _ (TransGen.mono (fun a b hab => h.mentions_iff.2 hab) _ _ hcycle)

end Holds

end Entries

/-! ### Entering all of them -/

section Entering

variable {config : SheetConfig} {doc doc' : Document} {cells cells' : List SavedCell}

/-- What is held in the end is what the entries mean, if no cell is meant twice. -/
theorem holds_enterAll
    (hdistinct : (targets config.rules (cells.map SavedCell.entry)).Nodup)
    (hanswer : ((new config).enterAll cells).answer = .ok doc) :
    Holds config (cells.map SavedCell.entry) doc.cells := by
  obtain ⟨hmeaning, hcells⟩ := enterAll_cells (Mirrors.new config) hanswer
  constructor
  · intro entry hentry
    obtain ⟨cell, hcell, rfl⟩ := List.mem_map.1 hentry
    obtain ⟨name, contents, hmeans⟩ := hmeaning cell hcell
    refine ⟨name, ?_⟩
    rcases hcells name with ⟨last, hlast, hheld⟩ | ⟨hnone, -⟩
    · -- the last line that means the cell is this line, for no other means it
      have heq : cell.entry = last.entry :=
        eq_of_nodup_targets hdistinct hentry (List.mem_map_of_mem hlast) hmeans.name hheld.name
      rw [heq]
      exact hheld
    · exact absurd hmeans.name (hnone cell hcell)
  · intro name hnone
    rcases hcells name with ⟨last, hlast, hheld⟩ | ⟨-, hsame⟩
    · exact absurd hheld.name (hnone _ (List.mem_map_of_mem hlast))
    · rw [hsame]
      exact Std.ExtTreeMap.getElem?_empty

/-- What is entered into a new document leaves its configuration and computes no values. -/
theorem enterAll_new (hanswer : ((new config).enterAll cells).answer = .ok doc) :
    doc.config = config ∧ doc.Mirrors ∧ doc.cache = ∅ := by
  refine enterAll_invariant (P := fun doc => doc.config = config ∧ doc.Mirrors ∧ doc.cache = ∅) ?_
    ⟨rfl, Mirrors.new config, rfl⟩ hanswer
  rintro doc spelling input ⟨hconfig, hmirrors, hcache⟩
  refine ⟨(config_edit doc spelling input).trans hconfig, hmirrors.edit spelling input, ?_⟩
  rcases edit_cases hmirrors spelling input with hdoc | ⟨name, contents, affected, -, -, -, hdoc⟩
  · rw [hdoc, hcache]
  · -- an edit only forgets values
    rw [hdoc, accepted, hcache]
    refine Std.ExtTreeMap.ext_getElem? fun a => ?_
    simp [getElem?_forget]

/-- Entries of which no two mean the same cell are entered exactly if they are not faulty. -/
theorem exists_enterAll_iff
    (hdistinct : (targets config.rules (cells.map SavedCell.entry)).Nodup) :
    (∃ doc, ((new config).enterAll cells).answer = .ok doc) ↔
      ¬ Faulty config.rules (cells.map SavedCell.entry) := by
  constructor
  · rintro ⟨doc, hanswer⟩
    obtain ⟨-, hmirrors, -⟩ := enterAll_new hanswer
    exact (holds_enterAll hdistinct hanswer).not_faulty hmirrors.acyclic
  · intro hfaulty
    -- the mentions of all lines serve as the relation without cycles
    refine exists_enterAll (Mirrors.new config) (fun a ha => hfaulty (.cycle ha)) ?_ ?_
    · intro a b hab
      rw [mentions_iff] at hab
      simp [new] at hab
    · intro cell hcell
      have hentry : cell.entry ∈ cells.map SavedCell.entry := List.mem_map_of_mem hcell
      obtain ⟨name, contents, hmeans⟩ := exists_means hfaulty hentry
      exact ⟨name, contents, hmeans, fun b hb =>
        ⟨cell.entry, hentry, hmeans.name, (mem_mentions_iff hmeans.contents).1 hb⟩⟩

/-- Entries of which no two mean the same cell make the same document in whatever order. -/
theorem saved_eq_of_enterAll
    (hdistinct : (targets config.rules (cells.map SavedCell.entry)).Nodup)
    (hperm : (cells'.map SavedCell.entry).Perm (cells.map SavedCell.entry))
    (hanswer : ((new config).enterAll cells).answer = .ok doc)
    (hanswer' : ((new config).enterAll cells').answer = .ok doc') : doc'.saved = doc.saved := by
  obtain ⟨hconfig, hmirrors, hcache⟩ := enterAll_new hanswer
  obtain ⟨hconfig', hmirrors', hcache'⟩ := enterAll_new hanswer'
  have hcells : doc'.cells = doc.cells :=
    (holds_enterAll (nodup_targets_of_perm hdistinct hperm) hanswer').cells_eq
      (holds_enterAll hdistinct hanswer) fun entry => hperm.mem_iff
  have hmentions : doc'.mentions = doc.mentions :=
    hmirrors'.mentions_eq hmirrors fun a b => by rw [hcells]
  rw [saved, saved, hconfig, hconfig', hcells, hmentions, hcache, hcache']

end Entering

/-! ### Loading the file -/

section Loading

variable {config : SheetConfig} {before lines : List (List Char)} {versionLine : List Char}

/-- A sheet file of the configured version is loaded by entering what its lines enter. -/
theorem exists_answer_loadBytes (h : IsSheet config.version before versionLine lines) :
    ∃ cells, cells.map SavedCell.entry = entriesOf lines ∧
      (loadBytes config (fileOf (before ++ versionLine :: lines)).toUTF8).answer =
        ((new config).enterAll cells).answer.map saved := by
  obtain ⟨cells, hread, hentries⟩ := SheetFile.exists_read h
  refine ⟨cells, hentries, ?_⟩
  rw [loadBytes, decodeText_toUTF8]
  dsimp only
  rw [load, hread]
  dsimp only
  rw [if_pos rfl]

section Order

variable (hsheet : IsSheet config.version before versionLine lines)
  (hdistinct : (targets config.rules (entriesOf lines)).Nodup)

include hsheet hdistinct

/-- A file that is not faulty is loaded, in whatever order of its lines, as one document. -/
theorem exists_loadBytes (hfaulty : ¬ Faulty config.rules (entriesOf lines)) :
    ∃ doc, doc.modified = false ∧ Holds config (entriesOf lines) doc.cells ∧
      ∀ lines', lines'.Perm lines →
        (loadBytes config (fileOf (before ++ versionLine :: lines')).toUTF8).answer = .ok doc := by
  obtain ⟨cells, hentries, -⟩ := exists_answer_loadBytes hsheet
  rw [← hentries] at hdistinct hfaulty
  obtain ⟨doc, hanswer⟩ := (exists_enterAll_iff hdistinct).2 hfaulty
  refine ⟨doc.saved, rfl, ?_, fun lines' hperm => ?_⟩
  · rw [← hentries]
    show Holds config _ doc.cells
    exact holds_enterAll hdistinct hanswer
  · -- the lines in another order mean the same entries, so they are entered, too
    obtain ⟨cells', hentries', hload'⟩ := exists_answer_loadBytes (hsheet.perm hperm)
    have hperm' : (cells'.map SavedCell.entry).Perm (cells.map SavedCell.entry) := by
      rw [hentries, hentries']
      exact hperm.filterMap _
    obtain ⟨doc', hanswer'⟩ := (exists_enterAll_iff (nodup_targets_of_perm hdistinct hperm')).2
      fun h => hfaulty (h.congr fun entry => hperm'.mem_iff)
    rw [hload', hanswer']
    exact congrArg Except.ok (saved_eq_of_enterAll hdistinct hperm' hanswer hanswer')

/-- A faulty file is not loaded, in whatever order of its lines. -/
theorem exists_error_of_faulty (hfaulty : Faulty config.rules (entriesOf lines))
    (lines' : List (List Char)) (hperm : lines'.Perm lines) :
    ∃ e, (loadBytes config (fileOf (before ++ versionLine :: lines')).toUTF8).answer =
      .error e := by
  obtain ⟨cells, hentries, hload⟩ := exists_answer_loadBytes (hsheet.perm hperm)
  have hperm' : (cells.map SavedCell.entry).Perm (entriesOf lines) := by
    rw [hentries]
    exact hperm.filterMap _
  have hfaulty' : Faulty config.rules (cells.map SavedCell.entry) :=
    hfaulty.congr fun entry => hperm'.mem_iff.symm
  rw [hload]
  cases hanswer : ((new config).enterAll cells).answer with
  | ok doc =>
    have hok := (exists_enterAll_iff (nodup_targets_of_perm hdistinct hperm')).1 ⟨doc, hanswer⟩
    exact absurd hfaulty' hok
  | error e => exact ⟨e, rfl⟩

end Order

/-- Whether a sheet file of the configured version is loaded, and as which document, does not depend
on the order of its lines after the version, if no two of them name the same cell.  It is not loaded
exactly if one of the names or formulas is bad or the mentions of all lines together have a cycle.
Else it is loaded in every order as one document, with the same contents, mentions, names and
values, which holds what the lines mean and has no changes. -/
theorem load_perm (hsheet : IsSheet config.version before versionLine lines)
    (hdistinct : (targets config.rules (entriesOf lines)).Nodup) :
    let file := fun lines' => (fileOf (before ++ versionLine :: lines')).toUTF8
    ((∃ doc, doc.modified = false ∧ Holds config (entriesOf lines) doc.cells ∧
        ∀ lines', lines'.Perm lines → (loadBytes config (file lines')).answer = .ok doc) ∨
      ∀ lines', lines'.Perm lines → ∃ e, (loadBytes config (file lines')).answer = .error e) ∧
    ((∃ e, (loadBytes config (file lines)).answer = .error e) ↔
      Faulty config.rules (entriesOf lines)) := by
  intro file
  by_cases hfaulty : Faulty config.rules (entriesOf lines)
  · have herror := exists_error_of_faulty hsheet hdistinct hfaulty
    exact ⟨.inr herror, fun _ => hfaulty, fun _ => herror lines (.refl lines)⟩
  · obtain ⟨doc, hmodified, hholds, hload⟩ := exists_loadBytes hsheet hdistinct hfaulty
    refine ⟨.inl ⟨doc, hmodified, hholds, hload⟩, ?_, fun h => absurd h hfaulty⟩
    rintro ⟨e, herror⟩
    rw [hload lines (.refl lines)] at herror
    cases herror

/-- Three lines that close a cycle are refused in whatever order. -/
theorem load_perm_cycle :
    let before := ["# three cells".toList]
    let versionLine := "@version: \"default\"".toList
    let lines := ["a: =b".toList, "b: =c".toList, "c: \"=a\"".toList]
    IsSheet "default" before versionLine lines ∧ (targets {} (entriesOf lines)).Nodup ∧
      ∀ lines', lines'.Perm lines → ∃ e,
        (loadBytes {} (fileOf (before ++ versionLine :: lines')).toUTF8).answer = .error e := by
  intro before versionLine lines
  have hsheet : IsSheet "default" before versionLine lines := {
    newline := by decide
    before := by decide
    version := by decide
    cells := by
      intro l hl
      refine .inr ?_
      simp only [lines, List.mem_cons, List.not_mem_nil, or_false] at hl
      rcases hl with rfl | rfl | rfl
      · exact ⟨"a", "=b", by decide⟩
      · exact ⟨"b", "=c", by decide⟩
      · exact ⟨"c", "=a", by decide⟩ }
  have hentries : entriesOf lines = [("a", "=b"), ("b", "=c"), ("c", "=a")] := by decide
  have hdistinct : (targets {} (entriesOf lines)).Nodup := by
    rw [hentries]
    decide
  have hfaulty : Faulty {} (entriesOf lines) := by
    rw [hentries]
    -- the quoted text, too, is entered as a formula
    have hab : EntryMentions {} [("a", "=b"), ("b", "=c"), ("c", "=a")] "a" "b" :=
      ⟨("a", "=b"), by decide, rfl, ['b'], ⟨[.var "b"]⟩, rfl, by cbv, by decide⟩
    have hbc : EntryMentions {} [("a", "=b"), ("b", "=c"), ("c", "=a")] "b" "c" :=
      ⟨("b", "=c"), by decide, rfl, ['c'], ⟨[.var "c"]⟩, rfl, by cbv, by decide⟩
    have hca : EntryMentions {} [("a", "=b"), ("b", "=c"), ("c", "=a")] "c" "a" :=
      ⟨("c", "=a"), by decide, rfl, ['a'], ⟨[.var "a"]⟩, rfl, by cbv, by decide⟩
    exact .cycle (.head hab (.head hbc (.single hca)))
  refine ⟨hsheet, hdistinct, fun lines' hperm => ?_⟩
  have hperms := @load_perm {} _ _ _ hsheet hdistinct
  obtain ⟨e, herror⟩ := hperms.2.2 hfaulty
  rcases hperms.1 with ⟨doc, -, -, hload⟩ | hnone
  · rw [hload lines (.refl lines)] at herror
    cases herror
  · exact hnone lines' hperm

end Loading

end FormulaSheet.Document
