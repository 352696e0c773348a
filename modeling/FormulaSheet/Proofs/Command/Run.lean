/-
A run saves all of its edits or nothing.

All that a run does before it writes its output leaves the files as they are.  It gets to the output
only if everything before went well, and what it writes then is the text of the sheet after all
edits, whatever was read in between.

* **`Completes`** — a run comes to its output: what it asks for, and the sheet it has there;
* **`does_untilOutput`** — what is done before the output is written;
* **`run_allOrNothing`** — what a run leaves in the files, prints, and exits with.
-/
import FormulaSheet.Proofs.Command.Arguments
import FormulaSheet.Proofs.Command.Phases

namespace FormulaSheet.Command

variable {files : FileStore} {o : Options}

/-! ### Before the output -/

/-- Print the cells if they are asked for. -/
def printIfAsked {m : Type → Type} [Monad m] (host : Host m) (o : Options) (doc : Document) :
    Task m Document :=
  if o.dump then printCells host doc doc.names else pure doc

/-- What a run does before it writes its output. -/
def untilOutput {m : Type → Type} [Monad m] (host : Host m) (o : Options) :
    Task m (Bool × Document) := do
  let config ← readConfig host o
  let doc ← openSheet host o config
  let doc ← o.edits.foldlM (makeEdit host o) doc
  let (allFine, doc) ← answerAll host doc o.queries
  let doc ← printIfAsked host o doc
  return (allFine, doc)

theorem perform_eq (o : Options) : perform World.host o = do
    let (allFine, doc) ← untilOutput World.host o
    writeOutput World.host o doc
    return allFine := by
  simp only [perform, untilOutput, printIfAsked, bind_assoc, pure_bind]
  -- they differ only in what comes after the dump
  refine bind_congr fun _ => bind_congr fun _ => bind_congr fun _ => bind_congr fun _ => ?_
  split <;> simp only [pure_bind]

/-- What a run prints once its sheet is prepared: the answers, up to the first query that is
rejected, and the cells if they are asked for and no query is. -/
def printed (o : Options) (doc : Document) : String :=
  answersText doc o.queries ++
    if o.dump = true ∧ Answers doc o.queries then cellsText doc doc.names else ""

theorem does_printIfAsked (files : FileStore) (o : Options) {doc doc' : Document}
    (hready : Ready doc) (h : doc.AfterReads doc') :
    Does files (printIfAsked World.host o doc') fun result text =>
      (text = if o.dump then cellsText doc doc.names else "") ∧
        ∃ doc'', result = some doc'' ∧ doc.AfterReads doc'' := by
  unfold printIfAsked
  cases o.dump with
  | true =>
    rw [h.names]
    exact does_printCells files hready.sound h fun name => hready.resolve_name
  | false =>
    refine (Gives.pure doc').weaken ?_
    rintro _ _ ⟨rfl, rfl⟩
    exact ⟨rfl, doc', rfl, h⟩

/-- The output is reached if all queries are answered, and then the sheet is the prepared one, after
some reads. -/
theorem does_untilOutput (files : FileStore) (o : Options) :
    Does files (untilOutput World.host o) fun result text =>
      text = (prepared? files o).elim "" (printed o) ∧ match result with
        | some (allFine, doc') => ∃ doc, prepared? files o = some doc ∧ Answers doc o.queries ∧
          (allFine = true ↔ Fine doc o.queries) ∧ doc.AfterReads doc'
        | none => ∀ doc, prepared? files o = some doc → ¬ Answers doc o.queries := by
  -- what comes before the first query prints nothing
  have hprepare : Gives files (do
      let config ← readConfig World.host o
      let doc ← openSheet World.host o config
      o.edits.foldlM (makeEdit World.host o) doc) (prepared? files o) :=
    (gives_readConfig files o).bind fun config =>
      (gives_openSheet files o config).bind fun doc => gives_makeEdits files o o.edits doc
  have hsplit : untilOutput World.host o = (do
      let config ← readConfig World.host o
      let doc ← openSheet World.host o config
      o.edits.foldlM (makeEdit World.host o) doc) >>= fun doc => do
        let (allFine, doc) ← answerAll World.host doc o.queries
        let doc ← printIfAsked World.host o doc
        return (allFine, doc) := by
    simp only [untilOutput, bind_assoc]
  rw [hsplit]
  refine hprepare.then (fun doc hdoc => ?_) (fun hnone => ?_)
  · -- answers and cells are printed from the prepared sheet after any reads
    have hready : Ready doc := .prepared hdoc
    rw [hdoc, Option.elim_some]
    refine (does_answerAll files hready.sound (.refl hready.sound) o.queries).bind ?_ ?_
    · rintro ⟨allFine, doc'⟩ text ⟨rfl, hall, hfine, hreads⟩
      refine (does_printIfAsked files o hready hreads).bind ?_ ?_
      · rintro doc'' text ⟨rfl, _, ⟨⟩, hreads'⟩
        refine (Gives.pure _).weaken ?_
        rintro _ _ ⟨rfl, rfl⟩
        refine ⟨?_, doc, rfl, hall, hfine, hreads'⟩
        simp [printed, hall]
      · rintro _ ⟨-, _, ⟨⟩, -⟩
    · rintro text ⟨rfl, hnot⟩
      refine ⟨by simp [printed, hnot], ?_⟩
      rintro _ ⟨⟩
      exact hnot
  · rw [hnone]
    exact ⟨rfl, nofun⟩

/-! ### The output -/

/-- The files after a sheet is saved to the output of a run, if it has one that can be written. -/
def savedFiles (files : FileStore) (o : Options) (doc : Document) : FileStore :=
  (o.output.bind fun path => (files.write path doc.fileText.toUTF8).toOption).getD files

theorem savedFiles_of_write {doc : Document} {path : String} {files' : FileStore}
    (houtput : o.output = some path) (hwrite : files.write path doc.fileText.toUTF8 = .ok files') :
    savedFiles files o doc = files' := by
  rw [savedFiles, houtput, Option.bind_some, hwrite]
  rfl

theorem savedFiles_cases (files : FileStore) (o : Options) (doc : Document) :
    savedFiles files o doc = files ∨ ∃ path, o.output = some path ∧
      files.write path doc.fileText.toUTF8 = .ok (savedFiles files o doc) := by
  cases houtput : o.output with
  | none =>
    rw [savedFiles, houtput]
    exact .inl rfl
  | some path =>
    cases hwrite : files.write path doc.fileText.toUTF8 with
    | ok files' => exact .inr ⟨path, rfl, by rw [hwrite, savedFiles_of_write houtput hwrite]⟩
    | error e =>
      rw [savedFiles, houtput, Option.bind_some, hwrite]
      exact .inl rfl

/-- A file is written where its path leads, and no other file changes. -/
theorem exists_of_write_eq_ok {files' : FileStore} {path : String} {bytes : ByteArray}
    (h : files.write path bytes = .ok files') :
    ∃ parts, files.resolve path = .ok parts ∧
      files' = files.insert (FileStore.key parts) bytes := by
  unfold FileStore.write at h
  cases hpath : files.resolve path with
  | error e =>
    rw [hpath] at h
    cases h
  | ok parts =>
    rw [hpath] at h
    change (if _ then _ else _) = _ at h
    split at h
    · cases h
    · exact ⟨parts, rfl, (Except.ok.inj h).symm⟩

/-- A file that saving a sheet changes is the output, and has the text of the sheet. -/
theorem exists_of_getElem?_savedFiles_ne {doc : Document} {key : String}
    (h : (savedFiles files o doc)[key]? ≠ files[key]?) : ∃ path parts, o.output = some path ∧
      files.resolve path = .ok parts ∧ FileStore.key parts = key ∧
      (savedFiles files o doc)[key]? = some doc.fileText.toUTF8 := by
  rcases savedFiles_cases files o doc with hsame | ⟨path, houtput, hwrite⟩
  · rw [hsame] at h
    exact absurd rfl h
  · obtain ⟨parts, hpath, hsaved⟩ := exists_of_write_eq_ok hwrite
    rw [hsaved, Std.ExtTreeMap.getElem?_insert] at h ⊢
    split at h
    · next hkey =>
      rw [if_pos hkey]
      exact ⟨path, parts, houtput, hpath, Std.compare_eq_iff_eq.1 hkey, rfl⟩
    · exact absurd rfl h

/-- The output of a run, if it has one, can be written. -/
def CanSave (files : FileStore) (o : Options) (doc : Document) : Prop :=
  ∀ path, o.output = some path → ∃ files', files.write path doc.fileText.toUTF8 = .ok files'

theorem run_write (world : World) (path : String) (bytes : ByteArray) :
    Id.run ((World.host.files.write path bytes).run world) =
      match world.files.write path bytes with
      | .ok files => (.ok (), { world with files })
      | .error e => (.error e, world) := by
  simp only [World.host, StateT.run_bind, StateT.run_get, Id.run_bind, Id.run_pure]
  cases world.files.write path bytes <;> rfl

theorem exists_run_note (o : Options) (line : String) (world : World) :
    ∃ err, Id.run ((note World.host o line).run.run world) = (.ok (), { world with err }) := by
  obtain ⟨result, text, err, hrun, hresult, rfl⟩ := Gives.note o line world rfl
  refine ⟨err, ?_⟩
  cases result with
  | error causes => cases hresult
  | ok _ => rw [hrun, String.append_empty]

theorem exists_run_writeOutput (o : Options) (doc : Document) (world : World) :
    ∃ result err, Id.run ((writeOutput World.host o doc).run.run world) =
        (result, { files := savedFiles world.files o doc, out := world.out, err }) ∧
      (result = .ok () ↔ CanSave world.files o doc) := by
  unfold writeOutput savedFiles CanSave
  cases o.output with
  | none =>
    -- without an output there is at most a note
    have hnote : ∃ err, Id.run ((if doc.modified then note World.host o
        "Edits not saved (use --output)" else pure ()).run.run world) =
          (.ok (), { world with err }) := by
      split
      · exact exists_run_note o _ world
      · exact ⟨world.err, rfl⟩
    obtain ⟨err, hrun⟩ := hnote
    exact ⟨.ok (), err, hrun, by simp⟩
  | some path =>
    have hwritten := run_write world path doc.fileText.toUTF8
    generalize doc.fileText.toUTF8 = bytes at hwritten ⊢
    cases hwrite : world.files.write path bytes with
    | ok files =>
      obtain ⟨err, hrun⟩ := exists_run_note o s!"Saved to {path}" { world with files }
      refine ⟨.ok (), err, ?_, by simp [hwrite]⟩
      rw [hwrite] at hwritten
      simp [hwritten, hrun, hwrite, Except.toOption]
    | error e =>
      rw [hwrite] at hwritten
      refine ⟨.error [s!"cannot create {path}", e.message], world.err, ?_, by simp [hwrite]⟩
      simp [hwritten, hwrite, Except.toOption, failWith]

/-- What a run does that comes to its output, or fails before. -/
theorem exists_run_perform (o : Options) (world : World) :
    ∃ result err files, Id.run ((perform World.host o).run.run world) =
        (result, { files,
                   out := world.out ++ (prepared? world.files o).elim "" (printed o), err }) ∧
      ((∃ doc, prepared? world.files o = some doc ∧ Answers doc o.queries ∧
          files = savedFiles world.files o doc ∧
          (result = .ok true ↔ Fine doc o.queries ∧ CanSave world.files o doc)) ∨
        (∀ doc, prepared? world.files o = some doc → ¬ Answers doc o.queries) ∧
          files = world.files ∧ result ≠ .ok true) := by
  obtain ⟨result, text, err, hrun, rfl, hresult⟩ := does_untilOutput world.files o world rfl
  rw [perform_eq, ExceptT.run_bind, StateT.run_bind, Id.run_bind, hrun]
  cases result with
  | error causes => exact ⟨.error causes, err, world.files, rfl, .inr ⟨hresult, rfl, nofun⟩⟩
  | ok p =>
    obtain ⟨allFine, doc'⟩ := p
    obtain ⟨doc, hdoc, hall, hfine, hreads⟩ := hresult
    obtain ⟨saved, err', hsave, hsaved⟩ := exists_run_writeOutput o doc'
      ⟨world.files, world.out ++ (prepared? world.files o).elim "" (printed o), err⟩
    -- what is saved does not show which values were read
    have hfiles : savedFiles world.files o doc' = savedFiles world.files o doc := by
      rw [savedFiles, savedFiles, hreads.fileText]
    have hcan : CanSave world.files o doc' ↔ CanSave world.files o doc := by
      rw [CanSave, CanSave, hreads.fileText]
    refine ⟨saved.map fun _ => allFine, err', savedFiles world.files o doc, ?_,
      .inl ⟨doc, hdoc, hall, rfl, ?_⟩⟩
    · rw [← hfiles]
      simp [hsave]
    · rw [← hfine, ← hcan, ← hsaved]
      cases saved <;> simp [Except.map]

/-! ### Runs -/

/-- A run comes to its output: all that it asks for before is done, and its sheet is this one. -/
structure Completes (arguments : List String) (files : FileStore) (o : Options) (doc : Document) :
    Prop where
  asked : Asks arguments o
  prepared : prepared? files o = some doc
  answered : Answers doc o.queries

theorem Asks.unique {arguments : List String} {o' : Options} (h : Asks arguments o)
    (h' : Asks arguments o') : o = o' := by
  rw [← Options.parse_eq_ok_iff] at h h'
  simpa [h] using h'

theorem Completes.unique {arguments : List String} {o' : Options} {doc doc' : Document}
    (h : Completes arguments files o doc) (h' : Completes arguments files o' doc') :
    o = o' ∧ doc = doc' := by
  obtain rfl := h.asked.unique h'.asked
  exact ⟨rfl, Option.some.inj (h.prepared.symm.trans h'.prepared)⟩

/-- Arguments that ask for nothing leave everything but the standard error; only a request for help
is no failure. -/
theorem exists_run_of_not_asks {arguments : List String} (world : World)
    (h : ¬ ∃ o, Asks arguments o) :
    ∃ code err, World.run arguments world = (code, { world with err }) ∧
      (code = 0 ↔ Options.parse arguments = .ok none) := by
  unfold World.run run
  cases hparse : Options.parse arguments with
  | error e => exact ⟨1, _, rfl, by simp⟩
  | ok o? =>
    cases o? with
    | none => exact ⟨0, _, rfl, by simp⟩
    | some o => exact absurd ⟨o, Options.parse_eq_ok_iff.1 hparse⟩ h

/-- What a run leaves whose arguments ask for something. -/
theorem exists_run_of_asks {arguments : List String} (world : World) (h : Asks arguments o) :
    ∃ code err files, World.run arguments world = (code,
        { files, out := world.out ++ (prepared? world.files o).elim "" (printed o), err }) ∧
      ((∃ doc, Completes arguments world.files o doc ∧ files = savedFiles world.files o doc ∧
          (code = 0 ↔ Fine doc o.queries ∧ CanSave world.files o doc)) ∨
        (∀ doc, ¬ Completes arguments world.files o doc) ∧ files = world.files ∧ code ≠ 0) := by
  obtain ⟨result, err, files, hrun, hresult⟩ := exists_run_perform o world
  -- the exit code tells whether there is a result and it is fine
  have hcode : ∃ code err', World.run arguments world = (code,
      { files, out := world.out ++ (prepared? world.files o).elim "" (printed o), err := err' }) ∧
      (code = 0 ↔ result = .ok true) := by
    unfold World.run run
    rw [Options.parse_eq_ok_iff.2 h]
    dsimp only
    rw [StateT.run_bind]
    change ∃ code err', Id.run (_ >>= _) = _ ∧ _
    rw [Id.run_bind, hrun]
    cases result with
    | error causes => exact ⟨1, _, rfl, by simp⟩
    | ok allFine => exact ⟨if allFine then 0 else 1, _, rfl, by cases allFine <;> simp⟩
  obtain ⟨code, err', hcode, hzero⟩ := hcode
  refine ⟨code, err', files, hcode, ?_⟩
  rcases hresult with ⟨doc, hdoc, hall, rfl, hfine⟩ | ⟨hnot, rfl, hne⟩
  · exact .inl ⟨doc, ⟨h, hdoc, hall⟩, rfl, hzero.trans hfine⟩
  · exact .inr ⟨fun doc hdoc => hnot doc hdoc.prepared hdoc.answered, rfl,
      fun h => hne (hzero.1 h)⟩

section

variable {arguments : List String} {world : World} {doc : Document}

theorem files_of_completes (h : Completes arguments world.files o doc) :
    (World.run arguments world).2.files = savedFiles world.files o doc := by
  obtain ⟨code, err, files, hrun, hcases⟩ := exists_run_of_asks world h.asked
  rcases hcases with ⟨doc', hcompletes, rfl, -⟩ | ⟨hnot, -, -⟩
  · obtain ⟨-, rfl⟩ := hcompletes.unique h
    rw [hrun]
  · exact absurd h (hnot doc)

theorem files_of_not_completes (h : ∀ o doc, ¬ Completes arguments world.files o doc) :
    (World.run arguments world).2.files = world.files := by
  by_cases hasks : ∃ o, Asks arguments o
  · obtain ⟨o, hasks⟩ := hasks
    obtain ⟨code, err, files, hrun, hcases⟩ := exists_run_of_asks world hasks
    rcases hcases with ⟨doc, hcompletes, -, -⟩ | ⟨-, rfl, -⟩
    · exact absurd hcompletes (h o doc)
    · rw [hrun]
  · obtain ⟨code, err, hrun, -⟩ := exists_run_of_not_asks world hasks
    rw [hrun]

theorem out_of_prepared (hasks : Asks arguments o) (h : prepared? world.files o = some doc) :
    (World.run arguments world).2.out = world.out ++ printed o doc := by
  obtain ⟨code, err, files, hrun, -⟩ := exists_run_of_asks world hasks
  rw [hrun, h, Option.elim_some]

theorem out_of_not_prepared
    (h : ¬ ∃ o doc, Asks arguments o ∧ prepared? world.files o = some doc) :
    (World.run arguments world).2.out = world.out := by
  by_cases hasks : ∃ o, Asks arguments o
  · obtain ⟨o, hasks⟩ := hasks
    obtain ⟨code, err, files, hrun, -⟩ := exists_run_of_asks world hasks
    have hnone : prepared? world.files o = none :=
      Option.eq_none_iff_forall_ne_some.2 fun doc hdoc => h ⟨o, doc, hasks, hdoc⟩
    rw [hrun, hnone]
    exact String.append_empty
  · obtain ⟨code, err, hrun, -⟩ := exists_run_of_not_asks world hasks
    rw [hrun]

theorem code_of_completes (h : Completes arguments world.files o doc) :
    (World.run arguments world).1 = 0 ↔ Fine doc o.queries ∧ CanSave world.files o doc := by
  obtain ⟨code, err, files, hrun, hcases⟩ := exists_run_of_asks world h.asked
  rcases hcases with ⟨doc', hcompletes, -, hzero⟩ | ⟨hnot, -, -⟩
  · obtain ⟨-, rfl⟩ := hcompletes.unique h
    rw [hrun]
    exact hzero
  · exact absurd h (hnot doc)

/-- A run that does not come to its output fails, unless it was asked for help. -/
theorem code_of_not_completes (h : ∀ o doc, ¬ Completes arguments world.files o doc) :
    (World.run arguments world).1 = 0 ↔ Options.parse arguments = .ok none := by
  by_cases hasks : ∃ o, Asks arguments o
  · obtain ⟨o, hasks⟩ := hasks
    obtain ⟨code, err, files, hrun, hcases⟩ := exists_run_of_asks world hasks
    rcases hcases with ⟨doc, hcompletes, -, -⟩ | ⟨-, -, hne⟩
    · exact absurd hcompletes (h o doc)
    · rw [hrun, Options.parse_eq_ok_iff.2 hasks]
      exact iff_of_false hne (by simp)
  · obtain ⟨code, err, hrun, hzero⟩ := exists_run_of_not_asks world hasks
    rw [hrun]
    exact hzero

end

/-- The sheet of a run that makes one edit, and what the edited cell answers. -/
theorem exists_prepared_mention : ∃ doc, prepared? ∅
        { edits := [("a", "=b")], queries := [.get "a"], output := some "x", noConfig := true } =
      some doc ∧
      answer? doc (.get "a") = some (.error (.unresolved "b")) ∧
      doc.fileText = "# gridcalc spreadsheet\n@version: \"default\"\na: =b\n" := by
  refine ⟨((Document.new {}).edit "a" "=b").document, ?_, by cbv, by cbv⟩
  have hedit : ((Document.new {}).edit "a" "=b").answer = .ok ["a"] := by
    cbv
  show edited? (Document.new {}) [("a", "=b")] = _
  rw [edited?, hedit]
  rfl

theorem write_empty (bytes : ByteArray) :
    FileStore.write ∅ "x" bytes = .ok ((∅ : FileStore).insert "x" bytes) := by
  cbv

/-- A run saves all of its edits or nothing.  If it comes to its output, and that can be written,
the output gets the text of the sheet after all edits, and nothing else changes; a file that changes
at all is such an output.  What is printed are the answers after all edits, and nothing if there is
no such sheet.  The exit code is zero for a request for help, and else for a run that comes to its
output, has no error among its answers, and can write what it has to. -/
theorem run_allOrNothing (arguments : List String) (world : World) :
    let code := (World.run arguments world).1
    let after := (World.run arguments world).2
    (∀ o doc path, Completes arguments world.files o doc → o.output = some path →
      CanSave world.files o doc → ∃ parts, world.files.resolve path = .ok parts ∧
        after.files = world.files.insert (FileStore.key parts) doc.fileText.toUTF8) ∧
    (∀ key : String, after.files[key]? ≠ world.files[key]? → ∃ o doc path parts,
      Completes arguments world.files o doc ∧ o.output = some path ∧
        world.files.resolve path = .ok parts ∧ FileStore.key parts = key ∧
        after.files[key]? = some doc.fileText.toUTF8) ∧
    (∀ o doc, Asks arguments o → prepared? world.files o = some doc →
      after.out = world.out ++ printed o doc) ∧
    ((¬ ∃ o doc, Asks arguments o ∧ prepared? world.files o = some doc) →
      after.out = world.out) ∧
    (code = 0 ↔ Options.parse arguments = .ok none ∨ ∃ o doc,
      Completes arguments world.files o doc ∧ Fine doc o.queries ∧ CanSave world.files o doc) := by
  intro code after
  refine ⟨?_, ?_, fun o doc => out_of_prepared, out_of_not_prepared, ?_⟩
  · intro o doc path hcompletes houtput hcan
    obtain ⟨files', hwrite⟩ := hcan path houtput
    obtain ⟨parts, hpath, hfiles⟩ := exists_of_write_eq_ok hwrite
    refine ⟨parts, hpath, ?_⟩
    rw [← hfiles, ← savedFiles_of_write houtput hwrite]
    exact files_of_completes hcompletes
  · intro key hkey
    -- nothing is written by a run that does not come to its output
    by_cases hruns : ∃ o doc, Completes arguments world.files o doc
    · obtain ⟨o, doc, hcompletes⟩ := hruns
      have hfiles : after.files = savedFiles world.files o doc := files_of_completes hcompletes
      rw [hfiles] at hkey ⊢
      obtain ⟨path, parts, hsaved⟩ := exists_of_getElem?_savedFiles_ne hkey
      exact ⟨o, doc, path, parts, hcompletes, hsaved⟩
    · push Not at hruns
      have hfiles : after.files = world.files := files_of_not_completes hruns
      exact absurd (by rw [hfiles]) hkey
  · by_cases hruns : ∃ o doc, Completes arguments world.files o doc
    · obtain ⟨o, doc, hcompletes⟩ := hruns
      have hparse := Options.parse_eq_ok_iff.2 hcompletes.asked
      refine (code_of_completes hcompletes).trans ⟨fun h => .inr ⟨o, doc, hcompletes, h⟩, ?_⟩
      rintro (hhelp | ⟨o', doc', hcompletes', h⟩)
      · simp [hparse] at hhelp
      · obtain ⟨rfl, rfl⟩ := hcompletes.unique hcompletes'
        exact h
    · push Not at hruns
      refine (code_of_not_completes hruns).trans (or_iff_left ?_).symm
      rintro ⟨o, doc, hcompletes, -⟩
      exact hruns o doc hcompletes

/-- A run fails because of its answer, which knows of a later edit, and saves the edit all the
same. -/
theorem run_allOrNothing_error :
    let result := World.run ["-g", "a", "-o", "x", "-s", "a==b", "--no-config"] {}
    result.1 ≠ 0 ∧ result.2.out = "#ERR: Unresolved variable 'b'\n" ∧
      result.2.files = (∅ : FileStore).insert "x"
        "# gridcalc spreadsheet\n@version: \"default\"\na: =b\n".toUTF8 := by
  obtain ⟨doc, hprepared, hanswer, htext⟩ := exists_prepared_mention
  obtain ⟨o, ho⟩ : ∃ o : Options, o =
      { edits := [("a", "=b")], queries := [.get "a"], output := some "x", noConfig := true } :=
    ⟨_, rfl⟩
  rw [← ho] at hprepared
  have hasks : Asks ["-g", "a", "-o", "x", "-s", "a==b", "--no-config"] o := by
    rw [ho]
    exact Options.parse_eq_ok_iff.1 rfl
  have hcompletes : Completes ["-g", "a", "-o", "x", "-s", "a==b", "--no-config"] ∅ o doc :=
    ⟨hasks, hprepared, by simp [Answers, ho, hanswer]⟩
  obtain ⟨hfiles, -, hout, -, hcode⟩ :=
    run_allOrNothing ["-g", "a", "-o", "x", "-s", "a==b", "--no-config"] {}
  refine ⟨fun hzero => ?_, ?_, ?_⟩
  · rcases hcode.1 hzero with hhelp | ⟨o', doc', hcompletes', hfine, -⟩
    · rw [Options.parse_eq_ok_iff.2 hasks] at hhelp
      cases hhelp
    · obtain ⟨rfl, rfl⟩ := hcompletes.unique hcompletes'
      have hno := hfine (.get "a") (by simp [ho]) _ hanswer
      cases hno
  · refine (hout o doc hasks hprepared).trans ?_
    simp [printed, answersText, ho, hanswer]
    rfl
  · have hcan : CanSave ∅ o doc := by
      intro path hpath
      obtain rfl : "x" = path := by simpa [ho] using hpath
      exact ⟨_, write_empty _⟩
    obtain ⟨parts, hparts, hafter⟩ := hfiles o doc "x" hcompletes (by rw [ho]) hcan
    obtain ⟨parts', hparts', hinsert⟩ := exists_of_write_eq_ok (write_empty doc.fileText.toUTF8)
    obtain rfl : parts = parts' := Except.ok.inj (hparts.symm.trans hparts')
    rw [← htext]
    exact hafter.trans hinsert.symm

end FormulaSheet.Command
