/-
What the steps of a run come to.

Every step before the output looks at files, makes edits or reads, and leaves the files as they are.
What it gives is said here without the run: the sheet that a run prepares by its settings, its file
and its edits, and what that sheet answers.  Answering a query may compute values, but what was read
before never shows in an answer.

* **`prepared?`** — the sheet of a run after all of its edits;
* **`answer?`**, **`answersText`**, **`cellsText`** — what a sheet answers, and what is printed;
* **`Looks`** — an action that changes nothing; **`Does`**, **`Gives`** — a step of a run, by what
  it gives and prints;
* **`gives_readConfig`**, **`gives_openSheet`**, **`gives_makeEdits`**, **`does_answerAll`**,
  **`does_printCells`** — the steps, one after the other.
-/
import FormulaSheet.Command.Run
import FormulaSheet.Proofs.Document.Reads
import FormulaSheet.Proofs.Formula.Value

namespace FormulaSheet

/-- The files of a store as they are, to be looked at. -/
def FileStore.reader (files : FileStore) : FileSystem Id where
  size := files.size
  read := files.read
  write path bytes := (files.write path bytes).map fun _ => ()

namespace Command

/-! ### The sheet -/

/-- The settings file that a run reads: the one given, or else the user's own, if it is wanted and
there. -/
def settingsFile? (files : FileStore) (o : Options) : Option String :=
  o.config.or <| World.host.userSettings.filter fun path =>
    !o.noConfig && (files.size path).isOk

/-- What the sheet of a run is made with, if its settings load. -/
def config? (files : FileStore) (o : Options) : Option SheetConfig :=
  (Id.run (Settings.loadConfig files.reader (settingsFile? files o))).toOption

/-- The sheet of a run before its edits, if it loads. -/
def opened? (files : FileStore) (o : Options) (config : SheetConfig) : Option Document :=
  match o.file with
  | none => some (.new config)
  | some path => (Id.run (Document.loadFile files.reader config path)).answer.toOption

/-- A sheet after edits made in order, if all of them are accepted. -/
def edited? (doc : Document) : List (String × String) → Option Document
  | [] => some doc
  | (name, content) :: rest => do
    let _ ← (doc.edit name content).answer.toOption
    edited? (doc.edit name content).document rest

/-- The sheet of a run after its edits, if the settings and the sheet load and all edits are
accepted. -/
def prepared? (files : FileStore) (o : Options) : Option Document := do
  let config ← config? files o
  let doc ← opened? files o config
  edited? doc o.edits

/-- Whatever the settings are, the normal forms of names are their own normal forms. -/
theorem isIdempotent_of_config? {files : FileStore} {o : Options} {config : SheetConfig}
    (h : config? files o = some config) :
    config.rules.IsIdempotent := by
  unfold config? Settings.loadConfig at h
  split at h
  · obtain rfl := Option.some.inj h
    exact fun _ => rfl
  · rw [Id.run_bind] at h
    split at h
    · cases h
    · next settings _ =>
      cases hconfig : settings.config? with
      | none =>
        rw [hconfig] at h
        cases h
      | some config =>
        rw [hconfig] at h
        obtain rfl := Option.some.inj h
        exact Settings.isIdempotent_of_config? hconfig

/-- What the sheet of a run keeps right. -/
structure Ready (doc : Document) : Prop where
  sound : doc.Sound
  entered : doc.Entered
  idempotent : doc.config.rules.IsIdempotent

namespace Ready

variable {files : FileStore} {o : Options} {config : SheetConfig} {doc doc' : Document}

theorem new (h : config.rules.IsIdempotent) : Ready (.new config) :=
  ⟨.new config, .new config, h⟩

theorem edit (h : Ready doc) (spelling input : String) :
    Ready (doc.edit spelling input).document := by
  refine ⟨h.sound.edit spelling input, h.entered.edit h.sound.mirrors spelling input, ?_⟩
  rw [Document.config_edit]
  exact h.idempotent

theorem edited (h : Ready doc) {edits : List (String × String)}
    (hedited : edited? doc edits = some doc') : Ready doc' := by
  induction edits generalizing doc with
  | nil =>
    obtain rfl := Option.some.inj hedited
    exact h
  | cons edit rest ih =>
    obtain ⟨_, -, hrest⟩ := Option.bind_eq_some_iff.1 hedited
    exact ih (h.edit edit.1 edit.2) hrest

theorem load (h : config.rules.IsIdempotent) {text : String}
    (hload : (Document.load config text).answer = .ok doc) : Ready doc := by
  obtain ⟨cells, filled, hfilled, rfl⟩ := Document.answer_load hload
  -- a loaded sheet is filled by edits, and marked as saved
  have hready : Ready filled :=
    Document.enterAll_invariant (fun spelling input h => h.edit spelling input) (.new h) hfilled
  exact ⟨hready.sound.saved, hready.entered.saved, hready.idempotent⟩

theorem opened (h : config.rules.IsIdempotent) (hopened : opened? files o config = some doc) :
    Ready doc := by
  unfold opened? at hopened
  split at hopened
  · obtain rfl := Option.some.inj hopened
    exact .new h
  · next path _ =>
    cases hanswer : (Id.run (Document.loadFile files.reader config path)).answer with
    | error e =>
      rw [hanswer] at hopened
      cases hopened
    | ok loaded =>
      rw [hanswer] at hopened
      obtain rfl := Option.some.inj hopened
      obtain ⟨text, hload⟩ := Document.answer_loadFile hanswer
      exact load h hload

theorem prepared (h : prepared? files o = some doc) : Ready doc := by
  obtain ⟨config, hconfig, h⟩ := Option.bind_eq_some_iff.1 h
  obtain ⟨loaded, hopened, hedited⟩ := Option.bind_eq_some_iff.1 h
  exact (opened (isIdempotent_of_config? hconfig) hopened).edited hedited

/-- A name that is listed means its own cell. -/
theorem resolve_name (h : Ready doc) {name : String} (hname : name ∈ doc.names) :
    doc.resolve name = .ok name := by
  obtain ⟨c, hcell⟩ := Document.mem_names_iff.1 hname
  exact (h.entered.resolve_name h.idempotent hcell).1

end Ready

/-! ### Answers -/

/-- The number that a formula by itself finds in a cell, if it finds one. -/
def numberOf? (doc : Document) (name : String) : Option Float :=
  (doc.value name).answer.toOption.bind CellValue.number?

/-- The answer to a query, if its name or its formula is accepted. -/
def answer? (doc : Document) : Query → Option CellValue
  | .get name => (doc.value name).answer.toOption
  | .command text =>
    (Formula.parse {} (commandFormula text)).toOption.map fun f =>
      .ofResult (f.value (numberOf? doc))

/-- All queries are answered. -/
def Answers (doc : Document) (queries : List Query) : Prop :=
  ∀ query ∈ queries, (answer? doc query).isSome = true

instance (doc : Document) (queries : List Query) : Decidable (Answers doc queries) :=
  inferInstanceAs (Decidable (∀ query ∈ queries, (answer? doc query).isSome = true))

/-- No answer is an error. -/
def Fine (doc : Document) (queries : List Query) : Prop :=
  ∀ query ∈ queries, ∀ value, answer? doc query = some value → value.isError = false

/-- The answers to queries, each on a line, up to the first query that is rejected. -/
def answersText (doc : Document) : List Query → String
  | [] => ""
  | query :: rest =>
    match answer? doc query with
    | some value => value.display ++ "\n" ++ answersText doc rest
    | none => ""

/-- The cells with the given names, each on a line: what was put in, and the value. -/
def cellsText (doc : Document) (names : List String) : String :=
  String.join <| names.map fun name =>
    name ++ ": " ++ doc.cells[name]?.elim "" Contents.input ++ " => " ++
      (doc.valueOf name).answer.display ++ "\n"

/-! ### Actions that change nothing -/

/-- An action looks at the files, where they are these, and changes nothing. -/
def Looks {α : Type} (files : FileStore) (action : StateM World α) (pureAction : Id α) : Prop :=
  ∀ world : World, world.files = files →
    Id.run (action.run world) = (Id.run pureAction, world)

section Looks

variable {α β : Type} {files : FileStore}

theorem Looks.pure (a : α) : Looks files (Pure.pure a) (Pure.pure a) :=
  fun _ _ => rfl

theorem Looks.bind {action : StateM World α} {pureAction : Id α} {next : α → StateM World β}
    {pureNext : α → Id β} (h : Looks files action pureAction)
    (hnext : ∀ a, Looks files (next a) (pureNext a)) :
    Looks files (action >>= next) (pureAction >>= pureNext) := by
  intro world hworld
  rw [StateT.run_bind, Id.run_bind, h world hworld]
  exact hnext _ world hworld

theorem looks_size (files : FileStore) (path : String) :
    Looks files (World.host.files.size path) (files.reader.size path) := by
  rintro world rfl
  rfl

theorem looks_read (files : FileStore) (path : String) :
    Looks files (World.host.files.read path) (files.reader.read path) := by
  rintro world rfl
  rfl

theorem looks_settingsPath (files : FileStore) (o : Options) :
    Looks files (settingsPath World.host o) (pure (settingsFile? files o)) := by
  unfold settingsPath settingsFile?
  cases o.config with
  | some path => exact .pure (some path)
  | none =>
    cases o.noConfig with
    | true => exact .pure none
    | false =>
      -- the user's own file is there if it has a size
      rintro world rfl
      simp only [World.host, Bool.false_eq_true, if_false, Bool.not_false, Bool.true_and,
        Option.none_or, Option.filter]
      cases hsize : world.files.size ".config/gridcalc/config.toml" <;>
        simp [hsize, Except.isOk, Except.toBool]

theorem looks_load (files : FileStore) (path : String) :
    Looks files (Settings.load World.host.files path) (Settings.load files.reader path) := by
  unfold Settings.load
  refine (looks_size files path).bind ?_
  rintro (e | size)
  · exact .pure _
  · dsimp only
    -- the bytes are only read if there are not too many
    by_cases hlarge : Settings.sizeMax < size
    · rw [if_pos hlarge, if_pos hlarge]
      exact .pure _
    · rw [if_neg hlarge, if_neg hlarge]
      refine (looks_read files path).bind fun bytes => ?_
      cases bytes.bind decodeText with
      | error e => exact .pure _
      | ok text =>
        dsimp only
        cases Settings.read? text <;> exact .pure _

theorem looks_loadConfig (files : FileStore) (path : Option String) :
    Looks files (Settings.loadConfig World.host.files path)
      (Settings.loadConfig files.reader path) := by
  cases path with
  | none => exact .pure _
  | some path =>
    refine (looks_load files path).bind ?_
    rintro (e | settings)
    · exact .pure _
    · dsimp only
      cases settings.config? <;> exact .pure _

theorem looks_loadFile (files : FileStore) (config : SheetConfig) (path : String) :
    Looks files (Document.loadFile World.host.files config path)
      (Document.loadFile files.reader config path) := by
  refine (looks_read files path).bind ?_
  rintro (e | bytes)
  · exact .pure _
  · dsimp only
    cases (Document.loadBytes config bytes).answer <;> exact .pure _

end Looks

/-! ### Steps -/

/-- What a step of a run does where the files are these: it leaves them, gives a result, or none if
it fails, and prints a text. -/
def Does {α : Type} (files : FileStore) (task : Task (StateM World) α)
    (post : Option α → String → Prop) : Prop :=
  ∀ world : World, world.files = files → ∃ result text err,
    Id.run (task.run.run world) = (result, { files, out := world.out ++ text, err }) ∧
      post result.toOption text

/-- A step gives a result, or none if it fails, and prints nothing. -/
def Gives {α : Type} (files : FileStore) (task : Task (StateM World) α) (x : Option α) : Prop :=
  Does files task fun result text => result = x ∧ text = ""

section Steps

variable {α β : Type} {files : FileStore} {task : Task (StateM World) α}
  {next : α → Task (StateM World) β} {post : Option α → String → Prop}
  {post' : Option β → String → Prop} {x : Option α}

theorem Does.weaken {post' : Option α → String → Prop} (h : Does files task post)
    (hpost : ∀ result text, post result text → post' result text) : Does files task post' := by
  intro world hworld
  obtain ⟨result, text, err, hrun, hresult⟩ := h world hworld
  exact ⟨result, text, err, hrun, hpost _ _ hresult⟩

/-- A step that gives a result is followed by the next one; a step that fails ends the run. -/
theorem Does.bind (h : Does files task post)
    (hnext : ∀ a text, post (some a) text →
      Does files (next a) fun result text' => post' result (text ++ text'))
    (hfail : ∀ text, post none text → post' none text) : Does files (task >>= next) post' := by
  intro world hworld
  obtain ⟨result, text, err, hrun, hresult⟩ := h world hworld
  simp only [ExceptT.run_bind, StateT.run_bind, Id.run_bind, hrun]
  cases result with
  | error causes => exact ⟨.error causes, text, err, rfl, hfail text hresult⟩
  | ok a =>
    -- the next step starts in the world that this one left
    obtain ⟨result', text', err', hrun', hresult'⟩ :=
      hnext a text hresult { files, out := world.out ++ text, err } rfl
    refine ⟨result', text ++ text', err', ?_, hresult'⟩
    rw [← String.append_assoc]
    exact hrun'

/-- What is printed stands before what the next step prints. -/
theorem Does.print {text : String} {next : Unit → Task (StateM World) β}
    (h : Does files (next ()) fun result text' => post' result (text ++ text')) :
    Does files (liftM (World.host.out text) >>= next) post' := by
  have hprint : Does files (liftM (World.host.out text) : Task (StateM World) Unit)
      fun result text' => result = some () ∧ text' = text := by
    rintro world rfl
    exact ⟨.ok (), text, world.err, rfl, rfl, rfl⟩
  refine hprint.bind ?_ ?_
  · rintro _ _ ⟨-, rfl⟩
    exact h
  · rintro _ ⟨hnone, -⟩
    cases hnone

theorem Gives.pure (a : α) : Gives files (Pure.pure a) (some a) := by
  rintro world rfl
  exact ⟨.ok a, "", world.err, by simp, rfl, rfl⟩

theorem Gives.throw (causes : List String) :
    Gives files (MonadExcept.throw causes : Task (StateM World) α) none := by
  rintro world rfl
  exact ⟨.error causes, "", world.err, by simp, rfl, rfl⟩

theorem Gives.lift {action : StateM World α} {pureAction : Id α}
    (h : Looks files action pureAction) :
    Gives files (ExceptT.lift action) (some (Id.run pureAction)) := by
  rintro world rfl
  refine ⟨.ok (Id.run pureAction), "", world.err, ?_, rfl, rfl⟩
  simp [h world rfl]

/-- Progress is printed to the standard error alone. -/
theorem Gives.note (o : Options) (line : String) :
    Gives files (Command.note World.host o line) (some ()) := by
  rintro world rfl
  unfold Command.note
  split
  · exact ⟨.ok (), "", world.err ++ (line ++ "\n"), by rw [String.append_empty]; rfl, rfl, rfl⟩
  · exact ⟨.ok (), "", world.err, by rw [String.append_empty]; rfl, rfl, rfl⟩

/-- What follows a step that prints nothing decides what is printed. -/
theorem Gives.then (h : Gives files task x) (hnext : ∀ a, x = some a → Does files (next a) post')
    (hfail : x = none → post' none "") : Does files (task >>= next) post' := by
  refine Does.bind h ?_ ?_
  · rintro a text ⟨hx, rfl⟩
    refine (hnext a hx.symm).weaken fun result text hpost => ?_
    rwa [String.empty_append]
  · rintro text ⟨hx, rfl⟩
    exact hfail hx.symm

theorem Gives.bind {y : α → Option β} (h : Gives files task x)
    (hnext : ∀ a, Gives files (next a) (y a)) : Gives files (task >>= next) (x.bind y) := by
  refine h.then (fun a ha => ?_) (fun hx => ?_)
  · subst ha
    exact hnext a
  · subst hx
    exact ⟨rfl, rfl⟩

end Steps

/-! ### The steps of a run -/

theorem gives_readConfig (files : FileStore) (o : Options) :
    Gives files (readConfig World.host o) (config? files o) := by
  refine (Gives.lift (looks_settingsPath files o)).bind
    (y := fun path => (Id.run (Settings.loadConfig files.reader path)).toOption) fun path => ?_
  refine (Gives.lift (looks_loadConfig files path)).bind
    (y := fun loaded => loaded.toOption) fun loaded => ?_
  cases loaded with
  | ok config => exact .pure config
  | error e => exact .throw _

theorem gives_openSheet (files : FileStore) (o : Options) (config : SheetConfig) :
    Gives files (openSheet World.host o config) (opened? files o config) := by
  unfold openSheet opened?
  cases o.file with
  | none => exact .pure _
  | some path =>
    refine (Gives.lift (looks_loadFile files config path)).bind
      (y := fun loaded => loaded.answer.toOption) fun loaded => ?_
    cases loaded.answer with
    | ok doc => exact (Gives.note o _).bind fun _ => .pure doc
    | error e => exact .throw _

theorem gives_makeEdit (files : FileStore) (o : Options) (doc : Document)
    (edit : String × String) :
    Gives files (makeEdit World.host o doc edit) <|
      (doc.edit edit.1 edit.2).answer.toOption.map fun _ => (doc.edit edit.1 edit.2).document := by
  unfold makeEdit
  dsimp only
  cases (doc.edit edit.1 edit.2).answer with
  | ok affected => exact (Gives.note o _).bind fun _ => .pure _
  | error e => exact .throw _

theorem gives_makeEdits (files : FileStore) (o : Options) (edits : List (String × String))
    (doc : Document) :
    Gives files (edits.foldlM (makeEdit World.host o) doc) (edited? doc edits) := by
  induction edits generalizing doc with
  | nil => exact .pure doc
  | cons edit rest ih =>
    have hrest := (gives_makeEdit files o doc edit).bind ih
    rw [Option.bind_map] at hrest
    exact hrest

section Answers

variable {doc doc' : Document}

/-- A look-up finds what it would find before all reads. -/
theorem run_lookUp (hsound : doc.Sound) (name : String) (doc' : Document)
    (h : doc.AfterReads doc') :
    (Id.run ((lookUp name).run doc')).1 = numberOf? doc name ∧
      doc.AfterReads (Id.run ((lookUp name).run doc')).2 := by
  refine ⟨?_, h.value name⟩
  rw [numberOf?, ← h.answer_value hsound]
  dsimp only [lookUp, StateT.run, Id.run]
  cases (doc'.value name).answer <;> rfl

/-- A formula by itself has the value that the numbers before all reads give. -/
theorem evaluateCommand_of_parse (hsound : doc.Sound) (h : doc.AfterReads doc') {text : String}
    {f : Formula} (hparse : Formula.parse {} (commandFormula text) = .ok f) :
    (evaluateCommand doc' text).1 = .ok (.ofResult (f.value (numberOf? doc))) ∧
      doc.AfterReads (evaluateCommand doc' text).2 := by
  obtain ⟨hvalue, hreads⟩ := f.evaluate_run (run_lookUp hsound) h
  rw [evaluateCommand, hparse]
  exact ⟨congrArg (fun result => Except.ok (CellValue.ofResult result)) hvalue, hreads⟩

/-- A query is answered as it would be before all reads. -/
theorem exists_gives_answer (files : FileStore) (hsound : doc.Sound) (h : doc.AfterReads doc')
    (query : Query) : ∃ x, Gives files (answer doc' query) x ∧
      x.map Prod.fst = answer? doc query ∧ ∀ p, x = some p → doc.AfterReads p.2 := by
  cases query with
  | get name =>
    have hreads := h.value name
    rw [answer?, ← h.answer_value hsound, answer]
    cases (doc'.value name).answer with
    | ok value => exact ⟨some (value, _), .pure _, rfl, by rintro _ ⟨⟩; exact hreads⟩
    | error e => exact ⟨none, .throw _, rfl, fun p hp => by cases hp⟩
  | command text =>
    rw [answer?, answer]
    cases hparse : Formula.parse {} (commandFormula text) with
    | error e =>
      rw [evaluateCommand, hparse]
      exact ⟨none, .throw _, rfl, fun p hp => by cases hp⟩
    | ok f =>
      obtain ⟨hvalue, hreads⟩ := evaluateCommand_of_parse hsound h hparse
      -- the value is known, and of the sheet only that it comes of reads
      generalize evaluateCommand doc' text = result at hvalue hreads ⊢
      obtain ⟨value, doc''⟩ := result
      obtain rfl : value = _ := hvalue
      exact ⟨some (_, doc''), .pure _, rfl, by rintro _ ⟨⟩; exact hreads⟩

/-- Queries are answered in order, and the answers printed, up to the first one that is rejected. -/
theorem does_answerAll (files : FileStore) (hsound : doc.Sound) (h : doc.AfterReads doc')
    (queries : List Query) : Does files (answerAll World.host doc' queries) fun result text =>
      text = answersText doc queries ∧ match result with
        | some (fine, doc'') => Answers doc queries ∧ (fine = true ↔ Fine doc queries) ∧
          doc.AfterReads doc''
        | none => ¬ Answers doc queries := by
  -- earlier queries have read from the sheet, so the induction is for every sheet after reads
  induction queries generalizing doc' with
  | nil =>
    refine (Gives.pure _).weaken ?_
    rintro _ _ ⟨rfl, rfl⟩
    exact ⟨rfl, List.forall_mem_nil _, by simp [Fine], h⟩
  | cons query rest ih =>
    obtain ⟨x, hanswer, hvalue, hreads⟩ := exists_gives_answer files hsound h query
    refine hanswer.then (fun p hp => ?_) (fun hx => ?_)
    · obtain ⟨value, doc''⟩ := p
      have hsome : answer? doc query = some value := by rw [← hvalue, hp]; rfl
      have hcons : Answers doc (query :: rest) ↔ Answers doc rest := by
        simp [Answers, hsome]
      refine .print ((ih (hreads _ hp)).bind ?_ ?_)
      · rintro ⟨fine, doc''⟩ text ⟨rfl, hall, hfine, hreads'⟩
        refine (Gives.pure _).weaken ?_
        rintro _ _ ⟨rfl, rfl⟩
        refine ⟨by simp [answersText, hsome], hcons.2 hall, ?_, hreads'⟩
        rw [Bool.and_eq_true, Bool.not_eq_true', hfine]
        simp [Fine, hsome]
      · rintro text ⟨rfl, hnot⟩
        exact ⟨by simp [answersText, hsome], fun hall => hnot (hcons.1 hall)⟩
    · -- a query that is rejected has no answer, and ends the run
      have hnone : answer? doc query = none := by rw [← hvalue, hx]; rfl
      refine ⟨by simp [answersText, hnone], fun hall => ?_⟩
      have hsome := hall query (.head _)
      rw [hnone] at hsome
      cases hsome

/-- Cells held under their own names are printed in order. -/
theorem does_printCells (files : FileStore) (hsound : doc.Sound) (h : doc.AfterReads doc')
    {names : List String} (hnames : ∀ name ∈ names, doc.resolve name = .ok name) :
    Does files (printCells World.host doc' names) fun result text =>
      text = cellsText doc names ∧ ∃ doc'', result = some doc'' ∧ doc.AfterReads doc'' := by
  -- as for queries, each cell is read after those before it
  induction names generalizing doc' with
  | nil =>
    refine (Gives.pure _).weaken ?_
    rintro _ _ ⟨rfl, rfl⟩
    exact ⟨rfl, doc', rfl, h⟩
  | cons name rest ih =>
    obtain ⟨hname, hrest⟩ := List.forall_mem_cons.1 hnames
    have hcontents : doc'.contents name = .ok doc.cells[name]? := by
      rw [h.contents, Document.contents, hname]
      rfl
    have hvalue : (doc'.value name).answer = .ok (doc.valueOf name).answer := by
      rw [h.answer_value hsound, Document.answer_value hname]
    unfold printCells
    simp only [hcontents, hvalue, pure_bind]
    refine .print ((ih (h.value name) hrest).weaken ?_)
    rintro result _ ⟨rfl, hreads⟩
    exact ⟨by simp [cellsText], hreads⟩

end Answers

end Command

end FormulaSheet
