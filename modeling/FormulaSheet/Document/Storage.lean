/-
Saving and loading.

A document is saved as the text of its version and its cells in listing order, and counts as
unmodified once the whole text is out.  It is loaded by entering the lines of a file one after
the other into a new document, so a file loads only if each of its lines would be accepted as
an edit; the document that is there already stays until all of them are.

* **`Document.fileText`** — the text that a document is saved as;
* **`Document.saveTo`**, **`Document.saveFile`** — save to a writer, or as a file;
* **`Document.load`**, **`Document.loadFile`** — a document from a text, or from a file.
-/
import FormulaSheet.Document.Edit
import FormulaSheet.SheetFile.Basic

namespace FormulaSheet

/-- Somewhere to write a text to. -/
structure Writer (m : Type → Type) where
  write : String → m (Except FileError Unit)
  /-- Make sure that what was written is kept. -/
  flush : m (Except FileError Unit)

/-- What a load answers and what it reports. -/
structure Loaded (α : Type) where
  answer : Except StorageError α
  events : List Event := []

namespace Document

/-- The text that a document is saved as. -/
def fileText (doc : Document) : String :=
  SheetFile.sheetText doc.version <|
    doc.names.filterMap fun name => doc.cells[name]?.map fun contents => (name, contents)

/-- The document after a save that succeeded. -/
def saved (doc : Document) : Document :=
  { doc with modified := false }

/-- Save a document to a writer. -/
def saveTo {m : Type → Type} [Monad m] (writer : Writer m) (doc : Document) :
    m (Reply (Except StorageError Unit)) := do
  match ← writer.write doc.fileText with
  | .error e => return { answer := .error (.file e), document := doc }
  | .ok () =>
    match ← writer.flush with
    | .error e => return { answer := .error (.file e), document := doc }
    | .ok () =>
      return {
        answer := .ok ()
        document := doc.saved
        events := [.saved doc.cells.size doc.version] }

/-- Save a document as a file. -/
def saveFile {m : Type → Type} [Monad m] (files : FileSystem m) (path : String)
    (doc : Document) : m (Reply (Except StorageError Unit)) := do
  match ← files.write path doc.fileText.toUTF8 with
  | .error e => return { answer := .error (.file e), document := doc }
  | .ok () => return { answer := .ok (), document := doc.saved, events := [.savedFile path] }

/-- Enter saved cells one after the other. -/
def enterAll (doc : Document) : List SavedCell → Loaded Document
  | [] => { answer := .ok doc }
  | cell :: rest =>
    let reply := doc.edit cell.name cell.input
    let events := .entering cell.line cell.name cell.input :: reply.events
    match reply.answer with
    | .error e =>
      { answer := .error (.badCell cell.name e)
        events := events ++ [.loadFailed cell.line cell.name e.message] }
    | .ok _ =>
      let later := reply.document.enterAll rest
      { later with events := events ++ later.events }

/-- A document from the text of a file whose version is the configured one. -/
def load (config : SheetConfig) (text : String) : Loaded Document :=
  match SavedSheet.read text with
  | .error e => { answer := .error (.format e) }
  | .ok sheet =>
    if sheet.version = config.version then
      let loaded := (new config).enterAll sheet.cells
      { loaded with answer := loaded.answer.map saved }
    else { answer := .error (.wrongVersion config.version sheet.version) }

/-- A document from the bytes of a file. -/
def loadBytes (config : SheetConfig) (bytes : ByteArray) : Loaded Document :=
  match decodeText bytes with
  | .error e => { answer := .error (.file e) }
  | .ok text => load config text

/-- A document from a file. -/
def loadFile {m : Type → Type} [Monad m] (files : FileSystem m) (config : SheetConfig)
    (path : String) : m (Loaded Document) := do
  match ← files.read path with
  | .error e => return { answer := .error (.file e) }
  | .ok bytes =>
    let loaded := loadBytes config bytes
    match loaded.answer with
    | .error _ => return loaded
    | .ok doc => return { loaded with events := loaded.events ++ [.loadedFile path doc.cells.size] }

/-- The version of a file's bytes, whatever its cells are. -/
def savedVersion (bytes : ByteArray) : Except StorageError String :=
  match decodeText bytes with
  | .error e => .error (.file e)
  | .ok text => (SheetFile.readVersion text).mapError StorageError.format

/-- The version of a file, whatever its cells are. -/
def savedVersionFile {m : Type → Type} [Monad m] (files : FileSystem m) (path : String) :
    m (Except StorageError String) := do
  match ← files.read path with
  | .error e => return .error (.file e)
  | .ok bytes => return savedVersion bytes

end Document

end FormulaSheet
