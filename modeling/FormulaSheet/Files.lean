/-
Files.

What the library asks of a place that keeps files is a record of three operations, in any
monad: the size of a file, its bytes, and replacing it.  Besides a real disk there is
`FileStore`, a finite set of files with nothing else behind it: its directories are those that
its files stand in, and one of them is where paths start.

* **`FileSystem`** — the operations;
* **`FileStore.resolve`** — what a path means in a store;
* **`FileStore.fileSystem`** — the operations on a store;
* **`decodeText`** — bytes as a text.
-/
import Std.Data.ExtTreeMap

namespace FormulaSheet

/-- Why a file cannot be read or written. -/
inductive FileError where
  | missing
  | notDirectory
  | isDirectory
  | nameTooLong
  /-- The bytes are no UTF-8. -/
  | notText
  | other (reason : String)
deriving Repr, DecidableEq

namespace FileError

/-- The wording of a file error. -/
def message : FileError → String
  | missing => "No such file or directory (os error 2)"
  | notDirectory => "Not a directory (os error 20)"
  | isDirectory => "Is a directory (os error 21)"
  | nameTooLong => "File name too long (os error 36)"
  | notText => "stream did not contain valid UTF-8"
  | other reason => reason

end FileError

/-- A place that keeps files. -/
structure FileSystem (m : Type → Type) where
  /-- The size of what a path names, in bytes. -/
  size : String → m (Except FileError Nat)
  /-- The bytes of a file. -/
  read : String → m (Except FileError ByteArray)
  /-- Replace a file, or make it. -/
  write : String → ByteArray → m (Except FileError Unit)

/-- Bytes as a text. -/
def decodeText (bytes : ByteArray) : Except FileError String :=
  match String.fromUTF8? bytes with
  | some text => .ok text
  | none => .error .notText

/-- A finite set of files, by their path from the top directory. -/
abbrev FileStore := Std.ExtTreeMap String ByteArray compare

namespace FileStore

/-- The longest name of a file or directory, in bytes. -/
def nameMax : Nat := 255

/-- The size of a directory, which holds no bytes of its own. -/
def directorySize : Nat := 4096

/-- The key of a path given by its parts. -/
def key (parts : List String) : String :=
  "/".intercalate parts

/-- Whether some file stands in or below a directory. -/
def isDirectory (store : FileStore) (parts : List String) : Bool :=
  parts.isEmpty || store.keys.any (·.startsWith (key parts ++ "/"))

/-- Follow the parts of a path from a directory, given by its own parts, last first. -/
def follow (store : FileStore) (directory : List String) :
    List String → Except FileError (List String)
  | [] => .ok directory.reverse
  | part :: rest =>
    -- Even `.` and `..` can only be looked up in a directory that is there.
    if store.contains (key directory.reverse) && !directory.isEmpty then .error .notDirectory
    else if !store.isDirectory directory.reverse then .error .missing
    else if part.isEmpty || part == "." then follow store directory rest
    else if part == ".." then
      match directory with
      | [] => .error .missing
      | _ :: parent => follow store parent rest
    else if nameMax < part.utf8ByteSize then .error .nameTooLong
    else follow store (part :: directory) rest

/-- The file or directory that a path means, by its parts; it need not be there, but the
directory it would stand in is. -/
def resolve (store : FileStore) (path : String) : Except FileError (List String) :=
  if path.isEmpty || path.startsWith "/" then .error .missing
  else follow store [] (path.splitOn "/")

/-- What a store answers when bytes are asked of a path. -/
def read (store : FileStore) (path : String) : Except FileError ByteArray := do
  let parts ← store.resolve path
  match store[key parts]? with
  | some bytes => .ok bytes
  | none => if store.isDirectory parts then .error .isDirectory else .error .missing

/-- What a store answers when a size is asked of a path. -/
def size (store : FileStore) (path : String) : Except FileError Nat := do
  let parts ← store.resolve path
  match store[key parts]? with
  | some bytes => .ok bytes.size
  | none => if store.isDirectory parts then .ok directorySize else .error .missing

/-- A store with a file replaced or made. -/
def write (store : FileStore) (path : String) (bytes : ByteArray) :
    Except FileError FileStore := do
  let parts ← store.resolve path
  if path.endsWith "/" || store.isDirectory parts then .error .isDirectory
  else .ok (store.insert (key parts) bytes)

/-- A store with a file put where its parts say, and the directories that it stands in. -/
def place (store : FileStore) (path : String) (bytes : ByteArray) : FileStore :=
  store.insert (key ((path.splitOn "/").filter fun part => part ≠ "" ∧ part ≠ ".")) bytes

/-- The operations on a store that is the state. -/
def fileSystem : FileSystem (StateM FileStore) where
  size path := do return (← get).size path
  read path := do return (← get).read path
  write path bytes := do
    match (← get).write path bytes with
    | .ok store => set store; return .ok ()
    | .error e => return .error e

end FileStore

end FormulaSheet
