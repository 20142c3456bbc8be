/-! # File systems

    A file system as a value: files by their paths from the root, and the
    directory in which a command runs.

    * **`Route`** is a path as it is written, from the root or from the
      directory of the command.
    * **`FileSystem.follow`** goes along the names of a route.  A name leads
      on from a directory only; the last one may lead to nothing.
    * **`FileSystem.read`, `FileSystem.write`** act on the file at the end of
      a route.  They refuse a directory, and a slash at the end of a path
      makes it that of a directory.
    * **`FileSystem.changes`** are the files in which a file system differs
      from an earlier one. -/

namespace ClassLang.Command

/-! ## Errors of the system -/

/-- Why a file cannot be read or written. -/
inductive SystemError where
  | notFound | notADirectory | isADirectory
  /-- A name or a whole path is longer than the system allows. -/
  | nameTooLong
  /-- The bytes are no UTF-8 text. -/
  | invalidText
deriving DecidableEq

/-- The words of the system for an error. -/
def SystemError.message : SystemError → String
  | notFound => "No such file or directory (os error 2)"
  | notADirectory => "Not a directory (os error 20)"
  | isADirectory => "Is a directory (os error 21)"
  | nameTooLong => "File name too long (os error 36)"
  | invalidText => "stream did not contain valid UTF-8"

/-- The text that bytes encode. -/
def decodeText (bytes : ByteArray) : Except SystemError String :=
  match String.fromUTF8? bytes with
  | some text => .ok text
  | none => .error .invalidText

/-! ## Paths -/

/-- The names on the way from the root, the last being that of the place
    itself. -/
abbrev Path := List String

/-- The place to which a name leads from a directory. -/
def Path.step (p : Path) (name : String) : Path :=
  if name = "." then p else if name = ".." then p.dropLast else p ++ [name]

/-- The most bytes that a name can have. -/
def maxNameBytes : Nat := 255

/-- The most bytes that a written path can have. -/
def maxPathBytes : Nat := 4095

/-- A path as it is written. -/
structure Route where
  /-- Does the way start at the root? -/
  fromRoot : Bool
  names : List String
  /-- Does a slash stand behind the last name? -/
  endsInSlash : Bool

/-- Reads a path.  Slashes that follow one another are one, and nothing is
    found at the empty path. -/
def Route.ofString (path : String) : Except SystemError Route :=
  if path.isEmpty then .error .notFound
  else if maxPathBytes < path.utf8ByteSize then .error .nameTooLong
  else
    let parts := path.splitOn "/"
    .ok
      { fromRoot := parts.head? = some ""
        names := parts.filter (· ≠ "")
        endsInSlash := parts.getLast? = some "" }

/-! ## Files -/

/-- The files below the root, and the directory in which a command runs. -/
structure FileSystem where
  files : List (Path × ByteArray) := []
  current : Path := []

/-- What lies at a path. -/
inductive Entry where
  | directory
  | file (bytes : ByteArray)

namespace FileSystem

/-- Is there a directory at this path?  There is one on the way to every file
    and to the directory of the command. -/
def hasDirectory (s : FileSystem) (p : Path) : Bool :=
  p.isPrefixOf s.current || s.files.any fun (q, _) => p.isPrefixOf q && p.length < q.length

/-- What lies at a path, if anything does. -/
def entry? (s : FileSystem) (p : Path) : Option Entry :=
  match s.files.lookup p with
  | some bytes => some (.file bytes)
  | none => if s.hasDirectory p then some .directory else none

/-- Goes on from `p` to where the name leads.  Nothing has to be there. -/
def next (s : FileSystem) (p : Path) (name : String) : Except SystemError Path :=
  match s.entry? p with
  | none => .error .notFound
  | some (.file _) => .error .notADirectory
  | some .directory =>
    if maxNameBytes < name.utf8ByteSize then .error .nameTooLong else .ok (p.step name)

/-- Goes along the names, from the root or from the directory of the
    command. -/
def follow (s : FileSystem) (fromRoot : Bool) (names : List String) : Except SystemError Path :=
  names.foldlM s.next (if fromRoot then [] else s.current)

/-- Reads a file.  Behind a slash at the end the way goes on, by the name of
    the directory itself. -/
def read (s : FileSystem) (path : String) : Except SystemError ByteArray := do
  let r ← Route.ofString path
  let p ← s.follow r.fromRoot (if r.endsInSlash then r.names ++ ["."] else r.names)
  match s.entry? p with
  | none => .error .notFound
  | some .directory => .error .isADirectory
  | some (.file bytes) => .ok bytes

/-- Writes a file, which is new or takes the place of an old one.  No file is
    written behind a slash, so that the last name is not even looked up: the
    way ends in the directory before it. -/
def write (s : FileSystem) (path : String) (bytes : ByteArray) :
    Except SystemError FileSystem := do
  let r ← Route.ofString path
  let p ← s.follow r.fromRoot (if r.endsInSlash then r.names.dropLast ++ ["."] else r.names)
  match s.entry? p with
  | some .directory => .error .isADirectory
  | _ => .ok { s with files := (p, bytes) :: s.files.filter fun (q, _) => q ≠ p }

/-- The files of `s` that are not the same in `old`, by their paths from the
    root. -/
def changes (old s : FileSystem) : List (Path × ByteArray) :=
  s.files.filter fun (p, bytes) => (old.files.lookup p).map (·.data) ≠ some bytes.data

end FileSystem

end ClassLang.Command
