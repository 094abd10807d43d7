/-!
# Files

What the command line needs of a file system: a file is read as bytes, and an
executable is written. `Files` can be the disk or a `FileTree`, a working
directory that is held in memory.

In a path, `.` and empty parts stay in a directory and `..` goes to the one above
it. Every part but the last must name a directory. Above the working directory
there are directories only, and nothing in them is known: a name leads to nothing
there, and what is written there is not part of the tree.
-/

namespace MiniJava.CommandLine

/-- Why a file cannot be read or written. -/
inductive FileFault
  | notFound
  | notDirectory
  | isDirectory
  /-- The bytes are not UTF-8. -/
  | notText
  /-- Any other reason that the system gives. -/
  | system (reason : String)
  deriving DecidableEq, Repr

/-- The wording of a fault. -/
def FileFault.message : FileFault → String
  | notFound => "No such file or directory (os error 2)"
  | notDirectory => "Not a directory (os error 20)"
  | isDirectory => "Is a directory (os error 21)"
  | notText => "stream did not contain valid UTF-8"
  | system reason => reason

/-- Access to files by their paths. -/
structure Files (m : Type → Type) where
  read : String → m (Except FileFault ByteArray)
  writeExecutable : String → ByteArray → m (Except FileFault Unit)

/-- A file in memory. -/
structure File where
  content : ByteArray
  isExecutable : Bool

/-- A working directory: the directories and the files in it, by the names that
lead to them. -/
structure FileTree where
  directories : List (List String)
  files : List (List String × File)

/-- A directory to which a path can lead. -/
inductive Place
  /-- The working directory or one in it, by the names that lead to it. -/
  | inside (names : List String)
  /-- Any directory above the working directory. -/
  | above
  deriving DecidableEq, Repr

namespace Place

/-- Where the parts of a path are followed from. The top of all directories is
above the working directory. -/
def startOf (path : String) : Place :=
  if path.startsWith "/" then .above else .inside []

/-- The directory above another one. Nothing above the working directory leads
back into it. -/
def parent : Place → Place
  | inside [] | above => .above
  | inside names => .inside names.dropLast

end Place

namespace FileTree

/-- Whether a path of names leads to a directory. -/
def isDirectory (tree : FileTree) (path : List String) : Bool :=
  path.isEmpty || tree.directories.contains path

/-- The file to which a path of names leads. -/
def file? (tree : FileTree) (path : List String) : Option File :=
  tree.files.lookup path

/-- The directory to which one part of a path leads from another directory. -/
def step (tree : FileTree) (place : Place) (part : String) : Except FileFault Place :=
  if part = "" || part = "." then .ok place
  else if part = ".." then .ok place.parent
  else
    match place with
    | .above => .error .notFound
    | .inside names =>
      let path := names ++ [part]
      if tree.isDirectory path then .ok (.inside path)
      else if (tree.file? path).isSome then .error .notDirectory
      else .error .notFound

/-- The parts of a path: those in front of the last one, and the last one. -/
def splitPath (path : String) : List String × String :=
  let parts := path.splitOn "/"
  (parts.dropLast, parts.getLastD "")

/-- Whether the last part of a path always names a directory. -/
def namesDirectory (part : String) : Bool :=
  part = "" || part = "." || part = ".."

/-- Reads a file. -/
def read (tree : FileTree) (path : String) : Except FileFault ByteArray := do
  let (parts, last) := splitPath path
  let place ← parts.foldlM tree.step (Place.startOf path)
  if namesDirectory last then .error .isDirectory
  else
    match place with
    | .above => .error .notFound
    | .inside names =>
      let target := names ++ [last]
      if tree.isDirectory target then .error .isDirectory
      else
        match tree.file? target with
        | some file => .ok file.content
        | none => .error .notFound

/-- Puts a file in the place of the one that a path of names leads to, if any. -/
def put (tree : FileTree) (path : List String) (file : File) : FileTree :=
  { tree with files := (path, file) :: tree.files.filter (·.1 ≠ path) }

/-- Writes an executable file. A path that ends in a slash cannot be written to,
whatever it leads to. -/
def writeExecutable (tree : FileTree) (path : String) (content : ByteArray) :
    Except FileFault FileTree := do
  let trimmed := (path.dropEndWhile '/').toString
  let (parts, last) := splitPath trimmed
  let place ← parts.foldlM tree.step (Place.startOf path)
  if trimmed ≠ path || namesDirectory last then .error .isDirectory
  else
    match place with
    | .above => .ok tree
    | .inside names =>
      let target := names ++ [last]
      if tree.isDirectory target then .error .isDirectory
      else .ok (tree.put target ⟨content, true⟩)

/-- A tree as files that can be read and written. -/
def access : Files (StateM FileTree) where
  read path := return (← get).read path
  writeExecutable path content := do
    match (← get).writeExecutable path content with
    | .ok tree =>
      set tree
      return .ok ()
    | .error fault => return .error fault

end FileTree

end MiniJava.CommandLine
