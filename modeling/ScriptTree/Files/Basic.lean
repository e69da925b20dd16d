import ScriptTree.Source.Span

/-!
A file system as a value: files and directories below a working directory. Looking a path up goes
through its components one by one, each of which must be a directory except the last. Of what is
outside the working directory only the directories above it and the root are known to be there.
-/

namespace ScriptTree

/-- Why a path cannot be used. -/
inductive FileCause where
  | notFound
  | isDirectory
  | notDirectory
  | nameTooLong
  | invalidName
deriving DecidableEq, Repr

def FileCause.message : FileCause → String
  | .notFound => "no such file or directory"
  | .isDirectory => "is a directory"
  | .notDirectory => "not a directory"
  | .nameTooLong => "file name too long"
  | .invalidName => "invalid argument"

/-- A failed operation on a path. -/
structure FileError where
  operation : String
  path : String
  cause : FileCause
deriving DecidableEq, Repr

def FileError.message (e : FileError) : String := e.operation ++ " " ++ e.path ++ ": " ++ e.cause.message

/-- A place in the file system, by the names on the way to it from the working directory. The way out
of the working directory starts with `..`, the way from the root with `/`. -/
abbrev Location := List String

/-- What is found at a place. -/
inductive Entry where
  | file (content : String)
  | directory
deriving DecidableEq, Repr

/-- Files and directories. A directory that holds a file need not be listed. -/
structure FileSystem where
  files : List (Location × String)
  directories : List Location
deriving Repr

/-- The components of a path. An empty one stands for the directory it is in; a path from the root
starts with a component of its own. -/
def pathComponents (path : String) : List String :=
  let parts := (path.toList.splitOn '/').map String.ofList
  match parts with
  | "" :: rest => "/" :: rest
  | parts => parts

/-- The place that one more component leads to; the root lies in itself. -/
def enter (place : Location) (component : String) : Location :=
  if component = "" ∨ component = "." then place
  else if component = ".." then
    match place.getLast? with
    | none | some ".." => place ++ [".."]
    | some "/" => place
    | some _ => place.dropLast
  else place ++ [component]

def nameLimit : Nat := 255

def pathLimit : Nat := 4095

/-- The path without components that lead nowhere. -/
def cleanPath (path : String) : String :=
  let rooted := path.toList.head? == some '/'
  let parts := (path.toList.splitOn '/').map String.ofList
  let kept := parts.foldl (fun (kept : List String) part =>
    if part = "" ∨ part = "." then kept
    else if part = ".." then
      match kept.getLast? with
      | some ".." => kept ++ [".."]
      | some _ => kept.dropLast
      | none => if rooted then [] else [".."]
    else kept ++ [part]) []
  let text := "/".intercalate kept
  if rooted then "/" ++ text else if text = "" then "." else text

def directoryOf (path : String) : String :=
  cleanPath (String.ofList (path.toList.reverse.dropWhile (· != '/')).reverse)

/-- The path of a name in a directory. -/
def joinPath (directory name : String) : String :=
  if directory = "" then cleanPath name else cleanPath (directory ++ "/" ++ name)

namespace FileSystem

def empty : FileSystem := ⟨[], []⟩

/-- Whether a place is there in every file system: the working directory, a directory above it, or the
root. -/
def isBase (place : Location) : Bool := place.all (· == "..") || place == ["/"]

def entry? (fs : FileSystem) (place : Location) : Option Entry :=
  match fs.files.find? (·.1 == place) with
  | some (_, content) => some (.file content)
  | none =>
    if isBase place || fs.directories.contains place || fs.files.any (fun (l, _) => place.isPrefixOf l) ||
        fs.directories.any (fun l => place.isPrefixOf l) then some .directory
    else none

/-- The place that components lead to from a place. -/
def walk (fs : FileSystem) : Location → List String → Except FileCause Location
  | place, [] => .ok place
  | place, c :: rest =>
    match fs.entry? place with
    | none => .error .notFound
    | some (.file _) => .error .notDirectory
    | some .directory =>
      if nameLimit < c.utf8ByteSize then .error .nameTooLong else walk fs (enter place c) rest

/-- The place of a path, whether or not something is there. -/
def locate (fs : FileSystem) (path : String) : Except FileCause Location :=
  if path.toList.contains '\x00' then .error .invalidName
  else if path = "" then .error .notFound
  else if pathLimit < path.utf8ByteSize then .error .nameTooLong
  else fs.walk [] (pathComponents path)

/-- What is at the end of a path. -/
def find (fs : FileSystem) (path : String) : Except FileCause Entry := do
  let place ← fs.locate path
  match fs.entry? place with
  | some e => return e
  | none => throw .notFound

/-- Puts a file at a place. -/
def put (fs : FileSystem) (place : Location) (content : String) : FileSystem :=
  if fs.files.any (·.1 == place) then
    { fs with files := fs.files.map fun (l, old) => if l == place then (l, content) else (l, old) }
  else { fs with files := fs.files ++ [(place, content)] }

/-- Opens a path and reads what is there. -/
def read (fs : FileSystem) (path : String) : Except FileError String :=
  match fs.find path with
  | .ok (.file content) => .ok content
  | .ok .directory => .error ⟨"read", path, .isDirectory⟩
  | .error cause => .error ⟨"open", path, cause⟩

/-- Writes a file, new or in the place of an old one. -/
def write (fs : FileSystem) (path content : String) : Except FileError FileSystem :=
  match fs.locate path with
  | .error cause => .error ⟨"open", path, cause⟩
  | .ok place => match fs.entry? place with
    | some .directory => .error ⟨"open", path, .isDirectory⟩
    | _ => .ok (fs.put place content)

/-- The components of a clean path that lie on the way to each of its parts, shortest first. -/
def ancestors (path : String) : List String :=
  let parts := (path.toList.splitOn '/').map String.ofList
  (List.range parts.length).map fun i =>
    let text := "/".intercalate (parts.take (i + 1))
    if text = "" then "/" else text

/-- Makes a directory and the directories it is in, where they are not there yet. -/
def makeDirectories (fs : FileSystem) (path : String) : Except FileError FileSystem :=
  (ancestors path).foldlM (fun fs p =>
    match fs.locate p with
    | .error cause => .error ⟨"mkdir", p, cause⟩
    | .ok place => match fs.entry? place with
      | some .directory => .ok fs
      | some (.file _) => .error ⟨"mkdir", p, .notDirectory⟩
      | none => .ok { fs with directories := fs.directories ++ [place] }) fs

/-- A file system with files at these paths. -/
def ofFiles (files : List (String × String)) : FileSystem :=
  files.foldl (fun fs (path, content) => fs.put ((pathComponents path).foldl enter []) content) empty

/-- Whether a place is in the working directory. -/
def isInside (place : Location) : Bool := place.head? != some ".." && place.head? != some "/"

/-- The files in the working directory that are not at one of these paths, by path. -/
def filesBeside (fs : FileSystem) (known : List String) : List (String × String) :=
  let places := known.map fun path => (pathComponents path).foldl enter []
  (fs.files.filter fun (l, _) => isInside l && !places.contains l).map fun (l, content) => ("/".intercalate l, content)

end FileSystem

end ScriptTree
