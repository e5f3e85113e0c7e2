import MipsMacro.Command.Files
import MipsMacro.Text.Bytes

/-!
Files kept in memory, below a working directory. Paths are followed name by name as on a POSIX system:
each name is looked up in the directory reached so far, one dot stays there and two dots go to the
directory above. Directories exist as far as files are below them; of the world outside the working
directory only what every such system has is known.
-/

namespace MipsMacro.Command

/-- Where the names of a place are counted from. -/
inductive Anchor where
  | root
  /-- The working directory, or the one that is this number of levels above it. -/
  | above (levels : Nat)
  deriving DecidableEq

/-- A place in the tree of files: an anchor and the names that lead down from it. -/
structure Place where
  anchor : Anchor
  names : List String
  deriving DecidableEq

namespace Place

def workingDirectory : Place := ⟨.above 0, []⟩

def root : Place := ⟨.root, []⟩

def child (p : Place) (name : String) : Place := ⟨p.anchor, p.names ++ [name]⟩

/-- The place above; the root is above itself. -/
def parent (p : Place) : Place :=
  match p.names, p.anchor with
  | [], .root => root
  | [], .above n => ⟨.above (n + 1), []⟩
  | names, anchor => ⟨anchor, names.dropLast⟩

/-- Whether a place is the other or lies above it in the same branch. -/
def leadsTo (p q : Place) : Bool := p.anchor == q.anchor && p.names.isPrefixOf q.names

end Place

namespace Path

/-- The parts of a path between its slashes. -/
def parts : List Char → List (List Char)
  | [] => [[]]
  | c :: cs =>
    if c = '/' then
      [] :: parts cs
    else
      match parts cs with
      | [] => [[c]]
      | part :: rest => (c :: part) :: rest

/-- The parts of a path that say something. -/
def steps (path : String) : List (List Char) := (parts path.toList).filter (· != [])

/-- Where a path starts. -/
def start (path : String) : Place :=
  if path.toList.head? = some '/' then .root else .workingDirectory

def endsInSlash (path : String) : Bool := path.toList.getLast? == some '/'

/-- The longest path and the longest name in it, in bytes. -/
def maxSize : Nat := 4095

def maxNameSize : Nat := 255

def isTooLong (path : String) : Bool := Nat.blt maxSize (Text.byteSize path.toList)

/-- Whether a step stays or goes up, and does not lead to a name. -/
def isDots (step : List Char) : Bool := step == ['.'] || step == ['.', '.']

end Path

/-- Files with their places and contents. -/
structure Directory where
  files : List (Place × ByteArray) := []

namespace Directory

/-- The directory that holds the given files below it, each named by a relative path. -/
def ofFiles (files : List (String × ByteArray)) : Directory :=
  ⟨files.map fun (path, content) =>
    (⟨.above 0, ((Path.steps path).filter (!Path.isDots ·)).map String.ofList⟩, content)⟩

/-- What is found at a place. -/
inductive Node where
  | file (content : ByteArray)
  /-- The file that is always empty and takes everything. -/
  | sink
  | directory
  | nothing

/-- The file that discards what is written to it. -/
def sinkPlace : Place := ⟨.root, ["dev", "null"]⟩

/-- Directories that every system has. -/
def standardDirectories : List Place := [⟨.root, ["dev"]⟩, ⟨.root, ["tmp"]⟩]

def node (d : Directory) (p : Place) : Node :=
  match d.files.find? (·.1 == p) with
  | some (_, content) => .file content
  | none =>
    if p = sinkPlace then .sink
    else if p.names = [] || standardDirectories.contains p || d.files.any (p.leadsTo ·.1) then
      .directory
    else .nothing

/-- Refuses a place in which nothing can be looked up. -/
def enter (d : Directory) (p : Place) : Except FileFault Unit :=
  match d.node p with
  | .directory => .ok ()
  | .nothing => .error .missing
  | _ => .error .notDirectory

/-- The place that a step of a path leads to. -/
def step (d : Directory) (p : Place) (step : List Char) : Except FileFault Place := do
  d.enter p
  if step = ['.'] then return p
  else if step = ['.', '.'] then return p.parent
  else if Path.maxNameSize < Text.byteSize step then .error .nameTooLong
  else return p.child (String.ofList step)

/-- The place that several steps lead to. -/
def walk (d : Directory) (p : Place) : List (List Char) → Except FileFault Place
  | [] => .ok p
  | s :: rest => do
    let p ← d.step p s
    d.walk p rest

def read (d : Directory) (path : String) : Except FileFault String := do
  if Path.isTooLong path then .error .nameTooLong
  else
    let place ← d.walk (Path.start path) (Path.steps path)
    if Path.endsInSlash path then d.enter place
    match d.node place with
    | .file content =>
      match String.fromUTF8? content with
      | some text => .ok text
      | none => .error .notText
    | .sink => .ok ""
    | .directory => .error .isDirectory
    | .nothing => .error .missing

/-- Sets the content of a file. -/
def put (d : Directory) (p : Place) (text : String) : Directory :=
  ⟨d.files.filter (·.1 != p) ++ [(p, text.toUTF8)]⟩

/-- The place that is written by a path. A name with a slash behind it is never that of a file. -/
def target (d : Directory) (path : String) : Except FileFault Place := do
  if Path.isTooLong path then .error .nameTooLong
  else
    let steps := Path.steps path
    let place ← d.walk (Path.start path) steps.dropLast
    match steps.getLast? with
    | none => return place
    | some last =>
      d.enter place
      if Path.endsInSlash path && !Path.isDots last then .error .isDirectory
      else d.step place last

/-- Writes a file; all but the last name of its path must lead to a directory. -/
def write (d : Directory) (path text : String) : Except FileFault Directory := do
  let place ← d.target path
  match d.node place with
  | .directory => .error .isDirectory
  | .sink => .ok d
  | _ => .ok (d.put place text)

end Directory

/-- The files of a directory that is kept as a state. -/
def Files.inMemory : Files (StateM Directory) where
  read path := return (← get).read path
  write path text := do
    match (← get).write path text with
    | .ok d =>
      set d
      return .ok ()
    | .error fault => return .error fault

end MipsMacro.Command
