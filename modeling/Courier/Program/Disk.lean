import Courier.Catalog.Store

/-!
Files that the program reads and writes.

A `Disk` knows the contents of files and which directories there are, under absolute paths.  Names
in paths are resolved against the working directory.  `Disk.open?` gives the catalog that a file
holds and makes the file, and the directories above it, if there are none.
-/

namespace Courier.Program

open Catalog

/-- The names on the way from the root to a file or directory. -/
abbrev Path := List String

/-- What a file holds. -/
inductive Content
  | text (s : String)
  | catalog (c : Catalog)
deriving DecidableEq

/-- Why a catalog cannot be opened. -/
inductive DiskError
  /-- A directory cannot be made. -/
  | blocked
  /-- The file is no catalog. -/
  | unreadable
deriving DecidableEq

namespace Path

/-- One name further along a path; dots have their usual meaning. -/
def enter (p : Path) (name : String) : Path :=
  if name = "" ∨ name = "." then p
  else if name = ".." then p.dropLast
  else p ++ [name]

/-- Whether a text is an absolute path. -/
def isAbsolute (s : String) : Bool := s.toList.head? == some '/'

/-- The path that a text means in a working directory. -/
def resolve (directory : Path) (s : String) : Path :=
  (s.splitOn "/").foldl enter (if isAbsolute s then [] else directory)

/-- The paths of the directories above, the nearest first. -/
def above (p : Path) : List Path := (List.range p.length).reverse.map p.take

/-- The paths that a text may mean: an absolute path as it is, any other in the working directory
and in the directories above, the nearest first. -/
def candidates (directory : Path) (s : String) : List Path :=
  if isAbsolute s then [resolve [] s]
  else (directory :: directory.above).map fun base => resolve base s

/-- The text of a path. -/
def text (p : Path) : String := "/" ++ String.intercalate "/" p

end Path

/-- Files by path, and the directories that there are besides those on the way to files. -/
structure Disk where
  files : List (Path × Content)
  directories : List Path
deriving DecidableEq

namespace Disk

/-- What the file of a path holds. -/
def content? (d : Disk) (p : Path) : Option Content := d.files.lookup p

/-- Whether a path is that of a directory. -/
def isDirectory (d : Disk) (p : Path) : Bool :=
  d.directories.any (p.isPrefixOf ·) || d.files.any fun f => p.isPrefixOf f.1 && p ≠ f.1

/-- The disk with a file written. -/
def write (d : Disk) (p : Path) (c : Content) : Disk :=
  { d with files := (p, c) :: d.files.filter fun f => f.1 ≠ p }

/-- The disk with a directory and all those above it, unless a file is in the way. -/
def makeDirectory? (d : Disk) (p : Path) : Option Disk :=
  if (p :: p.above).any fun q => (d.content? q).isSome then none
  else some { d with directories := p :: d.directories }

/-- The file that a text means: the first of its candidates that there is. -/
def find? (d : Disk) (directory : Path) (s : String) : Option Content :=
  (Path.candidates directory s).findSome? d.content?

/-- Whether a text names a catalog that is not kept in a file. -/
def isTransient (s : String) : Bool := s = "" || s = ":memory:"

/-- Opens the catalog that a text names.  A file that is empty or missing is an empty catalog. -/
def open? (d : Disk) (directory : Path) (s : String) : Except DiskError (Catalog × Disk) :=
  if isTransient s then .ok (.empty, d)
  else
    let p := Path.resolve directory s
    match d.makeDirectory? p.dropLast with
    | none => .error .blocked
    | some d =>
      if d.isDirectory p then .error .unreadable
      else
        match d.content? p with
        | some (.catalog c) => .ok (c.opened, d.write p (.catalog c.opened))
        | some (.text t) =>
          if t = "" then .ok (.empty, d.write p (.catalog .empty)) else .error .unreadable
        | none => .ok (.empty, d.write p (.catalog .empty))

/-- Puts a catalog back into the file that a text names. -/
def store (d : Disk) (directory : Path) (s : String) (c : Catalog) : Disk :=
  if isTransient s then d else d.write (Path.resolve directory s) (.catalog c)

end Disk

end Courier.Program
