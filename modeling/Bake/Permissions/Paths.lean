import Bake.Lib.FileTree

/-!
# Canonical paths and containment

`canonical_path` and `is_path_under`, and what the file system says while a path is checked.
Paths are those of Unix.
-/

namespace Bake.Permissions

open FileTree

/-- What a check sees: the tree, the process directory and the OS temporary directory. -/
structure FileSystem where
 entries : List (Name × Node)
 currentDir : List Name
 tempDir : Path

def absolutePath (names : List Name) : Path :=
 { absolute := true, components := names.map .normal }

namespace FileSystem

def root (fs : FileSystem) : Node := .dir fs.entries

/-- `std::fs::symlink_metadata` of an absolute path: the entry itself, be it a link. -/
def symlinkMetadata (fs : FileSystem) (names : List Name) : Except Errno Node := do
 let path ← namei fs.root false maxLinks [] (names.map .normal)
 match fs.root.get? path with
 | some node => .ok node
 | none => .error .noEntry

/-- `std::fs::canonicalize`: the name path of what a path leads to. -/
def canonicalize (fs : FileSystem) (path : Path) : Except Errno Path :=
 if !path.absolute && path.components.isEmpty then .error .noEntry
 else do
  let start := if path.absolute then [] else fs.currentDir
  let names ← namei fs.root true maxLinks start path.components
  .ok (absolutePath names)

end FileSystem

def fileName (path : Path) : Option Name :=
 match path.components.getLast? with
 | some (.normal name) => some name
 | _ => none

/-- `PathBuf::push` of names. -/
def pushNames (path : Path) (names : List Name) : Path :=
 { path with components := path.components ++ names.map .normal }

/-- The loop of `canonical_path` over the prefixes of a path that is not there: `length`
components of the prefix are left. -/
def canonicalPrefix (fs : FileSystem) (path : Path) (missing : List Name) : Nat → Path
 | 0 => path
 | length + 1 =>
  let whole : Path := { path with components := path.components.take (length + 1) }
  match fileName whole with
  | none => path
  | some name =>
   match fs.canonicalize { path with components := path.components.take length } with
   | .ok resolved => pushNames resolved (name :: missing)
   | .error _ => canonicalPrefix fs path (name :: missing) length

/-- `canonical_path`: the path with every link resolved, or its longest existing prefix with
the rest as it is. -/
def canonicalPath (fs : FileSystem) (path : Path) : Path :=
 match fs.canonicalize path with
 | .ok resolved => resolved
 | .error _ => canonicalPrefix fs path [] path.components.length

/-- `lexical`: `.` removed and `..` applied. -/
def lexicalComponents (out : List Component) : List Component → List Component
 | [] => out
 | .curDir :: rest => lexicalComponents out rest
 | .parentDir :: rest => lexicalComponents out.dropLast rest
 | .normal name :: rest => lexicalComponents (out ++ [.normal name]) rest

def lexical (path : Path) : Path :=
 { path with components := lexicalComponents [] path.components }

def startsWith (path root : Path) : Bool :=
 path.absolute == root.absolute && root.components.isPrefixOf path.components

def isPathUnder (path root : Path) : Bool := startsWith (lexical path) (lexical root)

/-- `Path::strip_prefix`: the components behind the root. -/
def stripPrefix (path root : Path) : Option (List Component) :=
 if startsWith path root then some (path.components.drop root.components.length) else none

end Bake.Permissions
