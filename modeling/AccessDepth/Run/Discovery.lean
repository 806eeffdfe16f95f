import AccessDepth.Disk
import AccessDepth.Path.Raw

/-!
# AccessDepth.Run.Discovery

Which directories of a corpus hold sources.

* `Discovery.Tree` — what the search can meet in a file system.
* `Discovery.isExcluded` — the names of directories that are left out with everything below them.
* `Discovery.sourceDirs` — the directories of a tree that hold a source file, in the order in which
  the tree lists them. `Discovery.search` sorts them by their components.
* `Discovery.discover` — the source directories of a corpus on a disk.

Only a name that is a text can be an excluded one. What cannot be read is passed over: a directory
to which access is denied, and one whose path has more bytes than a path may have.
-/

namespace AccessDepth
namespace Discovery

/-- An entry of a file system as the search meets it. Links are not followed. -/
inductive Tree where
  | directory (entries : List (RawText × Tree))
  /-- A directory that cannot be read. -/
  | closed
  /-- A regular file. -/
  | file
  /-- A link, a pipe, a socket or a device. -/
  | special
  deriving Inhabited

def Tree.isFile : Tree → Bool
  | .file => true
  | _ => false

/-- The names of directories that are always left out. -/
def excludedNames : List String :=
  ["test", "vendor", "_obj", "build", "bin", "testdata", "_testdata"]

def isExcludedText (name : String) : Bool :=
  excludedNames.contains name || "_test".toList.isSuffixOf name.toList ||
    ".".toList.isPrefixOf name.toList

/-- Whether a directory of this name is left out. -/
def isExcluded (name : RawText) : Bool := name.text?.any isExcludedText

/-- The extension of a source file. -/
def sourceExtension : String := "go"

def isSource (name : RawText) (t : Tree) : Bool :=
  t.isFile && name.extension? == some (Path.utf8 sourceExtension)

/-- Whether a directory directly holds a source file. -/
def holdsSource (entries : List (RawText × Tree)) : Bool := entries.any fun e => isSource e.1 e.2

/-- Whether the directory of a path can be read as far as the length of the path goes. -/
def fits (path : RawPath) : Bool := path.toBytes.length ≤ Disk.pathLimit

mutual

/-- The directories at and below a path that hold a source file. -/
def sourceDirs (path : RawPath) : Tree → List RawPath
  | .directory entries =>
    if fits path then
      (if holdsSource entries then [path] else []) ++ sourceDirsIn path entries
    else []
  | .closed => []
  | .file => []
  | .special => []
termination_by structural t => t

/-- Those below the entries of a directory. -/
def sourceDirsIn (path : RawPath) : List (RawText × Tree) → List RawPath
  | [] => []
  | (name, t) :: ts =>
    (if isExcluded name then [] else sourceDirs (path.child name) t) ++ sourceDirsIn path ts
termination_by structural ts => ts

end

/-- The source directories at and below a root. The name of the root may be an excluded one. -/
def search (root : RawPath) (t : Tree) : List RawPath :=
  (sourceDirs root t).mergeSort RawPath.notAfter

mutual

/-- An entry of a disk, on which all names are texts and nothing is a link. -/
def Tree.ofEntry : Entry → Tree
  | .directory entries => .directory (Tree.ofEntries entries)
  | .file _ => .file
  | .store _ => .file
termination_by structural e => e

def Tree.ofEntries : List (String × Entry) → List (RawText × Tree)
  | [] => []
  | (name, e) :: es => (.text name, Tree.ofEntry e) :: Tree.ofEntries es
termination_by structural es => es

end

/-- The source directories of a corpus. -/
def discover (d : Disk) (root : Path) : Except Failure (List Path) :=
  match d.entry root with
  | .ok (.directory entries) =>
    .ok ((search (.ofPath root) (.ofEntry (.directory entries))).filterMap RawPath.toPath?)
  | _ => .error (.settings (.rootNotADirectory root))

end Discovery
end AccessDepth
