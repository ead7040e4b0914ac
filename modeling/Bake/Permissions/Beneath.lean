import Bake.Lib.Run
import Bake.Permissions.Paths

/-!
# Opening a checked write target

`BeneathTarget`: a writable root and the names of the file under it. Every open starts at the
root, opened itself name by name from `/`, and walks the names relative to that handle, one
`openat` with `O_NOFOLLOW` each. A directory handle is known by its name path: each of its
names was opened in a real directory.
-/

namespace Bake.Permissions

open FileTree

inductive OpenError where
 /-- `LinkRefused`: a link appeared on the checked write target. -/
 | linkRefused
 | invalidInput
 | noEntry
 | notDirectory
 | isDirectory
 deriving DecidableEq

/-- How an entry is opened. -/
inductive Access where
 /-- `O_PATH | O_DIRECTORY`, to walk through. -/
 | directory
 /-- `O_RDONLY`. -/
 | read
 /-- `O_WRONLY | O_CREAT | O_TRUNC`. -/
 | create
 deriving DecidableEq

/-- `c_name`: a name with a NUL byte in it is none. -/
def validName (name : Name) : Bool := !name.val.toList.contains (Char.ofNat 0)

/-- `openat(dir, name, flags | O_NOFOLLOW)`: the tree behind it, and the name path of what
was opened. -/
def openAt (tree : Node) (dir : List Name) (name : Name) (access : Access) :
 Except OpenError (Node × List Name) :=
 if !validName name then .error .invalidInput
 else
  match tree.get? (dir ++ [name]) with
  | none =>
   if access = .create then .ok (tree.put (dir ++ [name]) (.file []), dir ++ [name])
   else .error .noEntry
  | some (.link _) => .error .linkRefused
  | some (.dir _) =>
   if access = .create then .error .isDirectory else .ok (tree, dir ++ [name])
  | some (.file _) =>
   match access with
   | .directory => .error .notDirectory
   | .read => .ok (tree, dir ++ [name])
   | .create => .ok (tree.put (dir ++ [name]) (.file []), dir ++ [name])

/-- `openat` of the name `.`, the directory itself. -/
def openSelf (tree : Node) (dir : List Name) (access : Access) :
 Except OpenError (Node × List Name) :=
 if access = .create then .error .isDirectory else .ok (tree, dir)

/-- `mkdirat(dir, name)`, an existing entry accepted. -/
def makeDirAt (tree : Node) (dir : List Name) (name : Name) : Except OpenError Node :=
 if !validName name then .error .invalidInput
 else
  match tree.get? (dir ++ [name]) with
  | none => .ok (tree.put (dir ++ [name]) (.dir []))
  | some _ => .ok tree

/-- A missing directory is made before it is opened when `create` is set. -/
def prepareDir (tree : Node) (dir : List Name) (create : Bool) (name : Name) :
 Except OpenError Node :=
 if create then makeDirAt tree dir name else .ok tree

/-- `walk`: the directory at names under a directory, one open for each, each missing one
made first when `create` is set. -/
def walk (tree : Node) (dir : List Name) (create : Bool) :
 List Name → Except OpenError (Node × List Name)
 | [] => .ok (tree, dir)
 | name :: names => do
  let tree ← prepareDir tree dir create name
  let (tree, dir) ← openAt tree dir name .directory
  walk tree dir create names

def normalNames : List Component → Option (List Name)
 | [] => some []
 | .normal name :: rest => (normalNames rest).map (name :: ·)
 | _ :: _ => none

/-- `open_root`: the root, opened without following a link anywhere in its path. -/
def openRoot (tree : Node) (root : Path) : Except OpenError (List Name) :=
 match normalNames root.components with
 | none => .error .invalidInput
 | some names =>
  if !root.absolute then .error .invalidInput
  else do
   let (_, dir) ← walk tree [] false names
   .ok dir

/-- `make_dirs`: the tree with the parents made. -/
def makeDirs (tree : Node) (root : Path) (parents : List Name) : Except OpenError Node := do
 let dir ← openRoot tree root
 let (tree, _) ← walk tree dir true parents
 .ok tree

/-- `imp::open`; no name stands for `.`, the root itself. -/
def openBeneath (tree : Node) (root : Path) (parents : List Name) (name : Option Name)
 (access : Access) : Except OpenError (Node × List Name) := do
 let dir ← openRoot tree root
 let (_, dir) ← walk tree dir false parents
 match name with
 | some name => openAt tree dir name access
 | none => openSelf tree dir access

structure BeneathTarget where
 root : Path
 components : List Name
 denial : String
 deriving DecidableEq

namespace BeneathTarget

/-- The names behind a root: `.` is left out, and anything but a name refused. -/
def restNames : List Component → Option (List Name)
 | [] => some []
 | .normal name :: rest => (restNames rest).map (name :: ·)
 | .curDir :: rest => restNames rest
 | .parentDir :: _ => none

def new (root target : Path) (denial : String) : Option BeneathTarget := do
 let rest ← stripPrefix target root
 let components ← restNames rest
 some { root, components, denial }

/-- `split`: the parents and the file's name, none for the root itself. -/
def split (target : BeneathTarget) : List Name × Option Name :=
 (target.components.dropLast, target.components.getLast?)

/-- `create_parent_dirs`: the tree behind it. -/
def createParentDirs (target : BeneathTarget) (tree : Node) : Except OpenError Node :=
 makeDirs tree target.root target.split.1

/-- `create`: the tree behind it, and the name path of the file. -/
def create (target : BeneathTarget) (tree : Node) : Except OpenError (Node × List Name) :=
 openBeneath tree target.root target.split.1 target.split.2 .create

/-- `open_read`: the name path of what is read. -/
def openRead (target : BeneathTarget) (tree : Node) : Except OpenError (List Name) := do
 let (_, path) ← openBeneath tree target.root target.split.1 target.split.2 .read
 .ok path

def refusal (target : BeneathTarget) (error : OpenError) : Option String :=
 if error = .linkRefused then some target.denial else none

end BeneathTarget

/-! ## What is opened -/

/-- An entry reached from `/` through real directories only. -/
def RealPath (tree : Node) (path : List Name) : Prop :=
 ∀ above name below, path = above ++ name :: below →
  ∃ entries, tree.get? above = some (.dir entries)

variable {tree : Node} {dir : List Name}

theorem RealPath.of_get? {path : List Name} (h : tree.get? path ≠ none) : RealPath tree path := by
 rintro above name below rfl
 exact Node.get?_dir h

/-- A name opened in a real directory is a name of that directory, and no link. -/
theorem openAt_spec {tree' : Node} {path : List Name} {name : Name} {access : Access}
 (hdir : ∃ entries, tree.get? dir = some (.dir entries))
 (h : openAt tree dir name access = .ok (tree', path)) :
 path = dir ++ [name] ∧ RealPath tree path ∧ (∀ target, tree.get? path ≠ some (.link target))
  ∧ (access ≠ .create → tree' = tree ∧ tree.get? path ≠ none)
  ∧ (access = .directory → ∃ entries, tree.get? path = some (.dir entries))
  ∧ (access = .create → tree'.get? path = some (.file [])
   ∧ ∀ other : List Name, ¬ path <+: other → ¬ other <+: dir →
    tree'.get? other = tree.get? other) := by
 obtain ⟨entries, hentries⟩ := hdir
 have hreal : RealPath tree (dir ++ [name]) := by
  intro above n below he
  rcases List.eq_nil_or_concat below with rfl | ⟨middle, last, rfl⟩
  · obtain ⟨rfl, -⟩ := List.append_inj' he rfl
    exact ⟨entries, hentries⟩
  · have hcons : dir ++ [name] = (above ++ n :: middle) ++ [last] := by simpa using he
    obtain ⟨rfl, -⟩ := List.append_inj' hcons rfl
    exact Node.get?_dir (by rw [hentries]; simp)
 unfold openAt at h
 split at h
 · simp at h
 have hput := @Node.get?_put tree dir name entries (.file []) hentries
 split at h
 next hnone =>
  split at h
  next hcreate =>
   subst hcreate
   obtain ⟨rfl, rfl⟩ := h
   exact ⟨rfl, hreal, by rw [hnone]; simp, fun he => absurd rfl he, fun he => by simp at he,
    fun _ => hput⟩
  · simp at h
 · simp at h
 next found hfound =>
  split at h
  · simp at h
  next hread =>
   obtain ⟨rfl, rfl⟩ := h
   exact ⟨rfl, hreal, by rw [hfound]; simp, fun _ => ⟨rfl, by rw [hfound]; simp⟩,
    fun _ => ⟨found, hfound⟩, fun he => absurd he hread⟩
 next content hfound =>
  cases access with
  | directory => simp at h
  | read =>
   obtain ⟨rfl, rfl⟩ := h
   exact ⟨rfl, hreal, by rw [hfound]; simp, fun _ => ⟨rfl, by rw [hfound]; simp⟩,
    fun he => by simp at he, fun he => by simp at he⟩
  | create =>
   obtain ⟨rfl, rfl⟩ := h
   exact ⟨rfl, hreal, by rw [hfound]; simp, fun he => absurd rfl he, fun he => by simp at he,
    fun _ => hput⟩

theorem makeDirAt_spec {tree' : Node} {name : Name}
 (hdir : ∃ entries, tree.get? dir = some (.dir entries))
 (h : makeDirAt tree dir name = .ok tree') :
 (∃ entries, tree'.get? dir = some (.dir entries))
  ∧ ∀ other : List Name, ¬ other <+: dir ++ [name] → tree'.get? other = tree.get? other := by
 obtain ⟨entries, hentries⟩ := hdir
 unfold makeDirAt at h
 split at h
 · simp at h
 split at h
 next hnone =>
  cases h
  obtain ⟨hthere, hothers⟩ := @Node.get?_put tree dir name entries (.dir []) hentries
  refine ⟨Node.get?_dir (by rw [hthere]; simp), fun other hother => ?_⟩
  by_cases hbelow : dir ++ [name] <+: other
  · -- below the new directory there is nothing, as before
    obtain ⟨rest, rfl⟩ := hbelow
    cases rest with
    | nil => exact absurd (by simp) hother
    | cons next rest =>
     rw [Node.get?_append, hthere, Node.get?_append, hnone]
     rfl
  · exact hothers other hbelow fun habove => hother (habove.trans (List.prefix_append _ _))
 · cases h
   exact ⟨⟨entries, hentries⟩, fun _ _ => rfl⟩

/-- **A walk goes through real directories**, and makes directories only on its path. -/
theorem walk_spec {tree tree' : Node} {dir path : List Name} {create : Bool} {names : List Name}
 (hdir : ∃ entries, tree.get? dir = some (.dir entries))
 (h : walk tree dir create names = .ok (tree', path)) :
 path = dir ++ names ∧ (∃ entries, tree'.get? path = some (.dir entries))
  ∧ (create = false → tree' = tree)
  ∧ ∀ other : List Name, ¬ other <+: path → tree'.get? other = tree.get? other := by
 induction names generalizing tree dir with
 | nil =>
  injection h with h
  injection h with h1 h2
  subst h1 h2
  exact ⟨(List.append_nil dir).symm, hdir, fun _ => rfl, fun _ _ => rfl⟩
 | cons name names ih =>
  obtain ⟨tree1, hmade, h⟩ := Except.bind_ok h
  obtain ⟨⟨tree2, dir2⟩, hopen, hrest⟩ := Except.bind_ok h
  obtain ⟨hdir1, hsame1⟩ : (∃ entries, tree1.get? dir = some (.dir entries))
   ∧ (create = false → tree1 = tree) ∧ ∀ other : List Name, ¬ other <+: dir ++ [name] →
    tree1.get? other = tree.get? other := by
   cases create with
   | true =>
    obtain ⟨hdir1, hothers⟩ := makeDirAt_spec hdir hmade
    exact ⟨hdir1, fun he => by simp at he, hothers⟩
   | false =>
    cases hmade
    exact ⟨hdir, fun _ => rfl, fun _ _ => rfl⟩
  obtain ⟨rfl, -, -, hsame2, hnext, -⟩ := openAt_spec hdir1 hopen
  obtain ⟨rfl, -⟩ := hsame2 (by simp)
  obtain ⟨rfl, hfound, hsame, hothers⟩ := ih (hnext rfl) hrest
  refine ⟨by simp, hfound, fun he => (hsame he).trans (hsame1.1 he), fun other hother => ?_⟩
  rw [hothers other hother, hsame1.2 other fun hp => hother (hp.trans (List.prefix_append _ _))]

theorem openRoot_spec {root : Path} (hroot : ∃ entries, tree = .dir entries)
 (h : openRoot tree root = .ok dir) :
 root.absolute = true ∧ normalNames root.components = some dir
  ∧ ∃ entries, tree.get? dir = some (.dir entries) := by
 obtain ⟨entries, rfl⟩ := hroot
 unfold openRoot at h
 split at h
 · simp at h
 next names hnames =>
  split at h
  · simp at h
  next habsolute =>
   obtain ⟨⟨tree', dir'⟩, hwalk, h⟩ := Except.bind_ok h
   cases h
   obtain ⟨hpath, hfound, hsame, -⟩ := @walk_spec _ _ [] _ _ _ ⟨entries, rfl⟩ hwalk
   rw [hsame rfl] at hfound
   rw [List.nil_append] at hpath
   exact ⟨by simpa using habsolute, by rw [hnames, hpath], hfound⟩

end Bake.Permissions
