import Bake.Permissions.Beneath
import Bake.Permissions.SandboxPolicy

/-!
# The containment of file mutations

`containment_guard`: under `workspace-write` the file a write lands on, every link in its path
followed, must lie under a writable root when the guard runs. The call then writes through a
target that reaches that file from the root without following links, whatever has become of
the tree meanwhile.
-/

open List

namespace Bake.Permissions

open FileTree BeneathTarget SandboxPolicy

def maxLinkHops : Nat := 40

/-- `push_components`: the names and `..` of a path, without `.`. -/
def pushComponents (path : Path) : List Component := path.components.filter fun c => c ≠ .curDir

/-- The walk of `write_target` up to the next link; `jump` goes on behind it. Once a component
is missing nothing below it exists, so the rest is appended without looking until a `..`
climbs back out. -/
def followNames (fs : FileSystem) (jump : List Name → List Component → Option (List Name))
 (missing : Bool) (resolved : List Name) : List Component → Option (List Name)
 | [] => some resolved
 | .curDir :: pending => followNames fs jump missing resolved pending
 | .parentDir :: pending => followNames fs jump false resolved.dropLast pending
 | .normal name :: pending =>
  if missing then followNames fs jump missing (resolved ++ [name]) pending
  else
   match fs.symlinkMetadata (resolved ++ [name]) with
   | .ok (.link target) =>
    jump (if target.absolute then [] else resolved) (pushComponents target ++ pending)
   | .error .noEntry => followNames fs jump true (resolved ++ [name]) pending
   | _ => followNames fs jump missing (resolved ++ [name]) pending

/-- The walk of `write_target`, while `hops` links may still be followed. A link that is
followed exists, so nothing is missing behind it. -/
def followLinks (fs : FileSystem) : Nat → List Name → List Component → Option (List Name)
 | 0 => followNames fs (fun _ _ => none) false
 | hops + 1 => followNames fs (followLinks fs hops) false

/-- `write_target`: the file a write to a path lands on. -/
def writeTarget (fs : FileSystem) (path : Path) : Option (List Name) :=
 if !path.absolute && path.components.isEmpty then none
 else
  followLinks fs maxLinkHops []
   ((if path.absolute then [] else fs.currentDir.map .normal) ++ pushComponents path)

def fileWritableRoots (policy : SandboxPolicy) (fs : FileSystem) : List Path :=
 if policy.mode ≠ .workspaceWrite then []
 else
  -- The OS temporary directory stands in for the workspace.
  let others := ((new .workspaceWrite fs.tempDir).withExtraWritableRoots
   policy.extraWritableRoots).writableRoots fs
  pushNew [policy.workspaceRoot] others

def fsDenialText (policy : SandboxPolicy) (escalationHint : Bool) : String :=
 let marker := sandboxDenialMarker policy.mode
 if escalationHint then marker ++ "\n" ++ escalationHintMarker "operation" else marker

inductive MutationTarget where
 /-- `PathTarget`: the path itself, links followed. -/
 | path (path : Path)
 | beneath (target : BeneathTarget)
 deriving DecidableEq

/-- The roots of `containment_guard`, the first one the target is beneath. -/
def beneathRoot (target : Path) (denial : String) : List Path → Option BeneathTarget
 | [] => none
 | root :: roots =>
  if isPathUnder target root then
   match new root target denial with
   | some beneath => some beneath
   | none => beneathRoot target denial roots
  else beneathRoot target denial roots

def containmentGuard (fs : FileSystem) (policy : SandboxPolicy) (escalationHint : Bool)
 (path : Path) : Except String MutationTarget :=
 let denial := fsDenialText policy escalationHint
 match policy.mode with
 | .dangerFullAccess => .ok (.path path)
 | .readOnly => .error denial
 | .workspaceWrite =>
  match writeTarget fs path with
  | none => .error denial
  | some target =>
   match beneathRoot (canonicalPath fs (absolutePath target)) denial
    (fileWritableRoots policy fs) with
   | none => .error denial
   | some beneath => .ok (.beneath beneath)

/-! ## What the guard checks -/

theorem canonicalPath_absolute (fs : FileSystem) (names : List Name) :
 ∃ resolved, canonicalPath fs (absolutePath names) = absolutePath resolved := by
 have hcanonical : ∀ path resolved, fs.canonicalize path = .ok resolved →
  ∃ names, resolved = absolutePath names := by
  intro path resolved h
  unfold FileSystem.canonicalize at h
  split at h
  · simp at h
  · obtain ⟨found, -, h⟩ := Except.bind_ok h
    injection h with h
    exact ⟨found, h.symm⟩
 have hpre : ∀ length missing, ∃ resolved,
  canonicalPrefix fs (absolutePath names) missing length = absolutePath resolved := by
  intro length
  induction length with
  | zero => exact fun missing => ⟨names, rfl⟩
  | succ length ih =>
   intro missing
   unfold canonicalPrefix
   dsimp only
   split
   · exact ⟨names, rfl⟩
   next name hname =>
    split
    next resolved hresolved =>
     obtain ⟨found, rfl⟩ := hcanonical _ _ hresolved
     exact ⟨found ++ name :: missing, by simp [pushNames, absolutePath]⟩
    · exact ih _
 unfold canonicalPath
 split
 next resolved hresolved =>
  exact hcanonical _ _ hresolved
 · exact hpre _ _

theorem restNames_normal (names : List Name) : restNames (names.map .normal) = some names := by
 induction names with
 | nil => rfl
 | cons name names ih => rw [map_cons, restNames, ih]; rfl

theorem normalNames_normal (names : List Name) : normalNames (names.map .normal) = some names := by
 induction names with
 | nil => rfl
 | cons name names ih => rw [map_cons, normalNames, ih]; rfl

variable {beneath : BeneathTarget}

/-- A target beneath a root is the root's names and the ones below it. -/
theorem BeneathTarget.new_spec {root : Path} {target : List Name} {denial : String} (h : new root (absolutePath target) denial = some beneath) :
 beneath.root = root ∧
  ∃ names, root = absolutePath names ∧ target = names ++ beneath.components := by
 unfold new stripPrefix startsWith at h
 split at h
 next hstarts =>
  rw [Bool.and_eq_true, beq_iff_eq, isPrefixOf_iff_prefix] at hstarts
  obtain ⟨habsolute, rest, hrest⟩ := hstarts
  obtain ⟨names, below, rfl, hnames, hbelow⟩ := map_eq_append_iff.mp
   (show target.map Component.normal = root.components ++ rest from hrest.symm)
  have hroot : root = absolutePath names := by
   obtain ⟨absolute, components⟩ := root
   obtain rfl : true = absolute := habsolute
   obtain rfl : names.map .normal = components := hnames
   rfl
  have hdrop : (absolutePath (names ++ below)).components.drop root.components.length
   = below.map .normal := by
   rw [hroot]
   simp [absolutePath]
  rw [hdrop] at h
  simp only [Option.bind_eq_bind, Option.bind_some, restNames_normal] at h
  cases h
  exact ⟨rfl, names, hroot, rfl⟩
 · simp at h

theorem beneathRoot_spec {target : List Name} {denial : String} {roots : List Path} (h : beneathRoot (absolutePath target) denial roots = some beneath) :
 ∃ names, absolutePath names ∈ roots ∧ beneath.root = absolutePath names
  ∧ target = names ++ beneath.components := by
 induction roots with
 | nil => simp [beneathRoot] at h
 | cons root roots ih =>
  have hlater : beneathRoot (absolutePath target) denial roots = some beneath →
   ∃ names, absolutePath names ∈ root :: roots ∧ beneath.root = absolutePath names
    ∧ target = names ++ beneath.components := fun h' => by
   obtain ⟨names, hmem, hrest⟩ := ih h'
   exact ⟨names, mem_cons_of_mem _ hmem, hrest⟩
  unfold beneathRoot at h
  split at h
  · split at h
    next found hfound =>
     cases h
     obtain ⟨hroot, names, rfl, htarget⟩ := new_spec hfound
     exact ⟨names, mem_cons_self .., hroot, htarget⟩
    · exact hlater h
  · exact hlater h

/-! ## What the target opens -/

/-- **An open through a checked target** opens the checked name path, through real
directories only. -/
theorem openBeneath_spec {entries : List (Name × Node)} {tree' : Node} {names path : List Name}
 {target : BeneathTarget} {access : Access} (hroot : target.root = absolutePath names)
 (h : openBeneath (.dir entries) target.root target.split.1 target.split.2 access
  = .ok (tree', path)) :
 path = names ++ target.components ∧ RealPath (.dir entries) path
  ∧ (∀ link, (Node.dir entries).get? path ≠ some (.link link))
  ∧ (access = .read → tree' = .dir entries ∧ (Node.dir entries).get? path ≠ none)
  ∧ (access = .create → tree'.get? path = some (.file [])
   ∧ ∀ other : List Name, ¬ path <+: other → ¬ other <+: path →
    tree'.get? other = (Node.dir entries).get? other) := by
 obtain ⟨dir, hdir, h⟩ := Except.bind_ok h
 obtain ⟨⟨tree1, parent⟩, hwalk, h⟩ := Except.bind_ok h
 obtain ⟨-, hnames, hfound⟩ := openRoot_spec ⟨entries, rfl⟩ hdir
 rw [hroot, absolutePath, normalNames_normal] at hnames
 cases hnames
 obtain ⟨rfl, hparent, hsame, -⟩ := walk_spec hfound hwalk
 obtain rfl := hsame rfl
 dsimp only at h
 split at h
 next name hname =>
  obtain ⟨rfl, hreal, hlink, hread, -, hcreate⟩ := openAt_spec hparent h
  have hcomponents : target.components = target.split.1 ++ [name] := by
   have := dropLast_append_getLast? name (show name ∈ target.components.getLast? from hname)
   exact this.symm
  refine ⟨by rw [hcomponents]; simp, hreal, hlink, fun he => hread (by rw [he]; simp),
   fun he => ⟨(hcreate he).1, fun other hbelow habove => (hcreate he).2 other hbelow
    fun hp => habove (hp.trans (prefix_append _ _))⟩⟩
 next hname =>
  have hempty : target.components = [] := getLast?_eq_none_iff.mp hname
  unfold openSelf at h
  split at h
  · simp at h
  next hread =>
   injection h with h
   cases h
   obtain ⟨found, hparent⟩ := hparent
   have hsplit : target.split.1 = [] := by rw [split, hempty]; rfl
   rw [hsplit, append_nil] at hparent ⊢
   refine ⟨by rw [hempty, append_nil], .of_get? (by rw [hparent]; simp),
    by rw [hparent]; simp, fun _ => ⟨rfl, by rw [hparent]; simp⟩, fun he => absurd he hread⟩

/-- **File mutations stay inside the writable roots.** Under `read-only` the guard gives no
target. Under `workspace-write` a target stands under one of the policy's roots, at the name
path that was checked; and whatever tree it is used on later, what it creates or reads is
the entry at that name path, reached through real directories only and no link itself, and
nothing else of the tree is changed but the directories above it: those that
`create_parent_dirs` makes are on that path. -/
theorem containmentGuard_safe (fs : FileSystem) (policy : SandboxPolicy) (hint : Bool)
 (path : Path) (target : MutationTarget)
 (h : containmentGuard fs policy hint path = .ok target) :
 policy.mode ≠ .readOnly
 ∧ (policy.mode = .workspaceWrite → ∃ beneath names written, target = .beneath beneath
  ∧ absolutePath names ∈ fileWritableRoots policy fs
  ∧ writeTarget fs path = some written
  ∧ canonicalPath fs (absolutePath written) = absolutePath (names ++ beneath.components)
  ∧ ∀ entries, (∀ tree opened, beneath.create (.dir entries) = .ok (tree, opened) →
    opened = names ++ beneath.components ∧ RealPath (.dir entries) opened
     ∧ (∀ link, (Node.dir entries).get? opened ≠ some (.link link))
     ∧ tree.get? opened = some (.file [])
     ∧ ∀ other : List Name, ¬ opened <+: other → ¬ other <+: opened →
      tree.get? other = (Node.dir entries).get? other)
   ∧ (∀ opened, beneath.openRead (.dir entries) = .ok opened →
    opened = names ++ beneath.components ∧ RealPath (.dir entries) opened
     ∧ (∀ link, (Node.dir entries).get? opened ≠ some (.link link))
     ∧ (Node.dir entries).get? opened ≠ none)
   ∧ ∀ tree, beneath.createParentDirs (.dir entries) = .ok tree →
    ∀ other : List Name, ¬ other <+: names ++ beneath.components →
     tree.get? other = (Node.dir entries).get? other) := by
 unfold containmentGuard at h
 dsimp only at h
 split at h
 next hmode =>
  exact ⟨by rw [hmode]; simp, fun he => absurd (hmode.symm.trans he) (by simp)⟩
 · simp at h
 next hmode =>
  refine ⟨by rw [hmode]; simp, fun _ => ?_⟩
  split at h
  · simp at h
  next written hwritten =>
   split at h
   · simp at h
   next beneath hbeneath =>
    injection h with h
    obtain ⟨checked, hchecked⟩ := canonicalPath_absolute fs written
    rw [hchecked] at hbeneath
    obtain ⟨names, hmem, hroot, htarget⟩ := beneathRoot_spec hbeneath
    refine ⟨beneath, names, written, h.symm, hmem, hwritten, by rw [hchecked, htarget],
     fun entries => ⟨fun tree opened hopen => ?_, fun opened hopen => ?_, fun tree hmade => ?_⟩⟩
    · obtain ⟨hpath, hreal, hlink, -, hcreate⟩ := openBeneath_spec hroot hopen
      exact ⟨hpath, hreal, hlink, hcreate rfl⟩
    · obtain ⟨⟨tree, opened'⟩, hopened, he⟩ := Except.bind_ok hopen
      cases he
      obtain ⟨hpath, hreal, hlink, hread, -⟩ := openBeneath_spec hroot hopened
      exact ⟨hpath, hreal, hlink, (hread rfl).2⟩
    · obtain ⟨dir, hdir, hmade⟩ := Except.bind_ok hmade
      obtain ⟨⟨tree', parent⟩, hwalk, he⟩ := Except.bind_ok hmade
      cases he
      obtain ⟨-, hnames, hfound⟩ := openRoot_spec ⟨entries, rfl⟩ hdir
      rw [hroot, absolutePath, normalNames_normal] at hnames
      cases hnames
      obtain ⟨rfl, -, -, hothers⟩ := walk_spec hfound hwalk
      intro other hother
      refine hothers other fun hp => hother (hp.trans ?_)
      rw [prefix_append_right_inj]
      exact dropLast_prefix _

/-- A workspace `/w` with a link `/w/l` to its directory `/w/d`: a write to `/w/l/f` goes
through a target for `/w/d/f`. -/
theorem containmentGuard_safe_link :
 let d : Name := ⟨"d", by decide⟩
 let w : Name := ⟨"w", by decide⟩
 let l : Name := ⟨"l", by decide⟩
 let f : Name := ⟨"f", by decide⟩
 let fs : FileSystem :=
  { entries := [(w, .dir [(d, .dir []),
     (l, .link { absolute := false, components := [.normal d] })])]
    currentDir := [], tempDir := absolutePath [⟨"tmp", by decide⟩] }
 let policy := new .workspaceWrite (absolutePath [w])
 let beneath : BeneathTarget :=
  { root := absolutePath [w], components := [d, f], denial := fsDenialText policy false }
 containmentGuard fs policy false (absolutePath [w, l, f]) = .ok (.beneath beneath)
  ∧ policy.mode ≠ .readOnly := by
 have h : containmentGuard
  { entries := [(⟨"w", by decide⟩, .dir [(⟨"d", by decide⟩, .dir []), (⟨"l", by decide⟩,
     .link { absolute := false, components := [.normal ⟨"d", by decide⟩] })])]
    currentDir := [], tempDir := absolutePath [⟨"tmp", by decide⟩] }
  (new .workspaceWrite (absolutePath [⟨"w", by decide⟩])) false
  (absolutePath [⟨"w", by decide⟩, ⟨"l", by decide⟩, ⟨"f", by decide⟩])
  = .ok (.beneath
   { root := absolutePath [⟨"w", by decide⟩]
     components := [⟨"d", by decide⟩, ⟨"f", by decide⟩]
     denial := fsDenialText (new .workspaceWrite
      (absolutePath [⟨"w", by decide⟩])) false }) := by
  decide +kernel
 exact ⟨h, (containmentGuard_safe _ _ _ _ _ h).1⟩

end Bake.Permissions
