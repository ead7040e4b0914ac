import Bake.Permissions.Containment

/-!
# Where a write lands

`write_target` against the system's own resolution of a path that a file is made at. The walk
keeps to a path without links, so what it looks up is the entry itself, and step by step it
is where the system is; it goes on where the system fails.
-/

open List

namespace Bake.Permissions

open FileTree

variable {fs : FileSystem} {resolved p : List Name} {name : Name}

theorem symlinkMetadata_snoc (h : LinkFree fs.root resolved) (name : Name) :
 (∃ node, fs.root.get? (resolved ++ [name]) = some node
  ∧ fs.symlinkMetadata (resolved ++ [name]) = .ok node)
 ∨ (fs.root.get? (resolved ++ [name]) = none
  ∧ ∃ e, fs.symlinkMetadata (resolved ++ [name]) = .error e) := by
 have hnames := @nameiStep_names fs.root (namei fs.root false 39) [] (resolved ++ [name])
  (by simp [Node.get?]) fun q hq hne => h q (( prefix_concat_iff.mp hq).resolve_left hne)
 rw [nil_append] at hnames
 have heq : ∀ path, nameiStep fs.root false (namei fs.root false 39) [] path
  = namei fs.root false maxLinks [] path := fun _ => rfl
 rw [heq] at hnames
 rcases hnames with ⟨hthere, hok⟩ | ⟨hnone, e, he⟩
 · obtain ⟨node, hnode⟩ := Option.ne_none_iff_exists'.mp hthere
   refine .inl ⟨node, hnode, ?_⟩
   rw [FileSystem.symlinkMetadata, Except.ok_bind _ hok, hnode]
 · refine .inr ⟨hnone, e, ?_⟩
   rw [FileSystem.symlinkMetadata, he]
   rfl

/-! ## No links are left -/

variable {pending : List Component}

/-- Up to the next link the walk keeps to a path without links, and below a missing entry
nothing is there. -/
theorem followNames_linkFree {jump : List Name → List Component → Option (List Name)}
 (hjump : ∀ {resolved pending p}, LinkFree fs.root resolved → jump resolved pending = some p →
  LinkFree fs.root p) {missing : Bool}
 (hfree : LinkFree fs.root resolved) (hmissing : missing = true → fs.root.get? resolved = none)
 (h : followNames fs jump missing resolved pending = some p) : LinkFree fs.root p := by
 induction pending generalizing missing resolved with
 | nil => cases h; exact hfree
 | cons component pending ih =>
  cases component with
  | curDir => exact ih hfree hmissing h
  | parentDir => exact ih (hfree.of_prefix ( dropLast_prefix _)) (by simp) h
  | normal name =>
   rw [followNames] at h
   split at h
   next hgone =>
    have hnone : fs.root.get? (resolved ++ [name]) = none := by
     rw [Node.get?_append, hmissing hgone]
     rfl
    exact ih (hfree.snoc (by simp [hnone])) (fun _ => hnone) h
   next hthere =>
    rcases symlinkMetadata_snoc hfree name with ⟨node, hnode, hmeta⟩ | ⟨hnone, e, hmeta⟩
    · rw [hmeta] at h
      cases node with
      | link target =>
       refine hjump ?_ h
       split
       · exact hfree.of_prefix ( nil_prefix ..)
       · exact hfree
      | _ => exact ih (hfree.snoc (by simp [hnode])) (fun he => absurd he hthere) h
    · rw [hmeta] at h
      have hsnoc : LinkFree fs.root (resolved ++ [name]) := hfree.snoc (by simp [hnone])
      cases e with
      | noEntry => exact ih hsnoc (fun _ => hnone) h
      | _ => exact ih hsnoc (fun he => absurd he hthere) h

theorem followLinks_linkFree {hops : Nat}
 (hfree : LinkFree fs.root resolved) (h : followLinks fs hops resolved pending = some p) :
 LinkFree fs.root p := by
 induction hops generalizing resolved pending p with
 | zero => exact followNames_linkFree (fun _ he => absurd he (by simp)) hfree (by simp) h
 | succ hops ih => exact followNames_linkFree (fun hf he => ih hf he) hfree (by simp) h

/-! ## Where the system is -/

/-- The walk without the system's `.` steps. -/
def steps (path : List Component) : List Component := path.filter (· ≠ .curDir)

variable {path : List Component}

theorem followNames_creat {jump : List Name → List Component → Except Errno (List Name)}
 {jump' : List Name → List Component → Option (List Name)}
 (hjump : ∀ {resolved path p}, LinkFree fs.root resolved → jump resolved path = .ok p →
  jump' resolved (steps path) = some p)
 (hfree : LinkFree fs.root resolved) (h : creatStep fs.root jump resolved path = .ok p) :
 followNames fs jump' false resolved (steps path) = some p := by
 induction path generalizing resolved with
 | nil => exact congrArg some (Except.ok.inj h)
 | cons component path ih =>
  cases component with
  | curDir => exact ih hfree h
  | parentDir => exact ih (hfree.of_prefix ( dropLast_prefix _)) h
  | normal name =>
   have hsteps : steps (.normal name :: path) = .normal name :: steps path := by simp [steps]
   rw [hsteps, followNames, if_neg (by simp)]
   rw [creatStep] at h
   -- at a file, or where nothing is, the system's path has to end
   have hlast : ∀ e : Errno, (if path.isEmpty then Except.ok (resolved ++ [name])
    else Except.error e) = .ok p → ∀ missing,
    followNames fs jump' missing (resolved ++ [name]) (steps path) = some p := by
    intro e hp missing
    split at hp
    next hempty =>
     rw [isEmpty_iff.mp hempty]
     exact congrArg some (Except.ok.inj hp)
    · simp at hp
   rcases symlinkMetadata_snoc hfree name with ⟨node, hnode, hmeta⟩ | ⟨hnone, e, hmeta⟩
   · rw [hnode] at h
     rw [hmeta]
     cases node with
     | link target =>
      have hstart : LinkFree fs.root (if target.absolute then [] else resolved) := by
       split
       · exact hfree.of_prefix ( nil_prefix ..)
       · exact hfree
      have := hjump hstart h
      rwa [steps, filter_append] at this
     | dir entries => exact ih (hfree.snoc (by simp [hnode])) h
     | file content => exact hlast _ h false
   · rw [hnone] at h
     rw [hmeta]
     cases e with
     | noEntry => exact hlast _ h true
     | _ => exact hlast _ h false

theorem followLinks_creat {hops : Nat} (hfree : LinkFree fs.root resolved)
 (h : creat fs.root hops resolved path = .ok p) :
  followLinks fs hops resolved (steps path) = some p := by
 induction hops generalizing resolved path p with
 | zero => exact followNames_creat (fun _ he => absurd he (by simp)) hfree h
 | succ hops ih => exact followNames_creat (fun hf he => ih hf he) hfree h

/-- **A write lands where the system would put it.** What the walk ends at is a path of
names, and none of the entries on it is a link; and where the system's own resolution of the
path gets anywhere, all links followed and every directory above the file there, the walk
ends at that place. -/
theorem write_target (fs : FileSystem) (components : List Component) :
 (∀ p, writeTarget fs { absolute := true, components } = some p →
  (∀ name ∈ p, name.val ≠ "." ∧ name.val ≠ "..") ∧ LinkFree fs.root p)
 ∧ ∀ p, creat fs.root maxLinks [] components = .ok p →
  writeTarget fs { absolute := true, components } = some p := by
 have hroot : LinkFree fs.root [] := fun q hq target h => by
  rw [prefix_nil.mp hq] at h
  simp [Node.get?, FileSystem.root] at h
 have hwalk : writeTarget fs { absolute := true, components }
  = followLinks fs maxLinkHops [] (steps components) := rfl
 rw [hwalk]
 exact ⟨fun p h => ⟨fun name _ => ⟨name.property.2.1, name.property.2.2.1⟩,
  followLinks_linkFree hroot h⟩, fun p h => followLinks_creat hroot h⟩

end Bake.Permissions
