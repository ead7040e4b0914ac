import Mathlib.Data.List.Basic

/-!
# File trees

A finite tree of directories, files and symbolic links, and how a path is looked up in it:
`get?` by names alone, which no link ever resolves, and `namei` as a kernel does it, with the
links followed. What is put at a name path leaves every other one as it was: `get?_put`.
-/

namespace FileTree

open List

/-- A name of an entry: not empty, neither `.` nor `..`, and without a slash. -/
def Name : Type :=
 { text : String // text ≠ "" ∧ text ≠ "." ∧ text ≠ ".." ∧ '/' ∉ text.toList }

instance : DecidableEq Name := inferInstanceAs (DecidableEq (Subtype _))

/-- A step of a path. -/
inductive Component where
 | curDir
 | parentDir
 | normal (name : Name)
 deriving DecidableEq

/-- A path by its components, from the root or from a directory. -/
structure Path where
 absolute : Bool
 components : List Component
 deriving DecidableEq

inductive Node where
 | dir (entries : List (Name × Node))
 | file (content : List UInt8)
 | link (target : Path)

namespace Node

def entryNamed (entries : List (Name × Node)) (name : Name) : Option Node := entries.lookup name

/-- The entry at a path of names, each of them in a real directory. -/
def get? : Node → List Name → Option Node
 | node, [] => some node
 | .dir entries, name :: rest => (entryNamed entries name).bind fun node => node.get? rest
 | .file _, _ :: _ => none
 | .link _, _ :: _ => none

def putEntry (name : Name) (node : Node) : List (Name × Node) → List (Name × Node)
 | [] => [(name, node)]
 | (n, old) :: rest => if n = name then (n, node) :: rest else (n, old) :: putEntry name node rest

/-- The tree with an entry put at a path of names; unchanged where its directory is none. -/
def put : Node → List Name → Node → Node
 | _, [], new => new
 | .dir entries, [name], new => .dir (putEntry name new entries)
 | .dir entries, name :: next :: rest, new =>
  match entryNamed entries name with
  | some node => .dir (putEntry name (node.put (next :: rest) new) entries)
  | none => .dir entries
 | node, _ :: _, _ => node

theorem entryNamed_cons (name : Name) (node : Node) (entries : List (Name × Node)) (other : Name) :
 entryNamed ((name, node) :: entries) other
  = if other = name then some node else entryNamed entries other := by
 unfold entryNamed
 rw [lookup_cons]
 by_cases h : other = name
 · rw [if_pos h, h, beq_self_eq_true]
 · rw [if_neg h, beq_false_of_ne h]

theorem entryNamed_putEntry (name : Name) (node : Node) (entries : List (Name × Node))
 (other : Name) :
 entryNamed (putEntry name node entries) other
  = if other = name then some node else entryNamed entries other := by
 induction entries with
 | nil => rw [putEntry, entryNamed_cons]
 | cons first entries ih =>
  obtain ⟨n, old⟩ := first
  rw [putEntry]
  split
  next hn =>
   rw [entryNamed_cons, entryNamed_cons, hn]
   split <;> rfl
  next hn =>
   rw [entryNamed_cons, entryNamed_cons, ih]
   by_cases h : other = n
   · rw [if_pos h, if_pos h, if_neg (by rw [h]; exact hn)]
   · rw [if_neg h, if_neg h]

theorem get?_append (node : Node) (a b : List Name) :
 node.get? (a ++ b) = (node.get? a).bind fun node => node.get? b := by
 induction a generalizing node with
 | nil => rfl
 | cons name a ih =>
  cases node with
  | dir entries =>
   simp only [cons_append, get?]
   cases entryNamed entries name with
   | none => rfl
   | some node => exact ih node
  | file content | link target => rfl

theorem get?_dir {node : Node} {a : List Name} {name : Name} {rest : List Name}
 (h : node.get? (a ++ name :: rest) ≠ none) :
 ∃ entries, node.get? a = some (.dir entries) := by
 rw [get?_append] at h
 cases ha : node.get? a with
 | none => exact absurd (by rw [ha]; rfl) h
 | some found =>
  cases found with
  | dir entries => exact ⟨entries, rfl⟩
  | file content | link target => exact absurd (by rw [ha]; rfl) h

/-- **What is put at a name path is there**, and what stands at a path that does not begin
with it, and is not above it, is as it was. -/
theorem get?_put {node : Node} {dir : List Name} {name : Name}
 {entries : List (Name × Node)} (new : Node) (hdir : node.get? dir = some (.dir entries)) :
 (node.put (dir ++ [name]) new).get? (dir ++ [name]) = some new
  ∧ ∀ other : List Name, ¬ (dir ++ [name]) <+: other → ¬ other <+: dir →
   (node.put (dir ++ [name]) new).get? other = node.get? other := by
 induction dir generalizing node with
 | nil =>
  obtain rfl : node = .dir entries := by simpa [get?] using hdir
  refine ⟨by simp [put, get?, entryNamed_putEntry], fun other hnot habove => ?_⟩
  cases other with
  | nil => exact absurd nil_prefix habove
  | cons first rest =>
   have hne : first ≠ name := fun he => hnot (by rw [he]; exact ⟨rest, rfl⟩)
   simp only [nil_append, put, get?, entryNamed_putEntry, if_neg hne]
 | cons first dir ih =>
  cases node with
  | file content | link target => simp [get?] at hdir
  | dir above =>
   simp only [get?] at hdir
   cases hfirst : entryNamed above first with
   | none => exact absurd hdir (by rw [hfirst]; simp)
   | some child =>
    rw [hfirst, Option.bind_some] at hdir
    obtain ⟨hthere, hothers⟩ := ih hdir
    have hput : (Node.dir above).put (first :: dir ++ [name]) new
     = .dir (putEntry first (child.put (dir ++ [name]) new) above) := by
     cases hrest : dir ++ [name] with
     | nil => simp at hrest
     | cons next rest => rw [cons_append, hrest, put, hfirst]
    rw [hput]
    refine ⟨?_, fun other hnot habove => ?_⟩
    · rw [cons_append, get?, entryNamed_putEntry, if_pos rfl, Option.bind_some, hthere]
    cases other with
    | nil => exact absurd nil_prefix habove
    | cons second rest =>
     rw [get?, get?, entryNamed_putEntry]
     by_cases he : second = first
     · subst he
       rw [if_pos rfl, hfirst, Option.bind_some, Option.bind_some]
       refine hothers rest (fun hp => hnot ?_) (fun hp => habove ?_)
       · rw [cons_append]
         exact cons_prefix_cons.mpr ⟨rfl, hp⟩
       · exact cons_prefix_cons.mpr ⟨rfl, hp⟩
     · rw [if_neg he]

end Node

/-- Why a path does not lead to an entry. -/
inductive Errno where
 | noEntry
 | notDirectory
 | loop
 deriving DecidableEq

/-- The links a kernel follows for one path. -/
def maxLinks : Nat := 40

/-- The name path of what a path leads to from a directory, up to the next link that is
followed, the last one too or not; `jump` goes on behind it. -/
def nameiStep (root : Node) (follow : Bool)
 (jump : List Name → List Component → Except Errno (List Name)) (current : List Name) :
 List Component → Except Errno (List Name)
 | [] => .ok current
 | .curDir :: rest => nameiStep root follow jump current rest
 | .parentDir :: rest => nameiStep root follow jump current.dropLast rest
 | .normal name :: rest =>
  match root.get? (current ++ [name]) with
  | none => .error .noEntry
  | some (.link target) =>
   if rest.isEmpty && !follow then .ok (current ++ [name])
   else jump (if target.absolute then [] else current) (target.components ++ rest)
  | some (.file _) => if rest.isEmpty then .ok (current ++ [name]) else .error .notDirectory
  | some (.dir _) => nameiStep root follow jump (current ++ [name]) rest

/-- The name path of what a path leads to, at most `hops` links followed. -/
def namei (root : Node) (follow : Bool) : Nat → List Name → List Component →
 Except Errno (List Name)
 | 0 => nameiStep root follow fun _ _ => .error .loop
 | hops + 1 => nameiStep root follow (namei root follow hops)

/-- The name path of where a file is made at a path, up to the next link, which is followed
wherever it stands: the last entry need not be there, and every directory above it is. -/
def creatStep (root : Node) (jump : List Name → List Component → Except Errno (List Name))
 (current : List Name) : List Component → Except Errno (List Name)
 | [] => .ok current
 | .curDir :: rest => creatStep root jump current rest
 | .parentDir :: rest => creatStep root jump current.dropLast rest
 | .normal name :: rest =>
  match root.get? (current ++ [name]) with
  | none => if rest.isEmpty then .ok (current ++ [name]) else .error .noEntry
  | some (.link target) =>
   jump (if target.absolute then [] else current) (target.components ++ rest)
  | some (.file _) => if rest.isEmpty then .ok (current ++ [name]) else .error .notDirectory
  | some (.dir _) => creatStep root jump (current ++ [name]) rest

/-- The name path of where a file is made at a path, at most `hops` links followed. -/
def creat (root : Node) : Nat → List Name → List Component → Except Errno (List Name)
 | 0 => creatStep root fun _ _ => .error .loop
 | hops + 1 => creatStep root (creat root hops)

/-! ## Paths without links -/

/-- No entry on the path is a link, the last one neither. -/
def LinkFree (root : Node) (names : List Name) : Prop :=
 ∀ q, q <+: names → ∀ target, root.get? q ≠ some (.link target)

variable {root : Node} {names : List Name}

theorem LinkFree.of_prefix {q : List Name} (h : LinkFree root names) (hq : q <+: names) :
 LinkFree root q := fun r hr => h r (hr.trans hq)

theorem LinkFree.snoc {name : Name} (h : LinkFree root names)
 (hlast : ∀ target, root.get? (names ++ [name]) ≠ some (.link target)) :
 LinkFree root (names ++ [name]) := by
 intro q hq
 rcases prefix_concat_iff.mp hq with rfl | hq
 · exact hlast
 · exact h q hq

/-- Names that pass no link lead to the entry at their name path, a link there too, or
nowhere. -/
theorem nameiStep_names {jump : List Name → List Component → Except Errno (List Name)}
 {current names : List Name} (hcurrent : root.get? current ≠ none)
 (hfree : ∀ q, q <+: names → q ≠ names → ∀ target, root.get? (current ++ q) ≠ some (.link target)) :
 (root.get? (current ++ names) ≠ none
  ∧ nameiStep root false jump current (names.map .normal) = .ok (current ++ names))
 ∨ (root.get? (current ++ names) = none
  ∧ ∃ e, nameiStep root false jump current (names.map .normal) = .error e) := by
 induction names generalizing current with
 | nil => exact .inl ⟨by rwa [append_nil], by rw [append_nil]; rfl⟩
 | cons name rest ih =>
  have hsplit : current ++ name :: rest = (current ++ [name]) ++ rest := by simp
  have hbelow : ∀ node, root.get? (current ++ [name]) = some node →
   root.get? (current ++ name :: rest) = node.get? rest := fun node hnode => by
   rw [hsplit, Node.get?_append, hnode, Option.bind_some]
  rw [map_cons, nameiStep]
  cases hnode : root.get? (current ++ [name]) with
  | none =>
   exact .inr ⟨by rw [hsplit, Node.get?_append, hnode]; rfl, _, rfl⟩
  | some node =>
   cases rest with
   | nil => cases node <;> exact .inl ⟨by rw [hnode]; simp, rfl⟩
   | cons next rest =>
    cases node with
    | dir entries =>
     rw [hsplit]
     refine ih (by rw [hnode]; simp) fun q hq hne target => ?_
     rw [append_assoc]
     exact hfree (name :: q) (cons_prefix_cons.mpr ⟨rfl, hq⟩) (by simpa using hne) target
    | file content => exact .inr ⟨by rw [hbelow _ hnode]; rfl, _, rfl⟩
    | link target =>
     exact absurd hnode (hfree [name] (by simp) (by simp) target)

end FileTree
