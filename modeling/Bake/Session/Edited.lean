import Bake.Session.CompactionPairs

/-!
# Context edits behind a branch

Context edits added at the leaf name entries of the branch. They contribute no message,
move nothing and leave the settings as they were: the projection they leave is the one
there was, with what they say in place of the messages of the entries they name.
-/

open List
open OrdMap (get?)

namespace Bake.Session

open Bake.Json
open SessionManager (base baseMembers contextEdit editValue editableRole entries pushEntry)

/-- An entry that edits `target`. -/
structure Edits (target : String) (replacement : Value) (entry : SessionEntry) : Prop where
 type : entry.entryType = "context_edit"
 target : strMember entry.raw "targetId" = some target
 replacement : entry.get "replacement" = some replacement

def replacementValue (role : String) : Option EditContent → Value
 | some content => .object [("content", editValue role content)]
 | none => .null

/-- **A checked edit** names an entry of the branch that has the role edited. -/
theorem contextEdit_edits {m : SessionManager} {env : Env} {k : Nat} {targetId : String}
 {replacement : Option EditContent} {pair : String × JsonObject}
 (h : m.contextEdit env k targetId replacement = .ok pair) :
 m.branchEntries none ≠ [] ∧ ∃ target role, m.entry targetId = some target
  ∧ editableRole target = some role
  ∧ Edits targetId (replacementValue role replacement) (entryOf pair) := by
 unfold contextEdit at h
 split at h
 · simp at h
 next target ht =>
  split at h
  · simp at h
  next hbranch =>
   split at h
   · simp at h
   next role hrole =>
    injection h with h
    refine ⟨fun hnil => hbranch (by rw [hnil]; rfl), target, role, ht, hrole, ?_⟩
    subst h
    refine ⟨entryType_cons .., ?_, ?_⟩
    · simp [entryOf, base, baseMembers, strMember, OrdMap.get?_cons]
    · cases replacement <;>
       simp [entryOf, base, baseMembers, SessionEntry.get, OrdMap.get?_cons, replacementValue]

/-! ## The context -/

def ProjectedSessionEntry.bare (entry : SessionEntry) : ProjectedSessionEntry where
 sourceEntry := entry
 messages := []

variable {new path : List SessionEntry} {entry : SessionEntry} {replacement : Value}

theorem contextEntries_append (h : ∀ entry ∈ new, entry.entryType ≠ "compaction") :
 contextEntries (path ++ new) = contextEntries path ++ new := by
 have hnew : ∀ entry ∈ new.reverse, (!decide (entry.entryType = "compaction")) = true := by
  intro entry he
  simpa using h entry (mem_reverse.mp he)
 unfold contextEntries
 dsimp only
 rw [reverse_append, dropWhile_append_of_pos hnew, takeWhile_append_of_pos hnew]
 cases path.reverse.dropWhile fun entry => !decide (entry.entryType = "compaction") with
 | nil => rfl
 | cons compaction before => simp

theorem applySettings_edit (settings : String × Option ModelRef)
 (h : entry.entryType = "context_edit") : applySettings settings entry = settings := by
 simp [applySettings, h]

theorem contextSettings_append (h : ∀ entry ∈ new, entry.entryType = "context_edit") :
 contextSettings (path ++ new) = contextSettings path := by
 unfold contextSettings
 rw [foldl_append]
 generalize path.foldl applySettings ("off", none) = settings
 induction new with
 | nil => rfl
 | cons entry new ih =>
  rw [foldl_cons, applySettings_edit settings (h entry (mem_cons_self ..))]
  exact ih fun e he => h e (mem_cons_of_mem _ he)

theorem get?_contextEdits_append (a b : List SessionEntry) (id : String) :
 get? (contextEdits (a ++ b)) id = (get? (contextEdits b) id).or (get? (contextEdits a) id) := by
 induction b using List.reverseRecOn with
 | nil => simp [contextEdits]
 | append_singleton b entry ih =>
  rw [← append_assoc]
  unfold contextEdits at ih ⊢
  rw [foldl_concat, foldl_concat]
  split
  · split
    · rw [OrdMap.get?_insert, OrdMap.get?_insert, ih]
      split <;> rfl
    · exact ih
  · exact ih

theorem get?_contextEdits_cons {target : String} (h : Edits target replacement entry)
 (rest : List SessionEntry) (id : String) :
 get? (contextEdits (entry :: rest)) id
  = (get? (contextEdits rest) id).or (if target = id then some entry else none) := by
 rw [show entry :: rest = [entry] ++ rest from rfl, get?_contextEdits_append]
 congr 1
 simp [contextEdits, h.type, h.target, OrdMap.get?_insert]

theorem messages_bare (entries : List SessionEntry) :
 (entries.map ProjectedSessionEntry.bare).flatMap ProjectedSessionEntry.messages = [] := by
 refine flatMap_eq_nil_iff.mpr fun entry he => ?_
 obtain ⟨_, -, rfl⟩ := mem_map.mp he
 rfl

theorem projectAt_edit (edits : EntryIndex) (first : Bool) (h : entry.entryType = "context_edit") :
 projectAt edits first entry = .bare entry := by
 have hnone : sessionEntryToContextMessages entry = [] := by
  simp [sessionEntryToContextMessages, h]
 have hproject : projectEntry entry (get? edits entry.id) = [] := by
  unfold projectEntry
  dsimp only
  rw [hnone]
  split <;> rfl
 unfold projectAt
 rw [if_neg (by simp [h]), hproject]
 rfl

/-- **Edits behind a context** change what each entry contributes, and nothing else. -/
theorem projectContext_append {context : List SessionEntry} (hne : context ≠ [])
 (hnew : ∀ entry ∈ new, entry.entryType = "context_edit")
 {change : ProjectedSessionEntry → ProjectedSessionEntry}
 (hchange : ∀ first, ∀ entry ∈ context, projectAt (contextEdits (context ++ new)) first entry
  = change (projectAt (contextEdits context) first entry)) :
 projectContext (context ++ new) = (projectContext context).map change
  ++ new.map ProjectedSessionEntry.bare := by
 obtain ⟨first, rest, rfl⟩ := exists_cons_of_ne_nil hne
 have hmap : ∀ edits, new.map (projectAt edits false)
  = new.map ProjectedSessionEntry.bare := fun edits =>
  map_congr_left fun entry he => projectAt_edit edits false (hnew entry he)
 show projectAt _ true first :: (rest ++ new).map _ = _
 rw [map_append, hmap, ← cons_append, hchange true first (mem_cons_self ..)]
 congr 1
 show _ = change _ :: (rest.map _).map change
 rw [map_map]
 congr 1
 exact map_congr_left fun entry he => hchange false entry (mem_cons_of_mem _ he)

/-! ## The branch -/

namespace Indexed

variable {labels : Prop} {m : SessionManager}

theorem sessionPath_eq (h : Indexed labels m) (hne : m.branchEntries none ≠ []) :
 sessionPath m.entries (.ofLeaf m.index.leafId) (indexEntries m.entries)
  = m.branchEntries none := by
 obtain ⟨leaf, entry, hleaf, hnonempty, -, hget, hbranch⟩ := h.branchEntries_eq hne
 rw [hbranch, hleaf]
 simp only [LeafSelector.ofLeaf, sessionPath, hget, Option.filter, ne_eq, hnonempty,
  not_false_eq_true, decide_true, if_true, Option.some_or, pathToRoot]

/-- **Edits pushed at the leaf** are behind the path. -/
theorem sessionPath_pushAll {env : Env} {edits : List (String × Option EditContent)} :
 ∀ {m : SessionManager} {k : Nat} {pairs : List (String × JsonObject)}, Indexed labels m →
  SessionManager.Built env m k (edits.map fun edit => .contextEdit edit.1 edit.2) pairs →
  m.FreshDraws env k edits.length →
  sessionPath (m.pushAll pairs).entries (.ofLeaf (m.pushAll pairs).index.leafId)
   (indexEntries (m.pushAll pairs).entries)
   = sessionPath m.entries (.ofLeaf m.index.leafId) (indexEntries m.entries)
    ++ pairs.map entryOf := by
 induction edits with
 | nil =>
  intro m k pairs h hb hf
  cases hb
  simp [SessionManager.pushAll]
 | cons edit edits ih =>
  intro m k pairs h hb hf
  cases hb with
  | @cons _ _ _ _ pair pairs hentry hrest =>
   have hnext := SessionManager.groupEntry_ok hentry
   have hne := (contextEdit_edits hentry).1
   have hid : pair.1 = m.nextId env k := hnext.id
   have hnew : get? m.index.byId pair.1 = none := by
    rw [OrdMap.get?_eq_none, hid]
    exact SessionManager.nextId_fresh (hf.unused k (Nat.le_refl k) (by simp))
   have hpush : Indexed labels (m.pushEntry pair.1 pair.2) := h.push hnext.notLabel
   have hpath := @Indexed.sessionPath_pushEntry labels m h pair.1 pair.2 hnew hnext.parentId hne
   dsimp only at hpath
   have hall := ih hpush hrest (hf.push hid pair.2)
   rw [show m.pushAll (pair :: pairs) = (m.pushEntry pair.1 pair.2).pushAll pairs from rfl,
    hall, hpath, h.sessionPath_eq hne, append_assoc]
   rfl

end Indexed

/-! ## Omissions -/

/-- An entry, without what it contributes when it is one of `ids`. -/
def ProjectedSessionEntry.without (ids : List String) (entry : ProjectedSessionEntry) :
 ProjectedSessionEntry :=
 if entry.sourceEntry.id ∈ ids then { entry with messages := [] } else entry

@[simp] theorem ProjectedSessionEntry.without_sourceEntry (ids : List String)
 (entry : ProjectedSessionEntry) : (entry.without ids).sourceEntry = entry.sourceEntry := by
 unfold without
 split <;> rfl

theorem ProjectedSessionEntry.without_nil : ProjectedSessionEntry.without [] = id := by
 funext entry
 simp [without]

theorem ProjectedSessionEntry.without_without (a b : List String) (entry : ProjectedSessionEntry) :
 (entry.without a).without b = entry.without (a ++ b) := by
 unfold without
 by_cases ha : entry.sourceEntry.id ∈ a <;> by_cases hb : entry.sourceEntry.id ∈ b <;>
  simp [ha, hb]

theorem ProjectedSessionEntry.without_congr {a b : List String} {entry : ProjectedSessionEntry}
 (h : entry.sourceEntry.id ∈ a ↔ entry.sourceEntry.id ∈ b) : entry.without a = entry.without b := by
 unfold without
 simp only [h]

namespace SessionProjection

def changed (projection : SessionProjection) (change : ProjectedSessionEntry → ProjectedSessionEntry) :
 SessionProjection :=
 let entries := projection.entries.map change
 { projection with entries, messages := entries.flatMap ProjectedSessionEntry.messages }

def without (projection : SessionProjection) (ids : List String) : SessionProjection :=
 let entries := projection.entries.map (ProjectedSessionEntry.without ids)
 { projection with entries, messages := entries.flatMap ProjectedSessionEntry.messages }

def behind (projection : SessionProjection) (edits : List SessionEntry) : SessionProjection :=
 { projection with
   entries := projection.entries ++ edits.map ProjectedSessionEntry.bare }

theorem behind_behind (projection : SessionProjection) (a b : List SessionEntry) :
 (projection.behind a).behind b = projection.behind (a ++ b) := by
 simp [behind]

end SessionProjection

/-- The edit that counts for an entry, among edits of `targets` with one replacement. -/
theorem get?_contextEdits_targets {targets : List String}
 (h : List.Forall₂ (fun target entry => Edits target replacement entry) targets new)
 (id : String) :
 if id ∈ targets then ∃ edit, get? (contextEdits new) id = some edit ∧ Edits id replacement edit
 else get? (contextEdits new) id = none := by
 induction h with
 | nil => simp [contextEdits]
 | @cons target entry targets new hentry _ ih =>
  rw [get?_contextEdits_cons hentry]
  by_cases hid : id ∈ targets
  · rw [if_pos hid] at ih
    obtain ⟨edit, hedit, he⟩ := ih
    rw [if_pos (mem_cons_of_mem _ hid)]
    exact ⟨edit, by rw [hedit]; rfl, he⟩
  · rw [if_neg hid] at ih
    rw [ih, Option.none_or]
    by_cases ht : target = id
    · subst ht
      rw [if_pos (mem_cons_self ..), if_pos rfl]
      exact ⟨entry, rfl, hentry⟩
    · rw [if_neg (by simpa [hid] using Ne.symm ht), if_neg ht]

theorem projectAt_congr {edits edits' : EntryIndex}
 (h : get? edits entry.id = get? edits' entry.id) (first : Bool) :
 projectAt edits first entry = projectAt edits' first entry := by
 unfold projectAt
 rw [h]

theorem projectAt_omitted {edits : EntryIndex} {edit : SessionEntry} {id : String}
 (h : get? edits entry.id = some edit) (he : Edits id .null edit) (first : Bool) :
 projectAt edits first entry = .bare entry := by
 unfold projectAt
 have hproject : projectEntry entry (get? edits entry.id) = [] := by
  unfold projectEntry
  rw [h]
  dsimp only
  rw [Option.bind_some, he.replacement]
 rw [hproject, ite_self]
 rfl

theorem type_of_mem_edits {targets : List String}
 (h : List.Forall₂ (fun target entry => Edits target replacement entry) targets new)
 (he : entry ∈ new) : entry.entryType = "context_edit" := by
 induction h with
 | nil => simp at he
 | cons hentry _ ih =>
  rcases mem_cons.mp he with rfl | he
  · exact hentry.type
  · exact ih he

theorem contextEntries_ne_nil (h : path ≠ []) : contextEntries path ≠ [] := by
 unfold contextEntries
 dsimp only
 split
 · exact h
 · simp

namespace SessionManager.Built

variable {labels : Prop} {env : Env} {m : SessionManager} {k : Nat} {targets : List String}
 {pairs : List (String × JsonObject)}

theorem edits (h : Built env m k (targets.map fun id => .contextEdit id none) pairs) :
 List.Forall₂ (fun target entry => Edits target .null entry) targets (pairs.map entryOf) := by
 induction targets generalizing m k pairs with
 | nil =>
  cases h
  exact .nil
 | cons target targets ih =>
  cases h with
  | cons hentry hrest =>
   obtain ⟨_, _, _, _, _, he⟩ := contextEdit_edits
    (show m.contextEdit env k target none = .ok _ from hentry)
   exact .cons he (ih hrest)

/-- The entries named by edits with content have the role that the content is for. -/
theorem contentEdits {role : String} {content : EditContent}
 (h : Built env m k (targets.map fun id => .contextEdit id (some content)) pairs)
 (hi : Indexed labels m) (hf : m.FreshDraws env k targets.length)
 (hrole : ∀ id ∈ targets, ∃ entry, m.entry id = some entry ∧ editableRole entry = some role) :
 List.Forall₂ (fun target entry => Edits target (replacementValue role (some content)) entry)
  targets (pairs.map entryOf) := by
 induction targets generalizing m k pairs with
 | nil =>
  cases h
  exact .nil
 | cons target targets ih =>
  cases h with
  | @cons _ _ _ _ pair pairs hentry hrest =>
   have hnext := groupEntry_ok hentry
   have hpush : Indexed labels (m.pushEntry pair.1 pair.2) := hi.push hnext.notLabel
   have hid : pair.1 = m.nextId env k := hnext.id
   have hnew : get? m.index.byId pair.1 = none := by
    rw [OrdMap.get?_eq_none, hid]
    exact nextId_fresh (hf.unused k (Nat.le_refl k) (by simp))
   obtain ⟨-, other, role', ht, hr, he⟩ := contextEdit_edits
    (show m.contextEdit env k target (some content) = .ok _ from hentry)
   obtain ⟨entry, hget, hrole'⟩ := hrole target (mem_cons_self ..)
   rw [hget] at ht
   cases ht
   rw [hrole'] at hr
   cases hr
   refine .cons he (ih hrest hpush (hf.push hid pair.2) fun id hmem => ?_)
   obtain ⟨entry, hget, hrole⟩ := hrole id (mem_cons_of_mem _ hmem)
   refine ⟨entry, ?_, hrole⟩
   have hne : pair.1 ≠ id := by
    rintro rfl
    rw [SessionManager.entry, hnew] at hget
    simp at hget
   have hentries : (m.pushEntry pair.1 pair.2).entries = m.entries ++ [entryOf pair] := by
    simp [entries, pushEntry, FileEntry.asEntry, entryOf]
   rw [hpush.entry_eq, hentries, indexEntries_snoc]
   show get? (OrdMap.insert _ pair.1 _) id = _
   rw [OrdMap.get?_insert_ne _ _ hne, ← hi.entry_eq, hget]

/-- **Edits at the leaf** change what the entries contribute, and nothing else. -/
theorem projection_changed {edits : List (String × Option EditContent)} (hne : edits ≠ [])
 (h : Built env m k (edits.map fun edit => .contextEdit edit.1 edit.2) pairs)
 (hi : Indexed labels m) (hf : m.FreshDraws env k edits.length)
 (htype : ∀ entry ∈ pairs.map entryOf, entry.entryType = "context_edit")
 {change : ProjectedSessionEntry → ProjectedSessionEntry}
 (hchange : ∀ first, ∀ entry ∈ contextEntries (m.branchEntries none),
  projectAt (contextEdits (contextEntries (m.branchEntries none) ++ pairs.map entryOf)) first entry
   = change (projectAt (contextEdits (contextEntries (m.branchEntries none))) first entry)) :
 (m.pushAll pairs).buildSessionProjection
  = (m.buildSessionProjection.changed change).behind (pairs.map entryOf) := by
 obtain ⟨edit, rest, rfl⟩ := exists_cons_of_ne_nil hne
 have hbranch : m.branchEntries none ≠ [] := by
  cases h with
  | cons hentry _ =>
   exact (contextEdit_edits (show m.contextEdit env k edit.1 edit.2 = .ok _ from hentry)).1
 have hpath := hi.sessionPath_pushAll h hf
 rw [hi.sessionPath_eq hbranch] at hpath
 have hcompaction : ∀ entry ∈ pairs.map entryOf, entry.entryType ≠ "compaction" := fun entry he =>
  by rw [htype entry he]; decide
 unfold SessionManager.buildSessionProjection projection
 dsimp only
 rw [hpath, hi.sessionPath_eq hbranch, contextEntries_append hcompaction,
  projectContext_append (contextEntries_ne_nil hbranch) htype hchange, contextSettings_append htype]
 rw [flatMap_append, messages_bare, append_nil]
 rfl

/-- **Omitting entries** leaves the projection without what they contribute. -/
theorem projection_pushAll (h : Built env m k (targets.map fun id => .contextEdit id none) pairs)
 (hi : Indexed labels m) (hf : m.FreshDraws env k targets.length) :
 (m.pushAll pairs).buildSessionProjection
  = (m.buildSessionProjection.without targets).behind (pairs.map entryOf) := by
 cases targets with
 | nil =>
  cases h
  simp [SessionManager.pushAll, SessionProjection.without, SessionProjection.behind,
   buildSessionProjection, projection, ProjectedSessionEntry.without_nil]
 | cons target rest =>
  have hedits := h.edits
  refine @projection_changed labels env m k pairs ((target :: rest).map fun id => (id, none))
   (by simp) (by rw [map_map]; exact h) hi (by rw [length_map]; exact hf)
   (fun entry he => type_of_mem_edits hedits he) _ fun first entry _ => ?_
  have hget := get?_contextEdits_append (contextEntries (m.branchEntries none))
   (pairs.map entryOf) entry.id
  have hlast := get?_contextEdits_targets hedits entry.id
  by_cases hid : entry.id ∈ target :: rest
  · rw [if_pos hid] at hlast
    obtain ⟨edit, hedit, he⟩ := hlast
    rw [hedit, Option.some_or] at hget
    rw [projectAt_omitted hget he, ProjectedSessionEntry.without,
     if_pos (show (projectAt _ first entry).sourceEntry.id ∈ _ from hid)]
    rfl
  · rw [if_neg hid] at hlast
    rw [hlast, Option.none_or] at hget
    rw [projectAt_congr hget, ProjectedSessionEntry.without,
     if_neg (show (projectAt _ first entry).sourceEntry.id ∉ _ from hid)]

end SessionManager.Built

end Bake.Session
