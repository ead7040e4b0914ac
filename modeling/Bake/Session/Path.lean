import Bake.Session.Indexed

/-!
# The path to the leaf

A path is read off an index of the entries by id. Its ids are distinct, and it is the
same path in any index that holds its entries and no other parent for them: in the
manager's own index, in the index of the path alone, and in the index with one more
entry.
-/

open List OrdMap
open OrdMap (get?)

namespace Bake.Session

open Bake.Json
open SessionManager (branchEntries entries entryIndex pushEntry)

/-! ## The entries by id -/

def Coherent (index : EntryIndex) : Prop := ∀ id entry, get? index id = some entry → entry.id = id

theorem indexEntries_snoc (entries : List SessionEntry) (entry : SessionEntry) :
 indexEntries (entries ++ [entry]) = insert (indexEntries entries) entry.id entry := by
 simp [indexEntries]

theorem get?_indexEntries (entries : List SessionEntry) (id : String) :
 get? (indexEntries entries) id = entries.reverse.find? fun entry => entry.id = id := by
 induction entries using List.reverseRecOn with
 | nil => rfl
 | append_singleton entries entry ih =>
  rw [indexEntries_snoc, reverse_append, reverse_singleton, singleton_append,
   find?_cons, get?_insert, ih]
  by_cases h : entry.id = id
  · simp [h]
  · simp [h]

theorem coherent_indexEntries (entries : List SessionEntry) : Coherent (indexEntries entries) := by
 intro id entry h
 rw [get?_indexEntries] at h
 simpa using find?_some h

variable {entry : SessionEntry} {index : EntryIndex}

theorem get?_indexEntries_of_mem {entries : List SessionEntry}
 (hd : (entries.map SessionEntry.id).Nodup) (h : entry ∈ entries) :
 get? (indexEntries entries) entry.id = some entry := by
 rw [get?_indexEntries]
 cases hf : entries.reverse.find? fun other => other.id = entry.id with
 | none =>
  have := find?_eq_none.mp hf entry (mem_reverse.mpr h)
  exact absurd (by simp) this
 | some other =>
  have hid : other.id = entry.id := by simpa using find?_some hf
  have hmem : other ∈ entries := mem_reverse.mp (mem_of_find?_eq_some hf)
  rw [inj_on_of_nodup_map hd hmem h hid]

theorem parentIn_eq_some {parent : SessionEntry} : parentIn index entry = some parent
  ↔ ∃ id, entry.parentId = some id ∧ id ≠ "" ∧ get? index id = some parent := by
 unfold parentIn
 rw [Option.bind_eq_some_iff]
 constructor
 · rintro ⟨id, hid, hp⟩
   obtain ⟨hid, hne⟩ := Option.filter_eq_some_iff.mp hid
   exact ⟨id, hid, by simpa using hne, hp⟩
 · rintro ⟨id, hid, hne, hp⟩
   exact ⟨id, Option.filter_eq_some_iff.mpr ⟨hid, by simpa using hne⟩, hp⟩

/-! ## Paths -/

theorem pathUp_eq (index : EntryIndex) (seen : List String) (entry : SessionEntry) :
 pathUp index seen entry = entry :: match parentIn index entry with
  | none => []
  | some parent =>
   if parent.id ∈ entry.id :: seen then [] else pathUp index (entry.id :: seen) parent := by
 rw [pathUp]
 split <;> rename_i h <;> simp only [h]

theorem pathUp_cases (index : EntryIndex) (seen : List String) (entry : SessionEntry) :
 (pathUp index seen entry = [entry]
  ∧ ∀ parent, parentIn index entry = some parent → parent.id ∈ entry.id :: seen)
  ∨ ∃ parent, parentIn index entry = some parent ∧ parent.id ∉ entry.id :: seen
   ∧ pathUp index seen entry = entry :: pathUp index (entry.id :: seen) parent := by
 rw [pathUp_eq]
 cases h : parentIn index entry with
 | none => exact .inl ⟨rfl, fun parent hp => absurd hp (by simp)⟩
 | some parent =>
  by_cases hs : parent.id ∈ entry.id :: seen
  · refine .inl ⟨by simp [hs], fun other hp => ?_⟩
    cases hp
    exact hs
  · exact .inr ⟨parent, rfl, hs, by simp only [if_neg hs]⟩

theorem pathUp_induct (index : EntryIndex) {motive : List String → SessionEntry → Prop}
 (last : ∀ seen entry, pathUp index seen entry = [entry] →
  (∀ parent, parentIn index entry = some parent → parent.id ∈ entry.id :: seen) →
  motive seen entry)
 (more : ∀ seen entry parent, parentIn index entry = some parent → parent.id ∉ entry.id :: seen →
  pathUp index seen entry = entry :: pathUp index (entry.id :: seen) parent →
  motive (entry.id :: seen) parent → motive seen entry)
 (seen : List String) (entry : SessionEntry) : motive seen entry := by
 rcases pathUp_cases index seen entry with ⟨h, hp⟩ | ⟨parent, hp, hs, h⟩
 · exact last seen entry h hp
 · exact more seen entry parent hp hs h (pathUp_induct index last more _ parent)
termination_by unseen index (entry.id :: seen)
decreasing_by
 obtain ⟨key, hmem⟩ := mem_index_of_parentIn hp
 exact unseen_lt hmem hs

/-- **The ids of a path are distinct,** and none was seen before. -/
theorem pathUp_ids (index : EntryIndex) (seen : List String) (entry : SessionEntry)
 (h : entry.id ∉ seen) : ((pathUp index seen entry).map SessionEntry.id).Nodup
  ∧ ∀ other ∈ pathUp index seen entry, other.id ∉ seen := by
 induction seen, entry using pathUp_induct index with
 | last seen entry he _ =>
  rw [he]
  exact ⟨by simp, fun other ho => by rw [mem_singleton.mp ho]; exact h⟩
 | more seen entry parent hp hs he ih =>
  obtain ⟨hnodup, hnew⟩ := ih hs
  rw [he, map_cons, nodup_cons]
  refine ⟨⟨fun hmem => ?_, hnodup⟩, fun other ho => ?_⟩
  · obtain ⟨other, ho, hid⟩ := mem_map.mp hmem
    exact hnew other ho (by rw [hid]; exact mem_cons_self ..)
  · rcases mem_cons.mp ho with rfl | ho
    · exact h
    · exact fun hm => hnew other ho (mem_cons_of_mem _ hm)

theorem mem_pathUp (hc : Coherent index) {seen : List String} {other : SessionEntry}
 (h : other ∈ pathUp index seen entry) :
 other = entry ∨ get? index other.id = some other := by
 induction seen, entry using pathUp_induct index with
 | last seen entry he _ => exact .inl (mem_singleton.mp (he ▸ h))
 | more seen entry parent hp _ he ih =>
  rw [he] at h
  rcases mem_cons.mp h with rfl | h
  · exact .inl rfl
  · rcases ih h with rfl | hother
    · obtain ⟨id, -, -, hid⟩ := parentIn_eq_some.mp hp
      exact .inr (by rwa [hc id _ hid])
    · exact .inr hother

/-- **The same path in another index:** one that holds the path's entries, and beyond the
first index only entries seen already. -/
theorem pathUp_congr {index index' : EntryIndex} (hc : Coherent index) {extra : List String}
 (hsub : ∀ id other, get? index' id = some other → get? index id = some other ∨ other.id ∈ extra)
 {seen seen' : List String} (hseen : ∀ id, id ∈ seen' ↔ id ∈ seen ∨ id ∈ extra)
 {entry : SessionEntry}
 (hsup : ∀ other ∈ (pathUp index seen entry).tail, get? index' other.id = some other
  ∧ other.id ∉ extra) :
 pathUp index' seen' entry = pathUp index seen entry := by
 have hmem : ∀ (seen seen' : List String), (∀ id, id ∈ seen' ↔ id ∈ seen ∨ id ∈ extra) →
  ∀ key id : String, id ∈ key :: seen' ↔ id ∈ key :: seen ∨ id ∈ extra := by
  intro seen seen' h key id
  rw [mem_cons, mem_cons, h, or_assoc]
 induction seen, entry using pathUp_induct index generalizing seen' with
 | last seen entry he hstop =>
  rw [he]
  rcases pathUp_cases index' seen' entry with ⟨h, -⟩ | ⟨parent, hp, hs, -⟩
  · exact h
  · obtain ⟨id, hid, hne, hget⟩ := parentIn_eq_some.mp hp
    refine absurd ((hmem _ _ hseen _ _).mpr ?_) hs
    rcases hsub id parent hget with hget | hextra
    · exact .inl (hstop parent (parentIn_eq_some.mpr ⟨id, hid, hne, hget⟩))
    · exact .inr hextra
 | more seen entry parent hp hs he ih =>
  rw [he, tail_cons] at hsup
  obtain ⟨id, hid, hne, hget⟩ := parentIn_eq_some.mp hp
  obtain ⟨hpath, hparent⟩ := hsup parent (by rw [pathUp_eq]; exact mem_cons_self ..)
  rw [hc id parent hget] at hpath
  have hp' : parentIn index' entry = some parent := parentIn_eq_some.mpr ⟨id, hid, hne, hpath⟩
  rw [he, pathUp_eq, hp']
  have hs' : parent.id ∉ entry.id :: seen' := by
   rw [hmem _ _ hseen]
   exact fun h => h.elim hs hparent
  simp only [if_neg hs']
  rw [ih (hmem _ _ hseen entry.id) fun other ho => hsup other (mem_of_mem_tail ho)]

theorem pathToRoot_self (hc : Coherent index) (hentry : get? index entry.id = some entry) :
 let path := (pathUp index [] entry).reverse
 pathToRoot path.getLast? (indexEntries path) = path := by
 intro path
 have hlast : path.getLast? = some entry := by
  rw [getLast?_reverse, pathUp_eq, head?_cons]
 have hd : (path.map SessionEntry.id).Nodup := by
  rw [map_reverse, nodup_reverse]
  exact (pathUp_ids index [] entry (by simp)).1
 rw [hlast, pathToRoot]
 refine congrArg List.reverse (@pathUp_congr index (indexEntries path) hc [] ?_ [] [] (by simp)
  entry ?_)
 · intro id other h
   have hid := coherent_indexEntries path id other h
   rw [get?_indexEntries] at h
   have hmem : other ∈ pathUp index [] entry := by
    simpa [path] using mem_of_find?_eq_some h
   rcases mem_pathUp hc hmem with rfl | hget
   · exact .inl (hid ▸ hentry)
   · exact .inl (hid ▸ hget)
 · intro other h
   exact ⟨get?_indexEntries_of_mem hd (mem_reverse.mpr (mem_of_mem_tail h)), by simp⟩

/-! ## The manager's path -/

theorem get?_filterMap_key {α β : Type} (f : String → Option β) (m : List (String × α)) (id : String) :
 get? (m.filterMap fun b => (f b.1).map fun v => (b.1, v)) id
  = if id ∈ keys m then f id else none := by
 induction m with
 | nil => rfl
 | cons b m ih =>
  rw [filterMap_cons, OrdMap.keys_cons]
  cases hf : f b.1 with
  | none =>
   simp only [Option.map_none, ih]
   by_cases hid : id = b.1
   · subst hid
     simp [hf]
   · simp [hid]
  | some v =>
   simp only [Option.map_some, get?_cons, ih]
   by_cases hid : b.1 = id
   · subst hid
     simp [hf]
   · simp [hid, Ne.symm hid]

theorem Index.byId_line_of_entry (index : Index) {line : FileEntry} (h : line.asEntry = some entry)
 (place : Nat) : (index.line line place).byId = insert index.byId entry.id place := by
 unfold Index.line
 rw [h]
 dsimp only
 split
 · rfl
 · split
   · rfl
   · split <;> rfl

theorem get?_buildIndex (lines : List FileEntry) (id : String) :
 (∀ place, get? (buildIndex lines).byId id = some place → place < lines.length)
  ∧ ((get? (buildIndex lines).byId id).bind fun place =>
   (lines[place]?).bind FileEntry.asEntry)
   = get? (indexEntries (lines.filterMap FileEntry.asEntry)) id := by
 induction lines using List.reverseRecOn with
 | nil => exact ⟨fun place h => absurd h (by simp [buildIndex, Index.empty]), rfl⟩
 | append_singleton lines line ih =>
  obtain ⟨hlt, heq⟩ := ih
  -- the places known before are those of the same lines
  have hsame : ((get? (buildIndex lines).byId id).bind fun place =>
   ((lines ++ [line])[place]?).bind FileEntry.asEntry)
   = get? (indexEntries (lines.filterMap FileEntry.asEntry)) id := by
   rw [← heq]
   cases hp : get? (buildIndex lines).byId id with
   | none => rfl
   | some place =>
    dsimp only [Option.bind_some]
    rw [getElem?_append_left (hlt place hp)]
  rw [buildIndex_append, filterMap_append, length_append, length_singleton]
  cases he : line.asEntry with
  | none =>
   rw [filterMap_cons_none he, filterMap_nil, append_nil]
   simp only [Index.line, he]
   exact ⟨fun place h => Nat.lt_succ_of_lt (hlt place h), hsame⟩
  | some entry =>
   have hbyId : ((buildIndex lines).line line lines.length).byId
    = insert (buildIndex lines).byId entry.id lines.length :=
    Index.byId_line_of_entry _ he _
   rw [hbyId, filterMap_cons_some he, filterMap_nil, indexEntries_snoc, get?_insert, get?_insert]
   by_cases hid : entry.id = id
   · simp [hid, he]
   · simp only [if_neg hid]
     exact ⟨fun place h => Nat.lt_succ_of_lt (hlt place h), hsame⟩

namespace Indexed

variable {labels : Prop} {m : SessionManager}

section

variable (h : Indexed labels m)

include h

theorem entry_eq (id : String) :
 m.entry id = get? (indexEntries m.entries) id := by
 rw [SessionManager.entry, h.byId, (get?_buildIndex m.fileEntries id).2]
 rfl

theorem get?_entryIndex (id : String) :
 get? m.entryIndex id = get? (indexEntries m.entries) id := by
 rw [entryIndex, get?_filterMap_key, h.entry_eq]
 split
 · rfl
 next hk =>
  rw [← h.entry_eq, SessionManager.entry, get?_eq_none.mpr hk]
  rfl

/-- **The branch to the leaf** is the path of the leaf's entry. -/
theorem branchEntries_eq (hne : m.branchEntries none ≠ []) :
 ∃ leaf entry, m.index.leafId = some leaf ∧ leaf ≠ "" ∧ entry.id = leaf
  ∧ get? (indexEntries m.entries) leaf = some entry
  ∧ m.branchEntries none = (pathUp (indexEntries m.entries) [] entry).reverse := by
 unfold branchEntries at hne ⊢
 rw [Option.none_or] at hne ⊢
 cases hl : m.index.leafId.filter (· ≠ "") with
 | none => rw [hl] at hne; exact absurd rfl hne
 | some leaf =>
  obtain ⟨hleaf, hnonempty⟩ := Option.filter_eq_some_iff.mp hl
  rw [hl, Option.bind_some, h.entry_eq] at hne
  rw [Option.bind_some, h.entry_eq]
  cases he : get? (indexEntries m.entries) leaf with
  | none => rw [he] at hne; exact absurd rfl hne
  | some entry =>
   have hc := coherent_indexEntries m.entries
   refine ⟨leaf, entry, hleaf, by simpa using hnonempty, hc leaf entry he, he, ?_⟩
   refine congrArg List.reverse (@pathUp_congr _ m.entryIndex hc [] ?_ [] [] (by simp)
    entry ?_)
   · intro id other ho
     rw [h.get?_entryIndex] at ho
     exact .inl ho
   · intro other ho
     refine ⟨?_, by simp⟩
     rw [h.get?_entryIndex]
     rcases mem_pathUp hc (mem_of_mem_tail ho) with rfl | hget
     · rw [hc leaf _ he]
       exact he
     · exact hget

/-- **A branch is its own branch:** built from its own entries, a projection is that of
the branch. -/
theorem buildSessionProjection_branch :
 buildSessionProjection (m.branchEntries none) .last
  = { entries := projectContext (contextEntries (m.branchEntries none))
      messages := (projectContext (contextEntries (m.branchEntries none))).flatMap
       ProjectedSessionEntry.messages
      thinkingLevel := (contextSettings (m.branchEntries none)).1
      model := (contextSettings (m.branchEntries none)).2 } := by
 have hpath : pathToRoot (m.branchEntries none).getLast? (indexEntries (m.branchEntries none))
  = m.branchEntries none := by
  by_cases hne : m.branchEntries none = []
  · rw [hne]
    rfl
  · obtain ⟨leaf, entry, -, -, hid, hget, hbranch⟩ := h.branchEntries_eq hne
    rw [hbranch]
    exact pathToRoot_self (coherent_indexEntries m.entries) (hid.symm ▸ hget)
 unfold buildSessionProjection projection sessionPath
 dsimp only
 rw [hpath]

theorem nodup_branchEntries :
 ((m.branchEntries none).map SessionEntry.id).Nodup := by
 by_cases hne : m.branchEntries none = []
 · rw [hne]
   exact nodup_nil
 · obtain ⟨leaf, entry, -, -, -, -, hbranch⟩ := h.branchEntries_eq hne
   rw [hbranch, map_reverse, nodup_reverse]
   exact (pathUp_ids _ [] entry (by simp)).1

/-- **An entry added at the leaf** extends the branch by itself. -/
theorem sessionPath_pushEntry {id : String} {raw : JsonObject}
 (hnew : get? m.index.byId id = none)
 (hparent : strMember raw "parentId" = m.index.leafId) (hne : m.branchEntries none ≠ []) :
 let m' := m.pushEntry id raw
 sessionPath m'.entries (.ofLeaf m'.index.leafId) (indexEntries m'.entries)
  = m.branchEntries none ++ [({ id, raw } : SessionEntry)] := by
 intro m'
 obtain ⟨leaf, entry, hleaf, hnonempty, hid, hget, hbranch⟩ := h.branchEntries_eq hne
 have hc := coherent_indexEntries m.entries
 have hentries : m'.entries = m.entries ++ [({ id, raw } : SessionEntry)] := by
  simp [m', entries, pushEntry, FileEntry.asEntry]
 have hfresh : get? (indexEntries m.entries) id = none := by
  rw [← h.entry_eq, SessionManager.entry, hnew]
  rfl
 have hleafId : id ≠ leaf := by
  rintro rfl
  rw [hfresh] at hget
  simp at hget
 let new : SessionEntry := { id, raw }
 have hindex : indexEntries m'.entries = insert (indexEntries m.entries) id new := by
  rw [hentries, indexEntries_snoc]
 have hget' : get? (indexEntries m'.entries) leaf = some entry := by
  rw [hindex, get?_insert_ne _ _ hleafId, hget]
 have hpath : sessionPath m'.entries (.ofLeaf m'.index.leafId) (indexEntries m'.entries)
  = pathToRoot (some new) (indexEntries m'.entries) := by
  show pathToRoot (((get? (indexEntries m'.entries) id).filter fun _ => id ≠ "").or
   m'.entries.getLast?) _ = _
  rw [hindex, get?_insert_self, hentries, getLast?_concat]
  by_cases hid : id = ""
  · simp [hid, new]
  · simp [hid, Option.filter]
 have hup : parentIn (indexEntries m'.entries) new = some entry :=
  parentIn_eq_some.mpr ⟨leaf, by rw [← hleaf, ← hparent]; rfl, hnonempty, hget'⟩
 have hrest : pathUp (indexEntries m'.entries) [id] entry
  = pathUp (indexEntries m.entries) [] entry := by
  refine @pathUp_congr _ _ hc [id] ?_ [] [id] (by simp) entry fun other ho => ?_
  · intro key other ho
    rw [hindex, get?_insert] at ho
    split at ho
    · injection ho with ho
      exact .inr (by simp [← ho, new])
    · exact .inl ho
  · have hother : get? (indexEntries m.entries) other.id = some other := by
     rcases mem_pathUp hc (mem_of_mem_tail ho) with rfl | hother
     · rwa [hid]
     · exact hother
    have hne' : id ≠ other.id := by
     intro he
     rw [← he, hfresh] at hother
     simp at hother
    rw [hindex, get?_insert_ne _ _ hne']
    exact ⟨hother, by simpa using Ne.symm hne'⟩
 have hnew' : entry.id ∉ new.id :: ([] : List String) := by
  rw [hid]
  simpa [new] using Ne.symm hleafId
 rw [hpath, pathToRoot, pathUp_eq, hup]
 simp only [if_neg hnew']
 rw [hbranch, reverse_cons, ← hrest]

/-- **An entry added at the leaf** is the branch's last. -/
theorem branchEntries_pushEntry {id : String} {raw : JsonObject}
 (hnew : get? m.index.byId id = none) (hid : id ≠ "")
 (htype : ({ id, raw } : SessionEntry).entryType ≠ "label")
 (hparent : strMember raw "parentId" = m.index.leafId) (hne : m.branchEntries none ≠ []) :
 (m.pushEntry id raw).branchEntries none
  = m.branchEntries none ++ [({ id, raw } : SessionEntry)] := by
 have hpath := h.sessionPath_pushEntry hnew hparent hne
 dsimp only at hpath
 have hpush : Indexed labels (m.pushEntry id raw) := h.push htype
 have hentries : (m.pushEntry id raw).entries = m.entries ++ [({ id, raw } : SessionEntry)] := by
  simp [entries, pushEntry, FileEntry.asEntry]
 have hget : get? (indexEntries (m.pushEntry id raw).entries) id
  = some ({ id, raw } : SessionEntry) := by
  rw [hentries, indexEntries_snoc]
  exact get?_insert_self _ _ _
 have hleaf : (m.pushEntry id raw).index.leafId = some id := rfl
 have hup : (m.pushEntry id raw).branchEntries none ≠ [] := by
  unfold branchEntries
  rw [hleaf, Option.none_or]
  simp only [Option.filter, ne_eq, hid, not_false_eq_true, decide_true, if_true, Option.bind_some]
  rw [hpush.entry_eq, hget]
  unfold pathToRoot
  dsimp only
  rw [pathUp_eq]
  simp
 obtain ⟨leaf, entry, hl, -, -, he, hbranch⟩ := hpush.branchEntries_eq hup
 rw [hleaf] at hl
 cases hl
 rw [hget] at he
 cases he
 rw [hbranch, ← hpath, hleaf]
 simp only [LeafSelector.ofLeaf, sessionPath, hget, Option.filter, ne_eq, hid, not_false_eq_true,
  decide_true, if_true, Option.some_or, pathToRoot]

end

end Indexed

end Bake.Session
