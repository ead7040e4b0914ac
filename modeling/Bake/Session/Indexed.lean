import Bake.Session.Group

/-!
# The index and the entries

The maps over the entries are kept up to date by hand. What they should be is what
`build_index` makes of the entries, and every call leaves them so, apart from a
label change whose line is not written: its entry stays, and the label maps miss it.
-/

namespace Bake.Session

open Bake.Json SessionManager World OrdMap
open OrdMap (get?)

/-! ## The index of one more line -/

variable (entries : List FileEntry)

/-- **Indexing one more line** is indexing the others and then this one. -/
theorem buildIndex_append (line : FileEntry) :
 buildIndex (entries ++ [line]) = (buildIndex entries).line line entries.length := by
 simp only [buildIndex, List.zipIdx_append, List.foldl_append, List.zipIdx_singleton,
  List.foldl_cons, List.foldl_nil, Nat.zero_add]

/-- The leaf is before the first entry, or at an entry. -/
def Index.LeafBound (index : Index) : Prop :=
 ∀ id, index.leafId = some id → (get? index.byId id).isSome

variable (index : Index)

theorem Index.leafBound_push (id : String) (place : Nat) : (index.push id place).LeafBound := by
 intro leaf h
 obtain rfl : id = leaf := Option.some.inj h
 simp [Index.push]

theorem Index.LeafBound.label {index : Index} (h : index.LeafBound) (target : String)
 (label : Option String) (timestamp : String) : (index.label target label timestamp).LeafBound := by
 cases label <;> exact h

theorem Index.LeafBound.line {index : Index} (h : index.LeafBound) (line : FileEntry)
 (place : Nat) : (index.line line place).LeafBound := by
 unfold Index.line
 cases line.asEntry with
 | none => exact h
 | some entry =>
  have hp := index.leafBound_push entry.id place
  dsimp only
  split
  · exact hp
  · cases strMember entry.raw "targetId" with
    | none => exact hp
    | some target =>
     dsimp only
     split
     all_goals exact hp.label _ _ _

theorem leafBound_buildIndex : (buildIndex entries).LeafBound := by
 induction entries using List.reverseRecOn with
 | nil => intro id h; simp [buildIndex, Index.empty] at h
 | append_singleton entries line ih =>
  rw [buildIndex_append]
  exact ih.line line _

theorem Index.line_of_entry {entry : SessionEntry} (h : entry.entryType ≠ "label") (index : Index)
 (place : Nat) : index.line (.entry entry) place = index.push entry.id place := by
 simp [Index.line, FileEntry.asEntry, h]

/-! ## The invariant -/

/-- The maps are those of the entries, and the leaf is none or at an entry. The label
maps count when `labels` says so. -/
structure Indexed (labels : Prop) (m : SessionManager) : Prop where
 byId : m.index.byId = (buildIndex m.fileEntries).byId
 labelsById : labels → m.index.labelsById = (buildIndex m.fileEntries).labelsById
 labelTimestampsById :
  labels → m.index.labelTimestampsById = (buildIndex m.fileEntries).labelTimestampsById
 leaf : m.index.LeafBound

namespace Indexed

variable {labels : Prop} {m m' : SessionManager}

theorem of_buildIndex (h : m.index = buildIndex m.fileEntries) : Indexed labels m where
 byId := by rw [h]
 labelsById := fun _ => by rw [h]
 labelTimestampsById := fun _ => by rw [h]
 leaf := h ▸ leafBound_buildIndex m.fileEntries

theorem same (h : Indexed labels m) (hs : m.SameSession m') : Indexed labels m' := by
 obtain ⟨_, _, rfl⟩ := hs
 exact ⟨h.byId, h.labelsById, h.labelTimestampsById, h.leaf⟩

theorem moved (h : Indexed labels m) {leafId : Option String}
 (hl : ∀ id, leafId = some id → (get? m.index.byId id).isSome) :
 Indexed labels { m with index := { m.index with leafId } } :=
 ⟨h.byId, h.labelsById, h.labelTimestampsById, hl⟩

theorem push (h : Indexed labels m) {id : String} {raw : JsonObject}
 (hraw : ({ id, raw } : SessionEntry).entryType ≠ "label") :
 Indexed labels (m.pushEntry id raw) := by
 have hb : buildIndex (m.fileEntries ++ [.entry { id, raw }])
  = (buildIndex m.fileEntries).push id m.fileEntries.length := by
  rw [buildIndex_append, Index.line_of_entry hraw]
 refine ⟨?_, fun hl => ?_, fun hl => ?_, m.index.leafBound_push id m.fileEntries.length⟩
 · show insert m.index.byId id _ = (buildIndex (m.fileEntries ++ _)).byId
   rw [hb, h.byId]
   rfl
 · show m.index.labelsById = (buildIndex (m.fileEntries ++ _)).labelsById
   rw [hb, h.labelsById hl]
   rfl
 · show m.index.labelTimestampsById = (buildIndex (m.fileEntries ++ _)).labelTimestampsById
   rw [hb, h.labelTimestampsById hl]
   rfl

end Indexed

/-! ## Every call -/

namespace Indexed

variable {labels : Prop} {w : World} (env : Env)

theorem pushAll {pairs : List (String × JsonObject)}
 (htypes : ∀ pair ∈ pairs, (entryOf pair).entryType ≠ "label") :
 ∀ {m : SessionManager}, Indexed labels m → Indexed labels (m.pushAll pairs) := by
 induction pairs with
 | nil => exact fun h => h
 | cons pair pairs ih =>
  intro m h
  exact ih (fun p hp => htypes p (List.mem_cons_of_mem _ hp))
   (h.push (htypes pair (List.mem_cons_self ..)))

section

variable (h : Indexed labels w.manager)

include h

theorem appendEntry {id : String} {raw : JsonObject}
 (hraw : ({ id, raw } : SessionEntry).entryType ≠ "label") :
 Indexed labels (w.appendEntry env id raw).2.manager :=
 (h.push hraw).same (w.appendEntry_same env id raw)

theorem appendRaw {raw : SessionManager → String → JsonObject}
 {type : String} (htype : type ≠ "label")
 (hraw : ∀ m id, ∃ rest, raw m id = ("type", .string type) :: rest) :
 Indexed labels (w.appendRaw env raw).2.manager := by
 obtain ⟨rest, hr⟩ := hraw w.manager (w.manager.nextId env 0)
 refine h.appendEntry env ?_
 rw [hr, entryType_cons]
 exact htype

theorem appendGroupInner {entries : List GroupEntry}
 (hf : w.manager.FreshDraws env 0 entries.length) (forceCreate : Bool) :
 Indexed labels (w.appendGroupInner env entries forceCreate).2.manager := by
 rcases appendGroupInner_cases hf forceCreate with ⟨e, -, he⟩ | ⟨pairs, hb, hnew, hcase⟩
 · rw [he]
   exact h
 have hkept : ∀ kept, Indexed labels (w.manager.withNew ((pairs.take kept).map entryOf)) := by
  intro kept
  have hids := hnew.take kept
  rw [← List.map_take] at hids
  rw [← pushAll_of_new _ hids]
  exact pushAll (fun pair hp => hb.notLabel pair (List.mem_of_mem_take hp)) h
 have hall := hkept pairs.length
 rw [List.take_length] at hall
 rcases hcase with ⟨-, he⟩ | ⟨-, failure, w', hp, hcase⟩
 · rw [he]
   exact h
 have hs := (w.withManager (w.manager.withNew (pairs.map entryOf))).persistGroup_same env
  w.manager.fileEntries.length forceCreate
 rw [hp] at hs
 rcases failure with _ | failure | ⟨path, failure⟩
 · rw [hcase]
   exact hall.same hs
 · obtain ⟨m, hm, he⟩ := hcase
   rw [he]
   exact h.same hm
 · obtain ⟨m, hm, he⟩ := hcase
   rw [he]
   exact (hkept failure.synced).same hm

theorem startSession (options : NewSessionOptions) :
 Indexed labels (w.startSession env options).2.manager := by
 unfold World.startSession
 split
 · exact h
 · exact of_buildIndex rfl

theorem newSession (options : NewSessionOptions) :
 Indexed labels (w.newSession env options).2.manager := by
 have hs := h.startSession env options
 unfold World.newSession
 split <;> rename_i hr <;> rw [hr] at hs
 · exact hs
 · split
   · exact hs.same ⟨none, _, rfl⟩
   · exact hs

theorem loadEntries (lines : List Line) (options : NewSessionOptions) :
 Indexed labels (w.loadEntries env lines options).2.manager := by
 unfold World.loadEntries
 split
 · dsimp only
   split
   · exact Indexed.same (of_buildIndex rfl) (World.rewriteFile_same _ env)
   · exact of_buildIndex rfl
 · have hs := h.startSession env options
   split <;> rename_i hr <;> rw [hr] at hs
   · exact hs
   · exact of_buildIndex rfl

theorem setFile (path : String) : Indexed labels (w.setFile path).manager :=
 ⟨h.byId, h.labelsById, h.labelTimestampsById, h.leaf⟩

theorem flush :
 Indexed labels (w.withManager { w.manager with flushed := true }).manager :=
 h.same ⟨_, true, rfl⟩

theorem adoptFile (path : String) :
 Indexed labels (w.adoptFile env path).2.manager := by
 have hset := h.setFile path
 unfold World.adoptFile
 dsimp only
 split
 · have hs := hset.startSession env {}
   split <;> rename_i hr <;> rw [hr] at hs
   · exact hs
   · exact hs.setFile path
 next file _ =>
  split
  · exact hset
  generalize (if (w.setFile path).manager.holdsWriter path then Repair.held else .never) = repair
  generalize (w.setFile path).disk.set path _ = disk
  split
  · split
    · exact hset
    · split
      · exact hset
      · have hs := startSession (w := (w.setFile path).withDisk disk) env hset {}
        split <;> rename_i hr <;> rw [hr] at hs
        · exact hs
        next w' =>
         have hrw := (hs.setFile path).same ((w'.setFile path).rewriteFile_same env)
         split <;> rename_i hr <;> rw [hr] at hrw
         · exact hrw
         · exact hrw.flush
  · have hl := loadEntries (w := (w.setFile path).withDisk disk) env hset
     (loadObjects (some file) repair).1 {}
    split <;> rename_i hr <;> rw [hr] at hl
    · exact hl
    · exact hl.flush

theorem takeOver (path : String) :
 Indexed labels (w.takeOver env path).2.manager :=
 h.same (w.takeOver_same env path)

theorem setSessionFile (path : String) :
 Indexed labels (w.setSessionFile env path).2.manager := by
 have ht := h.takeOver env path
 unfold World.setSessionFile
 split <;> rename_i hr <;> rw [hr] at ht
 · exact ht
 · exact ht.adoptFile env path

theorem createBranchedSession (leafId : String) :
 Indexed labels (w.createBranchedSession env leafId).2.manager := by
 have hb : ∀ path, Indexed labels (w.manager.branched env path) := fun _ => of_buildIndex rfl
 unfold World.createBranchedSession
 dsimp only
 generalize w.manager.branchEntries (some leafId) = path
 have hw : Indexed labels (w.withManager (w.manager.branched env path)).manager := hb path
 split
 · exact h
 · split
   · exact hw
   · split
     · have hr := hw.same (World.rewriteFile_same _ env)
       split <;> rename_i he <;> rw [he] at hr
       · exact hr
       · exact hr.flush
     · exact hw.same ⟨_, false, rfl⟩

theorem branchedCopy (leafId : Option String) :
 Indexed labels (w.branchedCopy env leafId).2.manager := by
 have hc : Indexed labels (w.withManager { w.manager with writer := none, writerClosed := false }).manager :=
  ⟨h.byId, h.labelsById, h.labelTimestampsById, h.leaf⟩
 unfold World.branchedCopy
 dsimp only
 split
 next leafId =>
  have hb := hc.createBranchedSession env leafId
  split <;> rename_i hr <;> rw [hr] at hb
  · exact h
  · exact hb
 · have hn := hc.newSession env
    { parentSession := if w.manager.persist then w.manager.sessionFile else none }
   split <;> rename_i hr <;> rw [hr] at hn
   · exact h
   · exact hn

end

end Indexed

/-! ## Label changes -/

theorem Index.line_labelRaw (place : Nat) (m : SessionManager) (env : Env)
 (id targetId : String) (label : Option String) :
 index.line (.entry { id, raw := m.labelRaw env id targetId label }) place
  = (index.push id place).label targetId (label.filter (· ≠ "")) (formatIso (env.clock 0)) := by
 have htype : ({ id, raw := m.labelRaw env id targetId label } : SessionEntry).entryType = "label" :=
  entryType_cons ..
 have htarget : strMember (m.labelRaw env id targetId label) "targetId" = some targetId := by
  simp [labelRaw, base, baseMembers, strMember, get?_cons]
 have htime : ({ id, raw := m.labelRaw env id targetId label } : SessionEntry).timestamp
  = some (formatIso (env.clock 0)) := by
  simp [labelRaw, base, baseMembers, strMember, SessionEntry.timestamp, get?_cons]
 have hlabel : ({ id, raw := m.labelRaw env id targetId label } : SessionEntry).get "label"
  = label.map Value.string := by
  cases label <;> simp [labelRaw, base, baseMembers, SessionEntry.get, get?_cons, optionalMember]
 unfold Index.line
 dsimp only [FileEntry.asEntry]
 rw [if_neg (by rw [htype]; simp), htarget]
 dsimp only
 rw [hlabel, htime]
 cases label with
 | none => rfl
 | some label =>
  by_cases he : label = ""
  · subst he
    rfl
  · simp [jsTruthy, jsToStringMember, jsToString, Option.filter, he]

/-- The maps hold what a label change would set. -/
def Index.LabelStands (index : Index) (targetId : String) (label : Option String)
 (timestamp : String) : Prop :=
 get? index.labelsById targetId = label
  ∧ get? index.labelTimestampsById targetId = label.map fun _ => timestamp

/-- A label change changes nothing exactly when the maps hold what it sets. -/
theorem Index.label_eq_iff (targetId : String) (label : Option String) (timestamp : String) :
 index.label targetId label timestamp = index ↔ index.LabelStands targetId label timestamp := by
 cases label with
 | some label =>
  constructor
  · intro h
    constructor
    all_goals
     conv_lhs => rw [← h]
     exact get?_insert_self ..
  · rintro ⟨hl, ht⟩
    simp only [Index.label]
    rw [insert_self hl, insert_self ht]
 | none =>
  constructor
  · intro h
    constructor
    all_goals
     conv_lhs => rw [← h]
     simp [Index.label, get?_erase]
  · rintro ⟨hl, ht⟩
    simp only [Index.label]
    rw [erase_self hl, erase_self ht]

def SessionManager.pushLabel (m : SessionManager) (env : Env) (targetId : String)
 (label : Option String) : SessionManager :=
 m.pushEntry (m.nextId env 0) (m.labelRaw env (m.nextId env 0) targetId label)

variable {labels : Prop}

theorem Indexed.pushLabel {m : SessionManager} (h : Indexed labels m) (env : Env)
 (targetId : String) (label : Option String) : let pushed := m.pushLabel env targetId label
 let index := pushed.index.label targetId (label.filter (· ≠ "")) (formatIso (env.clock 0))
 (buildIndex pushed.fileEntries).byId = index.byId
 ∧ (labels → (buildIndex pushed.fileEntries).labelsById = index.labelsById)
 ∧ (labels → (buildIndex pushed.fileEntries).labelTimestampsById = index.labelTimestampsById) := by
 have hb : buildIndex (m.pushLabel env targetId label).fileEntries
  = ((buildIndex m.fileEntries).push (m.nextId env 0) m.fileEntries.length).label targetId
   (label.filter (· ≠ "")) (formatIso (env.clock 0)) := by
  rw [← Index.line_labelRaw]
  exact buildIndex_append ..
 dsimp only
 rw [hb]
 refine ⟨?_, fun hl => ?_, fun hl => ?_⟩ <;> cases label.filter (· ≠ "")
 all_goals simp only [Index.label, Index.push, SessionManager.pushLabel, SessionManager.pushEntry]
 · rw [h.byId]
 · rw [h.byId]
 · rw [h.labelsById hl]
 · rw [h.labelsById hl]
 · rw [h.labelTimestampsById hl]
 · rw [h.labelTimestampsById hl]

/-- The label maps already hold what a label change sets. -/
def SessionManager.LabelStands (m : SessionManager) (env : Env) (targetId : String)
 (label : Option String) : Prop :=
 m.index.LabelStands targetId (label.filter (· ≠ "")) (formatIso (env.clock 0))

theorem written_pushLabel (w : World) (env : Env) (targetId : String) (label : Option String) :
 (w.withManager (w.manager.pushLabel env targetId label)).Written env ↔ w.Written env := by
 have hc : (w.manager.pushLabel env targetId label).hasConversation = w.manager.hasConversation := by
  have htype : ∀ id, ({ id, raw := w.manager.labelRaw env id targetId label } :
   SessionEntry).entryType = "label" := fun id => entryType_cons ..
  simp [pushLabel, pushEntry, hasConversation,
   isConversation, FileEntry.asEntry, SessionEntry.messageRole, htype]
 unfold World.Written
 dsimp only [withManager]
 rw [hc]
 rfl

theorem Index.label_label (targetId : String) (label : Option String) (timestamp : String) :
 (index.label targetId label timestamp).byId = index.byId
  ∧ (index.label targetId label timestamp).leafId = index.leafId := by
 cases label <;> exact ⟨rfl, rfl⟩

/-- The entry of a label change without its labels keeps the maps exactly when they hold
what it sets. -/
theorem Indexed.pushLabel_iff {m : SessionManager} (h : Indexed labels m) (env : Env)
 (targetId : String) (label : Option String) :
 Indexed labels (m.pushLabel env targetId label) ↔ (labels → m.LabelStands env targetId label) := by
 obtain ⟨hid, hlabels, htimes⟩ := h.pushLabel env targetId label
 have hframe := (m.pushLabel env targetId label).index.label_label targetId
  (label.filter (· ≠ "")) (formatIso (env.clock 0))
 have hiff := (m.pushLabel env targetId label).index.label_eq_iff targetId
  (label.filter (· ≠ "")) (formatIso (env.clock 0))
 rw [show m.LabelStands env targetId label ↔ _ from hiff.symm]
 constructor
 · intro hi hl
   obtain ⟨hb, hleaf⟩ := hframe
   have hl' := (hlabels hl).symm.trans (hi.labelsById hl).symm
   have ht' := (htimes hl).symm.trans (hi.labelTimestampsById hl).symm
   revert hb hleaf hl' ht'
   generalize (m.pushLabel env targetId label).index.label targetId (label.filter (· ≠ ""))
    (formatIso (env.clock 0)) = index
   intro hb hleaf hl' ht'
   cases index
   simp_all
 · intro he
   refine ⟨?_, fun hl => ?_, fun hl => ?_, Index.leafBound_push _ _ _⟩
   · rw [hid, hframe.1]
   · rw [hlabels hl, he hl]
   · rw [htimes hl, he hl]

/-- **A label change keeps the maps exactly when** its line is written, or the maps hold
what it sets. -/
theorem Indexed.appendLabelChange_iff {w : World} (h : Indexed labels w.manager) (env : Env)
 {targetId : String} (ht : (get? w.manager.index.byId targetId).isSome)
 (label : Option String) :
 Indexed labels (w.appendLabelChange env targetId label).2.manager
  ↔ w.Written env ∨ (labels → w.manager.LabelStands env targetId label) := by
 have hok := (w.withManager (w.manager.pushLabel env targetId label)).persistLast_ok_iff env
  (by simp [SessionManager.pushLabel, SessionManager.pushEntry, World.withManager])
 have hsame := (w.withManager (w.manager.pushLabel env targetId label)).persistLast_same env
 rw [written_pushLabel] at hok
 have hfails : ∀ e w', (w.withManager (w.manager.pushLabel env targetId label)).persistLast env
   = (.error e, w') → w.appendLabelChange env targetId label = (.error e, w') := by
  intro e w' hp
  unfold SessionManager.pushLabel at hp
  unfold World.appendLabelChange World.appendRaw World.appendEntry
  rw [if_neg (by simp [Option.isNone_iff_eq_none, Option.isSome_iff_ne_none.mp ht])]
  dsimp only at hp ⊢
  rw [hp]
 have hgoes : ∀ w', (w.withManager (w.manager.pushLabel env targetId label)).persistLast env
   = (.ok (), w') → w.appendLabelChange env targetId label
   = (.ok (w.manager.nextId env 0), w'.withManager { w'.manager with
    index := w'.manager.index.label targetId (label.filter (· ≠ ""))
     (formatIso (env.clock 0)) }) := by
  intro w' hp
  unfold SessionManager.pushLabel at hp
  unfold World.appendLabelChange World.appendRaw World.appendEntry
  rw [if_neg (by simp [Option.isNone_iff_eq_none, Option.isSome_iff_ne_none.mp ht])]
  dsimp only at hp ⊢
  rw [hp]
 rcases hp : (w.withManager (w.manager.pushLabel env targetId label)).persistLast env
  with ⟨e | _, w'⟩ <;> rw [hp] at hok hsame
 · rw [hfails e w' hp]
   have hw : ¬ w.Written env := fun hw => by simpa using hok.mpr hw
   rw [← h.pushLabel_iff env targetId label]
   dsimp only at hsame ⊢
   constructor
   · intro hi
     obtain ⟨_, _, hm⟩ := hsame
     rw [hm] at hi
     exact .inr ⟨hi.byId, hi.labelsById, hi.labelTimestampsById, hi.leaf⟩
   · intro hi
     exact (hi.resolve_left hw).same hsame
 · rw [hgoes w' hp]
   refine iff_of_true ?_ (.inl (hok.mp rfl))
   obtain ⟨hid, hlabels, htimes⟩ := h.pushLabel env targetId label
   dsimp only at hsame ⊢
   obtain ⟨_, _, hm⟩ := hsame
   rw [hm]
   exact ⟨hid.symm, fun hl => (hlabels hl).symm, fun hl => (htimes hl).symm,
    (Index.leafBound_push _ _ _).label _ _ _⟩

/-! ## Runs -/

/-- The calls that keep the maps: a label change of an entry is written, or sets what
stands; the ids of a group can be told from those in use. -/
def IndexKept (labels : Prop) (w : World) : Op × Env → Prop
 | (.appendLabelChange targetId label, env) =>
  (get? w.manager.index.byId targetId).isSome →
   w.Written env ∨ (labels → w.manager.LabelStands env targetId label)
 | (.appendGroup entries, env) | (.appendDurableGroup entries, env) =>
  w.manager.FreshDraws env 0 entries.length
 | _ => True

theorem indexed_opened {w : World} (h : Opened w) : Indexed labels w.manager := by
 have key : ∀ {disk env cwd dir file persist options lines writer},
  construct disk env cwd dir file persist options lines writer = (.ok (), w) →
  Indexed labels w.manager := by
  intro disk env cwd dir file persist options lines writer hc
  unfold construct at hc
  have hempty : Indexed labels (mk (mk "" none dir cwd persist false [] .empty writer
   false) disk).manager := .of_buildIndex rfl
  dsimp only at hc
  split at hc
  · have hs := hempty.setSessionFile env (by assumption)
    rw [hc] at hs
    exact hs
  · split at hc
    · have hs := hempty.newSession env options
      rw [hc] at hs
      exact hs
    · have hs := hempty.loadEntries env lines options
      rw [hc] at hs
      exact hs
 cases h with
 | file hc | create hc | inMemory hc => exact key hc

theorem indexed_step {w : World} (call : Op × Env) (h : Indexed labels w.manager)
 (hk : IndexKept labels w call) : Indexed labels (w.step call).manager := by
 obtain ⟨op, env⟩ := call
 cases op <;> simp only [step, perform, Result.failure_snd]
 case appendMessage message =>
  unfold appendMessage
  split
  · exact h
  · exact h
  · exact h.appendRaw env (by decide : "message" ≠ "label") fun _ _ => ⟨_, rfl⟩
 case appendThinkingLevelChange level =>
  exact h.appendRaw env (by decide : "thinking_level_change" ≠ "label") fun _ _ => ⟨_, rfl⟩
 case appendModelChange provider modelId =>
  exact h.appendRaw env (by decide : "model_change" ≠ "label") fun _ _ => ⟨_, rfl⟩
 case appendUsage kind provider model usage note =>
  exact h.appendRaw env (by decide : "usage" ≠ "label") fun _ _ => ⟨_, rfl⟩
 case appendCompaction =>
  exact h.appendRaw env (by decide : "compaction" ≠ "label") fun _ _ => ⟨_, rfl⟩
 case appendCustomEntry customType data =>
  exact h.appendRaw env (by decide : "custom" ≠ "label") fun _ _ => ⟨_, rfl⟩
 case appendSessionInfo name =>
  exact h.appendRaw env (by decide : "session_info" ≠ "label") fun _ _ => ⟨_, rfl⟩
 case appendCustomMessageEntry customType content display details =>
  exact h.appendRaw env (by decide : "custom_message" ≠ "label") fun _ _ => ⟨_, rfl⟩
 case appendContextEdit targetId replacement =>
  unfold appendContextEdit
  cases hc : w.manager.contextEdit env 0 targetId replacement with
  | error e => exact h
  | ok pair =>
   exact h.appendEntry env (contextEdit_ok hc).notLabel
 case appendLabelChange targetId label =>
  by_cases ht : (get? w.manager.index.byId targetId).isSome
  · exact (h.appendLabelChange_iff env ht label).mpr (hk ht)
  · unfold appendLabelChange
    rw [if_pos (by simpa using ht)]
    exact h
 case appendGroup entries => exact h.appendGroupInner env hk false
 case appendDurableGroup entries => exact h.appendGroupInner env hk true
 case branch id =>
  unfold branch
  split
  · exact h
  next hid =>
   refine h.moved fun leaf hl => ?_
   obtain rfl : id = leaf := Option.some.inj hl
   simpa [Option.isSome_iff_ne_none] using hid
 case resetLeaf => exact h.moved fun _ hl => absurd hl (by simp)
 case branchWithSummary branchFromId summary details fromHook usage =>
  unfold branchWithSummary
  split
  · exact h
  next hid =>
   refine Indexed.appendRaw (w := w.withManager _) env (h.moved fun leaf hl => ?_)
    (by decide : "branch_summary" ≠ "label") fun _ _ => ⟨_, rfl⟩
   simpa [hl, Option.isSome_iff_ne_none] using hid
 case newSession options => exact h.newSession env options
 case setSessionFile path => exact h.setSessionFile env path
 case createBranchedSession leafId => exact h.createBranchedSession env leafId
 case branchedCopy leafId => exact h.branchedCopy env leafId
 case closeWriter => exact ⟨h.byId, h.labelsById, h.labelTimestampsById, h.leaf⟩

/-- **In every run whose label changes are written, or set what stands,** the maps are
those of the entries and the leaf is none or at an entry. -/
theorem indexed_reachable {w : World} (h : Run.Reach Opened step (IndexKept True) w) :
 Indexed True w.manager :=
 h.invariant (fun w => Indexed True w.manager) (fun _ => indexed_opened)
  fun _ call => indexed_step call

/-- A message, a label written, and a group. -/
theorem indexed_labelled :
 Indexed True ((((newWorld fun _ => none).step (.appendMessage [("role", .string "user")], .calm)).step
  (.appendLabelChange "00000001" (some "start"), .calm)).step
  (.appendGroup [.custom "note" none], .calm)).manager := by
 refine indexed_reachable (.step (.step (.step (.init (opened_newWorld fun _ => none)) trivial) fun _ => .inl ?_) ?_)
 · exact fun path _ => ⟨fun _ => ⟨.inr (.inr ⟨rfl, false, rfl⟩), rfl⟩,
    fun hf => absurd hf (by decide +kernel)⟩
 · refine ⟨fun i _ hi => ?_, fun i j _ hij hj => ?_⟩
   · obtain rfl : i = 0 := by simpa using hi
     decide +kernel
   · simp only [List.length_singleton] at hj
     omega

/-- **A label change that is not written loses its label:** its entry stays in memory,
and the maps miss it. -/
theorem not_indexed_unwritten_label :
 ¬ ∀ w, Run.Reach Opened step (fun _ _ => True) w → Indexed True w.manager := by
 intro h
 have hi := h _ (.step (i := (.appendLabelChange "00000001" (some "start"),
  { Env.calm with write := .notOpened }))
  (.step (i := (.appendMessage [("role", .string "user")], .calm)) (.init (opened_newWorld fun _ => none)) trivial)
  trivial)
 exact absurd (hi.labelsById trivial) (by decide +kernel)

end Bake.Session
