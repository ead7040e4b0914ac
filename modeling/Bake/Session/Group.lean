import Bake.Session.Frame

/-!
# What a group append leaves of the manager

The entries of a group are built and pushed one after the other, so that each is the
child of the one before it and may name it. When a check, or a write, fails, the
entries and the ids are cut back by position. That takes out exactly the entries it
should because each id of the group was new: its place in the map is the last one.
-/

open List OrdMap

namespace Bake.Session

open Bake.Json
open Prod (fst)

theorem entryType_cons (id type : String) (rest : JsonObject) (verbatim : Verbatim) :
 ({ id, raw := ("type", .string type) :: rest, verbatim } : SessionEntry).entryType = type := by
 simp [SessionEntry.entryType, strMember, get?_cons]

def entryOf (pair : String × JsonObject) : SessionEntry where
 id := pair.1
 raw := pair.2

/-- The entries form one chain of parents, from `leaf` on. -/
def Chained (leaf : Option String) : List SessionEntry → Prop
 | [] => True
 | entry :: rest => entry.parentId = leaf ∧ Chained (some entry.id) rest

namespace SessionManager

/-! ## Ids -/

/-- Every id of a group is new where it is pushed. -/
def NewIds (m : SessionManager) (ids : List String) : Prop :=
 ids.Nodup ∧ ∀ id ∈ ids, id ∉ keys m.index.byId

/-- The UUIDs that the ids of a group fall back on are new: no entry has one, and none is
drawn twice. -/
structure FreshDraws (m : SessionManager) (env : Env) (k n : Nat) : Prop where
 unused : ∀ i, k ≤ i → i < k + n → (env.draws i).uuid ∉ keys m.index.byId
 distinct : ∀ i j, k ≤ i → i < j → j < k + n →
  (env.draws j).uuid ≠ (env.draws i).uuid ∧ (env.draws j).uuid ∉ (env.draws i).candidates

theorem nextId_mem (m : SessionManager) (env : Env) (k : Nat) :
 m.nextId env k = (env.draws k).uuid ∨ m.nextId env k ∈ (env.draws k).candidates := by
 unfold nextId generateEntryId
 cases hf : ((env.draws k).candidates.take 100).find? _ with
 | none => exact .inl rfl
 | some id => exact .inr (mem_of_mem_take (mem_of_find?_eq_some hf))

variable {env : Env} {m : SessionManager} {pair : String × JsonObject}

theorem nextId_fresh {k : Nat} (h : (env.draws k).uuid ∉ keys m.index.byId) :
 m.nextId env k ∉ keys m.index.byId := by
 rw [← get?_eq_none, ← Option.not_isSome_iff_eq_none, Bool.not_eq_true] at h ⊢
 exact generateEntryId_fresh (env.draws k) (fun candidate => (get? m.index.byId candidate).isSome) h

theorem byId_pushEntry_of_new {id : String} (h : id ∉ keys m.index.byId) (raw : JsonObject) :
 (m.pushEntry id raw).index.byId = m.index.byId ++ [(id, m.fileEntries.length)] :=
 insert_of_not_mem h _

theorem FreshDraws.push {k n : Nat} (h : m.FreshDraws env k (n + 1)) {id : String}
 (hid : id = m.nextId env k) (raw : JsonObject) :
 (m.pushEntry id raw).FreshDraws env (k + 1) n := by
 have hnew : id ∉ keys m.index.byId := hid ▸ nextId_fresh (h.unused k (Nat.le_refl k) (by omega))
 refine ⟨fun i hk hi hmem => ?_, fun i j hk hij hj => h.distinct i j (by omega) hij (by omega)⟩
 rw [byId_pushEntry_of_new hnew, OrdMap.keys_append, mem_append] at hmem
 rcases hmem with hmem | hmem
 · exact h.unused i (by omega) (by omega) hmem
 · obtain ⟨hne, hnc⟩ := h.distinct k i (Nat.le_refl k) (by omega) (by omega)
   have hi : (env.draws i).uuid = m.nextId env k := by simpa [hid] using hmem
   rcases m.nextId_mem env k with h | h
   · exact hne (hi.trans h)
   · exact hnc (hi ▸ h)

/-! ## One entry -/

/-- What an entry built under the next id, as a child of the leaf, is. -/
structure NextEntry (m : SessionManager) (env : Env) (k : Nat) (entry : SessionEntry) : Prop where
 id : entry.id = m.nextId env k
 parentId : entry.parentId = m.index.leafId
 notLabel : entry.entryType ≠ "label"
 notMessage : entry.entryType ≠ "message"

theorem nextEntry_base (m : SessionManager) (env : Env) (k : Nat) {type : String}
 (htype : type ≠ "label" ∧ type ≠ "message") (rest : JsonObject) :
 m.NextEntry env k (entryOf (m.nextId env k, m.base env k type (m.nextId env k) ++ rest)) := by
 have ht : (entryOf (m.nextId env k, m.base env k type (m.nextId env k) ++ rest)).entryType
  = type := entryType_cons ..
 refine ⟨rfl, ?_, by rw [ht]; exact htype.1, by rw [ht]; exact htype.2⟩
 cases hl : m.index.leafId <;>
  simp [entryOf, SessionEntry.parentId, base, baseMembers, leafValue, strMember, get?_cons, hl]

theorem contextEdit_ok {k : Nat} {targetId : String} {replacement : Option EditContent}
 (h : m.contextEdit env k targetId replacement = .ok pair) : m.NextEntry env k (entryOf pair) := by
 unfold contextEdit at h
 split at h
 · simp at h
 · split at h
   · simp at h
   · split at h
     · simp at h
     · injection h with h
       exact h ▸ m.nextEntry_base env k (by decide : "context_edit" ≠ "label" ∧ "context_edit" ≠ "message") _

theorem groupEntry_ok {k : Nat} {entry : GroupEntry} (h : m.groupEntry env k entry = .ok pair) :
 m.NextEntry env k (entryOf pair) := by
 cases entry with
 | custom customType data =>
  injection h with h
  rw [← h, append_assoc]
  exact m.nextEntry_base env k (by decide : "custom" ≠ "label" ∧ "custom" ≠ "message") _
 | customMessage customType content display details =>
  injection h with h
  rw [← h, append_assoc]
  exact m.nextEntry_base env k (by decide : "custom_message" ≠ "label" ∧ "custom_message" ≠ "message") _
 | modelChange provider modelId =>
  injection h with h
  exact h ▸ m.nextEntry_base env k (by decide : "model_change" ≠ "label" ∧ "model_change" ≠ "message") _
 | thinkingLevelChange level =>
  injection h with h
  exact h ▸ m.nextEntry_base env k (by decide : "thinking_level_change" ≠ "label" ∧ "thinking_level_change" ≠ "message") _
 | contextEdit targetId replacement => exact contextEdit_ok h

/-! ## All entries -/

def pushAll (m : SessionManager) (pairs : List (String × JsonObject)) : SessionManager :=
 pairs.foldl (fun m pair => m.pushEntry pair.1 pair.2) m

/-- `pairs` are built from the entries of a group, each on the manager that the ones
before it leave. -/
inductive Built (env : Env) : SessionManager → Nat → List GroupEntry → List (String × JsonObject) → Prop
 where
 | nil {m : SessionManager} {k : Nat} : Built env m k [] []
 | cons {m : SessionManager} {k : Nat} {entry : GroupEntry} {rest : List GroupEntry}
  {pair : String × JsonObject} {pairs : List (String × JsonObject)} :
  m.groupEntry env k entry = .ok pair →
  Built env (m.pushEntry pair.1 pair.2) (k + 1) rest pairs →
  Built env m k (entry :: rest) (pair :: pairs)

/-- **What pushing a group leaves:** the entries up to the first check that fails, built
and pushed one after the other. -/
theorem pushGroup_spec (env : Env) (entries : List GroupEntry) : ∀ (m : SessionManager) (k : Nat),
 ∃ done rest pairs error, entries = done ++ rest ∧ Built env m k done pairs
  ∧ m.pushGroup env k entries = (pairs.map fst, error, m.pushAll pairs)
  ∧ (error = none → rest = []) := by
 induction entries with
 | nil => exact fun m k => ⟨[], [], [], none, rfl, .nil, rfl, fun _ => rfl⟩
 | cons entry entries ih =>
  intro m k
  rw [pushGroup]
  cases he : m.groupEntry env k entry with
  | error e => exact ⟨[], entry :: entries, [], some e, rfl, .nil, rfl, by simp⟩
  | ok pair =>
   obtain ⟨done, rest, pairs, error, hd, hb, hp, hr⟩ := ih (m.pushEntry pair.1 pair.2) (k + 1)
   refine ⟨entry :: done, rest, pair :: pairs, error, by rw [hd, cons_append],
    .cons he hb, ?_, hr⟩
   dsimp only
   rw [hp]
   rfl

namespace Built

variable {env : Env} {m : SessionManager} {k : Nat} {entries : List GroupEntry}
 {pairs : List (String × JsonObject)}

section

variable (h : Built env m k entries pairs)

include h

theorem length : pairs.length = entries.length := by
 induction h with
 | nil => rfl
 | cons _ _ ih => simp [ih]

theorem notLabel :
 ∀ pair ∈ pairs, (entryOf pair).entryType ≠ "label" := by
 induction h with
 | nil => simp
 | cons he _ ih =>
  intro pair hpair
  rcases mem_cons.mp hpair with rfl | hpair
  · exact (groupEntry_ok he).notLabel
  · exact ih pair hpair

theorem notMessage :
 ∀ pair ∈ pairs, (entryOf pair).entryType ≠ "message" := by
 induction h with
 | nil => simp
 | cons he _ ih =>
  intro pair hpair
  rcases mem_cons.mp hpair with rfl | hpair
  · exact (groupEntry_ok he).notMessage
  · exact ih pair hpair

theorem chained : Chained m.index.leafId (pairs.map entryOf) := by
 induction h with
 | nil => trivial
 | cons he _ ih => exact ⟨(groupEntry_ok he).parentId, ih⟩

theorem newIds (hf : m.FreshDraws env k entries.length) :
 m.NewIds (pairs.map fst) := by
 induction h with
 | nil => exact ⟨nodup_nil, by simp⟩
 | @cons m k entry rest pair pairs he _ ih =>
  have hid : pair.1 = m.nextId env k := (groupEntry_ok he).id
  have hnew : pair.1 ∉ keys m.index.byId :=
   hid ▸ nextId_fresh (hf.unused k (Nat.le_refl k) (by simp))
  obtain ⟨hnd, hni⟩ := ih (hf.push hid pair.2)
  rw [byId_pushEntry_of_new hnew] at hni
  refine ⟨nodup_cons.mpr ⟨fun hmem => ?_, hnd⟩, fun id hid => ?_⟩
  · exact hni pair.1 hmem (by simp)
  · rcases mem_cons.mp hid with rfl | hid
    · exact hnew
    · exact fun hk => hni id hid (by simp [hk])

end

end Built

theorem NewIds.take {ids : List String} (h : m.NewIds ids) (n : Nat) : m.NewIds (ids.take n) :=
 ⟨h.1.sublist (take_sublist ..), fun id hid => h.2 id (mem_of_mem_take hid)⟩

def withNew (m : SessionManager) (new : List SessionEntry) : SessionManager :=
 { m with
   fileEntries := m.fileEntries ++ new.map FileEntry.entry
   index := { m.index with
    byId := m.index.byId ++ (new.map SessionEntry.id).zipIdx m.fileEntries.length
    leafId := (new.map SessionEntry.id).getLast?.or m.index.leafId } }

theorem pushAll_of_new (pairs : List (String × JsonObject)) : ∀ {m : SessionManager},
 m.NewIds (pairs.map fst) → m.pushAll pairs = m.withNew (pairs.map entryOf) := by
 induction pairs with
 | nil => intro m _; simp [pushAll, withNew]
 | cons pair pairs ih =>
  intro m ⟨hnd, hni⟩
  have hnew := hni pair.1 (by simp)
  rw [map_cons, nodup_cons] at hnd
  have hpush := byId_pushEntry_of_new hnew pair.2
  have hrest : (m.pushEntry pair.1 pair.2).NewIds (pairs.map fst) := by
   refine ⟨hnd.2, fun id hid => ?_⟩
   rw [hpush, OrdMap.keys_append, mem_append]
   rintro (h | h)
   · exact hni id (mem_cons_of_mem _ hid) h
   · obtain rfl : id = pair.1 := by simpa using h
     exact hnd.1 hid
  rw [show m.pushAll (pair :: pairs) = (m.pushEntry pair.1 pair.2).pushAll pairs from rfl,
   ih hrest, withNew, hpush]
  simp only [withNew, pushEntry, Index.push, map_cons, append_assoc, zipIdx_cons,
   length_append, length_singleton, cons_append, nil_append,
   getLast?_cons, entryOf]
  congr 2
  cases (List.map SessionEntry.id (List.map entryOf pairs)).getLast? <;> rfl

/-- **Keeping the first entries of a group** leaves what pushing only those leaves. -/
theorem keepGroupPrefix_pushAll {pairs : List (String × JsonObject)}
 (h : m.NewIds (pairs.map fst)) {kept : Nat} (hk : kept ≤ pairs.length) :
 (m.pushAll pairs).keepGroupPrefix m.fileEntries.length m.index.byId.length m.index.leafId
  (pairs.map fst) kept = m.withNew ((pairs.take kept).map entryOf) := by
 have hids : (pairs.map entryOf).map SessionEntry.id = pairs.map fst := by
  rw [map_map]
  rfl
 have hleaf : (if kept = 0 then m.index.leafId
  else ((pairs.map fst)[kept - 1]?).or m.index.leafId)
  = ((pairs.map fst).take kept).getLast?.or m.index.leafId := by
  rw [getLast?_take]
  split
  · rfl
  · have hlt : kept - 1 < (pairs.map fst).length := by rw [length_map]; omega
    rw [getElem?_eq_getElem hlt]
    rfl
 have hplaces : ((pairs.map fst).zipIdx m.fileEntries.length).take kept
  = ((pairs.map fst).take kept).zipIdx m.fileEntries.length := by
  refine ext_getElem? fun i => ?_
  simp only [getElem?_take, getElem?_zipIdx]
  split <;> rfl
 rw [pushAll_of_new _ h]
 unfold keepGroupPrefix withNew
 dsimp only
 rw [hleaf, take_length_add_append, take_length_add_append, map_take, map_take,
  map_take, hids, hplaces]

theorem SameSession.keepGroupPrefix {m' : SessionManager} (h : m.SameSession m')
 (start startIds : Nat) (leaf : Option String) (ids : List String) (kept : Nat) :
 (m.keepGroupPrefix start startIds leaf ids kept).SameSession
  (m'.keepGroupPrefix start startIds leaf ids kept) := by
 obtain ⟨writer, flushed, rfl⟩ := h
 exact ⟨writer, flushed, rfl⟩

end SessionManager

/-! ## The append -/

/-- How a group append ends: a check fails; or all entries are pushed, and there is
nothing to write, or writing them succeeds, fails before the first line, or stops at one. -/
theorem World.appendGroupInner_cases {w : World} {env : Env} {entries : List GroupEntry}
 (hf : w.manager.FreshDraws env 0 entries.length) (forceCreate : Bool) :
 (∃ e, (w.manager.pushGroup env 0 entries).2.1 = some e
  ∧ w.appendGroupInner env entries forceCreate = (.error e, w))
 ∨ ∃ pairs, SessionManager.Built env w.manager 0 entries pairs ∧ w.manager.NewIds (pairs.map fst)
  ∧ ((pairs = [] ∧ w.appendGroupInner env entries forceCreate = (.ok [], w))
   ∨ pairs ≠ [] ∧ ∃ failure w',
    (w.withManager (w.manager.withNew (pairs.map entryOf))).persistGroup env
     w.manager.fileEntries.length forceCreate = (failure, w')
    ∧ match failure with
     | none => w.appendGroupInner env entries forceCreate = (.ok (pairs.map fst), w')
     | some (.before e) => ∃ m, w.manager.SameSession m
      ∧ w.appendGroupInner env entries forceCreate = (.error e, w'.withManager m)
     | some (.at path failure) => ∃ m,
      (w.manager.withNew ((pairs.take failure.synced).map entryOf)).SameSession m
      ∧ w.appendGroupInner env entries forceCreate
       = (.error (.groupWrite path ((pairs.take failure.synced).map fst)
        pairs.length failure.line), w'.withManager m)) := by
 obtain ⟨done, rest, pairs, error, hd, hb, hp, hr⟩ := SessionManager.pushGroup_spec env entries
  w.manager 0
 have hfd : w.manager.FreshDraws env 0 done.length := by
  have hle : done.length ≤ entries.length := by rw [hd]; simp
  exact ⟨fun i h0 hi => hf.unused i h0 (by omega),
   fun i j h0 hij hj => hf.distinct i j h0 hij (by omega)⟩
 have hnew := hb.newIds hfd
 have hkeep : ∀ {m' : SessionManager} {kept : Nat}, (w.manager.pushAll pairs).SameSession m' →
  kept ≤ pairs.length → (w.manager.withNew ((pairs.take kept).map entryOf)).SameSession
   (m'.keepGroupPrefix w.manager.fileEntries.length w.manager.index.byId.length
    w.manager.index.leafId (pairs.map fst) kept) := by
  intro m' kept hs hk
  rw [← SessionManager.keepGroupPrefix_pushAll hnew hk]
  exact hs.keepGroupPrefix ..
 have hnone : w.manager.withNew ((pairs.take 0).map entryOf) = w.manager := by
  simp [SessionManager.withNew]
 unfold appendGroupInner
 dsimp only
 rw [hp]
 dsimp only
 cases error with
 | some e =>
  refine .inl ⟨e, rfl, ?_⟩
  dsimp only
  rw [SessionManager.keepGroupPrefix_pushAll hnew (Nat.zero_le _), hnone]
  rfl
 | none =>
  obtain rfl := hr rfl
  rw [append_nil] at hd
  subst hd
  refine .inr ⟨pairs, hb, hnew, ?_⟩
  rw [← SessionManager.pushAll_of_new _ hnew]
  dsimp only
  by_cases hnil : pairs = []
  · subst hnil
    exact .inl ⟨rfl, rfl⟩
  rw [if_neg (by simpa using hnil)]
  have hs := (w.withManager (w.manager.pushAll pairs)).persistGroup_same env
   w.manager.fileEntries.length forceCreate
  refine .inr ⟨hnil, ?_⟩
  rcases hpg : (w.withManager (w.manager.pushAll pairs)).persistGroup env
   w.manager.fileEntries.length forceCreate with ⟨_ | failure | ⟨path, failure⟩, w'⟩
  all_goals
   rw [hpg] at hs
   refine ⟨_, w', rfl, ?_⟩
   dsimp only
  · refine ⟨_, ?_, rfl⟩
    have := hkeep hs (Nat.zero_le _)
    rwa [hnone] at this
  · have hkept : min failure.synced (pairs.map fst).length ≤ pairs.length := by
     rw [length_map]
     exact Nat.min_le_right ..
    have htake : pairs.take failure.synced
     = pairs.take (min failure.synced (pairs.map fst).length) := by
     rw [length_map, ← take_eq_take_min]
    rw [htake]
    refine ⟨_, hkeep hs hkept, ?_⟩
    rw [map_take]
    simp only [length_map]

end Bake.Session
