import Bake.Session.Branched

/-!
# What dropping labels keeps

A kept entry's copy differs from it in its parent and, for a compaction, in where it
keeps from. Everything else is read from the copy as from the entry.
-/

namespace Bake.Session

open Bake.Json

/-- `copy` reads as `entry`, but for its parent and where it keeps from. -/
def CopyOf (entry copy : SessionEntry) : Prop :=
 copy.id = entry.id ∧ ∀ key, key ≠ "parentId" → key ≠ "firstKeptEntryId" →
  copy.get key = entry.get key

theorem strMember_eq_get (entry : SessionEntry) (key : String) :
 strMember entry.raw key = (entry.get key).bind Value.asStr := by
 unfold strMember SessionEntry.get
 cases OrdMap.get? entry.raw key with
 | none => rfl
 | some value => cases value <;> rfl

namespace CopyOf

variable {entry copy : SessionEntry}

theorem strMember (h : CopyOf entry copy) {key : String} (hk : key ≠ "parentId")
 (hk' : key ≠ "firstKeptEntryId") : strMember copy.raw key = strMember entry.raw key := by
 rw [strMember_eq_get, strMember_eq_get, h.2 key hk hk']

theorem entryType (h : CopyOf entry copy) : copy.entryType = entry.entryType :=
 congrArg (Option.getD · "") (h.strMember (by decide) (by decide))

theorem messageRole (h : CopyOf entry copy) : copy.messageRole = entry.messageRole := by
 unfold SessionEntry.messageRole
 rw [h.entryType, h.2 "message" (by decide) (by decide)]

end CopyOf

theorem setMember_id (entry : SessionEntry) {key : String} (h : key ≠ "id") (value : Value) :
 (entry.setMember key value).id = entry.id := by
 rw [SessionEntry.setMember, if_neg h]

theorem get_setMember (entry : SessionEntry) (key key' : String) (value : Value) :
 (entry.setMember key value).get key' = if key = key' then some value else entry.get key' :=
 OrdMap.get?_insert ..

theorem copyOf_rechainEntry (replaced : List (String × String)) (parent : Option String)
 (entry : SessionEntry) : CopyOf entry (rechainEntry replaced parent entry) := by
 have hset : CopyOf entry (entry.setMember "parentId" (idValue parent)) :=
  ⟨setMember_id _ (by decide) _, fun key hk _ => by rw [get_setMember, if_neg (Ne.symm hk)]⟩
 unfold rechainEntry
 dsimp only
 split
 · split
   · refine ⟨(setMember_id _ (by decide) _).trans hset.1, fun key hk hk' => ?_⟩
     rw [get_setMember, if_neg (Ne.symm hk'), hset.2 key hk hk']
   · exact hset
 · exact hset

/-- What is taken of a path from a point on. -/
def rechainFrom (replaced : List (String × String)) (pending : List String)
 (parent : Option String) : List SessionEntry → List SessionEntry
 | [] => []
 | entry :: rest =>
  if entry.entryType = "label" then rechainFrom replaced (pending ++ [entry.id]) parent rest
  else
   let replaced := pending.foldl (fun replaced label => OrdMap.insert replaced label entry.id)
    replaced
   rechainEntry replaced parent entry :: rechainFrom replaced [] (some entry.id) rest

variable (path : List SessionEntry)

theorem foldl_add_kept : ∀ taken : Rechained, (path.foldl Rechained.add taken).kept
  = taken.kept ++ rechainFrom taken.replacementByLabel taken.pendingLabels taken.parent path := by
 induction path with
 | nil => intro taken; simp [rechainFrom]
 | cons entry path ih =>
  intro taken
  rw [List.foldl_cons, ih, rechainFrom, Rechained.add]
  split
  · rfl
  · rw [List.append_assoc]
    rfl

theorem rechain_eq : rechain path = rechainFrom [] [] none path := by
 rw [rechain, foldl_add_kept]
 rfl

def unlabelled (path : List SessionEntry) : List SessionEntry :=
 path.filter fun entry => entry.entryType ≠ "label"

theorem rechainFrom_copies :
 ∀ (replaced : List (String × String)) (pending : List String) (parent : Option String),
  List.Forall₂ CopyOf (unlabelled path) (rechainFrom replaced pending parent path) := by
 induction path with
 | nil => exact fun _ _ _ => .nil
 | cons entry path ih =>
  intro replaced pending parent
  rw [rechainFrom]
  split
  next h =>
   rw [unlabelled, List.filter_cons_of_neg (by simp [h])]
   exact ih _ _ _
  next h =>
   rw [unlabelled, List.filter_cons_of_pos (by simp [h])]
   exact .cons (copyOf_rechainEntry _ _ entry) (ih _ _ _)

theorem rechain_copies : List.Forall₂ CopyOf (unlabelled path) (rechain path) := by
 rw [rechain_eq]
 exact rechainFrom_copies path _ _ _

theorem mem_rechain {path : List SessionEntry} {copy : SessionEntry} (h : copy ∈ rechain path) :
 ∃ entry ∈ path, entry.entryType ≠ "label" ∧ CopyOf entry copy := by
 have key : ∀ {entries copies : List SessionEntry}, List.Forall₂ CopyOf entries copies →
  copy ∈ copies → ∃ entry ∈ entries, CopyOf entry copy := by
  intro entries copies hf hc
  induction hf with
  | nil => simp at hc
  | cons hcopy _ ih =>
   rcases List.mem_cons.mp hc with rfl | hc
   · exact ⟨_, List.mem_cons_self .., hcopy⟩
   · obtain ⟨entry, he, hcopy⟩ := ih hc
     exact ⟨entry, List.mem_cons_of_mem _ he, hcopy⟩
 obtain ⟨entry, he, hcopy⟩ := key (rechain_copies path) h
 obtain ⟨he, ht⟩ := List.mem_filter.mp he
 exact ⟨entry, he, by simpa using ht, hcopy⟩

theorem entryType_labelCopy (id : String) (parent timestamp : Option String) (target label : String) :
 (labelCopy id parent timestamp target label).entryType = "label" := by
 simp [labelCopy, SessionEntry.entryType, strMember, OrdMap.get?_cons]

theorem entryType_labelCopies {draws : Nat → Draws} {timestamps : List (String × String)}
 (labels : List (String × String)) : ∀ {ids : List String} {k : Nat} {parent : Option String},
 ∀ copy ∈ labelCopies draws timestamps ids k parent labels, copy.entryType = "label" := by
 induction labels with
 | nil => exact fun _ h => absurd h (by simp [labelCopies])
 | cons label labels ih =>
  intro ids k parent copy h
  obtain ⟨target, label⟩ := label
  rw [labelCopies] at h
  rcases List.mem_cons.mp h with rfl | h
  · exact entryType_labelCopy ..
  · exact ih copy h

end Bake.Session
