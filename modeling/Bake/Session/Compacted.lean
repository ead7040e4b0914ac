import Mathlib.Data.List.TakeWhile
import Bake.Session.Compaction
import Bake.Session.Path

/-!
# What a compaction keeps

The messages before a compaction are those it summarizes, those of a split turn, and
those it keeps, and behind it the context is its own messages and those kept. The cut is
an index into the projected entries, where the newest compaction stands first; it is
recorded as an id, which is looked up on the path.

An edit ahead of the entry it names is lost when the cut falls between them.
-/

open List OrdMap
open OrdMap (get?)

namespace Bake.Session

open Bake.Json ProjectedSessionEntry SessionManager

/-! ## Edits -/

def SessionEntry.edits (entry : SessionEntry) (id : String) : Bool :=
 entry.entryType = "context_edit" && strMember entry.raw "targetId" = some id

def EditsBack (path : List SessionEntry) : Prop :=
 path.Pairwise fun edit entry => edit.edits entry.id = false

instance (path : List SessionEntry) : Decidable (EditsBack path) :=
 inferInstanceAs (Decidable (path.Pairwise _))

theorem editsBack_snoc (path : List SessionEntry) (entry : SessionEntry) :
 EditsBack (path ++ [entry]) ↔ EditsBack path ∧ ∀ edit ∈ path, edit.edits entry.id = false := by
 simp [EditsBack, pairwise_append]

theorem get?_contextEdits (context : List SessionEntry) (id : String) :
 get? (contextEdits context) id = (context.filter (·.edits id)).getLast? := by
 induction context using List.reverseRecOn with
 | nil => rfl
 | append_singleton context entry ih =>
  have hstep : contextEdits (context ++ [entry])
   = if entry.entryType = "context_edit" then
    (strMember entry.raw "targetId").elim (contextEdits context) fun target =>
     insert (contextEdits context) target entry
    else contextEdits context := by
   rw [contextEdits, foldl_concat]
   cases strMember entry.raw "targetId" <;> rfl
  rw [hstep, filter_append]
  by_cases ht : entry.entryType = "context_edit"
  · rw [if_pos ht]
    cases htarget : strMember entry.raw "targetId" with
    | none => simp [SessionEntry.edits, htarget, ih]
    | some target =>
     rw [Option.elim_some, get?_insert]
     by_cases hid : target = id
     · simp [SessionEntry.edits, ht, htarget, hid]
     · simp [SessionEntry.edits, ht, htarget, hid, ih]
  · rw [if_neg ht]
    simp [SessionEntry.edits, ht, ih]

/-! ## Roles -/

def nonSystem (message : AgentMessage) : Bool := roleOf message ≠ some "system"

variable {key : String} {entry compaction : SessionEntry} {path after before : List SessionEntry}
 {entries : List ProjectedSessionEntry}

theorem strMember_insert (object : JsonObject) {key' : String} (value : Value) (h : key ≠ key') :
 strMember (insert object key value) key' = strMember object key' := by
 rw [strMember, strMember, get?_insert_ne _ _ h]

theorem roleOf_insert (message : AgentMessage) (value : Value) (h : key ≠ "role") :
 roleOf (insert message key value) = roleOf message := strMember_insert _ value h

theorem roleOf_copyMember (target source : JsonObject) (h : key ≠ "role") :
 roleOf (copyMember target source key) = roleOf target := by
 unfold copyMember
 split
 · exact roleOf_insert _ _ h
 · rfl

theorem roleOf_editMessage (content : Option Value) (message : AgentMessage) :
 roleOf (editMessage content message) = roleOf message := by
 have herase : roleOf (erase message "content") = roleOf message := by
  rw [roleOf, roleOf, strMember, strMember, get?_erase, if_neg (by decide)]
 unfold editMessage
 dsimp only
 split
 · rfl
 · split
   · split <;> exact roleOf_insert _ _ (by decide)
   · exact roleOf_insert _ _ (by decide)
   · exact herase

/-- An entry other than a compaction has only system messages or none. -/
theorem roleOf_context (h : entry.entryType ≠ "compaction") {message : AgentMessage}
 (hm : message ∈ sessionEntryToContextMessages entry) :
 roleOf message = some "system" ↔ entry.messageRole = some "system" := by
 have hother : entry.entryType ≠ "message" → roleOf message ≠ some "system" →
  (roleOf message = some "system" ↔ entry.messageRole = some "system") := by
  intro ht hr
  rw [SessionEntry.messageRole, if_pos ht]
  exact ⟨fun h => absurd h hr, by simp⟩
 unfold sessionEntryToContextMessages at hm
 split at hm
 next ht =>
  have hrole : entry.messageRole
   = ((get? entry.raw "message").bind Value.asObject).bind roleOf := by
   rw [SessionEntry.messageRole, if_neg (by simpa using ht)]
   rfl
  split at hm
  next object ho =>
   rw [hrole, ho]
   have hsame : roleOf message = roleOf object := by
    dsimp only at hm
    split at hm
    · rw [mem_singleton.mp hm, roleOf_insert _ _ (by decide)]
    · split at hm
      · rw [mem_singleton.mp hm, roleOf_insert _ _ (by decide)]
      · rw [mem_singleton.mp hm]
   rw [hsame]
   rfl
  · simp at hm
 next ht =>
  split at hm
  · refine hother ht ?_
    rw [mem_singleton.mp hm, roleOf_insert _ _ (by decide), roleOf_copyMember _ _ (by decide),
     roleOf_copyMember _ _ (by decide), roleOf_insert _ _ (by decide),
     roleOf_copyMember _ _ (by decide)]
    decide
  · split at hm
    · refine hother ht ?_
      rw [mem_singleton.mp hm, roleOf_insert _ _ (by decide),
       roleOf_copyMember _ _ (by decide), roleOf_copyMember _ _ (by decide)]
      decide
    · simp at hm

def shown (edits : EntryIndex) (entry : SessionEntry) : List AgentMessage :=
 if entry.entryType = "compaction" ∨ entry.messageRole = some "system" then []
 else projectEntry entry (get? edits entry.id)

def SessionEntry.shows (entry : SessionEntry) : Bool :=
 entry.entryType ≠ "compaction" && entry.messageRole ≠ some "system"

theorem shown_of_not {edits : EntryIndex} (h : entry.shows = false) : shown edits entry = [] := by
 rw [shown, if_pos]
 by_cases ht : entry.entryType = "compaction"
 · exact .inl ht
 · exact .inr (by simpa [SessionEntry.shows, ht] using h)

theorem flatMap_shown (edits : EntryIndex) (entries : List SessionEntry) :
 (entries.filter SessionEntry.shows).flatMap (shown edits) = entries.flatMap (shown edits) := by
 induction entries with
 | nil => rfl
 | cons entry entries ih =>
  cases hs : entry.shows with
  | true => rw [filter_cons_of_pos hs, flatMap_cons, flatMap_cons, ih]
  | false =>
   rw [filter_cons_of_neg (by simp [hs]), flatMap_cons, shown_of_not hs,
    nil_append, ih]

/-- **What a projected entry adds to a summary** is what it shows. -/
theorem summaryMessages_projectAt (edits : EntryIndex) (first : Bool) (entry : SessionEntry) :
 (projectAt edits first entry).summaryMessages = shown edits entry := by
 unfold summaryMessages isCompaction shown projectAt
 by_cases ht : entry.entryType = "compaction"
 · simp [ht]
 simp only [ht, decide_false, Bool.false_eq_true, if_false, false_and, false_or]
 have hroles : ∀ message ∈ projectEntry entry (get? edits entry.id),
  (roleOf message = some "system" ↔ entry.messageRole = some "system") := by
  intro message hm
  unfold projectEntry at hm
  dsimp only at hm
  split at hm
  · exact roleOf_context ht hm
  · simp at hm
  · obtain ⟨message, hmessage, rfl⟩ := mem_map.mp hm
    rw [roleOf_editMessage]
    exact roleOf_context ht hmessage
 split
 next hs =>
  exact filter_eq_nil_iff.mpr fun message hm => by simpa using (hroles message hm).mpr hs
 next hs =>
  exact filter_eq_self.mpr fun message hm => by simpa using mt (hroles message hm).mp hs

/-! ## The context of a path -/

/-- The entry is kept behind a compaction. -/
def SessionEntry.survives (entry : SessionEntry) : Bool := entry.messageRole ≠ some "system"

theorem SessionEntry.survives_of_edits {id : String} (h : entry.edits id = true) :
 entry.survives = true := by
 have ht : entry.entryType = "context_edit" := by
  simp only [SessionEntry.edits, Bool.and_eq_true, decide_eq_true_eq] at h
  exact h.1
 simp [SessionEntry.survives, SessionEntry.messageRole, ht]

theorem SessionEntry.survives_of_shows (h : entry.shows = true) : entry.survives = true:= by
 simp only [SessionEntry.shows, Bool.and_eq_true] at h
 exact h.2

theorem filter_survives {p : SessionEntry → Bool} (h : ∀ entry, p entry = true → entry.survives = true)
 (l : List SessionEntry) : (l.filter SessionEntry.survives).filter p = l.filter p := by
 rw [filter_filter]
 refine filter_congr fun entry _ => ?_
 cases hp : p entry with
 | false => simp
 | true => simp [h entry hp]

theorem contextEntries_cases (path : List SessionEntry) :
 (contextEntries path = path ∧ ∀ entry ∈ path, entry.entryType ≠ "compaction")
  ∨ ∃ before kept compaction after, path = before ++ (kept ++ compaction :: after)
   ∧ compaction.entryType = "compaction"
   ∧ contextEntries path = compaction :: (kept.filter SessionEntry.survives ++ after) := by
 let isCompaction := fun entry : SessionEntry => decide (entry.entryType = "compaction")
 have hsplit := takeWhile_append_dropWhile (p := fun entry => !isCompaction entry)
  (l := path.reverse)
 unfold contextEntries
 dsimp only
 cases hd : path.reverse.dropWhile fun entry => !isCompaction entry with
 | nil =>
  refine .inl ⟨rfl, fun entry he => ?_⟩
  have := dropWhile_eq_nil_iff.mp hd entry (mem_reverse.mpr he)
  simpa [isCompaction] using this
 | cons compaction older =>
  rw [hd] at hsplit
  have hc : isCompaction compaction = true := by
   have := head?_dropWhile_not (fun entry => !isCompaction entry) path.reverse
   rw [hd] at this
   simpa using this
  refine .inr ⟨older.reverse.takeWhile fun entry => some entry.id ≠
   strMember compaction.raw "firstKeptEntryId", older.reverse.dropWhile fun entry =>
   some entry.id ≠ strMember compaction.raw "firstKeptEntryId", compaction,
   (path.reverse.takeWhile fun entry => !isCompaction entry).reverse, ?_,
   by simpa [isCompaction] using hc, rfl⟩
  rw [← append_assoc, takeWhile_append_dropWhile]
  have := congrArg List.reverse hsplit
  simpa using this.symm

theorem contextEntries_behind (path : List SessionEntry) (h : compaction.entryType = "compaction")
 (hafter : ∀ entry ∈ after, entry.entryType ≠ "compaction") :
 contextEntries (path ++ compaction :: after) = compaction :: ((path.dropWhile fun entry =>
  some entry.id ≠ strMember compaction.raw "firstKeptEntryId").filter SessionEntry.survives
   ++ after) := by
 have hsurvives : SessionEntry.survives
  = fun entry => decide (entry.messageRole ≠ some "system") := rfl
 have hrev : ∀ entry ∈ after.reverse, (!decide (entry.entryType = "compaction")) = true :=
  fun entry hin => by simpa using hafter entry (mem_reverse.mp hin)
 unfold contextEntries
 simp only [reverse_append, reverse_cons, append_assoc, singleton_append]
 rw [dropWhile_append_of_pos hrev, takeWhile_append_of_pos hrev,
  dropWhile_cons_of_neg (by simp [h]), takeWhile_cons_of_neg (by simp [h])]
 simp [hsurvives]

theorem dropWhile_id {α : Type} (key : α → String) {before after : List α} {entry : α}
 (h : ((before ++ entry :: after).map key).Nodup) :
 ((before ++ entry :: after).dropWhile fun other => some (key other) ≠ some (key entry))
  = entry :: after := by
 rw [dropWhile_append_of_pos, dropWhile_cons_of_neg (by simp)]
 intro other ho
 rw [map_append, nodup_append, map_cons] at h
 simpa using h.2.2 _ (mem_map_of_mem ho) _ (mem_cons_self ..)

theorem nodup_contextEntries (hd : (path.map SessionEntry.id).Nodup) :
 ((contextEntries path).map SessionEntry.id).Nodup := by
 rcases contextEntries_cases path with ⟨hsame, -⟩ | ⟨pre, kept, compaction, post, rfl, -, hctx⟩
 · rwa [hsame]
 · rw [hctx]
   rw [map_append] at hd
   have hd := (nodup_append.mp hd).2.1
   have hperm : (kept ++ compaction :: post).Perm (compaction :: (kept ++ post)) := perm_middle
   refine List.Nodup.sublist ?_ ((hperm.map SessionEntry.id).nodup_iff.mp hd)
   exact ((filter_sublist.append_right post).cons_cons compaction).map SessionEntry.id

variable {first : SessionEntry}

/-- **The entries from a cut on,** by place in the context and by id on the path: the same
ones show something, and the edits of entries kept are those among them. -/
theorem kept_eq (hd : (path.map SessionEntry.id).Nodup) (hne : before ≠ [])
 (hcontext : contextEntries path = before ++ first :: after) : ∃ gone kept, path = gone ++ kept
  ∧ (path.dropWhile fun entry => some entry.id ≠ some first.id) = kept
  ∧ kept.filter SessionEntry.shows = (first :: after).filter SessionEntry.shows
  ∧ ∀ id, (∀ edit ∈ gone, edit.edits id = false) →
   (contextEntries path).filter (·.edits id) = kept.filter (·.edits id) := by
 have hgone : ∀ {gone : List SessionEntry} {id : String}, (∀ edit ∈ gone, edit.edits id = false) →
  gone.filter (·.edits id) = [] :=
  fun h => filter_eq_nil_iff.mpr fun edit he => by simp [h edit he]
 rcases contextEntries_cases path with ⟨hsame, -⟩ | ⟨pre, kept, compaction, post, rfl, hc, hctx⟩
 · rw [hsame] at hcontext
   subst hcontext
   refine ⟨before, first :: after, rfl, dropWhile_id SessionEntry.id hd, rfl, fun id h => ?_⟩
   rw [hsame, filter_append, hgone h, nil_append]
 have hnotEdit : ∀ id, compaction.edits id = false := fun id => by simp [SessionEntry.edits, hc]
 have hnotShown : compaction.shows = false := by simp [SessionEntry.shows, hc]
 have hedits : ∀ id, (contextEntries (pre ++ (kept ++ compaction :: post))).filter (·.edits id)
  = kept.filter (·.edits id) ++ post.filter (·.edits id) := by
  intro id
  rw [hctx, filter_cons_of_neg (by simp [hnotEdit]), filter_append,
   filter_survives fun entry => SessionEntry.survives_of_edits]
 rw [hctx] at hcontext
 obtain ⟨before, rfl⟩ : ∃ rest, before = compaction :: rest := by
  cases before with
  | nil => exact absurd rfl hne
  | cons head rest =>
   injection hcontext with hhead _
   exact ⟨rest, by rw [hhead]⟩
 injection hcontext with _ hrest
 rcases append_eq_append_iff.mp hrest with ⟨between, hbefore, hpost⟩ | ⟨from_, hkept, hfrom⟩
 · -- the cut is behind the newest compaction
   subst hpost
   refine ⟨pre ++ (kept ++ compaction :: between), first :: after, by simp, ?_, rfl, fun id h => ?_⟩
   · have := @dropWhile_id _ SessionEntry.id (pre ++ (kept ++ compaction :: between)) after first (by simpa using hd)
     simpa using this
   · rw [hedits]
     have hk : kept.filter (·.edits id) = [] := hgone fun edit he => h edit (by simp [he])
     have hb : between.filter (·.edits id) = [] := hgone fun edit he => h edit (by simp [he])
     rw [hk, filter_append, hb, nil_append, nil_append]
 cases from_ with
 | nil =>
  -- the cut is right behind the newest compaction
  rw [nil_append] at hfrom
  subst hfrom
  refine ⟨pre ++ (kept ++ [compaction]), first :: after, by simp, ?_, rfl, fun id h => ?_⟩
  · have := @dropWhile_id _ SessionEntry.id (pre ++ (kept ++ [compaction])) after first (by simpa using hd)
    simpa using this
  · have hk : kept.filter (·.edits id) = [] := hgone fun edit he => h edit (by simp [he])
    rw [hedits, hk, nil_append]
 | cons head from_ =>
  -- the cut is in the range the newest compaction kept
  injection hfrom with hhead hfrom
  subst hhead
  have hfrom : after = from_ ++ post := hfrom
  obtain ⟨k, k', rfl, -, hk'⟩ := filter_eq_append_iff.mp hkept
  obtain ⟨k'', rest, rfl, -, -, hrest'⟩ := filter_eq_cons_iff.mp hk'
  refine ⟨pre ++ (k ++ k''), first :: (rest ++ compaction :: post), by simp, ?_, ?_,
   fun id h => ?_⟩
  · have := @dropWhile_id _ SessionEntry.id (pre ++ (k ++ k'')) (rest ++ compaction :: post) first
     (by simpa using hd)
    simpa using this
  · have hshown := filter_survives (fun entry => @SessionEntry.survives_of_shows entry) rest
    rw [hfrom, ← hrest', filter_cons, filter_cons, filter_append,
     filter_append, hshown, filter_cons_of_neg (by simp [hnotShown])]
  · have hk : (k ++ k'').filter (·.edits id) = [] := hgone fun edit he => h edit (by
     rw [mem_append]
     exact .inr he)
    rw [filter_append] at hk
    obtain ⟨hk, hk''⟩ := append_eq_nil_iff.mp hk
    rw [hedits, filter_append, hk, filter_append, hk'', nil_append,
     nil_append, filter_cons, filter_cons, filter_append,
     filter_cons_of_neg (by simp [hnotEdit])]
    split <;> rfl

/-! ## The partition -/

def newestOwn : List ProjectedSessionEntry → List AgentMessage
 | entry :: _ => if entry.isCompaction then entry.messages else []
 | [] => []

def keptFrom (entries : List ProjectedSessionEntry) (id : String) : List AgentMessage :=
 (entries.dropWhile fun entry => some entry.sourceEntry.id ≠ some id).flatMap summaryMessages

theorem summaryRange_eq {start stop : Nat} (h : start ≤ stop) (hl : stop ≤ entries.length) :
 summaryRange entries start stop = ((entries.take stop).drop start).flatMap summaryMessages := by
 rw [summaryRange, Nat.max_eq_right h, if_pos hl]

theorem summaryRange_eq_nil (entries : List ProjectedSessionEntry) {start stop : Nat}
 (h : stop ≤ start) : summaryRange entries start stop = [] := by
 rw [summaryRange, Nat.max_eq_left h]
 split
 · rw [drop_of_length_le (by rw [length_take]; exact Nat.min_le_left ..)]
   rfl
 · rfl

theorem findProjectedTurnStartIndex_bounds {entryIndex startIndex start : Nat}
 (h : findProjectedTurnStartIndex entries entryIndex startIndex = some start) :
 startIndex ≤ start ∧ start ≤ entryIndex := by
 have hmem := mem_of_find?_eq_some h
 rw [mem_reverse, mem_range'_1] at hmem
 omega

theorem findProjectedCutPoint_turn (entries : List ProjectedSessionEntry)
 (startIndex endIndex keepRecentTokens : Nat) {start : Nat} :
 let cut := findProjectedCutPoint entries startIndex endIndex keepRecentTokens
 cut.turnStartIndex = some start → startIndex ≤ start ∧ start ≤ cut.firstKeptEntryIndex := by
 unfold findProjectedCutPoint
 dsimp only
 split
 · dsimp only
   generalize moveBack entries startIndex _ = cutIndex
   intro h
   split at h
   · simp at h
   · exact findProjectedTurnStartIndex_bounds h
 · intro h
   simp at h

theorem boundaryStart_cases (entries : List ProjectedSessionEntry) :
 (boundaryStart entries = 0 ∧ ∀ entry ∈ entries, entry.isCompaction = true → entry.messages = [])
  ∨ ∃ index entry, boundaryStart entries = index + 1 ∧ entries[index]? = some entry
   ∧ entry.isCompaction = true ∧ entry.messages ≠ [] := by
 unfold boundaryStart
 cases hp : previousIndex entries with
 | none =>
  refine .inl ⟨rfl, fun entry he hc => ?_⟩
  have := findIdx?_eq_none_iff.mp hp entry he
  simpa [hc] using this
 | some index =>
  obtain ⟨hlt, hentry, -⟩ := findIdx?_eq_some_iff_getElem.mp hp
  simp only [Bool.and_eq_true, Bool.not_eq_true', isEmpty_eq_false_iff] at hentry
  exact .inr ⟨index, entries[index], rfl, getElem?_eq_getElem hlt, hentry.1, hentry.2⟩

/-- The messages before a cut are those summarized and those of a split turn. -/
theorem messages_before_cut {cut : CutPointResult}
 (hturn : ∀ start, cut.turnStartIndex = some start →
  boundaryStart entries ≤ start ∧ start ≤ cut.firstKeptEntryIndex)
 (hlen : cut.firstKeptEntryIndex ≤ entries.length) :
 messagesToSummarize entries cut ++ turnPrefixMessages entries cut
  = summaryRange entries (boundaryStart entries) cut.firstKeptEntryIndex := by
 unfold messagesToSummarize turnPrefixMessages
 cases hs : cut.splitStart with
 | none => simp
 | some start =>
  have hstart : cut.turnStartIndex = some start := by
   unfold CutPointResult.splitStart at hs
   split at hs
   · exact hs
   · simp at hs
  obtain ⟨hlow, hhigh⟩ := hturn start hstart
  dsimp only
  rw [Option.getD_some, summaryRange_eq hlow (Nat.le_trans hhigh hlen),
   summaryRange_eq hhigh hlen, summaryRange_eq (Nat.le_trans hlow hhigh) hlen,
   ← flatMap_append]
  have hsplit : entries.take start ++ (entries.take cut.firstKeptEntryIndex).drop start
   = entries.take cut.firstKeptEntryIndex := by
   have := take_append_drop start (entries.take cut.firstKeptEntryIndex)
   rwa [take_take, Nat.min_eq_left hhigh] at this
  conv_rhs => rw [← hsplit, drop_append_of_le_length (by rw [length_take]; omega)]

/-- What a preparation says: the cut, the entry at it, and the messages before it. -/
theorem prepareCompaction_spec {contextTokens : Value → Nat} {settings : CompactionSettings}
 {p : CompactionPreparation} (h : prepareCompaction contextTokens path settings = some p) :
 let entries := (buildSessionProjection path .last).entries
 ∃ cut first, boundaryStart entries < cut ∧ entries[cut]? = some first
  ∧ p.firstKeptEntryId = first.sourceEntry.id
  ∧ p.messagesToSummarize ++ p.turnPrefixMessages = summaryRange entries (boundaryStart entries) cut
  ∧ cut = (findProjectedCutPoint entries (boundaryStart entries) entries.length
   settings.keepRecentTokens).firstKeptEntryIndex := by
 intro entries
 unfold prepareCompaction at h
 split at h
 · simp at h
 dsimp only at h
 have hturn := @findProjectedCutPoint_turn entries (boundaryStart entries) entries.length
  settings.keepRecentTokens
 generalize hcut : findProjectedCutPoint (buildSessionProjection path .last).entries
  (boundaryStart (buildSessionProjection path .last).entries)
  (buildSessionProjection path .last).entries.length settings.keepRecentTokens = cut at h hturn
 obtain ⟨first, hfirst, h⟩ := Option.bind_eq_some_iff.mp h
 split at h
 · simp at h
 split at h
 · simp at h
 rename_i hmessages
 cases h
 have hlen : cut.firstKeptEntryIndex ≤ entries.length :=
  Nat.le_of_lt (List.getElem_of_getElem? hfirst).1
 have hbefore := messages_before_cut (fun start => hturn) hlen
 refine ⟨cut.firstKeptEntryIndex, first, ?_, hfirst, rfl, hbefore, ?_⟩
 · -- no message comes from an empty range
   by_contra hle
   rw [summaryRange_eq_nil entries (Nat.le_of_not_lt hle)] at hbefore
   obtain ⟨hs, ht⟩ := append_eq_nil_iff.mp hbefore
   exact hmessages (by simp only [entries] at hs ht; simp [hs, ht])
 · rw [← hcut]

/-- **The messages of a projection,** in three parts: what the newest compaction shows of
itself, what a range behind it summarizes, and the rest. -/
theorem messages_split {cut : Nat}
 (hlast : ∀ entry ∈ entries.tail, entry.isCompaction = true → entry.messages = [])
 (hlt : boundaryStart entries < cut) (hlen : cut ≤ entries.length) :
 (entries.flatMap messages).filter nonSystem
  = (newestOwn entries).filter nonSystem ++ (summaryRange entries (boundaryStart entries) cut
   ++ (entries.drop cut).flatMap summaryMessages) := by
 have hrest : ∀ l : List ProjectedSessionEntry,
  (∀ entry ∈ l, entry.isCompaction = true → entry.messages = []) →
  (l.flatMap messages).filter nonSystem = l.flatMap summaryMessages := by
  intro l hl
  rw [filter_flatMap]
  refine flatMap_congr fun entry he => ?_
  unfold summaryMessages
  split
  next hc =>
   rw [hl entry he hc]
   rfl
  · rfl
 have hsplit : ∀ start, start ≤ cut → (entries.drop start).flatMap
  summaryMessages = summaryRange entries start cut
   ++ (entries.drop cut).flatMap summaryMessages := by
  intro start hs
  rw [summaryRange_eq hs hlen, ← flatMap_append]
  congr 1
  conv_lhs => rw [← take_append_drop cut entries]
  rw [drop_append_of_le_length (by rw [length_take]; omega)]
 rcases boundaryStart_cases entries with ⟨hb, hnone⟩ | ⟨index, entry, hb, hentry, hc, hm⟩
 · rw [hb, ← hsplit 0 (Nat.zero_le _), drop_zero, hrest entries hnone]
   cases entries with
   | nil => rfl
   | cons entry rest =>
    rw [newestOwn]
    split
    next hc =>
     rw [hnone entry (mem_cons_self ..) hc]
     rfl
    · rfl
 cases entries with
 | nil => simp at hentry
 | cons first rest =>
  cases index with
  | zero =>
   obtain rfl : first = entry := by simpa using hentry
   rw [← hsplit _ (Nat.le_of_lt hlt), hb, flatMap_cons, filter_append]
   simp only [newestOwn, hc, if_true, Nat.zero_add, drop_succ_cons, drop_zero]
   rw [hrest rest hlast]
  | succ index =>
   refine absurd (hlast entry ?_ hc) hm
   rw [getElem?_cons_succ] at hentry
   exact mem_of_getElem? hentry

/-! ## Behind the compaction -/

theorem projectContext_sources (context : List SessionEntry) :
 (projectContext context).map sourceEntry = context := by
 cases context with
 | nil => rfl
 | cons entry rest =>
  rw [projectContext]
  simp only [map_cons, map_map]
  exact congrArg _ (map_id rest)

theorem projectContext_tail (context : List SessionEntry) :
 ∀ entry ∈ (projectContext context).tail, entry.isCompaction = true → entry.messages = [] := by
 intro entry he hc
 cases context with
 | nil => simp [projectContext] at he
 | cons first rest =>
  rw [projectContext, tail_cons] at he
  obtain ⟨source, -, rfl⟩ := mem_map.mp he
  have ht : source.entryType = "compaction" := by
   simpa [isCompaction, projectAt] using hc
  simp [projectAt, ht]

theorem flatMap_projectContext_drop (context : List SessionEntry) (cut : Nat) :
 ((projectContext context).drop cut).flatMap summaryMessages
  = (context.drop cut).flatMap (shown (contextEdits context)) := by
 cases context with
 | nil => simp [projectContext]
 | cons entry rest =>
  have hmap : (projectContext (entry :: rest)).map summaryMessages
   = (entry :: rest).map (shown (contextEdits (entry :: rest))) := by
   rw [projectContext]
   simp only [map_cons, map_map, summaryMessages_projectAt]
   congr 1
   exact map_congr_left fun other _ => summaryMessages_projectAt _ _ other
  rw [flatMap_def, flatMap_def, map_drop, map_drop, hmap]

theorem split_at {α : Type} {l : List α} {i : Nat} {a : α} (h : l[i]? = some a) :
 l = l.take i ++ a :: l.drop (i + 1) := by
 obtain ⟨hlen, hget⟩ := List.getElem_of_getElem? h
 rw [← hget, ← drop_eq_getElem_cons hlen, take_append_drop]

theorem keptFrom_eq {context : List SessionEntry} (hd : (context.map SessionEntry.id).Nodup)
 {cut : Nat} {first : ProjectedSessionEntry} (h : (projectContext context)[cut]? = some first) :
 keptFrom (projectContext context) first.sourceEntry.id
  = (context.drop cut).flatMap (shown (contextEdits context)) := by
 have hids : ((projectContext context).map fun entry => entry.sourceEntry.id).Nodup := by
  have : (projectContext context).map (fun entry => entry.sourceEntry.id)
   = ((projectContext context).map sourceEntry).map SessionEntry.id := by
   rw [map_map]
   rfl
  rwa [this, projectContext_sources]
 rw [split_at h] at hids
 have hdrop := dropWhile_id (fun entry : ProjectedSessionEntry => entry.sourceEntry.id) hids
 have hcons : first :: (projectContext context).drop (cut + 1) = (projectContext context).drop cut := by
  obtain ⟨hlen, hget⟩ := List.getElem_of_getElem? h
  rw [← hget, ← drop_eq_getElem_cons hlen]
 rw [← split_at h] at hdrop
 rw [keptFrom, hdrop, hcons, flatMap_projectContext_drop]

theorem messages_projectAt {edits : EntryIndex} (h : entry.survives = true) :
 (projectAt edits false entry).messages = shown edits entry := by
 have hs : entry.messageRole ≠ some "system" := by simpa [SessionEntry.survives] using h
 simp [projectAt, shown, hs]

/-- **Behind a compaction,** the context is the compaction's own messages and what the
entries from the cut on showed before it. -/
theorem projectContext_snoc (hd : (path.map SessionEntry.id).Nodup)
 (hne : before ≠ []) (hcontext : contextEntries path = before ++ first :: after)
 (hc : compaction.entryType = "compaction")
 (hfirst : strMember compaction.raw "firstKeptEntryId" = some first.id)
 (hback : EditsBack (path ++ [compaction])) :
 (projectContext (contextEntries (path ++ [compaction]))).flatMap messages
  = sessionEntryToContextMessages compaction
   ++ (first :: after).flatMap (shown (contextEdits (contextEntries path))) := by
 obtain ⟨gone, kept, hpath, hdrop, hshown, hedits⟩ := kept_eq hd hne hcontext
 rw [editsBack_snoc] at hback
 rw [contextEntries_behind path hc (by simp), append_nil, hfirst, hdrop]
 have hnotEdit : ∀ id, compaction.edits id = false := fun id => by simp [SessionEntry.edits, hc]
 let context := compaction :: kept.filter SessionEntry.survives
 have hfilter : ∀ id, context.filter (·.edits id) = kept.filter (·.edits id) := by
  intro id
  rw [filter_cons_of_neg (by simp [hnotEdit]),
   filter_survives fun entry => SessionEntry.survives_of_edits]
 -- the compaction itself is not edited
 have hown : get? (contextEdits context) compaction.id = none := by
  rw [get?_contextEdits, hfilter, getLast?_eq_none_iff, filter_eq_nil_iff]
  intro edit he
  simp [hback.2 edit (hpath ▸ mem_append_right gone he)]
 -- an entry kept has the edit it had
 have hsame : ∀ entry ∈ kept, get? (contextEdits context) entry.id
  = get? (contextEdits (contextEntries path)) entry.id := by
  intro entry he
  rw [get?_contextEdits, get?_contextEdits, hfilter, hedits]
  intro edit hedit
  have hpairs := hback.1
  rw [hpath, EditsBack, pairwise_append] at hpairs
  exact hpairs.2.2 edit hedit entry he
 have hmessages : (kept.filter SessionEntry.survives).flatMap (fun entry =>
  (projectAt (contextEdits context) false entry).messages)
  = (kept.filter SessionEntry.survives).flatMap (shown (contextEdits (contextEntries path))) := by
  refine flatMap_congr fun entry he => ?_
  obtain ⟨he, hs⟩ := mem_filter.mp he
  rw [messages_projectAt hs, shown, shown, hsame entry he]
 show (projectContext context).flatMap messages = _
 have hproject : projectContext context = projectAt (contextEdits context) true compaction
  :: (kept.filter SessionEntry.survives).map (projectAt (contextEdits context) false) := rfl
 have hcompaction : (projectAt (contextEdits context) true compaction).messages
  = sessionEntryToContextMessages compaction := by
  simp [projectAt, projectEntry, hown]
 rw [hproject, flatMap_cons, flatMap_map, hmessages, hcompaction, ← flatMap_shown,
  filter_survives fun entry => SessionEntry.survives_of_shows, hshown, flatMap_shown]

/-! ## The compaction of a session -/

def SessionManager.compactionEntry (m : SessionManager) (env : Env) (summary : String)
 (firstKeptEntryId : Option String) (tokensBefore : Nat) (details : Option Value)
 (fromHook : Option Bool) (usage : Option Value) : SessionEntry where
 id := m.nextId env 0
 raw := m.compactionRaw env (m.nextId env 0) summary firstKeptEntryId tokensBefore details fromHook
  usage

section Appended

variable (m : SessionManager) (env : Env) (summary : String) (tokensBefore : Nat)
 (details : Option Value) (fromHook : Option Bool) (usage : Option Value)

theorem get?_compactionRaw_system (id : String) (firstKept : Option String) :
 get? (m.compactionRaw env id summary firstKept tokensBefore details fromHook usage)
  "systemMessage" = m.recordedSystem (formatIso (env.clock 0)) := by
 have hoptional : ∀ (key : String) (value : Option Value), key ≠ "systemMessage" →
  get? (optionalMember key value) "systemMessage" = none := by
  intro key value hk
  cases value with
  | none => rfl
  | some value => rw [optionalMember, get?_cons, if_neg hk]; rfl
 unfold compactionRaw
 simp only [get?_append, hoptional _ _ (by decide : "details" ≠ "systemMessage"),
  hoptional _ _ (by decide : "usage" ≠ "systemMessage"),
  hoptional _ _ (by decide : "fromHook" ≠ "systemMessage")]
 cases m.recordedSystem (formatIso (env.clock 0)) with
 | none | some system => rfl

/-- **A compaction's own messages:** the system message it records, if any, and its summary. -/
theorem context_compactionEntry (firstKept : Option String) :
 ∃ summaryMessage, roleOf summaryMessage = some "compactionSummary"
  ∧ strMember summaryMessage "summary" = some summary
  ∧ sessionEntryToContextMessages
   (m.compactionEntry env summary firstKept tokensBefore details fromHook usage)
   = ((m.recordedSystem (formatIso (env.clock 0))).bind Value.asObject).toList
    ++ [summaryMessage] := by
 let entry := m.compactionEntry env summary firstKept tokensBefore details fromHook usage
 have ht : entry.entryType = "compaction" := entryType_cons ..
 have hsummary : get? entry.raw "summary" = some (.string summary) := by
  simp [entry, compactionEntry, compactionRaw, base, baseMembers, get?_cons]
 have hget : ∀ (target source : JsonObject) (key : String), key ≠ "summary" →
  strMember (copyMember target source key) "summary" = strMember target "summary" := by
  intro target source key hk
  unfold copyMember
  split
  · exact strMember_insert _ _ hk
  · rfl
 refine ⟨insert (copyMember (copyMember (roleObject "compactionSummary") entry.raw "summary")
  entry.raw "tokensBefore") "timestamp" (timestampValue entry), ?_, ?_, ?_⟩
 · rw [roleOf_insert _ _ (by decide), roleOf_copyMember _ _ (by decide),
    roleOf_copyMember _ _ (by decide)]
   rfl
 · rw [strMember_insert _ _ (by decide), hget _ _ _ (by decide), copyMember, hsummary]
   simp [strMember]
 have hsystem := get?_compactionRaw_system m env summary tokensBefore details fromHook usage
  (m.nextId env 0) firstKept
 have hraw : entry.raw = m.compactionRaw env (m.nextId env 0) summary firstKept tokensBefore
  details fromHook usage := rfl
 show sessionEntryToContextMessages entry = _
 unfold sessionEntryToContextMessages
 rw [if_neg (by rw [ht]; decide), if_neg (by rw [ht]; decide), if_neg (by rw [ht]; simp),
  if_pos ht]
 dsimp only
 rw [hraw, hsystem]
 cases hs : m.recordedSystem (formatIso (env.clock 0)) with
 | none => rfl
 | some system => cases system <;> rfl

end Appended

theorem messages_appendCompaction {w : World} (hi : Indexed False w.manager) (env : Env)
 (hfresh : get? w.manager.index.byId (env.draws 0).uuid = none)
 (hne : w.manager.branchEntries none ≠ []) (summary : String) (firstKept : Option String)
 (tokensBefore : Nat) (details : Option Value) (fromHook : Option Bool) (usage : Option Value) :
 (w.step (.appendCompaction summary firstKept tokensBefore details fromHook usage,
  env)).manager.buildSessionContext.messages
  = (projectContext (contextEntries (w.manager.branchEntries none ++ [w.manager.compactionEntry env
   summary firstKept tokensBefore details fromHook usage]))).flatMap
   messages := by
 let compaction := w.manager.compactionEntry env summary firstKept tokensBefore details fromHook usage
 have hnew : get? w.manager.index.byId compaction.id = none :=
  get?_eq_none.mpr (nextId_fresh (get?_eq_none.mp hfresh))
 have hparent : strMember compaction.raw "parentId" = w.manager.index.leafId := by
  cases hl : w.manager.index.leafId <;>
   simp [compaction, compactionEntry, compactionRaw, base, baseMembers, leafValue, strMember,
    get?_cons, hl]
 have hstep : w.step (.appendCompaction summary firstKept tokensBefore details fromHook usage, env)
  = (w.appendEntry env compaction.id compaction.raw).2 := by
  show (Result.failure _).2 = _
  rw [Result.failure_snd]
  rfl
 obtain ⟨writer, flushed, hm⟩ := w.appendEntry_same env compaction.id compaction.raw
 have hpath := hi.sessionPath_pushEntry hnew hparent hne
 rw [hstep, hm]
 show (projectContext (contextEntries (sessionPath _ (.ofLeaf _) _))).flatMap _ = _
 exact congrArg (fun path => (projectContext (contextEntries path)).flatMap messages) hpath

def storedMessage (id : String) (parentId : Option String) (role content : String) : Line :=
 ([("type", .string "message"), ("id", .string id),
  ("parentId", match parentId with
   | some parentId => .string parentId
   | none => .null),
  ("message", .object [("role", .string role), ("content", .string content)])], none)

def storedEdit (id parentId targetId content : String) : Line :=
 ([("type", .string "context_edit"), ("id", .string id), ("parentId", .string parentId),
  ("targetId", .string targetId),
  ("replacement", .object [("content", .string content)])], none)

/-- A session in memory of lines without a header. -/
def loadedWorld (lines : List Line) : World :=
 (World.construct (fun _ => none) .calm "/work" "" none false {} lines none).2

def editedConversation : World :=
 loadedWorld [storedMessage "a" none "user" "first", storedMessage "b" (some "a") "custom" "note",
  storedEdit "c" "b" "b" "edited", storedMessage "d" (some "c") "user" "last"]

def editedAhead : World :=
 loadedWorld [storedMessage "a" none "user" "first", storedEdit "b" "a" "d" "edited",
  storedMessage "c" (some "b") "custom" "note", storedMessage "d" (some "c") "user" "last"]

def keepNewest : CompactionSettings :=
 { enabled := true, reserveTokens := 0, keepRecentTokens := 1, thresholdPercent := none }

theorem reach_loadedWorld {lines : List Line}
 (h : (World.construct (fun _ => none) .calm "/work" "" none false {} lines none).1 = .ok ()) :
 Run.Reach Opened World.step (IndexKept False) (loadedWorld lines) :=
 .init (@Opened.inMemory (fun _ => none) .calm "/work" {} lines _ (Prod.ext h rfl))

theorem prepares_editedAhead : (prepareCompaction (fun _ => 0)
 (editedAhead.manager.branchEntries none) keepNewest).isSome = true := by decide +kernel

def entriesOf (lines : List JsonObject) : List SessionEntry :=
 lines.filterMap fun line => (FileEntry.fromLine line none).asEntry

/-- The random source draws fresh ids: none is empty, and no UUID comes up that an earlier entry
may have been given. -/
def FreshDraws (draws : Nat → Draws) : Prop :=
 ∀ n, (∀ id ∈ (draws n).uuid :: (draws n).candidates, id ≠ "")
  ∧ ∀ m < n, (draws n).uuid ∉ (draws m).uuid :: (draws m).candidates

def linkValue : Option String → Value
 | some parent => .string parent
 | none => .null

/-- What version 1's migration makes of a line behind others. -/
structure Migrated (before : List JsonObject) (previous : Option String) (line : JsonObject)
 (entry : SessionEntry) : Prop where
 opens : (FileEntry.fromLine entry.raw none).asEntry = some entry
 headless : isSessionLine entry.raw = false
 id : get? entry.raw "id" = some (.string entry.id)
 parent : get? entry.raw "parentId" = some (linkValue previous)
 member : ∀ key, key ∉ ["id", "parentId", "firstKeptEntryId", "firstKeptEntryIndex"] →
  get? entry.raw key = get? line key
 kept : ∀ number index target, strMember line "type" = some "compaction" →
  get? line "firstKeptEntryIndex" = some (.number number) → indexValue number = some index →
  before[index]? = some target → isSessionLine target = false → ∀ id, get? target "id" = some id →
  get? entry.raw "firstKeptEntryId" = some id

/-- The lines one after the other, each linked to the one before it. -/
def MigratedAll (before : List JsonObject) (previous : Option String) (lines : List JsonObject)
 (entries : List SessionEntry) : Prop :=
 entries.length = lines.length ∧ ∀ front entry after, entries = front ++ entry :: after →
  ∃ line, lines[front.length]? = some line ∧ Migrated (before ++ front.map SessionEntry.raw)
    ((front.getLast?.map SessionEntry.id).or previous) line entry

theorem generateEntryId_mem (draws : Draws) (inUse : String → Bool) :
 generateEntryId draws inUse ∈ draws.uuid :: draws.candidates := by
 unfold generateEntryId
 cases hf : (draws.candidates.take 100).find? fun id => !inUse id with
 | none => exact mem_cons_self
 | some id => exact mem_cons_of_mem _ (mem_of_mem_take (mem_of_find?_eq_some hf))

theorem get?_migrateKept (all : List JsonObject) (entry : JsonObject)
 (hid : key ≠ "firstKeptEntryId") (hindex : key ≠ "firstKeptEntryIndex") :
 get? (migrateKept all entry) key = get? entry key := by
 unfold migrateKept
 split
 · rfl
 · split
   · rw [OrdMap.get?_erase, if_neg hindex.symm]
     split
     · split
       · exact OrdMap.get?_insert_ne _ _ hid.symm
       · rw [OrdMap.get?_erase, if_neg hid.symm]
     · rfl
   · rfl

theorem get?_withId (entry : JsonObject) (id : String) (previous : Option String) (key : String) :
 get? (withId entry id previous) key = if "parentId" = key then some (linkValue previous)
  else if "id" = key then some (.string id) else get? entry key := by
 unfold withId
 rw [OrdMap.get?_insert, OrdMap.get?_insert]
 cases previous <;> rfl

/-- One line is migrated. -/
theorem Migrated.of_line {before rest : List JsonObject} {line : JsonObject}
 (hline : isSessionLine line = false) (id : String) (previous : Option String) :
 Migrated before previous line
  { id, raw := migrateKept (before ++ rest) (withId line id previous) } := by
 have hid : get? (migrateKept (before ++ rest) (withId line id previous)) "id"
  = some (.string id) := by
  rw [get?_migrateKept _ _ (by decide) (by decide), get?_withId]
  rfl
 have hsession : isSessionLine
  (migrateKept (before ++ rest) (withId line id previous)) = false := by
  rw [isSessionLine_migrateKept, isSessionLine_withId, hline]
 refine ⟨?_, hsession, hid, ?_, fun key hkey => ?_, ?_⟩
 · unfold FileEntry.fromLine
   rw [if_neg (by simpa [isSessionLine] using hsession)]
   simp only [SessionEntry.fromJson, strMember, hid, Option.map_some]
   rfl
 · rw [get?_migrateKept _ _ (by decide) (by decide), get?_withId]
   rfl
 · simp only [mem_cons, not_mem_nil, or_false, not_or] at hkey
   dsimp only
   rw [get?_migrateKept _ _ hkey.2.2.1 hkey.2.2.2, get?_withId, if_neg (Ne.symm hkey.2.1),
    if_neg (Ne.symm hkey.1)]
 intro number index target htype hkept hindex hat htarget targetId hhas
 have hall : (before ++ rest)[index]? = some target := by
  rw [getElem?_append_left (List.getElem?_eq_some_iff.mp hat).1, hat]
 have htype' : strMember (withId line id previous) "type" = some "compaction" := by
  unfold strMember at htype ⊢
  rw [get?_withId]
  exact htype
 have hkept' : get? (withId line id previous) "firstKeptEntryIndex" = some (.number number) := by
  rw [get?_withId]
  exact hkept
 dsimp only
 unfold migrateKept
 rw [if_neg (by simp [htype']), hkept']
 have hfound : ((indexValue number).bind fun i => (before ++ rest)[i]?).filter
  (fun target => !isSessionLine target) = some target := by
  rw [hindex, Option.bind_some, hall]
  simp [htarget]
 simp only [hfound, hhas]
 rw [OrdMap.get?_erase, if_neg (by decide)]
 exact OrdMap.get?_insert_self _ _ _

theorem MigratedAll.cons {before lines : List JsonObject} {line : JsonObject}
 {first : SessionEntry} {entries : List SessionEntry} {previous : Option String}
 (hfirst : Migrated before previous line first)
 (h : MigratedAll (before ++ [first.raw]) (some first.id) lines entries) :
 MigratedAll before previous (line :: lines) (first :: entries) := by
 refine ⟨congrArg Nat.succ h.1, fun front entry after he => ?_⟩
 cases front with
 | nil =>
  obtain ⟨rfl, -⟩ := List.cons.inj he
  exact ⟨line, rfl, by simpa using hfirst⟩
 | cons other front =>
  obtain ⟨rfl, hrest⟩ := List.cons.inj he
  obtain ⟨found, hfound, hmigrated⟩ := h.2 front entry after hrest
  refine ⟨found, by simpa using hfound, ?_⟩
  rw [append_assoc] at hmigrated
  cases hlast : front.getLast? with
  | none =>
   obtain rfl := List.getLast?_eq_none_iff.mp hlast
   simpa using hmigrated
  | some last =>
   rw [hlast] at hmigrated
   rw [getLast?_cons, hlast]
   simpa using hmigrated

/-- **Version 1's migration, line by line:** every line behind the header is migrated and linked
to the one before it, under an id of its own. -/
theorem migrateV1ToV2From_spec {draws : Nat → Draws} (hfresh : FreshDraws draws)
 (lines : List JsonObject) : ∀ {done : List JsonObject} {ids : List String}
 {previous : Option String}, (∀ line ∈ lines, isSessionLine line = false) → ids.Nodup →
 (∀ id ∈ ids, ∃ n < done.length, id ∈ (draws n).uuid :: (draws n).candidates) →
 ∃ entries : List SessionEntry,
  migrateV1ToV2From draws done ids previous lines = done ++ entries.map SessionEntry.raw
  ∧ MigratedAll done previous lines entries ∧ (ids ++ entries.map SessionEntry.id).Nodup
  ∧ ∀ entry ∈ entries, entry.id ≠ "" := by
 induction lines with
 | nil => exact fun _ hd _ => ⟨[], by simp [migrateV1ToV2From],
  ⟨rfl, by simp⟩, by simpa using hd, by simp⟩
 | cons line lines ih =>
  intro done ids previous hlines hd hdrawn
  have hline := hlines line mem_cons_self
  obtain ⟨id, hid⟩ : ∃ id, generateEntryId (draws done.length) (fun candidate => candidate ∈ ids)
   = id := ⟨_, rfl⟩
  have hmem : id ∈ (draws done.length).uuid :: (draws done.length).candidates :=
   hid ▸ generateEntryId_mem _ _
  have hnew : id ∉ ids := by
   have huuid : decide ((draws done.length).uuid ∈ ids) = false := by
    refine decide_eq_false fun hin => ?_
    obtain ⟨n, hn, hat⟩ := hdrawn _ hin
    exact (hfresh done.length).2 n hn hat
   have := generateEntryId_fresh (draws done.length) (fun candidate => candidate ∈ ids) huuid
   rw [hid] at this
   simpa using this
  have hmigrated := @Migrated.of_line done (withId line id previous :: lines) line
   hline id previous
  obtain ⟨entries, hout, hall, hnodup, hnonempty⟩ := @ih (done ++ [migrateKept
   (done ++ withId line id previous :: lines) (withId line id previous)]) (ids ++ [id])
   (some id) (fun line hin => hlines line (mem_cons_of_mem _ hin))
   (by
    rw [nodup_append]
    refine ⟨hd, by simp, fun a ha b hb => ?_⟩
    rw [mem_singleton.mp hb]
    exact fun he => hnew (he ▸ ha))
   (fun other hin => by
    rw [length_append]
    rcases mem_append.mp hin with hin | hin
    · obtain ⟨n, hn, hat⟩ := hdrawn other hin
      exact ⟨n, by omega, hat⟩
    · exact ⟨done.length, by simp, mem_singleton.mp hin ▸ hmem⟩)
  refine ⟨_ :: entries, ?_, MigratedAll.cons hmigrated hall, ?_, ?_⟩
  · rw [migrateV1ToV2From, if_neg (by simp [hline])]
    simp only [hid, hout, map_cons, append_assoc, singleton_append]
  · simpa using hnodup
  · intro entry hin
    rcases mem_cons.mp hin with rfl | hin
    · exact (hfresh done.length).1 id hmem
    · exact hnonempty entry hin

/-- The path up a chain of entries is the entries in front. -/
theorem pathUp_chain {entries : List SessionEntry} (hd : (entries.map SessionEntry.id).Nodup)
 (hne : ∀ entry ∈ entries, entry.id ≠ "")
 (hchain : ∀ front entry after, entries = front ++ entry :: after →
  get? entry.raw "parentId" = some (linkValue (front.getLast?.map SessionEntry.id)))
 (front : List SessionEntry) : ∀ (entry : SessionEntry) (after : List SessionEntry)
 (seen : List String), entries = front ++ entry :: after → (∀ other ∈ front, other.id ∉ seen) →
 pathUp (indexEntries entries) seen entry = entry :: front.reverse := by
 induction front using List.reverseRecOn with
 | nil =>
  intro entry after seen he _
  have hparent := hchain [] entry after he
  rw [pathUp_eq, show parentIn (indexEntries entries) entry = none by
   unfold parentIn SessionEntry.parentId strMember
   rw [hparent]
   rfl]
  rfl
 | append_singleton front parent ih =>
  intro entry after seen he hseen
  have hparent := hchain _ entry after he
  rw [getLast?_concat] at hparent
  have hin : parent ∈ entries := by
   rw [he]
   simp
  have hup : parentIn (indexEntries entries) entry = some parent := by
   refine parentIn_eq_some.mpr ⟨parent.id, ?_, hne parent hin, get?_indexEntries_of_mem hd hin⟩
   unfold SessionEntry.parentId strMember
   rw [hparent]
   rfl
  have hids := hd
  rw [he, map_append, nodup_append] at hids
  have hother : ∀ other ∈ front ++ [parent], other.id ≠ entry.id := fun other ho =>
   hids.2.2 _ (mem_map_of_mem ho) _ mem_cons_self
  rw [pathUp_eq, hup]
  dsimp only
  rw [if_neg (by
   rw [mem_cons, not_or]
   exact ⟨hother parent (by simp), hseen parent (by simp)⟩)]
  rw [ih parent (entry :: after) (entry.id :: seen) (by rw [he]; simp) fun other ho => by
   rw [mem_cons, not_or]
   refine ⟨hother other (by simp [ho]), hseen other (by simp [ho])⟩]
  simp

/-- What version 1's migration leaves of a conversation. -/
structure Keeps (header : JsonObject) (lines migrated : List JsonObject)
 (entries : List SessionEntry) : Prop where
 shape : migrated = OrdMap.insert header "version" (.number (.ofNat 2))
  :: entries.map SessionEntry.raw
 length : entries.length = lines.length
 ids : (entries.map SessionEntry.id).Nodup
 path : sessionPath entries .last (indexEntries entries) = entries
 /-- Each entry is its line, linked to the entry before it, and the path to it is the entries
  up to it. -/
 chain : ∀ front entry after, entries = front ++ entry :: after →
  get? entry.raw "parentId" = some (linkValue (front.getLast?.map SessionEntry.id))
  ∧ (∃ line, lines[front.length]? = some line ∧
   ∀ key, key ∉ ["id", "parentId", "firstKeptEntryId", "firstKeptEntryIndex"] →
    get? entry.raw key = get? line key)
  ∧ sessionPath entries (.id entry.id) (indexEntries entries) = front ++ [entry]
 /-- The context behind a compaction, up to any entry before the next one. -/
 context : ∀ front target between compaction after later line number,
  entries = front ++ target :: (between ++ compaction :: (after ++ later)) →
  lines[front.length + 1 + between.length]? = some line →
  strMember line "type" = some "compaction" →
  get? line "firstKeptEntryIndex" = some (.number number) →
  indexValue number = some (front.length + 1) →
  (∀ entry ∈ after, entry.entryType ≠ "compaction") →
  contextEntries (front ++ target :: (between ++ compaction :: after))
   = compaction :: ((target :: between).filter SessionEntry.survives ++ after)

section

variable {header : JsonObject} {lines : List JsonObject} {all : List SessionEntry}
 (hall : MigratedAll [header] none lines all)
include hall

theorem MigratedAll.entriesOf (hheader : isSessionLine header = true) :
 entriesOf (header :: all.map SessionEntry.raw) = all := by
 have hopens : ∀ entry ∈ all, (FileEntry.fromLine entry.raw none).asEntry = some entry := by
  intro entry hin
  obtain ⟨front, after, he⟩ := append_of_mem hin
  obtain ⟨line, -, hline⟩ := hall.2 _ _ _ he
  exact hline.opens
 have hhead : (FileEntry.fromLine header none).asEntry = none := by
  unfold FileEntry.fromLine
  rw [if_pos (by simpa [isSessionLine] using hheader)]
  rfl
 rw [Session.entriesOf,
  filterMap_cons_none (f := fun line => (FileEntry.fromLine line none).asEntry) hhead, filterMap_map]
 exact (filterMap_congr hopens).trans filterMap_some

theorem MigratedAll.parent {front : List SessionEntry} (he : all = front ++ entry :: after) :
 get? entry.raw "parentId" = some (linkValue (front.getLast?.map SessionEntry.id)) := by
 obtain ⟨line, -, hline⟩ := hall.2 _ _ _ he
 simpa using hline.parent

/-- The context behind a compaction starts with the line its index names. -/
theorem MigratedAll.context (hnodup : (all.map SessionEntry.id).Nodup)
 {front between later : List SessionEntry} {target : SessionEntry}
 {line : JsonObject} {number : Number}
 (he : all = front ++ target :: (between ++ compaction :: (after ++ later)))
 (hat : lines[front.length + 1 + between.length]? = some line)
 (htype : strMember line "type" = some "compaction")
 (hkept : get? line "firstKeptEntryIndex" = some (.number number))
 (hindex : indexValue number = some (front.length + 1))
 (hafter : ∀ entry ∈ after, entry.entryType ≠ "compaction") :
 contextEntries (front ++ target :: (between ++ compaction :: after))
  = compaction :: ((target :: between).filter SessionEntry.survives ++ after) := by
 have hat' : all = (front ++ target :: between) ++ compaction :: (after ++ later) := by
  rw [he]
  simp
 obtain ⟨line', hline', hmade⟩ := hall.2 _ _ _ hat'
 have hline : line' = line := by
  rw [length_append, length_cons, show front.length + (between.length + 1)
   = front.length + 1 + between.length by omega, hat] at hline'
  exact (Option.some.inj hline').symm
 subst hline
 obtain ⟨_, -, htarget⟩ := hall.2 _ _ _ he
 have hfirst := hmade.kept number _ target.raw htype hkept hindex (by simp) htarget.headless _
  htarget.id
 have htype' : compaction.entryType = "compaction" := by
  unfold SessionEntry.entryType strMember
  unfold strMember at htype
  rw [hmade.member "type" (by decide), htype]
  rfl
 have hids : strMember compaction.raw "firstKeptEntryId" = some target.id := by
  unfold strMember
  rw [hfirst]
 have hd : ((front ++ target :: between).map SessionEntry.id).Nodup := by
  rw [hat', map_append, nodup_append] at hnodup
  exact hnodup.1
 have hdrop := dropWhile_id SessionEntry.id hd
 rw [show front ++ target :: (between ++ compaction :: after)
  = (front ++ target :: between) ++ compaction :: after by simp,
  contextEntries_behind _ htype' hafter, hids, hdrop]

end

/-- **Version 1's migration keeps the conversation:** the entries are the lines behind the header
in order, under ids of their own, each linked to the one before it; so the path to an entry is the
entries up to it. Behind a compaction whose index names an earlier line the context goes on with
what is kept from exactly that line on, its system messages left out. -/
theorem migrateV1ToV2_keeps {draws : Nat → Draws} (hfresh : FreshDraws draws)
 {header : JsonObject} {lines : List JsonObject} (hheader : isSessionLine header = true)
 (hlines : ∀ line ∈ lines, isSessionLine line = false) :
 Keeps header lines (migrateV1ToV2 draws (header :: lines))
  (entriesOf (migrateV1ToV2 draws (header :: lines))) := by
 obtain ⟨all, hout, hall, hnodup, hne⟩ := @migrateV1ToV2From_spec draws hfresh lines
  [OrdMap.insert header "version" (.number (.ofNat 2))] [] none
  hlines .nil (by simp)
 have hmigrated : migrateV1ToV2 draws (header :: lines)
  = OrdMap.insert header "version" (.number (.ofNat 2)) :: all.map SessionEntry.raw := by
  rw [migrateV1ToV2, migrateV1ToV2From, if_pos hheader]
  exact hout
 rw [hmigrated, hall.entriesOf ((isSessionLine_insert (by decide) _).trans hheader)]
 rw [nil_append] at hnodup
 have hpath : ∀ front entry after, all = front ++ entry :: after →
  pathToRoot (some entry) (indexEntries all) = front ++ [entry] := by
  intro front entry after he
  rw [pathToRoot, pathUp_chain hnodup hne (fun _ _ _ => hall.parent) front entry after [] he
   (by simp)]
  simp
 refine ⟨rfl, hall.1, hnodup, ?_, fun front entry after he => ⟨hall.parent he, ?_, ?_⟩, ?_⟩
 · cases hlast : all.getLast? with
   | none =>
    rw [List.getLast?_eq_none_iff.mp hlast]
    rfl
   | some last =>
    obtain ⟨front, he⟩ := List.getLast?_eq_some_iff.mp hlast
    rw [sessionPath, hlast, hpath front last [] (by rw [he])]
    exact he.symm
 · obtain ⟨line, hat, hline⟩ := hall.2 _ _ _ he
   exact ⟨line, hat, hline.member⟩
 · have hin : entry ∈ all := by
    rw [he]
    simp
   have hget := get?_indexEntries_of_mem hnodup hin
   rw [sessionPath, hget, Option.filter_some, if_pos (by simpa using hne entry hin),
    Option.some_or, hpath front entry after he]
 · intro front target between compaction after later line number
   exact hall.context hnodup

/-- A session of version 1: a system message and a compaction that keeps it. -/
def keptSystem : List JsonObject :=
 [[("type", .string "session")],
  [("type", .string "message"), ("message", .object [("role", .string "system")])],
  [("type", .string "compaction"), ("firstKeptEntryIndex", .number (.ofNat 1))]]

/-- Each id is a letter longer than the one before. -/
def longerDraws (n : Nat) : Draws where
 candidates := []
 uuid := String.ofList (replicate (n + 1) 'a')

theorem freshDraws_longer : FreshDraws longerDraws := by
 have hlength : ∀ n, (longerDraws n).uuid.toList.length = n + 1 := fun n => by
  simp [longerDraws]
 refine fun n => ⟨fun id hid he => ?_, fun m hm hin => ?_⟩
 · have := hlength n
   rw [← mem_singleton.mp hid, he] at this
   simp at this
 · have := hlength n
   rw [mem_singleton.mp hin, hlength] at this
   omega

theorem migrateV1ToV2_keeps_system :
 Keeps (keptSystem.head (by decide)) keptSystem.tail (migrateV1ToV2 longerDraws keptSystem)
  (entriesOf (migrateV1ToV2 longerDraws keptSystem)) :=
 migrateV1ToV2_keeps freshDraws_longer (by decide) (by decide)

/-- The context behind the compaction does not begin at the system message it names. -/
theorem migrateV1ToV2_drops_system : ∃ (draws : Nat → Draws) (header : JsonObject)
 (lines : List JsonObject) (target compaction : SessionEntry), FreshDraws draws
 ∧ isSessionLine header = true ∧ (∀ line ∈ lines, isSessionLine line = false)
 ∧ (lines.map fun line => strMember line "type") = [some "message", some "compaction"]
 ∧ (lines.map fun line => get? line "firstKeptEntryIndex") = [none, some (.number (.ofNat 1))]
 ∧ indexValue (.ofNat 1) = some 1
 ∧ entriesOf (migrateV1ToV2 draws (header :: lines)) = [target, compaction]
 ∧ ∀ kept, contextEntries [target, compaction] ≠ compaction :: target :: kept := by
 obtain ⟨target, compaction, he⟩ : ∃ target compaction,
  entriesOf (migrateV1ToV2 longerDraws keptSystem) = [target, compaction] := ⟨_, _, rfl⟩
 refine ⟨longerDraws, keptSystem.head (by decide), keptSystem.tail, target, compaction,
  freshDraws_longer, by decide, by decide, by decide, rfl, by decide, he, fun kept h => ?_⟩
 have hone : (contextEntries (entriesOf (migrateV1ToV2 longerDraws keptSystem))).length = 1 := by
  decide
 rw [he, h] at hone
 simp at hone

end Bake.Session
