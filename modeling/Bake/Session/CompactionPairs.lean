import Bake.Session.Compacted

/-!
# A compaction keeps calls and results together

A cut is at an entry whose message starts something new, so what is kept begins with it, or
with nothing: moving the cut past a retry that edits left out, and back over entries that
show nothing, moves it over no message. A result behind it then has its assistant message
behind it too.
-/

open List

namespace Bake.Session

open Bake.Json
open ProjectedSessionEntry (isCutPoint omitted)

/-! ## Pairs -/

def callIds (message : AgentMessage) : List String :=
 ((itemsOf (OrdMap.get? message "content")).filter fun block => blockType block = some "toolCall").filterMap
  fun block => (memberOf block "id").bind Value.asStr

def betweenPair (message : AgentMessage) : Prop :=
 roleOf message = some "toolResult" ∨ roleOf message = some "system"

/-- A result behind some messages answers a call of the closest assistant message, with
only results and system messages between them. -/
def AnswersBefore (before : List AgentMessage) (result : AgentMessage) : Prop :=
 ∃ earlier assistant between id, before = earlier ++ assistant :: between
  ∧ roleOf assistant = some "assistant" ∧ (∀ message ∈ between, betweenPair message)
  ∧ strMember result "toolCallId" = some id ∧ id ∈ callIds assistant

def WellPaired (messages : List AgentMessage) : Prop :=
 ∀ before result after, messages = before ++ result :: after →
  roleOf result = some "toolResult" → AnswersBefore before result

theorem WellPaired.nil : WellPaired [] := fun before result after h => absurd h (by simp)

/-- **What begins with another message than a result or a system message** is paired where
the whole is: no result of it answers a call before it. -/
theorem WellPaired.suffix {gone rest : List AgentMessage} {first : AgentMessage}
 (h : WellPaired (gone ++ first :: rest)) (hfirst : ¬ betweenPair first) :
 WellPaired (first :: rest) := by
 intro before result after heq hrole
 cases before with
 | nil =>
  obtain ⟨rfl, -⟩ := List.cons.inj heq
  exact absurd (.inl hrole) hfirst
 | cons head before =>
  obtain ⟨rfl, hrest⟩ := List.cons.inj heq
  obtain ⟨earlier, assistant, between, id, hbefore, ha, hbetween, hid, hcall⟩ :=
   h (gone ++ first :: before) result after (by rw [hrest]; simp) hrole
  rcases append_eq_append_iff.mp hbefore with ⟨c, rfl, hc⟩ | ⟨c, hgone, hc⟩
  · exact ⟨c, assistant, between, id, hc, ha, hbetween, hid, hcall⟩
  · cases c with
    | nil =>
     rw [nil_append] at hc
     exact ⟨[], assistant, between, id, by rw [← hc]; rfl, ha, hbetween, hid, hcall⟩
    | cons other c =>
     -- the assistant message would be before the cut, and the first message behind it between
     have hm : first ∈ between := by
      have := (List.cons.inj hc).2
      rw [this]
      simp
     exact absurd (hbetween first hm) hfirst

/-- Results are looked up in the calls of the assistant message before them. -/
def pairedBehind (calls : List String) : List AgentMessage → Bool
 | [] => true
 | message :: rest =>
  if roleOf message = some "assistant" then pairedBehind (callIds message) rest
  else if roleOf message = some "toolResult" then
   (strMember message "toolCallId").any calls.contains && pairedBehind calls rest
  else if roleOf message = some "system" then pairedBehind calls rest
  else pairedBehind [] rest

/-- The calls a result may answer behind some messages. -/
def OpenCalls (before : List AgentMessage) (calls : List String) : Prop :=
 ∀ id ∈ calls, ∃ earlier assistant between, before = earlier ++ assistant :: between
  ∧ roleOf assistant = some "assistant" ∧ (∀ message ∈ between, betweenPair message)
  ∧ id ∈ callIds assistant

variable {message : AgentMessage}

theorem OpenCalls.snoc {before : List AgentMessage} {calls : List String} (h : OpenCalls before calls) (hm : betweenPair message) : OpenCalls (before ++ [message]) calls := by
 intro id hid
 obtain ⟨earlier, assistant, between, rfl, ha, hb, hc⟩ := h id hid
 refine ⟨earlier, assistant, between ++ [message], by simp, ha, fun other ho => ?_, hc⟩
 rcases mem_append.mp ho with ho | ho
 · exact hb other ho
 · exact mem_singleton.mp ho ▸ hm

variable {messages : List AgentMessage} {entries : List ProjectedSessionEntry}
 {entry : ProjectedSessionEntry} {context : List SessionEntry}

theorem answersBefore_of_pairedBehind :
 ∀ {gone : List AgentMessage} {calls : List String}, OpenCalls gone calls →
  pairedBehind calls messages = true → ∀ before result after,
  messages = before ++ result :: after → roleOf result = some "toolResult" →
  AnswersBefore (gone ++ before) result := by
 induction messages with
 | nil => exact fun _ _ before result after h => absurd h (by simp)
 | cons message rest ih =>
  intro gone calls hopen h before result after heq hrole
  cases before with
  | nil =>
   obtain ⟨rfl, -⟩ := List.cons.inj heq
   rw [pairedBehind, if_neg (by rw [hrole]; decide), if_pos hrole, Bool.and_eq_true] at h
   obtain ⟨id, hid, hmem⟩ := Option.any_eq_true .. |>.mp h.1
   obtain ⟨earlier, assistant, between, hgone, ha, hb, hc⟩ := hopen id (by simpa using hmem)
   exact ⟨earlier, assistant, between, id, by rw [append_nil, hgone], ha, hb, hid, hc⟩
  | cons head before =>
   obtain ⟨rfl, hrest⟩ := List.cons.inj heq
   rw [show gone ++ message :: before = (gone ++ [message]) ++ before by simp]
   unfold pairedBehind at h
   split at h
   next ha =>
    refine ih (fun id hid => ⟨gone, message, [], rfl, ha, by simp, hid⟩) h before result after
     hrest hrole
   · split at h
     next hr =>
      rw [Bool.and_eq_true] at h
      exact ih (hopen.snoc (.inl hr)) h.2 before result after hrest hrole
     · split at h
       next hs =>
        exact ih (hopen.snoc (.inr hs)) h before result after hrest hrole
       · exact ih (fun id hid => absurd hid (by simp)) h before result after hrest hrole

theorem WellPaired.of_pairedBehind (h : pairedBehind [] messages = true) : WellPaired messages := by
 intro before result after heq hrole
 have hopen : OpenCalls [] [] := fun _ hid => absurd hid (by simp)
 exact answersBefore_of_pairedBehind hopen h before result after heq hrole

/-! ## The cut -/

theorem not_betweenPair_of_cutPoint (h : isCutPointMessage message = true) :
  ¬ betweenPair message := by
 unfold isCutPointMessage at h
 rintro (hr | hr) <;> rw [hr] at h <;> exact absurd h (by decide)

def messagesFrom (entries : List ProjectedSessionEntry) (index : Nat) : List AgentMessage :=
 (entries.drop index).flatMap ProjectedSessionEntry.messages

theorem messagesFrom_of_getElem? {index : Nat} (h : entries[index]? = some entry) :
 messagesFrom entries index = entry.messages ++ messagesFrom entries (index + 1) := by
 obtain ⟨hlt, rfl⟩ := List.getElem_of_getElem? h
 rw [messagesFrom, drop_eq_getElem_cons hlt, flatMap_cons]
 rfl

theorem messagesFrom_moveBack (entries : List ProjectedSessionEntry) (startIndex cut : Nat) :
 messagesFrom entries (moveBack entries startIndex cut) = messagesFrom entries cut := by
 induction cut with
 | zero => rfl
 | succ cut ih =>
  unfold moveBack
  split
  · split
    · rfl
    next previous hp =>
     split
     · rfl
     next hempty =>
      have hmessages : previous.messages = [] := by
       simp only [Bool.or_eq_true, Bool.not_eq_true', not_or] at hempty
       simpa using hempty.2
      rw [ih, messagesFrom_of_getElem? hp, hmessages, nil_append]
  · rfl

def SingleMessages (entries : List ProjectedSessionEntry) : Prop :=
 ∀ entry ∈ entries, entry.isCompaction = false → entry.messages.length ≤ 1

theorem messages_recoveryOmissionSuffix {suffix : List ProjectedSessionEntry}
 (hempty : ∀ entry ∈ suffix, entry.isCompaction = false → entry.intrinsicallyVisible = false →
  entry.messages = []) (h : recoveryOmissionSuffix suffix = true) :
 suffix.flatMap ProjectedSessionEntry.messages = [] := by
 refine flatMap_eq_nil_iff.mpr fun entry he => ?_
 unfold recoveryOmissionSuffix at h
 simp only [Bool.and_eq_true, all_eq_true] at h
 obtain ⟨hc, hv⟩ : entry.isCompaction = false
  ∧ (entry.intrinsicallyVisible = false ∨ entry.omitted = true) := by
  simpa using h.2 entry he
 rcases hv with hv | ho
 · exact hempty entry he hc hv
 · unfold omitted at ho
   simp only [Bool.and_eq_true, List.isEmpty_iff] at ho
   exact ho.2

/-- What is kept from a cut point on, or past a retry left out behind it. -/
theorem messagesFrom_cutPoint (hsingle : SingleMessages entries)
 (hempty : ∀ entry ∈ entries, entry.isCompaction = false → entry.intrinsicallyVisible = false →
  entry.messages = []) {cutIndex : Nat}
 (hpoint : (entries[cutIndex]?).any isCutPoint = true) (exceeded : Bool) :
 let cut := if exceeded && recoveryOmissionSuffix ((entries.take entries.length).drop (cutIndex + 1))
  then cutIndex + 1 else cutIndex
 messagesFrom entries cut = []
  ∨ ∃ first rest, messagesFrom entries cut = first :: rest ∧ isCutPointMessage first = true := by
 dsimp only
 split
 · -- past a retry that was left out
   rename_i hrecovery
   left
   rw [Bool.and_eq_true, take_length] at hrecovery
   exact messages_recoveryOmissionSuffix
    (fun entry he => hempty entry (mem_of_mem_drop he)) hrecovery.2
 right
 cases hentry : entries[cutIndex]? with
 | none =>
  rw [hentry] at hpoint
  simp at hpoint
 | some entry =>
  rw [hentry] at hpoint
  have hpoint : entry.isCutPoint = true := hpoint
  unfold isCutPoint at hpoint
  simp only [Bool.and_eq_true, Bool.not_eq_true', any_eq_true] at hpoint
  obtain ⟨hc, message, hm, hcutPoint⟩ := hpoint
  obtain ⟨only, honly⟩ := length_eq_one_iff.mp (Nat.le_antisymm
   (hsingle entry (mem_of_getElem? hentry) hc) (length_pos_of_mem hm))
  rw [honly] at hm
  obtain rfl := mem_singleton.mp hm
  exact ⟨message, _, by rw [messagesFrom_of_getElem? hentry, honly]; rfl, hcutPoint⟩

/-- **What is kept from a cut on** is nothing, or begins with a message a cut may be at; or
the cut is at the start. -/
theorem findProjectedCutPoint_kept (hsingle : SingleMessages entries)
 (hempty : ∀ entry ∈ entries, entry.isCompaction = false → entry.intrinsicallyVisible = false →
  entry.messages = []) (startIndex keepRecentTokens : Nat) :
 let cut := (findProjectedCutPoint entries startIndex entries.length
  keepRecentTokens).firstKeptEntryIndex
 cut = startIndex ∨ messagesFrom entries cut = []
  ∨ ∃ first rest, messagesFrom entries cut = first :: rest ∧ isCutPointMessage first = true := by
 unfold findProjectedCutPoint
 dsimp only
 generalize hcutPoints : (List.range' startIndex (entries.length - startIndex)).filter _ = cutPoints
 have hpoint : ∀ index ∈ cutPoints, (entries[index]?).any isCutPoint = true := by
  intro index hm
  rw [← hcutPoints] at hm
  exact (mem_filter.mp hm).2
 split
 next first last hfirst hlast =>
  dsimp only
  right
  rw [messagesFrom_moveBack]
  refine messagesFrom_cutPoint hsingle hempty (hpoint _ ?_) _
  split
  next index _ =>
   cases hf : cutPoints.find? fun candidate => index ≤ candidate with
   | none => exact mem_of_getLast? hlast
   | some candidate => exact mem_of_find?_eq_some hf
  · exact mem_of_mem_head? hfirst
 · exact .inl rfl

/-! ## Projections -/

theorem nodup_sessionPath (entries : List SessionEntry) (leaf : LeafSelector) (index : EntryIndex) :
 ((sessionPath entries leaf index).map SessionEntry.id).Nodup := by
 have hroot : ∀ start, ((pathToRoot start index).map SessionEntry.id).Nodup := by
  intro start
  cases start with
  | none => exact nodup_nil
  | some entry =>
   rw [pathToRoot, map_reverse, nodup_reverse]
   exact (pathUp_ids index [] entry (by simp)).1
 cases leaf with
 | empty => exact nodup_nil
 | last | id id => exact hroot _

theorem length_context_le_one {entry : SessionEntry} (h : entry.entryType ≠ "compaction") :
 (sessionEntryToContextMessages entry).length ≤ 1 := by
 unfold sessionEntryToContextMessages
 dsimp only
 split
 · split
   · split
     · exact Nat.le_refl 1
     · split <;> exact Nat.le_refl 1
   · exact Nat.zero_le 1
 · split
   · exact Nat.le_refl 1
   · split
     · exact Nat.le_refl 1
     · exact Nat.zero_le 1

theorem messages_projectAt_length (edits : EntryIndex) (first : Bool) (entry : SessionEntry) :
 (projectAt edits first entry).messages.length ≤ (sessionEntryToContextMessages entry).length := by
 unfold projectAt
 dsimp only
 split
 · exact Nat.zero_le _
 · unfold projectEntry
   dsimp only
   split
   · exact Nat.le_refl _
   · exact Nat.zero_le _
   · exact Nat.le_of_eq (length_map ..)

theorem mem_projectContext (h : entry ∈ projectContext context) :
 ∃ edits first source, entry = projectAt edits first source := by
 cases context with
 | nil => simp [projectContext] at h
 | cons first rest =>
  rcases mem_cons.mp h with rfl | h
  · exact ⟨_, _, _, rfl⟩
  · obtain ⟨source, -, rfl⟩ := mem_map.mp h
    exact ⟨_, _, _, rfl⟩

theorem singleMessages_projectContext (context : List SessionEntry) :
 SingleMessages (projectContext context) := by
 intro entry he hc
 obtain ⟨edits, first, source, rfl⟩ := mem_projectContext he
 have ht : source.entryType ≠ "compaction" := of_decide_eq_false hc
 exact Nat.le_trans (messages_projectAt_length edits first source) (length_context_le_one ht)

theorem messages_of_not_visible (he : entry ∈ projectContext context)
 (hv : entry.intrinsicallyVisible = false) : entry.messages = [] := by
 obtain ⟨edits, first, source, rfl⟩ := mem_projectContext he
 have hnone : sessionEntryToContextMessages source = [] := by
  by_cases hm : sessionEntryToContextMessages source = []
  · exact hm
  · have ht : source.entryType = "context_edit" := by
     by_contra ht
     have : (projectAt edits first source).intrinsicallyVisible = true := by
      rw [ProjectedSessionEntry.intrinsicallyVisible, Bool.and_eq_true]
      exact ⟨decide_eq_true ht, decide_eq_true hm⟩
     exact absurd (hv.symm.trans this) (by simp)
    simp [sessionEntryToContextMessages, ht]
 exact length_eq_zero_iff.mp (Nat.le_zero.mp (by
  rw [← length_nil (α := AgentMessage), ← hnone]
  exact messages_projectAt_length edits first source))

def keptMessages (entries : List ProjectedSessionEntry) (firstKeptEntryId : String) :
 List AgentMessage :=
 (entries.dropWhile fun entry => some entry.sourceEntry.id ≠ some firstKeptEntryId).flatMap
  ProjectedSessionEntry.messages

theorem keptMessages_eq (hd : (context.map SessionEntry.id).Nodup) {cut : Nat}
 {first : ProjectedSessionEntry} (h : (projectContext context)[cut]? = some first) :
 keptMessages (projectContext context) first.sourceEntry.id
  = messagesFrom (projectContext context) cut := by
 have hids : ((projectContext context).map fun entry => entry.sourceEntry.id).Nodup := by
  rw [← projectContext_sources context, map_map] at hd
  exact hd
 have hsplit := split_at h
 rw [hsplit] at hids
 have hdrop := dropWhile_id (fun entry : ProjectedSessionEntry => entry.sourceEntry.id) hids
 rw [← hsplit] at hdrop
 rw [keptMessages, hdrop, messagesFrom_of_getElem? h]
 rfl

/-- **Compaction never orphans a tool result.** For every branch whose messages are well
paired and every settings for which a compaction is prepared, the messages kept are well
paired. -/
theorem prepareCompaction_keeps_pairs (contextTokens : Value → Nat) (path : List SessionEntry)
 (settings : CompactionSettings) {p : CompactionPreparation}
 (hp : prepareCompaction contextTokens path settings = some p)
 (hpaired : WellPaired (buildSessionProjection path .last).messages) :
 WellPaired (keptMessages (buildSessionProjection path .last).entries p.firstKeptEntryId) := by
 obtain ⟨cut, first, hlt, hfirst, hid, -, hcut⟩ := prepareCompaction_spec hp
 let context := contextEntries (sessionPath path .last (indexEntries path))
 have hkept : keptMessages (projectContext context) p.firstKeptEntryId
  = messagesFrom (projectContext context) cut := by
  rw [hid]
  exact keptMessages_eq (nodup_contextEntries (nodup_sessionPath ..)) hfirst
 show WellPaired (keptMessages (projectContext context) p.firstKeptEntryId)
 rw [hkept]
 have hcases := findProjectedCutPoint_kept (singleMessages_projectContext context)
  (fun entry he _ hv => messages_of_not_visible he hv) (boundaryStart (projectContext context))
  settings.keepRecentTokens
 rcases hcut ▸ hcases with hstart | hnone | ⟨message, rest, hmessages, hpoint⟩
 · exact absurd (hstart ▸ hlt) (Nat.lt_irrefl _)
 · rw [hnone]
   exact .nil
 · rw [hmessages]
   have hwhole : (buildSessionProjection path .last).messages
    = ((projectContext context).take cut).flatMap ProjectedSessionEntry.messages
     ++ message :: rest := by
    rw [← hmessages, messagesFrom, ← flatMap_append, take_append_drop]
    rfl
   rw [hwhole] at hpaired
   exact hpaired.suffix (not_betweenPair_of_cutPoint hpoint)

/-- A call and its results, the last of which reaches the budget. -/
def calledConversation : List SessionEntry :=
 let entry := fun (id : String) (parentId : Value) (message : JsonObject) =>
  { id, raw := [("type", .string "message"), ("id", .string id), ("parentId", parentId),
     ("message", .object message)] }
 let result := fun call : String => [("role", Value.string "toolResult"), ("toolCallId", .string call),
  ("content", .string "done")]
 [entry "a" .null [("role", .string "user"), ("content", .string "first")],
  entry "b" (.string "a") [("role", .string "assistant"), ("content", .array
   [.object [("type", .string "toolCall"), ("id", .string "t1")],
    .object [("type", .string "toolCall"), ("id", .string "t2")]])],
  entry "c" (.string "b") (result "t1"), entry "d" (.string "c") (result "t2")]

/-- A budget that stops inside the results: the cut falls back to their assistant message. -/
theorem prepareCompaction_keeps_pairs_called :
 ∃ p, prepareCompaction (fun _ => 0) calledConversation keepNewest = some p
  ∧ p.firstKeptEntryId = "b"
  ∧ WellPaired (keptMessages (buildSessionProjection calledConversation .last).entries
   p.firstKeptEntryId) := by
 have hfirst : (prepareCompaction (fun _ => 0) calledConversation keepNewest).map
  CompactionPreparation.firstKeptEntryId = some "b" := by decide +kernel
 obtain ⟨p, hp, hid⟩ := Option.map_eq_some_iff.mp hfirst
 exact ⟨p, hp, hid, prepareCompaction_keeps_pairs (fun _ => 0) calledConversation keepNewest hp
  (.of_pairedBehind (by decide +kernel))⟩

end Bake.Session
