import Bake.AgentSession.Omitted

/-!
# Omissions in sessions

An omission's edits are one group at the leaf, so what reached the file is the first of them,
and a reopen starts from the last entry there. Every number of edits leaves the projection
without what they name; the write leaves them in memory as they are in the file.
-/

open List

namespace Bake.AgentSession

open Bake.Json Bake.Session

/-! ## Sessions -/

/-- Every session: opened, and after any calls whose groups draw new ids. -/
def Reached (w : World) : Prop := Run.Reach Opened World.step (IndexKept False) w

theorem Reached.indexed {w : World} (h : Reached w) : Indexed False w.manager :=
 h.invariant (fun w => Indexed False w.manager) (fun _ => indexed_opened) fun _ call => indexed_step call

/-- The manager that reading the entries of `m` back makes. -/
structure Reopened (m m' : SessionManager) : Prop where
 entries : m'.entries = m.entries
 index : m'.index = buildIndex m'.fileEntries

theorem leafId_buildIndex (lines : List FileEntry) :
 (buildIndex lines).leafId = (lines.filterMap FileEntry.asEntry).getLast?.map SessionEntry.id := by
 induction lines using List.reverseRecOn with
 | nil => rfl
 | append_singleton lines line ih =>
  rw [buildIndex_append, filterMap_append]
  unfold Index.line
  cases he : line.asEntry with
  | none => simpa [he] using ih
  | some entry =>
   simp only [filterMap_cons, he, filterMap_nil, getLast?_concat, Option.map_some]
   split
   · rfl
   · split
     · rfl
     · split <;> rfl

variable {m : SessionManager} {env : Env} {pairs : List (String × JsonObject)}
 {targets : List String} {entries : List GroupEntry}

theorem Reopened.projection {m' : SessionManager} (h : Reopened m m')
 (hleaf : m.index.leafId = m.entries.getLast?.map SessionEntry.id) :
 m'.buildSessionProjection = m.buildSessionProjection := by
 have hleaf' : m'.index.leafId = m.index.leafId := by
  rw [h.index, leafId_buildIndex, hleaf, ← h.entries]
  rfl
 unfold SessionManager.buildSessionProjection
 rw [h.entries, hleaf']

theorem single_tail {context : List SessionEntry} {entry : ProjectedSessionEntry}
 (h : entry ∈ (projectContext context).tail) : entry.messages.length ≤ 1 := by
 cases context with
 | nil => simp [projectContext] at h
 | cons first rest =>
  obtain ⟨source, -, rfl⟩ := mem_map.mp
   (show entry ∈ rest.map (projectAt (contextEdits (first :: rest)) false) from h)
  by_cases ht : source.entryType = "compaction"
  · simp [projectAt, ht]
  · exact Nat.le_trans (messages_projectAt_length ..) (length_context_le_one ht)

theorem exists_attemptAt (m : SessionManager) {entry : ProjectedSessionEntry} {attempt : AgentMessage}
 (hentry : entry ∈ m.buildSessionProjection.entries) (honly : entry.messages = [attempt])
 (hassistant : isAssistant attempt = true) :
 ∃ before after, AttemptAt m.buildSessionProjection.entries entry attempt before after := by
 obtain ⟨before, after, hsplit⟩ := append_of_mem hentry
 have hd : (m.buildSessionProjection.entries.map fun entry => entry.sourceEntry.id).Nodup := by
  let context := contextEntries (sessionPath m.entries (.ofLeaf m.index.leafId)
   (indexEntries m.entries))
  have hcontext : (context.map SessionEntry.id).Nodup := nodup_contextEntries (nodup_sessionPath ..)
  rw [← projectContext_sources context, map_map] at hcontext
  exact hcontext
 refine ⟨before, after, hsplit, honly, hassistant, hd, fun other ho => ?_⟩
 have htail : other ∈ m.buildSessionProjection.entries.tail := by
  rw [hsplit]
  cases before with
  | nil => exact ho
  | cons first before => simp [ho]
 exact single_tail htail

/-! ## Every number of edits -/

/-- The group of the omission of `attempt`, an entry's message. -/
def attemptGroup (m : SessionManager) (entry : ProjectedSessionEntry) (attempt : AgentMessage) :
 List GroupEntry :=
 omissionGroup (omissionTargets m.buildSessionProjection (some entry.sourceEntry.id) (callIds attempt))

/-- The manager with the first `k` edits of a group. -/
def editsReached (m : SessionManager) (pairs : List (String × JsonObject)) (k : Nat) : SessionManager :=
 m.withNew ((pairs.take k).map entryOf)

/-- `projection'` is `projection` without exactly the attempt and the results of its calls,
with edits behind it. -/
def OmitsExactly (projection : SessionProjection) (entry : ProjectedSessionEntry)
 (attempt : AgentMessage) (projection' : SessionProjection) : Prop :=
 ∃ before after edits, projection.entries = before ++ entry :: after
  ∧ projection' = (projection.without
   (results (callIds attempt) after ++ [entry.sourceEntry.id])).behind edits
  ∧ projection'.messages = before.flatMap ProjectedSessionEntry.messages
   ++ (((between after).filter fun m => !answers (callIds attempt) m.2) ++ onward after).map Prod.snd

theorem messages_without (projection : SessionProjection) (ids : List String) :
 (projection.without ids).messages
  = ((shown projection.entries).filter fun m => m.1 ∉ ids).map Prod.snd := by
 rw [← shown_without, shown_messages]
 rfl

theorem built_take {k : Nat} (h : SessionManager.Built env m k (omissionGroup targets) pairs)
 (n : Nat) : SessionManager.Built env m k (omissionGroup (targets.take n)) (pairs.take n) := by
 induction targets generalizing m k pairs n with
 | nil =>
  cases h
  simpa [omissionGroup] using SessionManager.Built.nil
 | cons target targets ih =>
  cases h with
  | cons hentry hrest =>
   cases n with
   | zero => exact .nil
   | succ n => exact .cons hentry (ih hrest n)

theorem freshDraws_le {n k : Nat} (h : m.FreshDraws env 0 n) (hle : k ≤ n) : m.FreshDraws env 0 k :=
 ⟨fun i h0 hi => h.unused i h0 (by omega), fun i j h0 hij hj => h.distinct i j h0 hij (by omega)⟩

theorem projection_editsReached (hi : Indexed False m)
 (hb : SessionManager.Built env m 0 (omissionGroup targets) pairs)
 (hf : m.FreshDraws env 0 targets.length) (k : Nat) :
 (editsReached m pairs k).buildSessionProjection
  = (m.buildSessionProjection.without (targets.take k)).behind ((pairs.take k).map entryOf) := by
 have htake := built_take hb k
 have hfresh : m.FreshDraws env 0 (targets.take k).length := freshDraws_le hf (length_take_le' ..)
 have hnew := htake.newIds (by rw [omissionGroup, length_map]; exact hfresh)
 rw [editsReached, ← SessionManager.pushAll_of_new _ hnew]
 exact SessionManager.Built.projection_pushAll htake hi hfresh

theorem entries_withNew (m : SessionManager) (new : List SessionEntry) :
 (m.withNew new).entries = m.entries ++ new := by
 have hnew : (new.map FileEntry.entry).filterMap FileEntry.asEntry = new := by
  rw [filterMap_map]
  exact filterMap_some
 show (m.fileEntries ++ new.map FileEntry.entry).filterMap FileEntry.asEntry = _
 rw [filterMap_append, hnew]
 rfl

theorem leafId_editsReached {k : Nat}
 (h : pairs.take k ≠ [] ∨ m.index.leafId = m.entries.getLast?.map SessionEntry.id) :
 (editsReached m pairs k).index.leafId
  = (editsReached m pairs k).entries.getLast?.map SessionEntry.id := by
 have hentries : (editsReached m pairs k).entries = m.entries ++ (pairs.take k).map entryOf :=
  entries_withNew m _
 have hleaf : (editsReached m pairs k).index.leafId
  = (((pairs.take k).map entryOf).map SessionEntry.id).getLast?.or m.index.leafId := rfl
 rw [hentries, hleaf, getLast?_append, getLast?_map]
 cases hl : ((pairs.take k).map entryOf).getLast? with
 | some entry => rfl
 | none =>
  have hnil : pairs.take k = [] := map_eq_nil_iff.mp (getLast?_eq_none_iff.mp hl)
  exact h.resolve_left fun hne => hne hnil

theorem take_targets (ids : List String) (attempt : String) (k : Nat) :
 (∀ id ∈ (ids ++ [attempt]).take k, id ∈ ids) ∨ (ids ++ [attempt]).take k = ids ++ [attempt] := by
 rcases Nat.lt_or_ge ids.length k with h | h
 · exact .inr (take_of_length_le (by rw [length_append, length_singleton]; omega))
 · rw [take_append_of_le_length h]
   exact .inl fun id hid => mem_of_mem_take hid

theorem AttemptAt.omitsExactly {projection : SessionProjection} {entry : ProjectedSessionEntry}
 {attempt : AgentMessage} {before after : List ProjectedSessionEntry}
 (h : AttemptAt projection.entries entry attempt before after) (edits : List SessionEntry) :
 OmitsExactly projection entry attempt ((projection.without
  (results (callIds attempt) after ++ [entry.sourceEntry.id])).behind edits) := by
 refine ⟨before, after, edits, h.split, rfl, ?_⟩
 show (projection.without _).messages = _
 rw [messages_without, h.shown_all, map_append, shown_messages]

/-- **Omitting a failed attempt keeps calls and results together.** In every session whose
projection is paired, for every assistant message it shows: whatever number of the edits
reached the file, every result left follows its call; all of them leave out exactly the
attempt and the results of its calls; and an omission cut short and done again after a
reopen ends in the same messages, if an edit reached the file or the leaf was its last entry. -/
theorem omission_keeps_pairs {w : World} (hw : Reached w) {entry : ProjectedSessionEntry}
 {attempt : AgentMessage} (hpaired : Paired w.manager.buildSessionProjection.messages)
 (hentry : entry ∈ w.manager.buildSessionProjection.entries)
 (honly : entry.messages = [attempt]) (hassistant : isAssistant attempt = true)
 {env : Env} {pairs : List (String × JsonObject)}
 (hbuilt : SessionManager.Built env w.manager 0 (attemptGroup w.manager entry attempt) pairs)
 (hdraws : w.manager.FreshDraws env 0 pairs.length) :
 (∀ k, Paired (editsReached w.manager pairs k).buildSessionProjection.messages)
 ∧ OmitsExactly w.manager.buildSessionProjection entry attempt
  (editsReached w.manager pairs pairs.length).buildSessionProjection
 ∧ ∀ j m' env' pairs', Reopened (editsReached w.manager pairs j) m' →
  (0 < j ∨ w.manager.index.leafId = w.manager.entries.getLast?.map SessionEntry.id) →
  SessionManager.Built env' m' 0 (attemptGroup m' entry attempt) pairs' →
  m'.FreshDraws env' 0 pairs'.length →
  OmitsExactly w.manager.buildSessionProjection entry attempt
   (editsReached m' pairs' pairs'.length).buildSessionProjection
   ∧ (editsReached m' pairs' pairs'.length).buildSessionProjection.messages
    = (editsReached w.manager pairs pairs.length).buildSessionProjection.messages := by
 obtain ⟨before, after, hat⟩ := exists_attemptAt w.manager hentry honly hassistant
 have htargets : omissionTargets w.manager.buildSessionProjection (some entry.sourceEntry.id)
  (callIds attempt) = results (callIds attempt) after ++ [entry.sourceEntry.id] := by
  unfold omissionTargets
  rw [Option.elim_some, hat.attemptToolResults_eq]
  rfl
 rw [attemptGroup, htargets] at hbuilt
 have hlength : pairs.length = (results (callIds attempt) after ++ [entry.sourceEntry.id]).length := by
  rw [hbuilt.length, omissionGroup, length_map]
 have hprojection := projection_editsReached hw.indexed hbuilt (hlength ▸ hdraws)
 have hmessages : w.manager.buildSessionProjection.messages
  = (shown w.manager.buildSessionProjection.entries).map Prod.snd := (shown_messages _).symm
 rw [hmessages] at hpaired
 have hall : (editsReached w.manager pairs pairs.length).buildSessionProjection
  = (w.manager.buildSessionProjection.without (results (callIds attempt) after
   ++ [entry.sourceEntry.id])).behind (pairs.map entryOf) := by
  rw [hprojection, hlength, take_length, ← hlength, take_length]
 refine ⟨fun k => ?_, ?_, fun j m' env' pairs' hreopen hleaf hbuilt' hdraws' => ?_⟩
 · rw [hprojection]
   show Paired (w.manager.buildSessionProjection.without _).messages
   rw [messages_without]
   rcases take_targets (results (callIds attempt) after) entry.sourceEntry.id k with hsome | heq
   · exact hat.paired_some hsome hpaired
   · rw [heq]
     exact hat.paired_all hpaired
 · rw [hall]
   exact hat.omitsExactly _
 have hlast : (editsReached w.manager pairs j).index.leafId
  = (editsReached w.manager pairs j).entries.getLast?.map SessionEntry.id := by
  refine leafId_editsReached (hleaf.imp_left fun hj => ?_)
  rw [ne_nil_iff_length_pos, length_take, hlength, length_append, length_singleton]
  omega
 have hread : m'.buildSessionProjection
  = (w.manager.buildSessionProjection.without ((results (callIds attempt) after
   ++ [entry.sourceEntry.id]).take j)).behind ((pairs.take j).map entryOf) :=
  (hreopen.projection hlast).trans (hprojection j)
 have hlength' : pairs'.length = (omissionTargets m'.buildSessionProjection
  (some entry.sourceEntry.id) (callIds attempt)).length := by
  rw [hbuilt'.length, attemptGroup, omissionGroup, length_map]
 have hagain : (editsReached m' pairs' pairs'.length).buildSessionProjection
  = (w.manager.buildSessionProjection.without (results (callIds attempt) after
   ++ [entry.sourceEntry.id])).behind ((pairs.take j).map entryOf ++ pairs'.map entryOf) := by
  rw [projection_editsReached (.of_buildIndex hreopen.index) hbuilt' (hlength' ▸ hdraws'),
   take_length, hlength', take_length, hread, hat.without_again
    (fun id hid => mem_of_mem_take hid), SessionProjection.behind_behind]
 refine ⟨?_, ?_⟩
 · rw [hagain]
   exact hat.omitsExactly _
 · rw [hagain, hall]
   rfl

/-! ## A session -/

theorem built_of_pushGroup (h : (m.pushGroup env 0 entries).2.1.isNone = true) :
 ∃ pairs, SessionManager.Built env m 0 entries pairs
  ∧ (m.pushGroup env 0 entries).2.2 = m.pushAll pairs
  ∧ (m.pushGroup env 0 entries).1 = pairs.map Prod.fst := by
 obtain ⟨done, rest, pairs, error, hd, hb, hp, hr⟩ := SessionManager.pushGroup_spec env entries m 0
 rw [hp] at h ⊢
 obtain rfl := hr (Option.isNone_iff_eq_none.mp h)
 rw [append_nil] at hd
 exact ⟨pairs, hd ▸ hb, rfl, rfl⟩

theorem editsReached_all (hb : SessionManager.Built env m 0 entries pairs)
 (hf : m.FreshDraws env 0 pairs.length) : editsReached m pairs pairs.length = m.pushAll pairs := by
 rw [SessionManager.pushAll_of_new _ (hb.newIds (hb.length ▸ hf)), editsReached, take_length]

def answeredCall : List (Op × Env) :=
 [(.appendMessage [("role", .string "user")], .calm),
  (.appendMessage [("role", .string "assistant"), ("content", .array
   [.object [("type", .string "toolCall"), ("id", .string "c1")]])], .calm),
  (.appendMessage [("role", .string "toolResult"), ("toolCallId", .string "c1")], .calm)]

def answeredWorld : World := Run.final World.step (newWorld fun _ => none) answeredCall

/-- Another user message, and the leaf back at the result. -/
def movedBackWorld : World := Run.final World.step (newWorld fun _ => none)
  (answeredCall ++ [(.appendMessage [("role", .string "user")], .calm), (.branch "00000003", .calm)])

def secondEntry (w : World) : ProjectedSessionEntry :=
 (w.manager.buildSessionProjection.entries[1]?).getD (.bare { id := "", raw := [] })

def secondMessage (w : World) : AgentMessage := (secondEntry w).messages.headD []

theorem reached_final (calls : List (Op × Env)) (h : calls.all fun call => match call.1 with
  | .appendMessage _ | .branch _ => true
  | _ => false) : Reached (Run.final World.step (newWorld fun _ => none) calls) := by
 refine Run.Reach.final (.init (opened_newWorld _)) ?_
 generalize newWorld (fun _ => none) = w
 induction calls generalizing w with
 | nil => trivial
 | cons call calls ih =>
  rw [all_cons, Bool.and_eq_true] at h
  refine ⟨?_, ih h.2 _⟩
  obtain ⟨op, env⟩ := call
  cases op <;> first | trivial | exact absurd h.1 (by simp)

theorem freshDraws_calm (h : ∀ i < 2, (Env.calm.draws i).uuid ∉ OrdMap.keys m.index.byId) :
 m.FreshDraws .calm 0 2 := by
 refine ⟨fun i _ hi => h i hi, fun i j _ hij hj => ?_⟩
 obtain ⟨rfl, rfl⟩ : i = 0 ∧ j = 1 := by omega
 decide +kernel

structure AssistantSecond (w : World) : Prop where
 shown : (w.manager.buildSessionProjection.entries[1]?).isSome = true
 only : (secondEntry w).messages.length = 1
 assistant : isAssistant (secondMessage w) = true

theorem AssistantSecond.entry {w : World} (h : AssistantSecond w) :
 secondEntry w ∈ w.manager.buildSessionProjection.entries
  ∧ (secondEntry w).messages = [secondMessage w] := by
 constructor
 · obtain ⟨entry, he⟩ := Option.isSome_iff_exists.mp h.shown
   rw [secondEntry, he]
   exact mem_of_getElem? he
 · obtain ⟨message, hm⟩ := length_eq_one_iff.mp h.only
   rw [secondMessage, hm]
   rfl

/-- The attempt of `answeredWorld` is left out behind its result. -/
theorem omission_keeps_pairs_answered : ∃ pairs, pairs.length = 2
 ∧ (∀ k, Paired (editsReached answeredWorld.manager pairs k).buildSessionProjection.messages)
 ∧ OmitsExactly answeredWorld.manager.buildSessionProjection (secondEntry answeredWorld)
  (secondMessage answeredWorld)
  (editsReached answeredWorld.manager pairs pairs.length).buildSessionProjection := by
 have hchecks : (answeredWorld.manager.pushGroup .calm 0 (attemptGroup answeredWorld.manager
  (secondEntry answeredWorld) (secondMessage answeredWorld))).2.1.isNone = true := by decide +kernel
 obtain ⟨pairs, hbuilt, -, hids⟩ := built_of_pushGroup hchecks
 have hlength : pairs.length = 2 := by
  rw [← length_map (f := Prod.fst), ← hids]
  decide +kernel
 have hsecond : AssistantSecond answeredWorld :=
  ⟨by decide +kernel, by decide +kernel, by decide +kernel⟩
 have h := omission_keeps_pairs (reached_final answeredCall (by decide))
  (paired_iff.mpr (by decide +kernel)) hsecond.entry.1 hsecond.entry.2 hsecond.assistant hbuilt
  (hlength ▸ freshDraws_calm (by decide +kernel))
 exact ⟨pairs, hlength, h.1, h.2.1⟩

/-- **Cut short before its first edit, with the leaf moved back,** an omission done again
after a reopen ends elsewhere: the reopened leaf is the last entry of the file. -/
theorem not_omission_again :
 ¬ ∀ (w : World) (entry : ProjectedSessionEntry) (attempt : AgentMessage) (env : Env)
  (pairs : List (String × JsonObject)), Reached w →
  Paired w.manager.buildSessionProjection.messages →
  entry ∈ w.manager.buildSessionProjection.entries → entry.messages = [attempt] →
  isAssistant attempt = true →
  SessionManager.Built env w.manager 0 (attemptGroup w.manager entry attempt) pairs →
  w.manager.FreshDraws env 0 pairs.length →
  ∀ j m' env' pairs', Reopened (editsReached w.manager pairs j) m' →
   SessionManager.Built env' m' 0 (attemptGroup m' entry attempt) pairs' →
   m'.FreshDraws env' 0 pairs'.length →
   (editsReached m' pairs' pairs'.length).buildSessionProjection.messages
    = (editsReached w.manager pairs pairs.length).buildSessionProjection.messages := by
 intro h
 let m' : SessionManager :=
  { movedBackWorld.manager with index := buildIndex movedBackWorld.manager.fileEntries }
 have hchecks : (movedBackWorld.manager.pushGroup .calm 0 (attemptGroup movedBackWorld.manager
  (secondEntry movedBackWorld) (secondMessage movedBackWorld))).2.1.isNone = true := by decide +kernel
 have hchecks' : (m'.pushGroup .calm 0 (attemptGroup m'
  (secondEntry movedBackWorld) (secondMessage movedBackWorld))).2.1.isNone = true := by decide +kernel
 obtain ⟨pairs, hbuilt, hpush, hids⟩ := built_of_pushGroup hchecks
 obtain ⟨pairs', hbuilt', hpush', hids'⟩ := built_of_pushGroup hchecks'
 have hlength : pairs.length = 2 := by
  rw [← length_map (f := Prod.fst), ← hids]
  decide +kernel
 have hlength' : pairs'.length = 2 := by
  rw [← length_map (f := Prod.fst), ← hids']
  decide +kernel
 have hsecond : AssistantSecond movedBackWorld :=
  ⟨by decide +kernel, by decide +kernel, by decide +kernel⟩
 have hdraws : movedBackWorld.manager.FreshDraws .calm 0 pairs.length :=
  hlength ▸ freshDraws_calm (by decide +kernel)
 have hdraws' : m'.FreshDraws .calm 0 pairs'.length :=
  hlength' ▸ freshDraws_calm (by decide +kernel)
 have hreopened : Reopened (editsReached movedBackWorld.manager pairs 0) m' := by
  refine ⟨?_, rfl⟩
  rw [editsReached, entries_withNew]
  simp [m', SessionManager.entries]
 have heq := h movedBackWorld (secondEntry movedBackWorld) (secondMessage movedBackWorld) .calm pairs
  (reached_final _ (by decide)) (paired_iff.mpr (by decide +kernel)) hsecond.entry.1
  hsecond.entry.2 hsecond.assistant hbuilt hdraws 0 m' .calm pairs' hreopened hbuilt' hdraws'
 rw [editsReached_all hbuilt hdraws, editsReached_all hbuilt' hdraws', ← hpush, ← hpush'] at heq
 exact absurd (congrArg List.length heq) (by decide +kernel)

/-! ## What the write leaves -/

/-- What the write of an omission leaves in memory: the first of its edits; all of them when
it succeeds. -/
theorem appendGroup_editsReached {w : World} (hf : w.manager.FreshDraws env 0 targets.length) :
 ∃ pairs k, (editsReached w.manager pairs k).SameSession
  (w.appendGroup env (omissionGroup targets)).2.manager
  ∧ (k ≠ 0 ∨ (w.appendGroup env (omissionGroup targets)).1.isOk = true →
   SessionManager.Built env w.manager 0 (omissionGroup targets) pairs)
  ∧ ((w.appendGroup env (omissionGroup targets)).1.isOk = true → k = pairs.length) := by
 have hnone : ∀ pairs, editsReached w.manager pairs 0 = w.manager := by
  simp [editsReached, SessionManager.withNew]
 have hf : w.manager.FreshDraws env 0 (omissionGroup targets).length := by
  rw [omissionGroup, length_map]
  exact hf
 unfold World.appendGroup
 rcases World.appendGroupInner_cases hf false with ⟨e, -, hres⟩ |
  ⟨pairs, hb, -, ⟨rfl, hres⟩ | ⟨-, failure, w', hp, hres⟩⟩
 · rw [hres]
   exact ⟨[], 0, by rw [hnone]; exact .refl _, by simp [Except.isOk, Except.toBool],
    by simp [Except.isOk, Except.toBool]⟩
 · rw [hres]
   exact ⟨[], 0, by rw [hnone]; exact .refl _, fun _ => hb, fun _ => rfl⟩
 have hsame := (w.withManager (w.manager.withNew (pairs.map entryOf))).persistGroup_same env
  w.manager.fileEntries.length false
 rw [hp] at hsame
 rcases failure with _ | e | ⟨path, failure⟩
 · dsimp only at hres
   rw [hres]
   refine ⟨pairs, pairs.length, ?_, fun _ => hb, fun _ => rfl⟩
   rw [editsReached, take_length]
   exact hsame
 · obtain ⟨m, hm, hres⟩ := hres
   rw [hres]
   exact ⟨pairs, 0, by rw [hnone]; exact hm, fun _ => hb,
    by simp [Except.isOk, Except.toBool]⟩
 · obtain ⟨m, hm, hres⟩ := hres
   rw [hres]
   exact ⟨pairs, failure.synced, hm, fun _ => hb, by simp [Except.isOk, Except.toBool]⟩

/-- What an omission leaves: when it succeeds, all edits, with their projection as the
transcript; when a write fails, the first of them and a gap; nothing new when it is refused. -/
def OmissionLeaves (r : Recorded) (env : Env) (targets : List String) :
 Option OmissionFailure × Recorded → Prop
 | (none, r') => ∃ pairs, SessionManager.Built env r.world.manager 0 (omissionGroup targets) pairs
  ∧ (editsReached r.world.manager pairs pairs.length).SameSession r'.world.manager
  ∧ r'.transcript = r'.world.manager.buildSessionProjection.messages ∧ r'.gap = none
 | (some (.write _), r') => ∃ pairs k, (editsReached r.world.manager pairs k).SameSession
  r'.world.manager
  ∧ (k ≠ 0 → SessionManager.Built env r.world.manager 0 (omissionGroup targets) pairs)
  ∧ r'.gap.isSome = true
 | (some _, r') => r' = r

/-- **An omission leaves all of its edits, or the first of them with a gap,** or nothing. -/
theorem omitRecoveryAttempt_leaves (r : Recorded) (env : Env) (shutDown inTranscript : Bool)
 (calls : List String) (entryId : Option String)
 (hf : r.world.manager.FreshDraws env 0 (omissionTargets r.world.manager.buildSessionProjection
  entryId calls).length) :
 OmissionLeaves r env (omissionTargets r.world.manager.buildSessionProjection entryId calls)
  (r.omitRecoveryAttempt env shutDown inTranscript calls entryId) := by
 obtain ⟨pairs, k, hsame, hbuilt, hlength⟩ := appendGroup_editsReached hf
 unfold Recorded.omitRecoveryAttempt
 by_cases hsource : entryId = none ∧ inTranscript = true
 · rw [if_pos hsource]
   exact rfl
 rw [if_neg hsource]
 by_cases hshut : shutDown = true
 · rw [if_pos hshut]
   exact rfl
 rw [if_neg hshut]
 cases hgap : r.gap with
 | some error => exact rfl
 | none =>
  dsimp only
  generalize r.world.appendGroup env _ = written at hsame hbuilt hlength
  rcases written with ⟨error | ids, world⟩
  · have hfailed : ∀ r' : Recorded, r'.world = world → r'.gap = some error →
     OmissionLeaves r env _ (some (.write error), r') := fun r' hw hg =>
     ⟨pairs, k, hw ▸ hsame, fun hk => hbuilt (.inl hk), by rw [hg]; rfl⟩
    cases error with
    | groupWrite path written len failed => cases written <;> exact hfailed _ rfl rfl
    | _ => exact hfailed _ rfl rfl
  · obtain rfl := hlength rfl
    exact ⟨pairs, hbuilt (.inr rfl), hsame, rfl, rfl⟩

end Bake.AgentSession
