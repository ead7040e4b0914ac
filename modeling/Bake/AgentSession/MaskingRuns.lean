import Bake.AgentSession.Masked
import Bake.AgentSession.OmissionRuns

/-!
# Masking in sessions

A plan's edits name results outside the newest batches, each shown as it was stored and none
the latest read of its range. Appended at the leaf, they put the replacement in place of what
those entries show, and nothing else changes: the batches are the same, and the next plan is
empty.
-/

open List
open OrdMap (get?)

namespace Bake.AgentSession

open Bake.Json Bake.Session

/-! ## The edits of a plan -/

/-- Whether a read is the last of its range. -/
def LatestRead (projection : SessionProjection) (o : Observation) : Prop :=
 ∃ args before after, readArgs o = some args ∧ (batches projection).flatten = before ++ o :: after
  ∧ ∀ o' ∈ after, readArgs o' ≠ some args

/-- What may be masked: a result that is no error, marked by the host, shown as stored, text
only, outside the newest batches and not the latest read of its range. -/
structure SafeTarget (projection : SessionProjection) (o : Observation) : Prop where
 shown : o.entry ∈ projection.entries
 entryType : o.entry.sourceEntry.entryType = "message"
 result : ShowsResult o
 errorFree : errorFree o.message = true
 attested : attested o = true
 unedited : unedited o = true
 text : ∃ content, get? o.message "content" = some (.array content) ∧ content ≠ []
  ∧ ∀ block ∈ content, isTextBlock block = true
 old : ∀ o' ∈ ((batches projection).drop ((batches projection).length - retainedBatches)).flatten,
  o'.id ≠ o.id
 notLatest : ¬ LatestRead projection o

def SafePlan (floatText : F64 → List Char) (projection : SessionProjection) : Prop :=
 ∃ targets : List String, (plan floatText projection).edits = targets.map maskEdit ∧ targets.Nodup
  ∧ ∀ id ∈ targets, ∃ o, o.id = id ∧ SafeTarget projection o

theorem distinct_buildSessionProjection (entries : List SessionEntry) (leaf : LeafSelector) :
 Distinct (buildSessionProjection entries leaf) := by
 let context := contextEntries (sessionPath entries leaf (indexEntries entries))
 have hcontext : (context.map SessionEntry.id).Nodup := nodup_contextEntries (nodup_sessionPath ..)
 rw [← projectContext_sources context, map_map] at hcontext
 exact hcontext

variable {floatText : F64 → List Char} {projection : SessionProjection} {base : AgentMessage}
 {source : SessionEntry} {m : SessionManager}

theorem not_latestRead (hf : FloatText floatText) {o : Observation} {key : List Char}
 (hkey : readKey floatText o = some key)
 (hne : get? (latestReads floatText (batches projection).flatten) key ≠ some o.id) :
 ¬ LatestRead projection o := by
 rintro ⟨args, before, after, hargs, hsplit, hafter⟩
 refine hne ?_
 rw [hsplit]
 refine get?_latestReads_last hkey fun o' ho' hkey' => ?_
 obtain ⟨args', hargs', hk'⟩ := Option.map_eq_some_iff.mp hkey'
 obtain ⟨args₀, hargs₀, hk⟩ := Option.map_eq_some_iff.mp hkey
 rw [hargs] at hargs₀
 cases hargs₀
 have htexts := Value.compact_inj hf (hk'.trans hk.symm)
 injection htexts with htexts
 simp only [List.cons.injEq, Value.string.injEq, and_true] at htexts
 refine hafter o' ho' ?_
 rw [hargs']
 exact congrArg some (Prod.ext htexts.1 (Prod.ext htexts.2.1 htexts.2.2))

theorem safePlan (hf : FloatText floatText) (hd : Distinct projection) :
 SafePlan floatText projection := by
 have hids := hd.observations
 have hsplit : (batches projection).flatten = oldObservations (batches projection)
  ++ ((batches projection).drop ((batches projection).length - retainedBatches)).flatten := by
  rw [oldObservations, ← flatten_append, take_append_drop]
 have hsublist : (oldObservations (batches projection)).Sublist (batches projection).flatten := by
  rw [hsplit]
  exact sublist_append_left ..
 refine ⟨planTargets floatText projection, plan_edits floatText projection,
  ((filter_sublist.trans hsublist).map _).nodup hids, fun id hid => ?_⟩
 obtain ⟨o, ho, rfl⟩ := mem_map.mp hid
 obtain ⟨hold, hbytes⟩ := mem_filter.mp ho
 have hm := maskable_of_bytes hbytes
 have hmem := mem_oldObservations hold
 have hsub := batchesFrom_sublist projection.entries
 refine ⟨o, rfl, ?_, hm.entryType, hsub.2 o hmem, hm.errorFree, hm.attested, hm.unedited, hm.text,
  ?_, ?_⟩
 · exact (hsub.1.trans (dropWhile_sublist _)).subset (mem_map_of_mem hmem)
 · intro o' ho' heq
   rw [hsplit, map_append, nodup_append] at hids
   exact hids.2.2 _ (mem_map_of_mem hold) _ (mem_map_of_mem ho') heq.symm
 · rintro hlatest
   obtain ⟨args, before, after, hargs, -⟩ := id hlatest
   obtain ⟨key, hkey, hne⟩ := hm.notLatest (calledTool_of_readArgs hargs)
   exact not_latestRead hf hkey hne hlatest

/-! ## What an edit with the replacement shows -/

theorem contextMessages_message (ht : source.entryType = "message")
 (h : sessionEntryToContextMessages source = [base]) : source.messageRole = roleOf base := by
 unfold sessionEntryToContextMessages at h
 rw [if_pos ht] at h
 unfold SessionEntry.messageRole SessionEntry.get
 rw [if_neg (not_not.mpr ht)]
 split at h
 next message hmessage =>
  rw [hmessage]
  show strMember message "role" = roleOf base
  dsimp only at h
  split at h
  · rw [← (List.cons.inj h).1, roleOf, strMember, strMember, OrdMap.get?_insert_ne _ _ (by decide)]
  · split at h
    · rw [← (List.cons.inj h).1, roleOf, strMember, strMember, OrdMap.get?_insert_ne _ _ (by decide)]
    · rw [← (List.cons.inj h).1, roleOf]
 · simp at h

theorem projectEntry_shown {edit : Option SessionEntry} {message : AgentMessage}
 (h : projectEntry source edit = [message]) :
 ∃ base, sessionEntryToContextMessages source = [base]
  ∧ (message = base ∨ ∃ content, message = editMessage content base) := by
 unfold projectEntry at h
 dsimp only at h
 split at h
 · exact ⟨message, h, .inl rfl⟩
 · simp at h
 · obtain ⟨base, hbase, rfl⟩ := map_eq_singleton_iff.mp h
   exact ⟨base, hbase, .inr ⟨_, rfl⟩⟩

theorem maskMessage_editMessage (hrole : roleOf base = some "toolResult") (content : Option Value)
 (h : (get? (editMessage content base) "content").isSome = true) :
 maskMessage (editMessage content base) = maskMessage base := by
 unfold editMessage at h ⊢
 have hr : (strMember base "role").getD "" = "toolResult" := by
  rw [show strMember base "role" = _ from hrole, Option.getD_some]
 simp only [hr] at h ⊢
 rw [if_neg (by decide)] at h ⊢
 cases content with
 | none => simp [OrdMap.get?_erase] at h
 | some value =>
  unfold maskMessage
  cases value with
  | string text =>
   dsimp only
   rw [if_pos (.inr trivial), OrdMap.insert_insert]
  | _ => exact OrdMap.insert_insert ..

theorem editMessage_replacement (hrole : roleOf base = some "toolResult") :
 editMessage (some replacementContent) base = maskMessage base := by
 have hr : (strMember base "role").getD "" = "toolResult" := by
  rw [show strMember base "role" = _ from hrole, Option.getD_some]
 unfold editMessage
 simp only [hr]
 rw [if_neg (by decide)]
 rfl

section

variable {edits edits' : EntryIndex} {first : Bool} {source edit : SessionEntry} {message : AgentMessage}

theorem projectAt_shown (ht : source.entryType = "message")
 (hm : (projectAt edits first source).messages = [message]) :
 ∃ base, sessionEntryToContextMessages source = [base] ∧ roleOf base = roleOf message
  ∧ source.messageRole = roleOf message
  ∧ (message = base ∨ ∃ content, message = editMessage content base) := by
 have hkind : ¬ (source.entryType = "compaction" ∧ first = false) := by
  rw [ht]
  exact fun h => absurd h.1 (by decide)
 simp only [projectAt, if_neg hkind] at hm
 obtain ⟨base, hbase, hshown⟩ := projectEntry_shown hm
 have hrole : roleOf base = roleOf message := by
  rcases hshown with rfl | ⟨content, rfl⟩
  · rfl
  · rw [roleOf_editMessage]
 exact ⟨base, hbase, hrole, (contextMessages_message ht hbase).trans hrole, hshown⟩

/-- An entry edited with the replacement shows it in place of the content it showed. -/
theorem projectAt_masked (ht : source.entryType = "message")
 (hm : (projectAt edits first source).messages = [message])
 (hrole : roleOf message = some "toolResult")
 (hcontent : (get? message "content").isSome = true)
 (hget : get? edits' source.id = some edit)
 (hedit : Edits source.id (replacementValue "toolResult" (some (.text replacementText))) edit) :
 (projectAt edits' first source).messages = [maskMessage message] := by
 obtain ⟨base, hbase, hbaseRole, -, hshown⟩ := projectAt_shown ht hm
 rw [hrole] at hbaseRole
 have hmask : maskMessage message = maskMessage base := by
  rcases hshown with rfl | ⟨content, rfl⟩
  · rfl
  · exact maskMessage_editMessage hbaseRole content hcontent
 have hkind : ¬ (source.entryType = "compaction" ∧ first = false) := by
  rw [ht]
  exact fun h => absurd h.1 (by decide)
 simp only [projectAt, if_neg hkind]
 rw [hget, projectEntry]
 dsimp only
 rw [Option.bind_some, hedit.replacement, hbase]
 show [editMessage _ base] = _
 rw [hmask, ← editMessage_replacement hbaseRole]
 rfl

end

/-! ## The plan's edits at the leaf -/

variable {context : List SessionEntry}

theorem mem_projectContext_source {entry : ProjectedSessionEntry}
 (h : entry ∈ projectContext context) :
 ∃ first, ∃ source ∈ context, entry = projectAt (contextEdits context) first source := by
 cases context with
 | nil => simp [projectContext] at h
 | cons source rest =>
  rcases mem_cons.mp h with rfl | h
  · exact ⟨true, source, mem_cons_self .., rfl⟩
  · obtain ⟨other, ho, rfl⟩ := mem_map.mp h
    exact ⟨false, other, mem_cons_of_mem _ ho, rfl⟩

def Observation.pair (o : Observation) : Value × String × Option String :=
 (o.call, o.id, strMember o.message "toolCallId")

/-- What masking `targets` makes of a projection: the replacement in what they show, the same
batches, and nothing more to mask. -/
structure Masks (floatText : F64 → List Char) (projection : SessionProjection) (targets : List String)
 (masked : SessionProjection) : Prop where
 /-- Entries that are not masked show what they showed; the edits show nothing. -/
 entries : ∃ edits : List SessionEntry,
  masked = (projection.changed (maskEntry targets)).behind edits
 pairs : (batches masked).map (·.map Observation.pair)
  = (batches projection).map (·.map Observation.pair)
 again : (plan floatText masked).edits = []

theorem pair_maskObservation (ids : List String) (o : Observation) :
 (maskObservation ids o).pair = o.pair := by
 unfold Observation.pair
 rw [maskObservation_call, maskObservation_id]
 unfold maskObservation
 split
 · rw [strMember_maskMessage (by decide)]
 · rfl

theorem Masks.of_entries {masked : SessionProjection} (hd : Distinct projection)
 {edits : List SessionEntry}
 (h : masked = (projection.changed (maskEntry (planTargets floatText projection))).behind edits) :
 Masks floatText projection (planTargets floatText projection) masked := by
 have hshow : ShowResults (planTargets floatText projection) projection.entries := by
  intro entry he hid
  obtain ⟨o, ho, hsame⟩ := mem_map.mp hid
  have hmem := mem_oldObservations (mem_of_mem_filter ho)
  have hsub := batchesFrom_sublist projection.entries
  have hentry : o.entry ∈ projection.entries :=
   (hsub.1.trans (dropWhile_sublist _)).subset (mem_map_of_mem hmem)
  obtain rfl := inj_on_of_nodup_map hd hentry he hsame
  exact ⟨o.message, (hsub.2 o hmem).messages, (hsub.2 o hmem).role⟩
 have hbatches : batches masked = (batches projection).map
  (·.map (maskObservation (planTargets floatText projection))) := by
  rw [h]
  show batchesFrom (projection.entries.map _ ++ edits.map ProjectedSessionEntry.bare) = _
  rw [batchesFrom_append fun entry he => ?_, batchesFrom_mask hshow]
  · rfl
  · obtain ⟨_, -, rfl⟩ := mem_map.mp he
    rfl
 refine ⟨⟨edits, h⟩, ?_, ?_⟩
 · rw [hbatches, map_map]
   refine map_congr_left fun batch _ => ?_
   show (batch.map _).map _ = _
   rw [map_map]
   exact map_congr_left fun o _ => pair_maskObservation _ o
 · rw [plan_edits, planTargets_mask hd hbatches]
   rfl

theorem entries_buildSessionProjection (hi : Indexed False m) (hne : m.branchEntries none ≠ []) :
 m.buildSessionProjection.entries = projectContext (contextEntries (m.branchEntries none)) := by
 unfold SessionManager.buildSessionProjection projection
 dsimp only
 rw [hi.sessionPath_eq hne]

variable {entry : SessionEntry}

theorem entry_of_mem_branch (hi : Indexed False m)
 (h : entry ∈ m.branchEntries none) : m.entry entry.id = some entry := by
 obtain ⟨leaf, last, -, -, hid, hget, hbranch⟩ := hi.branchEntries_eq (ne_nil_of_mem h)
 rw [hbranch, mem_reverse] at h
 rw [hi.entry_eq]
 rcases mem_pathUp (coherent_indexEntries m.entries) h with rfl | hget'
 · rw [hid, hget]
 · exact hget'

theorem mem_of_mem_contextEntries {path : List SessionEntry}
 (h : entry ∈ contextEntries path) : entry ∈ path := by
 unfold contextEntries at h
 dsimp only at h
 split at h
 · exact h
 next compaction before hdrop =>
  have hsub : ∀ e ∈ compaction :: before, e ∈ path := fun e he =>
   mem_reverse.mp ((dropWhile_sublist _).subset (hdrop ▸ he))
  rcases mem_cons.mp h with rfl | h
  · exact hsub _ (mem_cons_self ..)
  · rcases mem_append.mp h with h | h
    · have hbefore := (dropWhile_sublist _).subset (mem_of_mem_filter h)
      exact hsub _ (mem_cons_of_mem _ (mem_reverse.mp hbefore))
    · exact mem_reverse.mp ((takeWhile_sublist _).subset (mem_reverse.mp h))

theorem projectAt_first (h : source.entryType ≠ "compaction") (edits : EntryIndex)
 (first first' : Bool) : projectAt edits first source = projectAt edits first' source := by
 unfold projectAt
 rw [if_neg fun hc => h hc.1, if_neg fun hc => h hc.1]

/-- What an entry of the branch that a plan masks shows. -/
structure TargetSource (context : List SessionEntry) (source : SessionEntry) (message : AgentMessage) :
 Prop where
 mem : source ∈ context
 entryType : source.entryType = "message"
 messages : ∀ first, (projectAt (contextEdits context) first source).messages = [message]
 role : roleOf message = some "toolResult"
 content : (get? message "content").isSome = true

theorem exists_targetSource (h : projection.entries = projectContext context) {id : String}
 (hid : id ∈ planTargets floatText projection) :
 ∃ source message, source.id = id ∧ TargetSource context source message := by
 obtain ⟨o, ho, rfl⟩ := mem_map.mp hid
 obtain ⟨hold, hbytes⟩ := mem_filter.mp ho
 have hm := maskable_of_bytes hbytes
 have hmem := mem_oldObservations hold
 have hsub := batchesFrom_sublist projection.entries
 have hentry : o.entry ∈ projection.entries :=
  (hsub.1.trans (dropWhile_sublist _)).subset (mem_map_of_mem hmem)
 rw [h] at hentry
 obtain ⟨first, source, hsource, heq⟩ := mem_projectContext_source hentry
 have ht : source.entryType = "message" := by
  have := hm.entryType
  rwa [heq] at this
 have hshows := hsub.2 o hmem
 obtain ⟨content, hcontent, -⟩ := hm.text
 refine ⟨source, o.message, by rw [Observation.id, heq]; rfl, hsource, ht, fun first' => ?_,
  hshows.role, by rw [hcontent]; rfl⟩
 rw [projectAt_first (by rw [ht]; decide) _ first' first, ← heq]
 exact hshows.messages

/-- **A plan's edits at the leaf** mask what they name. -/
theorem masks_pushAll (hi : Indexed False m) {env : Env} {pairs : List (String × JsonObject)}
 (hb : SessionManager.Built env m 0 (plan floatText m.buildSessionProjection).edits pairs)
 (hf : m.FreshDraws env 0 (plan floatText m.buildSessionProjection).edits.length) :
 Masks floatText m.buildSessionProjection (planTargets floatText m.buildSessionProjection)
  (m.pushAll pairs).buildSessionProjection := by
 have hd : Distinct m.buildSessionProjection := distinct_buildSessionProjection ..
 rw [plan_edits, length_map] at hf
 rw [plan_edits] at hb
 by_cases hnil : planTargets floatText m.buildSessionProjection = []
 · rw [hnil] at hb
   cases hb
   refine Masks.of_entries hd (show _ = SessionProjection.behind _ [] from ?_)
   have hid : maskEntry [] = id := by
    funext entry
    exact maskEntry_of_not_mem (by simp)
   rw [hnil]
   simp [SessionManager.pushAll, SessionProjection.changed, SessionProjection.behind, hid,
    SessionManager.buildSessionProjection, projection]
 have hne : m.branchEntries none ≠ [] := by
  obtain ⟨target, rest, hcons⟩ := exists_cons_of_ne_nil hnil
  rw [hcons] at hb
  cases hb with
  | cons hentry _ =>
   exact (contextEdit_edits
    (show m.contextEdit env 0 target (some (.text replacementText)) = .ok _ from hentry)).1
 let context := contextEntries (m.branchEntries none)
 have hentries : m.buildSessionProjection.entries = projectContext context :=
  entries_buildSessionProjection hi hne
 have hsource := fun id => @exists_targetSource floatText _ context hentries id
 have hedits := SessionManager.Built.contentEdits hb hi hf fun id hid => by
  obtain ⟨source, message, rfl, hs⟩ := hsource id hid
  obtain ⟨-, -, -, hrole, -⟩ := projectAt_shown hs.entryType (hs.messages true)
  refine ⟨source, entry_of_mem_branch hi (mem_of_mem_contextEntries hs.mem), ?_⟩
  rw [SessionManager.editableRole, if_neg (by rw [hs.entryType]; decide), hrole, hs.role]
  rfl
 refine Masks.of_entries hd (@SessionManager.Built.projection_changed False env m 0 pairs
  ((planTargets floatText m.buildSessionProjection).map fun id => (id, some (.text replacementText)))
  (by simpa using hnil) (by rw [map_map]; exact hb) hi (by rw [length_map]; exact hf)
  (fun entry he => type_of_mem_edits hedits he) _ fun first entry hentry => ?_)
 have hget := get?_contextEdits_append context (pairs.map entryOf) entry.id
 have hlast := get?_contextEdits_targets hedits entry.id
 by_cases hid : entry.id ∈ planTargets floatText m.buildSessionProjection
 · rw [if_pos hid] at hlast
   obtain ⟨edit, hedit, he⟩ := hlast
   rw [hedit, Option.some_or] at hget
   obtain ⟨source, message, hsame, hs⟩ := hsource entry.id hid
   have hnodup : (context.map SessionEntry.id).Nodup :=
    nodup_contextEntries hi.nodup_branchEntries
   obtain rfl := inj_on_of_nodup_map hnodup hs.mem hentry hsame
   have hmasked := projectAt_masked hs.entryType (hs.messages first) hs.role hs.content hget he
   rw [maskEntry_of_mem (show (projectAt _ first source).sourceEntry.id ∈ _ from hid),
    hs.messages first]
   exact congrArg (ProjectedSessionEntry.mk source) hmasked
 · rw [if_neg hid] at hlast
   rw [hlast, Option.none_or] at hget
   rw [projectAt_congr hget,
    maskEntry_of_not_mem (show (projectAt _ first entry).sourceEntry.id ∉ _ from hid)]

theorem appendGroup_ok {w w' : World} {env : Env} {entries : List GroupEntry} {ids : List String}
 (hf : w.manager.FreshDraws env 0 entries.length) (h : w.appendGroup env entries = (.ok ids, w')) :
 ∃ pairs, SessionManager.Built env w.manager 0 entries pairs
  ∧ (w.manager.pushAll pairs).SameSession w'.manager := by
 unfold World.appendGroup at h
 rcases World.appendGroupInner_cases hf false with ⟨e, -, hres⟩ |
  ⟨pairs, hb, hnew, ⟨rfl, hres⟩ | ⟨-, failure, w₁, hp, hres⟩⟩
 · rw [hres] at h
   exact absurd (congrArg Prod.fst h) (by simp)
 · rw [hres] at h
   obtain ⟨-, rfl⟩ := Prod.mk.inj h
   exact ⟨[], hb, .refl _⟩
 have hsame := (w.withManager (w.manager.withNew (pairs.map entryOf))).persistGroup_same env
  w.manager.fileEntries.length false
 rw [hp] at hsame
 rcases failure with _ | e | ⟨path, failure⟩
 · dsimp only at hres
   rw [hres] at h
   obtain ⟨-, rfl⟩ := Prod.mk.inj h
   exact ⟨pairs, hb, by rw [SessionManager.pushAll_of_new _ hnew]; exact hsame⟩
 · obtain ⟨m, hm, hres⟩ := hres
   rw [hres] at h
   exact absurd (congrArg Prod.fst h) (by simp)
 · obtain ⟨m, hm, hres⟩ := hres
   rw [hres] at h
   exact absurd (congrArg Prod.fst h) (by simp)

/-- A double as its significand and its power of two. -/
def exponentText (v : F64) : List Char := (if v.neg then ['-'] else []) ++ (Nat.toDigits 10 v.mant
  ++ 'e' :: ((if v.exp < 0 then ['-'] else ['+']) ++ Nat.toDigits 10 v.exp.natAbs))

theorem floatText_exponentText : FloatText exponentText := by
 refine ⟨fun v => ?_, fun v => ⟨'e', by simp [exponentText], .inr rfl⟩, fun v w h => ?_⟩
 · refine @IsNumber.mk (if v.neg then ['-'] else []) (Nat.toDigits 10 v.mant) [] _ ?_
    (isInt_toDigits _) .none (.some (.inl rfl) ?_ Nat.toDigits_ne_nil (digits_toDigits _))
   · split <;> simp
   · split <;> simp
 have hdigit : ∀ (n : Nat) (rest t : List Char), Nat.toDigits 10 n ++ rest ≠ '-' :: t := by
  intro n rest t h
  have hmem : '-' ∈ Nat.toDigits 10 n := by
   cases hd : Nat.toDigits 10 n with
   | nil => exact absurd hd Nat.toDigits_ne_nil
   | cons c cs =>
    rw [hd] at h
    exact (List.cons.inj h).1 ▸ mem_cons_self ..
  exact absurd (digits_toDigits n _ hmem) (by decide)
 have hneg : v.neg = w.neg := by
  unfold exponentText at h
  cases hv : v.neg with
  | false =>
   cases hw : w.neg with
   | false => rfl
   | true => rw [hv, hw] at h; exact absurd h (hdigit _ _ _)
  | true =>
   cases hw : w.neg with
   | false => rw [hv, hw] at h; exact absurd h.symm (hdigit _ _ _)
   | true => rfl
 unfold exponentText at h
 rw [hneg] at h
 have h := append_cancel_left h
 have hnot : ∀ t, NoDigit ('e' :: t) := by
  intro t c hc
  obtain rfl : 'e' = c := by simpa using hc
  decide
 have hrest := congrArg digits h
 rw [digits_append (digits_toDigits _) (hnot _), digits_append (digits_toDigits _) (hnot _)] at hrest
 have hmant := toDigits_inj (append_cancel_right (hrest ▸ h))
 have hexp := (List.cons.inj hrest).2
 have hexp' : v.exp = w.exp := by
  by_cases hv : v.exp < 0 <;> by_cases hw : w.exp < 0 <;> simp only [hv, hw, if_true, if_false] at hexp
  · have := toDigits_inj (List.cons.inj hexp).2
    omega
  · exact absurd (List.cons.inj hexp).1 (by decide)
  · exact absurd (List.cons.inj hexp).1 (by decide)
  · have := toDigits_inj (List.cons.inj hexp).2
    omega
 cases v
 cases w
 simp_all

/-- Draws of new ids. -/
def numberedEnv (n : Nat) : Env :=
 { Env.calm with
   draws k := { candidates := ["entry" ++ toString (n + k)], uuid := "uuid" ++ toString (n + k) } }

/-- A call of `ls` and its marked result. -/
def listing (n : Nat) (text : String) : List (Op × Env) :=
 [(.appendMessage [("role", .string "assistant"), ("content", .array
  [.object [("type", .string "toolCall"), ("id", .string "c1"), ("name", .string "ls")]])],
  numberedEnv (2 * n)),
  (.appendMessage [("role", .string "toolResult"), ("toolCallId", .string "c1"),
   ("toolName", .string "ls"), ("isError", .bool false),
   ("details", .object [(provenance, provenanceMarker "ls")]),
   ("content", textBlocks text)], numberedEnv (2 * n + 1))]

/-- A long listing and the eight newest batches. -/
def listedWorld : World := Run.final World.step (newWorld fun _ => none)
  (listing 0 "a listing that is longer than its replacement"
   ++ (List.range 8).flatMap fun n => listing (n + 1) "a")

end Bake.AgentSession
