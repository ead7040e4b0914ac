import Bake.AgentSession.ContextMasking

/-!
# What masking leaves of a projection

A batch's results stand between its assistant message and the next one, so batches share no
entry, and what names a batch is not what masking replaces: the masked projection has the
same batches, with other content. An observation that was masked is not masked again, as its
content is the replacement; the others are asked the same, because the latest read of each
range was kept.
-/

open List
open OrdMap (get?)

namespace Bake.AgentSession

open Bake.Json Bake.Session

/-! ## Masked entries -/

def maskMessage (message : AgentMessage) : AgentMessage :=
 OrdMap.insert message "content" replacementContent

/-- An entry with the replacement in its messages, when it is one of `ids`. -/
def maskEntry (ids : List String) (entry : ProjectedSessionEntry) : ProjectedSessionEntry :=
 if entry.sourceEntry.id ∈ ids then { entry with messages := entry.messages.map maskMessage }
 else entry

def maskObservation (ids : List String) (o : Observation) : Observation :=
 if o.id ∈ ids then { o with entry := maskEntry ids o.entry, message := maskMessage o.message } else o

theorem get?_maskMessage {key : String} (h : key ≠ "content") (message : AgentMessage) :
 get? (maskMessage message) key = get? message key :=
 OrdMap.get?_insert_ne _ _ (Ne.symm h)

theorem strMember_maskMessage {key : String} (h : key ≠ "content") (message : AgentMessage) :
 strMember (maskMessage message) key = strMember message key := by
 rw [strMember, get?_maskMessage h, strMember]

@[simp] theorem roleOf_maskMessage (message : AgentMessage) :
 roleOf (maskMessage message) = roleOf message := strMember_maskMessage (by decide) message

variable {entry : ProjectedSessionEntry}

theorem maskEntry_of_not_mem {ids : List String}
 (h : entry.sourceEntry.id ∉ ids) : maskEntry ids entry = entry := if_neg h

theorem maskEntry_of_mem {ids : List String} (h : entry.sourceEntry.id ∈ ids) :
 maskEntry ids entry = { entry with messages := entry.messages.map maskMessage } := if_pos h

variable (ids : List String)

@[simp] theorem maskEntry_sourceEntry (entry : ProjectedSessionEntry) :
 (maskEntry ids entry).sourceEntry = entry.sourceEntry := by
 unfold maskEntry
 split <;> rfl

@[simp] theorem maskObservation_id (o : Observation) :
 (maskObservation ids o).id = o.id := by
 unfold maskObservation
 split
 · exact congrArg SessionEntry.id (maskEntry_sourceEntry ids o.entry)
 · rfl

@[simp] theorem maskObservation_call (o : Observation) :
 (maskObservation ids o).call = o.call := by
 unfold maskObservation
 split <;> rfl

/-! ## The same batches -/

variable (calls : List (String × Value))

theorem resultCall_maskMessage (seen : List String)
 (message : AgentMessage) :
 resultCall calls seen (maskMessage message) = resultCall calls seen message := by
 unfold resultCall
 rw [strMember_maskMessage (by decide), get?_maskMessage (by decide)]

theorem collectResults_mask
 (entries : List ProjectedSessionEntry) : ∀ seen, collectResults calls seen (entries.map (maskEntry ids))
  = (collectResults calls seen entries).map fun found =>
   (found.1, found.2.map (maskObservation ids)) := by
 induction entries with
 | nil => exact fun seen => rfl
 | cons entry rest ih =>
  intro seen
  rw [map_cons, collectResults.eq_def, collectResults.eq_def]
  dsimp only
  by_cases hid : entry.sourceEntry.id ∈ ids
  · rw [maskEntry_of_mem hid]
    dsimp only
    match hm : entry.messages with
    | [] => exact ih seen
    | [message] =>
     simp only [map_cons, map_nil, roleOf_maskMessage, resultCall_maskMessage]
     split
     · rfl
     · cases resultCall calls seen message with
       | none => rfl
       | some found =>
        dsimp only
        rw [ih, Option.map_map, Option.map_map]
        refine congrArg (Option.map · _) (funext fun found => ?_)
        simp [maskObservation, Observation.id, hid, maskEntry, hm]
    | _ :: _ :: _ => rfl
  rw [maskEntry_of_not_mem hid]
  match hm : entry.messages with
  | [] => exact ih seen
  | [message] =>
   dsimp only
   split
   · rfl
   · cases resultCall calls seen message with
     | none => rfl
     | some found =>
      dsimp only
      rw [ih, Option.map_map, Option.map_map]
      refine congrArg (Option.map · _) (funext fun found => ?_)
      simp [maskObservation, Observation.id, hid]
  | _ :: _ :: _ => rfl

def ShowResults (ids : List String) (entries : List ProjectedSessionEntry) : Prop :=
 ∀ entry ∈ entries, entry.sourceEntry.id ∈ ids →
  ∃ message, entry.messages = [message] ∧ roleOf message = some "toolResult"

theorem batchCalls_mask {ids : List String} (h : entry.sourceEntry.id ∈ ids →
  ∃ message, entry.messages = [message] ∧ roleOf message = some "toolResult") :
 batchCalls (maskEntry ids entry) = batchCalls entry := by
 by_cases hid : entry.sourceEntry.id ∈ ids
 · obtain ⟨message, hm, hrole⟩ := h hid
   rw [maskEntry_of_mem hid]
   simp [batchCalls, hm, hrole]
 · rw [maskEntry_of_not_mem hid]

/-- **Masking keeps the batches:** each has the same calls and results. -/
theorem batchesFrom_mask {ids : List String} : ∀ {entries : List ProjectedSessionEntry},
 ShowResults ids entries → batchesFrom (entries.map (maskEntry ids))
  = (batchesFrom entries).map (·.map (maskObservation ids))
 | [], _ => rfl
 | entry :: rest, h => by
  have hat : batchAt (maskEntry ids entry) (rest.map (maskEntry ids))
   = (batchAt entry rest).map (·.map (maskObservation ids)) := by
   unfold batchAt
   rw [batchCalls_mask (h entry (mem_cons_self ..))]
   cases batchCalls entry with
   | none => rfl
   | some calls =>
    rw [Option.bind_some, Option.bind_some, collectResults_mask]
    cases collectResults calls [] rest with
    | none => rfl
    | some found =>
     simp only [Option.map_some, Option.bind_some]
     split <;> rfl
  rw [map_cons, batchesFrom, batchesFrom, hat,
   batchesFrom_mask fun e he => h e (mem_cons_of_mem _ he), map_append]
  cases batchAt entry rest <;> rfl

theorem collectResults_state (seen : List String) (h : entry.messages = []) (rest : List ProjectedSessionEntry) :
 collectResults calls seen (entry :: rest) = collectResults calls seen rest := by
 rw [collectResults.eq_def]
 simp only [h]

theorem collectResults_append {entries state : List ProjectedSessionEntry}
 (h : ∀ entry ∈ state, entry.messages = []) :
 ∀ seen, collectResults calls seen (entries ++ state) = collectResults calls seen entries := by
 induction entries with
 | nil =>
  intro seen
  induction state with
  | nil => rfl
  | cons entry rest ih =>
   rw [nil_append, collectResults_state calls seen (h entry (mem_cons_self ..))]
   exact ih fun e he => h e (mem_cons_of_mem _ he)
 | cons entry rest ih =>
  intro seen
  rw [cons_append, collectResults.eq_def, collectResults.eq_def]
  dsimp only
  split
  · exact ih seen
  · split
    · rfl
    · cases resultCall calls seen _ with
      | none => rfl
      | some found => exact congrArg (Option.map _) (ih _)
  · rfl

theorem batchesFrom_append {entries state : List ProjectedSessionEntry}
 (h : ∀ entry ∈ state, entry.messages = []) :
 batchesFrom (entries ++ state) = batchesFrom entries := by
 induction entries with
 | nil =>
  induction state with
  | nil => rfl
  | cons entry rest ih =>
   have hcalls : batchCalls entry = none := by
    rw [batchCalls, h entry (mem_cons_self ..)]
   have hat : batchAt entry rest = none := by rw [batchAt, hcalls, Option.bind_none]
   show (batchAt entry rest).toList ++ batchesFrom rest = []
   rw [hat]
   exact ih fun e he => h e (mem_cons_of_mem _ he)
 | cons entry rest ih =>
  rw [cons_append, batchesFrom, batchesFrom, ih]
  unfold batchAt
  simp only [collectResults_append _ h]

/-! ## Where results stand -/

def continuesBatch (entry : ProjectedSessionEntry) : Bool :=
 match entry.messages with
 | [] => true
 | [message] => roleOf message = some "toolResult"
 | _ => false

structure ShowsResult (o : Observation) : Prop where
 messages : o.entry.messages = [o.message]
 role : roleOf o.message = some "toolResult"

/-- The results found are shown in the entries right behind, in their order. -/
theorem collectResults_found {calls : List (String × Value)} {entries : List ProjectedSessionEntry} :
 ∀ {seen found}, collectResults calls seen entries = some found →
  (found.2.map Observation.entry).Sublist (entries.takeWhile continuesBatch)
   ∧ ∀ o ∈ found.2, ShowsResult o := by
 induction entries with
 | nil =>
  intro seen found h
  cases h
  exact ⟨List.Sublist.refl _, by simp⟩
 | cons entry rest ih =>
  intro seen found h
  rw [collectResults.eq_def] at h
  dsimp only at h
  split at h
  next hm =>
   have hc : continuesBatch entry = true := by simp [continuesBatch, hm]
   obtain ⟨hsub, hall⟩ := ih h
   rw [takeWhile_cons_of_pos hc]
   exact ⟨hsub.cons _, hall⟩
  next message hm =>
   split at h
   · cases h
     exact ⟨nil_sublist _, by simp⟩
   next hrole =>
    have hrole : roleOf message = some "toolResult" := Decidable.not_not.mp hrole
    split at h
    · simp at h
    · obtain ⟨found, hfound, rfl⟩ := Option.map_eq_some_iff.mp h
      have hc : continuesBatch entry = true := by simp [continuesBatch, hm, hrole]
      obtain ⟨hsub, hall⟩ := ih hfound
      rw [takeWhile_cons_of_pos hc]
      refine ⟨hsub.cons_cons _, fun o ho => ?_⟩
      rcases mem_cons.mp ho with rfl | ho
      · exact ⟨hm, hrole⟩
      · exact hall o ho
  · cases h
    exact ⟨nil_sublist _, by simp⟩

theorem batchCalls_of_continues (h : continuesBatch entry = true) : batchCalls entry = none := by
 unfold continuesBatch at h
 unfold batchCalls
 split at h
 next hm =>
  rw [hm]
 next message hm =>
  have hrole : roleOf message = some "toolResult" := by simpa using h
  rw [hm]
  simp [hrole]
 · simp at h

theorem batchAt_found {rest : List ProjectedSessionEntry}
 {batch : List Observation} (h : batchAt entry rest = some batch) :
 (batch.map Observation.entry).Sublist (rest.takeWhile continuesBatch)
  ∧ ∀ o ∈ batch, ShowsResult o := by
 obtain ⟨calls, -, h⟩ := Option.bind_eq_some_iff.mp h
 obtain ⟨found, hfound, h⟩ := Option.bind_eq_some_iff.mp h
 split at h
 · cases h; exact collectResults_found hfound
 · simp at h

/-- **Batches share no entry:** their results stand in the projection one after the other. -/
theorem batchesFrom_sublist : ∀ entries : List ProjectedSessionEntry,
 ((batchesFrom entries).flatten.map Observation.entry).Sublist (entries.dropWhile continuesBatch)
  ∧ ∀ o ∈ (batchesFrom entries).flatten, ShowsResult o
 | [] => ⟨List.Sublist.refl _, by simp [batchesFrom]⟩
 | entry :: rest => by
  obtain ⟨hsub, hall⟩ := batchesFrom_sublist rest
  rw [batchesFrom]
  by_cases hc : continuesBatch entry = true
  · have hat : batchAt entry rest = none := by
     rw [batchAt, batchCalls_of_continues hc, Option.bind_none]
    rw [hat, dropWhile_cons_of_pos hc]
    exact ⟨hsub, hall⟩
  · rw [dropWhile_cons_of_neg hc]
    cases hat : batchAt entry rest with
    | none =>
     exact ⟨(hsub.trans (dropWhile_sublist _)).cons _, hall⟩
    | some batch =>
     obtain ⟨hbatch, hshows⟩ := batchAt_found hat
     simp only [Option.toList_some, singleton_append, flatten_cons, map_append]
     refine ⟨List.Sublist.cons _ ?_, fun o ho => (mem_append.mp ho).elim (hshows o) (hall o)⟩
     have happend := hbatch.append hsub
     rwa [takeWhile_append_dropWhile] at happend

/-! ## The latest reads -/

section

variable {floatText : F64 → List Char}

theorem get?_latestReads_snoc (l : List Observation) (o : Observation) (key : List Char) :
 get? (latestReads floatText (l ++ [o])) key
  = if readKey floatText o = some key then some o.id else get? (latestReads floatText l) key := by
 unfold latestReads
 rw [foldl_concat]
 cases hk : readKey floatText o with
 | none => simp
 | some k =>
  dsimp only
  rw [OrdMap.get?_insert]
  simp only [Option.some.injEq]

theorem get?_latestReads_last {before after : List Observation} {o : Observation} {key : List Char}
 (ho : readKey floatText o = some key) (hafter : ∀ o' ∈ after, readKey floatText o' ≠ some key) :
 get? (latestReads floatText (before ++ o :: after)) key = some o.id := by
 induction after using List.reverseRecOn with
 | nil => rw [get?_latestReads_snoc, if_pos ho]
 | append_singleton after last ih =>
  rw [← cons_append, ← append_assoc, get?_latestReads_snoc, if_neg (hafter last (by simp))]
  exact ih fun o' h => hafter o' (by simp [h])

theorem get?_latestReads_none {l : List Observation} {key : List Char}
 (h : ∀ o ∈ l, readKey floatText o ≠ some key) : get? (latestReads floatText l) key = none := by
 induction l using List.reverseRecOn with
 | nil => rfl
 | append_singleton l o ih =>
  rw [get?_latestReads_snoc, if_neg (h o (by simp))]
  exact ih fun o' ho => h o' (by simp [ho])

theorem exists_last_read {l : List Observation} {key : List Char}
 (h : ∃ o ∈ l, readKey floatText o = some key) : ∃ before o after, l = before ++ o :: after
  ∧ readKey floatText o = some key ∧ ∀ o' ∈ after, readKey floatText o' ≠ some key := by
 induction l using List.reverseRecOn with
 | nil => simp at h
 | append_singleton l last ih =>
  by_cases hlast : readKey floatText last = some key
  · exact ⟨l, last, [], rfl, hlast, by simp⟩
  · obtain ⟨o, ho, hkey⟩ := h
    have ho : o ∈ l := by
     rcases mem_append.mp ho with ho | ho
     · exact ho
     · exact absurd (mem_singleton.mp ho ▸ hkey) hlast
    obtain ⟨before, o, after, rfl, hkey, hafter⟩ := ih ⟨o, ho, hkey⟩
    refine ⟨before, o, after ++ [last], by simp, hkey, fun o' h => ?_⟩
    rcases mem_append.mp h with h | h
    · exact hafter o' h
    · rwa [mem_singleton.mp h]

theorem calledTool_of_readArgs {o : Observation} {args : String × Value × Value}
 (h : readArgs o = some args) : calledTool o = some "read" := by
 unfold readArgs at h
 split at h
 · simp at h
 next hread =>
  simp only [Bool.or_eq_true, Bool.not_eq_true', decide_eq_true_eq, not_or,
   Decidable.not_not] at hread
  exact hread.1.1.2

theorem attested_mask (o : Observation) : attested (maskObservation ids o) = attested o := by
 unfold maskObservation
 split
 · unfold attested
   dsimp only
   rw [get?_maskMessage (by decide)]
 · rfl

theorem errorFree_mask (o : Observation) :
 errorFree (maskObservation ids o).message = errorFree o.message := by
 unfold maskObservation
 split
 · unfold errorFree
   rw [get?_maskMessage (by decide)]
 · rfl

theorem readKey_mask {ids : List String} {o : Observation} (h : o.id ∈ ids → unedited o = true) :
 readKey floatText (maskObservation ids o) = none
  ∨ readKey floatText (maskObservation ids o) = readKey floatText o := by
 by_cases hid : o.id ∈ ids
 · by_cases hedit : unedited (maskObservation ids o) = true
   · refine .inr ?_
     unfold readKey readArgs
     rw [attested_mask, errorFree_mask, hedit, h hid, calledTool, calledTool, maskObservation_call]
   · refine .inl ?_
     unfold readKey readArgs
     rw [if_pos (by simp [hedit]), Option.map_none]
 · exact .inr (by rw [maskObservation, if_neg hid])

/-- **The latest reads stay the latest** when none of them is masked. -/
theorem latestReads_mask {ids : List String} {l : List Observation}
 (hedit : ∀ o ∈ l, o.id ∈ ids → unedited o = true)
 (hlatest : ∀ o ∈ l, o.id ∈ ids → ∀ key, readKey floatText o = some key →
  get? (latestReads floatText l) key ≠ some o.id) (key : List Char) :
 get? (latestReads floatText (l.map (maskObservation ids))) key
  = get? (latestReads floatText l) key := by
 have hnot : ∀ o ∈ l, readKey floatText o ≠ some key →
  readKey floatText (maskObservation ids o) ≠ some key := by
  intro o ho hk
  rcases readKey_mask (hedit o ho) with h | h <;> rw [h]
  · simp
  · exact hk
 by_cases hread : ∃ o ∈ l, readKey floatText o = some key
 · obtain ⟨before, o, after, rfl, hkey, hafter⟩ := exists_last_read hread
   have hlast := @get?_latestReads_last floatText before after o key hkey hafter
   have hid : o.id ∉ ids := fun hid => hlatest o (by simp) hid key hkey hlast
   rw [hlast, map_append, map_cons, maskObservation, if_neg hid]
   refine get?_latestReads_last hkey fun o' ho' => ?_
   obtain ⟨other, hother, rfl⟩ := mem_map.mp ho'
   exact hnot other (by simp [hother]) (hafter other hother)
 · rw [get?_latestReads_none fun o ho hk => hread ⟨o, ho, hk⟩]
   refine get?_latestReads_none fun o' ho' => ?_
   obtain ⟨other, hother, rfl⟩ := mem_map.mp ho'
   exact hnot other hother fun hk => hread ⟨other, hother, hk⟩

/-! ## What is masked -/

structure Maskable (floatText : F64 → List Char) (latest : List (List Char × String)) (o : Observation) :
 Prop where
 errorFree : errorFree o.message = true
 attested : attested o = true
 entryType : o.entry.sourceEntry.entryType = "message"
 unedited : unedited o = true
 text : ∃ content, get? o.message "content" = some (.array content) ∧ content ≠ []
  ∧ ∀ block ∈ content, isTextBlock block = true
 notLatest : calledTool o = some "read" → ∃ key, readKey floatText o = some key
  ∧ get? latest key ≠ some o.id

theorem maskable_of_bytes {latest : List (List Char × String)} {o : Observation}
 (h : (maskedBytes floatText latest o).isSome = true) : Maskable floatText latest o := by
 unfold maskedBytes at h
 split at h
 · simp at h
 next hkind =>
  simp only [Bool.or_eq_true, Bool.not_eq_true', decide_eq_true_eq, not_or, Bool.not_eq_false,
   Decidable.not_not] at hkind
  split at h
  · simp at h
  next hread =>
   split at h
   next content hcontent =>
    split at h
    · simp at h
    next htext =>
     simp only [Bool.or_eq_true, Bool.not_eq_true', not_or, Bool.not_eq_false,
      all_eq_true, List.isEmpty_iff] at htext
     split at h
     · simp at h
     next hedit =>
      refine ⟨hkind.1.1, hkind.1.2, hkind.2, by simpa using hedit,
       ⟨content, hcontent, htext.1, htext.2⟩, fun hname => ?_⟩
      have hkey : ¬ (readKey floatText o).all (fun key => get? latest key = some o.id) = true :=
       fun h => hread ⟨hname, h⟩
      cases hk : readKey floatText o with
      | none => exact absurd (by rw [hk]; rfl) hkey
      | some key =>
       rw [hk] at hkey
       exact ⟨key, rfl, by simpa using hkey⟩
   · simp at h

theorem maskedBytes_congr {latest latest' : List (List Char × String)}
 (h : ∀ key, get? latest' key = get? latest key) (o : Observation) :
 maskedBytes floatText latest' o = maskedBytes floatText latest o := by
 unfold maskedBytes
 simp only [h]

theorem maskedBytes_replacement {o : Observation}
 (h : get? o.message "content" = some replacementContent)
 (latest : List (List Char × String)) : maskedBytes floatText latest o = none := by
 unfold maskedBytes
 rw [h]
 split
 · rfl
 · split
   · rfl
   · dsimp only [replacementContent, textBlocks]
     split
     · rfl
     · split
       · rfl
       · exact if_pos (Nat.le_refl _)

theorem oldObservations_mask (bs : List (List Observation)) :
 oldObservations (bs.map (·.map (maskObservation ids)))
  = (oldObservations bs).map (maskObservation ids) := by
 unfold oldObservations
 rw [length_map, ← map_take, map_flatten]

theorem mem_oldObservations {bs : List (List Observation)} {o : Observation}
 (h : o ∈ oldObservations bs) : o ∈ bs.flatten := by
 obtain ⟨batch, hb, ho⟩ := mem_flatten.mp h
 exact mem_flatten.mpr ⟨batch, mem_of_mem_take hb, ho⟩

def Distinct (projection : SessionProjection) : Prop :=
 (projection.entries.map fun entry => entry.sourceEntry.id).Nodup

variable {projection : SessionProjection}

theorem Distinct.observations (h : Distinct projection) :
 ((batches projection).flatten.map Observation.id).Nodup := by
 have hsub := (batchesFrom_sublist projection.entries).1.trans (dropWhile_sublist _)
 have hids := hsub.map fun entry : ProjectedSessionEntry => entry.sourceEntry.id
 rw [map_map] at hids
 exact hids.nodup h

theorem maskable_of_target (hd : Distinct projection) {o : Observation}
 (ho : o ∈ (batches projection).flatten) (hid : o.id ∈ planTargets floatText projection) :
 o ∈ oldObservations (batches projection)
  ∧ Maskable floatText (latestReads floatText (batches projection).flatten) o := by
 obtain ⟨target, htarget, hsame⟩ := mem_map.mp hid
 obtain ⟨hold, hbytes⟩ := mem_filter.mp htarget
 obtain rfl := inj_on_of_nodup_map hd.observations (mem_oldObservations hold) ho hsame
 exact ⟨hold, maskable_of_bytes hbytes⟩

/-- **A masked projection is not masked again.** -/
theorem planTargets_mask {masked : SessionProjection} (hd : Distinct projection) (h : batches masked
  = (batches projection).map (·.map (maskObservation (planTargets floatText projection)))) :
 planTargets floatText masked = [] := by
 have hlatest : ∀ key, get? (latestReads floatText (batches masked).flatten) key
  = get? (latestReads floatText (batches projection).flatten) key := by
  rw [h, ← map_flatten]
  refine latestReads_mask (fun o ho hid => (maskable_of_target hd ho hid).2.unedited) ?_
  intro o ho hid key hkey
  have hm := (maskable_of_target hd ho hid).2
  obtain ⟨args, hargs, -⟩ := Option.map_eq_some_iff.mp hkey
  obtain ⟨key', hkey', hne⟩ := hm.notLatest (calledTool_of_readArgs hargs)
  rw [hkey] at hkey'
  injection hkey' with hkey'
  exact hkey' ▸ hne
 unfold planTargets
 rw [map_eq_nil_iff, filter_eq_nil_iff, h, oldObservations_mask, ← h]
 intro o' ho'
 obtain ⟨o, ho, rfl⟩ := mem_map.mp ho'
 rw [maskedBytes_congr hlatest]
 by_cases hid : o.id ∈ planTargets floatText projection
 · rw [maskObservation, if_pos hid, maskedBytes_replacement (OrdMap.get?_insert_self _ _ _)]
   simp
 · rw [maskObservation, if_neg hid]
   intro hbytes
   exact hid (mem_map.mpr ⟨o, mem_filter.mpr ⟨ho, hbytes⟩, rfl⟩)

end

end Bake.AgentSession
