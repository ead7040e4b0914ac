import Bake.Permissions.Layers
import Bake.Session.Entry
import Bake.Lib.Journal
import Bake.Lib.Run
import Bake.Lib.Tables

/-!
# The approval history

A request and its answer are one session entry each. What is written is read back as it
was (`fromData_toData`), and folded into one record a request. The fold takes any entries:
each one that is an approval entry is an asked, a decided or a skipped one
(`foldApprovalHistory_accounts`).
-/

open List
open OrdMap (get?)

namespace Bake.Permissions

open Bake.Json Bake.Session

def approvalCustomType : String := "bake.approval"

def approvalEntryVersion : UInt64 := 1

structure ApprovalAsked where
 id : String
 toolName : String
 callId : Option String
 reason : Option String
 sandbox : Option SandboxMode
 deriving DecidableEq

inductive ApprovalEntry where
 /-- A request, written before the approver is asked. -/
 | asked (asked : ApprovalAsked)
 /-- Its answer, written before it takes effect. -/
 | decided (id : String) (outcome : EscalationOutcome)
 deriving DecidableEq

/-- `OUTCOMES`, read by name. -/
def EscalationOutcome.parse (value : String) : Option EscalationOutcome :=
 [EscalationOutcome.allowedOnce, .rejected, .cancelled, .unavailable].find? fun known =>
  known.asStr = value

namespace ApprovalEntry

def id : ApprovalEntry → String
 | .asked request => request.id
 | .decided id _ => id

def kind : ApprovalEntry → String
 | .asked _ => "asked"
 | .decided .. => "decided"

/-- `ApprovalEntry::admitted`: what an abort by then makes of an entry. -/
def admitted (entry : ApprovalEntry) (aborted : Bool) : Option ApprovalEntry :=
 match entry with
 | .asked request => if aborted then none else some (.asked request)
 | .decided id outcome => some (.decided id (if aborted then .cancelled else outcome))

/-- A member that is left out when absent. -/
def optional (name : String) (value : Option String) : JsonObject :=
 (value.map fun text => (name, Value.string text)).toList

def toData (entry : ApprovalEntry) : Value :=
 .object ([("version", .number (.posInt approvalEntryVersion)), ("kind", .string entry.kind),
  ("id", .string entry.id)]
  ++ match entry with
   | .asked request =>
    ("toolName", .string request.toolName) :: (optional "callId" request.callId
     ++ (optional "reason" request.reason
      ++ optional "sandbox" (request.sandbox.map SandboxMode.asStr)))
   | .decided _ outcome => [("outcome", .string outcome.asStr)])

/-- A member of an entry's data that is a text, if it is there. -/
def text (data : JsonObject) (name : String) : Except String (Option String) :=
 match get? data name with
 | none | some .null => .ok none
 | some (.string text) => .ok (some text)
 | some _ => .error ("has a non-string " ++ name)

/-- A member of an entry's data that must be a text. -/
def required (data : JsonObject) (name : String) : Except String String := do
 match ← text data name with
 | some value => .ok value
 | none => .error ("has no " ++ name)

def readSandbox (data : JsonObject) : Except String (Option SandboxMode) := do
 match ← text data "sandbox" with
 | none => .ok none
 | some mode =>
  match SandboxMode.parse mode with
  | some mode => .ok (some mode)
  | none => .error ("names unknown sandbox mode \"" ++ mode ++ "\"")

/-- The fields of an `asked` entry. -/
def readAsked (data : JsonObject) (id toolName : String) : Except String ApprovalEntry :=
 if toolName = "" then .error "has an empty toolName"
 else do
  let sandbox ← readSandbox data
  let callId ← text data "callId"
  let reason ← text data "reason"
  .ok (.asked { id, toolName, callId, reason, sandbox })

/-- The fields of a `decided` entry. -/
def readDecided (id outcome : String) : Except String ApprovalEntry :=
 match EscalationOutcome.parse outcome with
 | some outcome => .ok (.decided id outcome)
 | none => .error ("names unknown outcome \"" ++ outcome ++ "\"")

/-- `ApprovalEntry::from_data` behind the version. -/
def readFields (data : JsonObject) : Except String ApprovalEntry := do
 let id ← required data "id"
 if id = "" then .error "has an empty id"
 else
  match ← required data "kind" with
  | "asked" => do readAsked data id (← required data "toolName")
  | "decided" => do readDecided id (← required data "outcome")
  | kind => .error ("has unknown kind \"" ++ kind ++ "\"")

/-- `ApprovalEntry::from_data`. `shown` is the text `serde_json` writes for a value. -/
def fromData (shown : Value → String) : Option Value → Except String ApprovalEntry
 | some (.object data) =>
  match get? data "version" with
  | some (.number version) =>
   if version.asU64 = some approvalEntryVersion then readFields data
   else .error ("has unknown version " ++ shown (.number version))
  | some version => .error ("has unknown version " ++ shown version)
  | none => .error "has no version"
 | _ => .error "has no data object"

end ApprovalEntry

/-! ## The fold -/

structure ApprovalRecord where
 asked : ApprovalAsked
 askedEntryId : String
 outcome : Option EscalationOutcome
 decidedEntryId : Option String
 deriving DecidableEq

structure SkippedApprovalEntry where
 entryId : String
 reason : String
 deriving DecidableEq

structure ApprovalHistory where
 records : List ApprovalRecord
 skipped : List SkippedApprovalEntry

def isApproval (entry : SessionEntry) : Bool :=
 entry.entryType = "custom" && (entry.get "customType").bind Value.asStr = some approvalCustomType

/-- The fold behind some entries: the history, and the place of each request's record. -/
structure Fold where
 history : ApprovalHistory
 byId : List (String × Nat)

namespace Fold

def empty : Fold where
 history := { records := [], skipped := [] }
 byId := []

def skip (fold : Fold) (entryId reason : String) : Fold :=
 { fold with history.skipped := fold.history.skipped ++ [{ entryId, reason }] }

def ask (fold : Fold) (entryId : String) (asked : ApprovalAsked) : Fold :=
 if (get? fold.byId asked.id).isSome then
  fold.skip entryId ("asks request " ++ asked.id ++ " again")
 else
  { byId := OrdMap.insert fold.byId asked.id fold.history.records.length
    history :=
     { fold.history with
       records := fold.history.records ++
        [{ asked, askedEntryId := entryId, outcome := none, decidedEntryId := none }] } }

def answer (fold : Fold) (entryId id : String) (outcome : EscalationOutcome) : Fold :=
 match (get? fold.byId id).bind fun index =>
  fold.history.records[index]?.map fun record => (index, record) with
 | none => fold.skip entryId ("answers request " ++ id ++ ", which was not asked before it")
 | some (index, record) =>
  if record.outcome.isSome then fold.skip entryId ("answers request " ++ id ++ " again")
  else
   { fold with
     history.records := fold.history.records.set index
      { record with outcome := some outcome, decidedEntryId := some entryId } }

def next (shown : Value → String) (fold : Fold) (entry : SessionEntry) : Fold :=
 if isApproval entry then
  match ApprovalEntry.fromData shown (entry.get "data") with
  | .error reason => fold.skip entry.id reason
  | .ok (.asked asked) => fold.ask entry.id asked
  | .ok (.decided id outcome) => fold.answer entry.id id outcome
 else fold

end Fold

def foldApprovalHistory (shown : Value → String) (entries : List SessionEntry) : ApprovalHistory :=
 (entries.foldl (Fold.next shown) .empty).history

/-! ## What is written is read back -/

theorem EscalationOutcome.parse_asStr (outcome : EscalationOutcome) :
 EscalationOutcome.parse outcome.asStr = some outcome := by
 cases outcome <;> decide

namespace ApprovalEntry

def Named : ApprovalEntry → Prop
 | .asked request => request.id ≠ "" ∧ request.toolName ≠ ""
 | .decided id _ => id ≠ ""

/-- **An entry is read back as it was written.** -/
theorem fromData_toData (shown : Value → String) {entry : ApprovalEntry} (h : entry.Named) :
 fromData shown (some entry.toData) = .ok entry := by
 cases entry with
 | decided id outcome =>
  have hid : id ≠ "" := h
  simp [fromData, toData, OrdMap.get?_cons, Number.asU64, readFields, required, text, kind,
   ApprovalEntry.id, hid, readDecided, EscalationOutcome.parse_asStr, Except.ok_bind]
 | asked request =>
  obtain ⟨id, toolName, callId, reason, sandbox⟩ := request
  obtain ⟨hid, htool⟩ : id ≠ "" ∧ toolName ≠ "" := h
  have hsandbox : ∀ mode : SandboxMode, SandboxMode.parse mode.asStr = some mode :=
   fun mode => SandboxMode.parse_eq_some.mpr rfl
  cases callId <;> cases reason <;> cases sandbox <;>
   simp [fromData, toData, get?, Number.asU64, readFields, required, text,
    kind, ApprovalEntry.id, hid, htool, readAsked, readSandbox, optional, hsandbox,
    Except.ok_bind]

end ApprovalEntry

/-! ## What the fold accounts for -/

namespace Fold

/-- The places the fold keeps are those of the records, and an answer has its entry. -/
structure Sound (fold : Fold) : Prop where
 finds : OrdMap.Finds (fun i => i) (fun record id _ => record.asked.id = id) fold.byId
  fold.history.records
 paired : ∀ record ∈ fold.history.records, record.decidedEntryId.isSome = record.outcome.isSome

theorem Sound.empty : Sound empty := ⟨OrdMap.Finds.nil, fun r hr => absurd hr (by simp [Fold.empty])⟩

variable {fold : Fold}

theorem Sound.record (h : fold.Sound) {id : String} {i : Nat} (hi : get? fold.byId id = some i) :
 ∃ record, fold.history.records[i]? = some record ∧ record.asked.id = id := (h.finds id i).mp hi

/-- What an entry does to the fold: nothing, where it is no approval entry; one more entry
skipped; one more record; or the answer of a record that had none. -/
theorem next_cases (shown : Value → String) (h : fold.Sound) (entry : SessionEntry) :
 (isApproval entry = false ∧ fold.next shown entry = fold)
 ∨ (isApproval entry ∧ ∃ reason, fold.next shown entry = fold.skip entry.id reason)
 ∨ (isApproval entry ∧ ∃ asked, get? fold.byId asked.id = none ∧ fold.next shown entry =
   { byId := OrdMap.insert fold.byId asked.id fold.history.records.length
     history := { fold.history with
      records := fold.history.records ++ [⟨asked, entry.id, none, none⟩] } })
 ∨ (isApproval entry ∧ ∃ i record outcome, fold.history.records[i]? = some record
  ∧ record.outcome = none
  ∧ fold.next shown entry =
   { fold with
     history.records := fold.history.records.set i
      { record with outcome := some outcome, decidedEntryId := some entry.id } }) := by
 unfold next
 by_cases ha : isApproval entry
 · rw [if_pos ha]
   cases ApprovalEntry.fromData shown (entry.get "data") with
   | error reason => exact .inr (.inl ⟨ha, reason, rfl⟩)
   | ok read =>
    cases read with
    | asked request =>
     dsimp only [ask]
     cases hg : get? fold.byId request.id with
     | some i => exact .inr (.inl ⟨ha, _, rfl⟩)
     | none => exact .inr (.inr (.inl ⟨ha, request, hg, rfl⟩))
    | decided id outcome =>
     dsimp only [answer]
     cases hg : get? fold.byId id with
     | none => exact .inr (.inl ⟨ha, _, rfl⟩)
     | some i =>
      obtain ⟨record, hr, -⟩ := h.record hg
      rw [Option.bind_some, hr]
      dsimp only [Option.map_some]
      cases ho : record.outcome with
      | some o => exact .inr (.inl ⟨ha, _, rfl⟩)
      | none => exact .inr (.inr (.inr ⟨ha, i, record, outcome, hr, ho, rfl⟩))
 · rw [if_neg ha]
   exact .inl ⟨Bool.eq_false_iff.mpr ha, rfl⟩

theorem Sound.next (shown : Value → String) (h : fold.Sound) (entry : SessionEntry) :
 (fold.next shown entry).Sound := by
 rcases next_cases shown h entry with ⟨-, heq⟩ | ⟨-, reason, heq⟩ | ⟨-, asked, hnone, heq⟩ |
  ⟨-, i, record, outcome, hr, ho, heq⟩ <;> rw [heq]
 · exact h
 · exact ⟨h.finds, h.paired⟩
 · refine ⟨h.finds.addUnder hnone rfl fun id i hi => ⟨fun he => ⟨he.symm, hi⟩, fun he => he.1.symm⟩,
    fun record hm => ?_⟩
   rcases mem_append.mp hm with hm | hm
   · exact h.paired record hm
   · obtain rfl := mem_singleton.mp hm
     rfl
 · refine ⟨h.finds.keep hr fun _ _ => Iff.rfl, fun other hm => ?_⟩
   rcases mem_or_eq_of_mem_set hm with hm | rfl
   · exact h.paired other hm
   · rfl

theorem sound_foldl (shown : Value → String) (entries : List SessionEntry) :
 (entries.foldl (Fold.next shown) .empty).Sound := by
 induction entries using List.reverseRecOn with
 | nil => exact Sound.empty
 | append_singleton entries entry ih =>
  rw [foldl_append]
  exact ih.next shown entry

theorem Sound.nodup (h : fold.Sound) : (fold.history.records.map fun r => r.asked.id).Nodup := by
 rw [nodup_iff_getElem?_ne_getElem?]
 intro i j hij hj he
 rw [length_map] at hj
 have hi : i < fold.history.records.length := by omega
 rw [getElem?_map, getElem?_map, getElem?_eq_getElem hi, getElem?_eq_getElem hj,
  Option.map_some, Option.map_some, Option.some.injEq] at he
 have h1 := (h.finds _ i).mpr ⟨_, getElem?_eq_getElem hi, rfl⟩
 have h2 := (h.finds _ j).mpr ⟨_, getElem?_eq_getElem hj, rfl⟩
 rw [he, h2] at h1
 injection h1 with h1
 omega

end Fold

def ApprovalHistory.accounted (history : ApprovalHistory) : List String :=
 history.records.map ApprovalRecord.askedEntryId
  ++ (history.records.filterMap ApprovalRecord.decidedEntryId
   ++ history.skipped.map SkippedApprovalEntry.entryId)

variable (shown : Value → String)

/-- An entry is accounted for when it is an approval entry, and then once. -/
theorem Fold.accounted_next {fold : Fold} (h : fold.Sound) (entry : SessionEntry) :
 (fold.next shown entry).history.accounted.Perm
  (fold.history.accounted ++ if isApproval entry then [entry.id] else []) := by
 rcases Fold.next_cases shown h entry with ⟨hn, heq⟩ | ⟨ha, reason, heq⟩ | ⟨ha, asked, -, heq⟩ |
  ⟨ha, i, record, outcome, hr, ho, heq⟩ <;> rw [heq]
 · rw [hn]
   simp
 · rw [if_pos ha]
   simp [ApprovalHistory.accounted, Fold.skip]
 · rw [if_pos ha]
   simp only [ApprovalHistory.accounted, map_append, map_singleton, filterMap_append,
    filterMap_cons_none, filterMap_nil, append_nil, append_assoc]
   exact (@List.perm_append_comm _ [entry.id] _).append_left _ |>.trans (by simp)
 · rw [if_pos ha]
   have hnone : record.decidedEntryId = none := by
    have := h.paired record (mem_of_getElem? hr)
    rw [ho] at this
    simpa using this
   simp only [ApprovalHistory.accounted, append_assoc]
   rw [OrdMap.map_set_of_eq hr (by rfl)]
   refine List.Perm.append_left _ ?_
   refine ((OrdMap.filterMap_set_perm hr hnone rfl).append_right _).trans ?_
   simp only [append_assoc]
   exact List.Perm.append_left _ perm_append_comm

/-- **Every approval entry is accounted for exactly once**, whatever the entries are. -/
theorem foldApprovalHistory_accounts (entries : List SessionEntry) :
 (foldApprovalHistory shown entries).accounted.Perm
  ((entries.filter isApproval).map SessionEntry.id) := by
 induction entries using List.reverseRecOn with
 | nil => exact .refl _
 | append_singleton entries entry ih =>
  unfold foldApprovalHistory at ih ⊢
  rw [foldl_append, filter_append, map_append]
  refine (Fold.accounted_next shown (Fold.sound_foldl shown entries) entry).trans ?_
  refine ih.append (.of_eq ?_)
  by_cases ha : isApproval entry <;> simp [ha]

/-- **No request has two records**, whatever the entries are. -/
theorem foldApprovalHistory_nodup (entries : List SessionEntry) :
 ((foldApprovalHistory shown entries).records.map fun r => r.asked.id).Nodup :=
 (Fold.sound_foldl shown entries).nodup

/-! ## Orderly histories -/

def approvalOf (shown : Value → String) (entry : SessionEntry) : Option ApprovalEntry :=
 if isApproval entry then (ApprovalEntry.fromData shown (entry.get "data")).toOption else none

def ApprovalEntry.request : ApprovalEntry → Option ApprovalAsked
 | .asked request => some request
 | .decided .. => none

/-- What may follow some entries: a request not asked yet, or the first answer to one that
was. -/
def Follows (before : List ApprovalEntry) : ApprovalEntry → Prop
 | .asked request => ∀ earlier, .asked earlier ∈ before → earlier.id ≠ request.id
 | .decided id _ => (∃ request, .asked request ∈ before ∧ request.id = id)
  ∧ ∀ outcome, .decided id outcome ∉ before

def Orderly : List ApprovalEntry → Prop := History.Valid Follows

theorem Orderly.asked {written : List ApprovalEntry} (h : Orderly written) {id : String}
 {outcome : EscalationOutcome} (hm : .decided id outcome ∈ written) :
 ∃ request, .asked request ∈ written ∧ request.id = id := by
 obtain ⟨before, after, rfl⟩ := append_of_mem hm
 obtain ⟨⟨request, hr, hid⟩, -⟩ := h before _ after rfl
 exact ⟨request, mem_append_left _ hr, hid⟩

/-- What a history says when nothing of it was skipped: its records are the requests in
their order, each with the answer that was written to it. -/
structure ApprovalHistory.Tells (history : ApprovalHistory) (written : List ApprovalEntry) : Prop where
 skipped : history.skipped = []
 records : history.records.map ApprovalRecord.asked = written.filterMap ApprovalEntry.request
 outcome : ∀ record ∈ history.records, ∀ outcome,
  record.outcome = some outcome ↔ .decided record.asked.id outcome ∈ written

variable {history : ApprovalHistory}

theorem ApprovalHistory.Tells.written {written : List ApprovalEntry} (h : history.Tells written)
 {record : ApprovalRecord} (hr : record ∈ history.records) : .asked record.asked ∈ written := by
 have hm : record.asked ∈ written.filterMap ApprovalEntry.request := h.records ▸ mem_map_of_mem hr
 obtain ⟨entry, he, hrequest⟩ := mem_filterMap.mp hm
 cases entry with
 | asked request =>
  injection hrequest with hrequest
  exact hrequest ▸ he
 | decided id outcome => simp [ApprovalEntry.request] at hrequest

theorem ApprovalHistory.Tells.recorded {written : List ApprovalEntry} (h : history.Tells written)
 {request : ApprovalAsked} (hr : .asked request ∈ written) :
 ∃ record ∈ history.records, record.asked = request := by
 have hm : request ∈ history.records.map ApprovalRecord.asked := by
  rw [h.records]
  exact mem_filterMap.mpr ⟨_, hr, rfl⟩
 obtain ⟨record, hrecord, rfl⟩ := mem_map.mp hm
 exact ⟨record, hrecord, rfl⟩

namespace Fold

variable {fold : Fold} {written : List ApprovalEntry}

theorem tells_ask (h : fold.Sound) (ht : fold.history.Tells written) (hv : Orderly written)
 {request : ApprovalAsked} (hf : Follows written (.asked request)) (entryId : String) :
 (fold.ask entryId request).history.Tells (written ++ [.asked request]) := by
 have hnone : get? fold.byId request.id = none := by
  cases hg : get? fold.byId request.id with
  | none => rfl
  | some i =>
   obtain ⟨record, hr, hid⟩ := h.record hg
   exact absurd hid (hf _ (ht.written (mem_of_getElem? hr)))
 rw [ask, hnone]
 refine ⟨ht.skipped, ?_, fun record hm outcome => ?_⟩
 · rw [filterMap_append, ← ht.records]
   simp [ApprovalEntry.request]
 · rcases mem_append.mp hm with hm | hm
   · rw [ht.outcome record hm outcome]
     simp
   · obtain rfl := mem_singleton.mp hm
     refine ⟨by simp, fun ho => ?_⟩
     rcases mem_append.mp ho with ho | ho
     · obtain ⟨earlier, hm, hid⟩ := hv.asked ho
       exact absurd hid (hf earlier hm)
     · simp at ho

/-- The first answer to a request that was asked is put down in its record. -/
theorem tells_answer (h : fold.Sound) (ht : fold.history.Tells written) {id : String}
 {outcome : EscalationOutcome} (hf : Follows written (.decided id outcome)) (entryId : String) :
 (fold.answer entryId id outcome).history.Tells (written ++ [.decided id outcome]) := by
 obtain ⟨⟨request, hasked, hid⟩, hfirst⟩ := hf
 obtain ⟨record, hrecord, rfl⟩ := ht.recorded hasked
 obtain ⟨i, hi⟩ := mem_iff_getElem?.mp hrecord
 have hnone : record.outcome = none := by
  cases ho : record.outcome with
  | none => rfl
  | some o => exact absurd (hid ▸ (ht.outcome record hrecord o).mp ho) (hfirst o)
 have hget : get? fold.byId id = some i := (h.finds id i).mpr ⟨record, hi, hid⟩
 rw [answer, hget, Option.bind_some, hi]
 dsimp only [Option.map_some]
 rw [hnone]
 refine ⟨ht.skipped, ?_, fun other hm o => ?_⟩
 · rw [filterMap_append, ← ht.records]
   exact (OrdMap.map_set_of_eq (f := ApprovalRecord.asked) hi (by rfl)).trans
    (append_nil _).symm
 obtain ⟨j, hj⟩ := mem_iff_getElem?.mp hm
 rcases OrdMap.getElem?_set_some hj with ⟨-, rfl⟩ | ⟨hne, hj⟩
 · dsimp only
   constructor
   · rintro ho
     injection ho with ho
     exact mem_append_right _ (by simp [ho, hid])
   · intro ho
     rcases mem_append.mp ho with ho | ho
     · exact absurd (hid ▸ ho) (hfirst o)
     · injection mem_singleton.mp ho with _ ho
       rw [ho]
 · rw [ht.outcome other (mem_of_getElem? hj) o]
   refine ⟨fun ho => mem_append_left _ ho, fun ho => ?_⟩
   rcases mem_append.mp ho with ho | ho
   · exact ho
   · injection mem_singleton.mp ho with hsame
     have := (h.finds id j).mpr ⟨other, hj, hsame⟩
     rw [hget] at this
     injection this with this
     exact absurd this.symm hne

end Fold

/-- **An orderly history is told whole**: one record a request, in the order they were
asked, with the answers that were written, and nothing skipped. -/
theorem foldApprovalHistory_tells {entries : List SessionEntry}
 (hread : ∀ entry ∈ entries, isApproval entry → (approvalOf shown entry).isSome)
 (hv : Orderly (entries.filterMap (approvalOf shown))) :
 (foldApprovalHistory shown entries).Tells (entries.filterMap (approvalOf shown)) := by
 induction entries using List.reverseRecOn with
 | nil => exact ⟨rfl, rfl, fun record hr => absurd hr (by simp [foldApprovalHistory, Fold.empty])⟩
 | append_singleton entries entry ih =>
  rw [filterMap_append] at hv ⊢
  have ht := ih (fun e he => hread e (mem_append_left _ he)) hv.before
  have hs := Fold.sound_foldl shown entries
  have hentry := hread entry (by simp)
  unfold foldApprovalHistory at ht ⊢
  rw [foldl_append, foldl_cons, foldl_nil]
  generalize entries.foldl (Fold.next shown) .empty = fold at ht hs ⊢
  unfold approvalOf at hentry
  rw [Fold.next]
  by_cases ha : isApproval entry
  · rw [if_pos ha]
    cases hd : ApprovalEntry.fromData shown (entry.get "data") with
    | error reason =>
     rw [if_pos ha, hd] at hentry
     exact absurd (hentry ha) (by simp [Except.toOption])
    | ok read =>
     have hone : [entry].filterMap (approvalOf shown) = [read] := by
      simp [approvalOf, ha, hd, Except.toOption]
     rw [hone] at hv ⊢
     obtain ⟨hbefore, hf⟩ := History.valid_snoc.mp hv
     cases read with
     | asked request => exact Fold.tells_ask hs ht hbefore hf entry.id
     | decided id outcome => exact Fold.tells_answer hs ht hf entry.id
  · rw [if_neg ha]
    have hnone : [entry].filterMap (approvalOf shown) = [] := by simp [approvalOf, ha]
    rwa [hnone, append_nil]

end Bake.Permissions
