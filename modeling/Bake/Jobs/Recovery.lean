import Bake.Jobs.Notices
import Mathlib.Data.List.TakeDrop
import Bake.Jobs.Lifecycle
import Bake.Session.Path

/-!
# Restart accounts for every background job

A session file's entries are what the job journal, the notices, the job tools and the
background commands have written, and others that say nothing of jobs. What `project` reads
from them is a function of those writes alone: the jobs in the order of their first starts,
the branch's reports, each job's first end.
-/

open List Nat
open OrdMap (get?)

namespace Bake.Jobs

open Bake.Ai Bake.Json Bake.Session World
open Option (bind_some getD_some map_some or_none)
open Prod (fst snd)

/-! ## Ids -/

theorem toList_idText (kind : String) (ordinal : Nat) :
 (idText kind ordinal).toList = kind.toList ++ '-' :: toDigits 10 ordinal := by
 simp [idText]

theorem not_hyphen_toDigits {n : Nat} {c : Char} (h : c ∈ toDigits 10 n) : c ≠ '-' := by
 rintro rfl
 exact absurd (isDigit_of_mem_toDigits (by decide) (by decide) h) (by decide)

theorem splitLastHyphen_append (kind : List Char) {number : List Char} (h : ∀ c ∈ number, c ≠ '-') :
 splitLastHyphen (kind ++ '-' :: number) = some (kind, number) := by
 have hspan : (kind ++ '-' :: number).reverse.span (· ≠ '-')
  = (number.reverse, '-' :: kind.reverse) := by
  rw [reverse_append, reverse_cons, append_assoc, span_eq_takeWhile_dropWhile]
  have hall : ∀ c ∈ number.reverse, (c ≠ '-' : Bool) = true := fun c hc =>
   by simpa using h c (mem_reverse.mp hc)
  rw [takeWhile_append_of_pos hall, dropWhile_append_of_pos hall]
  simp
 unfold splitLastHyphen
 rw [hspan]
 simp

/-- **Ids with the same text** are of the same kind and number. -/
theorem idText_injective {kind kind' : String} {n n' : Nat} (h : idText kind n = idText kind' n') :
 kind = kind' ∧ n = n' := by
 have hsplit := splitLastHyphen_append kind.toList fun c (hc : c ∈ toDigits 10 n) =>
  not_hyphen_toDigits hc
 have hsplit' := splitLastHyphen_append kind'.toList fun c (hc : c ∈ toDigits 10 n') =>
  not_hyphen_toDigits hc
 rw [← toList_idText, h, toList_idText, hsplit'] at hsplit
 simp only [Option.some.injEq, Prod.mk.injEq] at hsplit
 refine ⟨(String.toList_inj.mp hsplit.1).symm, ?_⟩
 have hdigits := congrArg (ofDigitChars 10 · 0) hsplit.2
 rw [ofDigitChars_toDigits (by decide) (by decide),
  ofDigitChars_toDigits (by decide) (by decide)] at hdigits
 exact hdigits.symm

def BashId (id : JobId) : Prop := id.kind = "bash" ∧ 0 < id.ordinal ∧ id.ordinal ≤ maxOrdinal

theorem size_digits {digits : List Char} (h : ∀ c ∈ digits, c.isDigit = true) :
 Text.size digits = digits.length := by
 induction digits with
 | nil => rfl
 | cons c rest ih =>
  have hc : c.utf8Size = 1 := by
   have hdigit := h c mem_cons_self
   simp only [Char.isDigit, Bool.and_eq_true, decide_eq_true_eq] at hdigit
   exact Char.utf8Size_eq_one_iff.mpr (UInt32.le_trans hdigit.2 (by decide))
  rw [Text.size_cons, hc, ih fun d hd => h d (mem_cons_of_mem _ hd), length_cons]
  omega

variable {id : JobId} {message : Value}

/-- **The text of an id is read back.** -/
theorem parseJobId_text (h : BashId id) : parseJobId id.text = some ("bash", id.ordinal) := by
 obtain ⟨hkind, hpos, hmax⟩ := h
 have hdigits : ∀ c ∈ toDigits 10 id.ordinal, c.isDigit = true := fun c hc =>
  isDigit_of_mem_toDigits (by decide) (by decide) hc
 unfold parseJobId JobId.text
 rw [toList_idText, hkind, splitLastHyphen_append _ fun c hc => not_hyphen_toDigits hc]
 dsimp only
 rw [String.ofList_toList, ofDigitChars_toDigits (by decide) (by decide)]
 have hsize : Text.size (toDigits 10 id.ordinal) ≤ 20 := by
  rw [size_digits hdigits]
  exact (length_toDigits_le_iff (by decide) (by decide)).mpr
   (lt_of_le_of_lt hmax (by decide))
 have hhead : (toDigits 10 id.ordinal).head? ≠ some '0' := by
  obtain ⟨c, rest, hc, hone, -⟩ := lead_toDigits hpos
  rw [hc, head?_cons, ne_eq, Option.some.injEq]
  rintro rfl
  exact absurd hone (by decide)
 have hvalid : validKind "bash" = true := by decide
 have hall : (toDigits 10 id.ordinal).all Char.isDigit = true := all_eq_true.mpr hdigits
 have hempty : (toDigits 10 id.ordinal).isEmpty = false := by simp [toDigits_ne_nil]
 rw [if_neg]
 simp only [hvalid, hall, hempty, Bool.not_true, Bool.or_self, Bool.false_or, Bool.or_false,
  Bool.or_eq_true, decide_eq_true_eq, not_or, hhead]
 exact ⟨⟨not_lt.mpr hsize, not_false⟩, not_lt.mpr hmax⟩

/-! ## Writes -/

/-- What a file's entry is, of what is written about background jobs. -/
inductive JobEvent where
 /-- A fact of the journal. -/
 | fact (snapshot : JobSnapshot)
 /-- A notice: how the job ended, if that is known. -/
 | notice (id : JobId) (ended : Option OutcomeStatus)
 /-- The result of a job tool that found the job terminal. -/
 | observation (id : JobId) (ended : OutcomeStatus)
 /-- The result of a background command. -/
 | began (id : JobId) (label : String)
 | other

def noticeStatus : Option OutcomeStatus → String
 | some ended => ended.toJobStatus.asStr
 | none => "lost"

def ToolResult (entry : SessionEntry) (toolNames : List String) (details : Value) : Prop :=
 entry.entryType = "message" ∧ ∃ message, entry.get "message" = some message
  ∧ getStr (some message) "role" = some "toolResult"
  ∧ (∃ toolName ∈ toolNames, getStr (some message) "toolName" = some toolName)
  ∧ get (some message) "isError" = some (.bool false)
  ∧ get (some message) "details" = some details

/-- An entry that carries none of the marks of a background job. -/
def Plain (entry : SessionEntry) : Prop :=
 (entry.entryType = "custom" → (entry.get "customType").bind Value.asStr ≠ some journalType)
 ∧ (entry.entryType = "custom_message" →
  (entry.get "customType").bind Value.asStr ≠ some noticeType)
 ∧ (entry.entryType = "message" → ∀ message, entry.get "message" = some message →
  get (get (some message) "details") jobObservationDetail = none
   ∧ get (get (some message) "details") backgroundJobDetail = none)

def Writes (entry : SessionEntry) : JobEvent → Prop
 | .fact snapshot =>
  BashId snapshot.id ∧ entry.entryType = "custom"
   ∧ entry.get "customType" = some (.string journalType)
   ∧ entry.get "data" = some (factData snapshot)
 | .notice id ended =>
  BashId id ∧ entry.entryType = "custom_message"
   ∧ entry.get "customType" = some (.string noticeType)
   ∧ entry.get "details" = some (noticeDetails id.text (noticeStatus ended))
 | .observation id ended =>
  BashId id ∧ ToolResult entry ["job_output", "job_kill"]
   (observationDetails id.text ended.toJobStatus.asStr)
 | .began id label => BashId id ∧ ToolResult entry ["bash"] (backgroundDetails id.text label)
 | .other => Plain entry

namespace JobEvent

def names : JobEvent → Option JobId
 | .fact snapshot => some snapshot.id
 | .notice id _ | .observation id _ | .began id _ => some id
 | .other => none

def starts : JobEvent → Option (String × String)
 | .fact snapshot =>
  if snapshot.status.isTerminal then none else some (snapshot.id.text, snapshot.label)
 | .began id label => some (id.text, label)
 | _ => none

def reports : JobEvent → Option String
 | .notice id _ | .observation id _ => some id.text
 | _ => none

def ends : JobEvent → Option (String × String × Option String)
 | .fact snapshot =>
  if snapshot.status.isTerminal then
   some (snapshot.id.text, snapshot.status.asStr, snapshot.detail)
  else none
 | _ => none

/-- What is read from what was written. -/
def read (p : Projection) (onBranch : Bool) (event : JobEvent) : Projection :=
 match event with
 | .fact snapshot =>
  if snapshot.status.isTerminal then
   (p.record snapshot.id.text).finish snapshot.id.text snapshot.status.asStr snapshot.detail
  else (p.record snapshot.id.text).start snapshot.id.text "bash" snapshot.label onBranch
 | .notice id _ | .observation id _ => p.report id.text onBranch
 | .began id label => (p.record id.text).start id.text "bash" label onBranch
 | .other => p

end JobEvent

theorem asStr_terminal {status : JobStatus} (h : status.isTerminal = true) :
 status.asStr ∈ ["completed", "killed", "failed"] := by
 cases status <;> simp [JobStatus.isTerminal, JobStatus.asStr] at h ⊢

theorem parse_text (h : BashId id) : parse id.text = some ("bash", id.ordinal) := by
 simp [parse, parseJobId_text h]

theorem noticeId_details (h : BashId id) (ended : Option OutcomeStatus) :
 noticeId (some (noticeDetails id.text (noticeStatus ended))) = some id.text := by
 have hstatus : noticeStatus ended ∈ ["completed", "killed", "failed", "lost"] := by
  cases ended with
  | none => simp [noticeStatus]
  | some ended => cases ended <;> simp [noticeStatus, OutcomeStatus.toJobStatus, JobStatus.asStr]
 have hid : getStr (some (noticeDetails id.text (noticeStatus ended))) "jobId" = some id.text := rfl
 have hget : getStr (some (noticeDetails id.text (noticeStatus ended))) "status"
  = some (noticeStatus ended) := rfl
 unfold noticeId
 rw [hid, hget]
 dsimp only
 rw [parseJobId_text h, if_pos hstatus]
 rfl

theorem terminalId_details (h : BashId id) (ended : OutcomeStatus) :
 terminalId (get (some (observationDetails id.text ended.toJobStatus.asStr)) jobObservationDetail)
  = some id.text := by
 have hstatus : ended.toJobStatus.asStr ∈ ["completed", "failed", "killed"] := by
  cases ended <;> simp [OutcomeStatus.toJobStatus, JobStatus.asStr]
 have hobs : get (some (observationDetails id.text ended.toJobStatus.asStr)) jobObservationDetail
  = some (.object [("id", .string id.text), ("status", .string ended.toJobStatus.asStr)]) := rfl
 rw [hobs]
 unfold terminalId
 have hid : getStr (some (.object [("id", .string id.text),
  ("status", .string ended.toJobStatus.asStr)])) "id" = some id.text := rfl
 have hget : getStr (some (.object [("id", .string id.text),
  ("status", .string ended.toJobStatus.asStr)])) "status"
   = some ended.toJobStatus.asStr := rfl
 rw [hid, hget]
 dsimp only
 rw [parseJobId_text h, if_pos hstatus]
 rfl

/-- **A fact is read as it was written.** -/
theorem fact_data {snapshot : JobSnapshot} (h : BashId snapshot.id) (p : Projection)
 (onBranch : Bool) :
 p.fact onBranch (some (factData snapshot)) = (JobEvent.fact snapshot).read p onBranch := by
 have hversion : (get (some (factData snapshot)) "version").bind asU64 = some 1 := rfl
 have hid : getStr (some (factData snapshot)) "jobId" = some snapshot.id.text := rfl
 have hkind : getStr (some (factData snapshot)) "kind" = some "bash" := congrArg some h.1
 have hlabel : getStr (some (factData snapshot)) "label" = some snapshot.label := rfl
 have hdetail : getStr (some (factData snapshot)) "detail" = snapshot.detail := by
  change (some (optionalString snapshot.detail)).bind Value.asStr = _
  cases snapshot.detail <;> rfl
 unfold Projection.fact JobEvent.read
 rw [hversion, hid, hkind, hlabel, hdetail]
 simp only [parse_text h, ne_eq, not_true_eq_false, if_false]
 cases ht : snapshot.status.isTerminal with
 | false =>
  have hphase : getStr (some (factData snapshot)) "phase" = some "started" := by
   change some (if snapshot.status.isTerminal = true then "terminal" else "started") = _
   rw [ht]
   rfl
  rw [hphase]
  simp
 | true =>
  have hphase : getStr (some (factData snapshot)) "phase" = some "terminal" := by
   change some (if snapshot.status.isTerminal = true then "terminal" else "started") = _
   rw [ht]
   rfl
  have hstatus : getStr (some (factData snapshot)) "status" = some snapshot.status.asStr := by
   change some (if snapshot.status.isTerminal = true then snapshot.status.asStr else "running") = _
   rw [ht]
   rfl
  rw [hphase, hstatus]
  simp only [asStr_terminal ht, not_true_eq_false, if_false, if_true]

theorem entry_message {entry : SessionEntry} (htype : entry.entryType = "message")
 (hmessage : entry.get "message" = some message) (branch : List String) (p : Projection) :
 p.entry branch entry = p.message (decide (entry.id ∈ branch)) message := by
 simp only [Projection.entry, htype, hmessage, if_true]

theorem message_plain (p : Projection) (onBranch : Bool)
 (hobs : get (get (some message) "details") jobObservationDetail = none)
 (hjob : get (get (some message) "details") backgroundJobDetail = none) :
 p.message onBranch message = p := by
 have hnone : terminalObservation message = none := by
  unfold terminalObservation
  rw [hobs]
  split
  · split
    · rfl
    · rfl
  · rfl
 unfold Projection.message
 rw [hnone, hjob]
 split
 · rfl
 · simp only
   split
   · rfl
   · rfl

theorem message_observation (h : BashId id) (ended : OutcomeStatus)
 (hrole : getStr (some message) "role" = some "toolResult")
 (htool : ∃ toolName ∈ ["job_output", "job_kill"], getStr (some message) "toolName" = some toolName)
 (herror : get (some message) "isError" = some (.bool false))
 (hdetails : get (some message) "details"
  = some (observationDetails id.text ended.toJobStatus.asStr)) (p : Projection)
 (onBranch : Bool) : p.message onBranch message = p.report id.text onBranch := by
 obtain ⟨toolName, hmem, hname⟩ := htool
 have hobs : terminalObservation message = some id.text := by
  unfold terminalObservation
  rw [hname, herror, hdetails]
  dsimp only
  rw [if_neg (by simp [hmem]), terminalId_details h]
 have hbash : toolName ≠ "bash" := by
  rintro rfl
  exact absurd hmem (by decide)
 unfold Projection.message
 rw [hrole, hobs, hname]
 simp [hbash]

theorem message_began (h : BashId id) (label : String)
 (hrole : getStr (some message) "role" = some "toolResult")
 (htool : ∃ toolName ∈ ["bash"], getStr (some message) "toolName" = some toolName)
 (hdetails : get (some message) "details" = some (backgroundDetails id.text label))
 (p : Projection) (onBranch : Bool) :
 p.message onBranch message = (p.record id.text).start id.text "bash" label onBranch := by
 obtain ⟨toolName, hmem, hname⟩ := htool
 obtain rfl := mem_singleton.mp hmem
 have hobs : terminalObservation message = none := by
  unfold terminalObservation
  rw [hname]
  split
  next name isError hn _ =>
   cases hn
   rw [if_pos (.inl (by decide))]
  · rfl
 have hjob : get (get (some message) "details") backgroundJobDetail
  = some (.object [("id", .string id.text), ("label", .string label)]) := by
  rw [hdetails]
  rfl
 have hsplit : splitLastHyphen id.text.toList = some ("bash".toList, toDigits 10 id.ordinal) := by
  rw [JobId.text, toList_idText, h.1]
  exact splitLastHyphen_append _ fun c hc => not_hyphen_toDigits hc
 unfold Projection.message
 rw [hrole, hobs, hname, hjob]
 simp only [ne_eq, not_true_eq_false, if_false]
 have hid : getStr (some (.object [("id", .string id.text), ("label", .string label)])) "id"
  = some id.text := rfl
 have hlabel : getStr (some (.object [("id", .string id.text), ("label", .string label)])) "label"
  = some label := rfl
 rw [hid, hlabel]
 simp only [hsplit, String.ofList_toList]

/-- **What was written is what is read,** entry by entry. -/
theorem entry_writes {entry : SessionEntry} {event : JobEvent} (h : Writes entry event)
 (branch : List String) (p : Projection) :
 p.entry branch entry = event.read p (decide (entry.id ∈ branch)) := by
 cases event with
 | fact snapshot =>
  obtain ⟨hid, htype, hcustom, hdata⟩ := h
  simp only [Projection.entry, htype, hcustom, hdata, bind_some, Value.asStr]
  simp only [String.reduceEq, if_false, and_self, if_true]
  exact fact_data hid p _
 | notice id ended =>
  obtain ⟨hid, htype, hcustom, hdetails⟩ := h
  simp only [Projection.entry, htype, hcustom, hdetails, bind_some, Value.asStr,
   noticeId_details hid]
  simp [JobEvent.read]
 | observation id ended =>
  obtain ⟨hid, htype, message, hmessage, hrole, htool, herror, hdetails⟩ := h
  rw [entry_message htype hmessage]
  exact message_observation hid ended hrole htool herror hdetails p _
 | began id label =>
  obtain ⟨hid, htype, message, hmessage, hrole, htool, -, hdetails⟩ := h
  rw [entry_message htype hmessage]
  exact message_began hid label hrole htool hdetails p _
 | other =>
  obtain ⟨hcustom, hnotice, hmessage⟩ := h
  by_cases hm : entry.entryType = "message"
  · cases hget : entry.get "message" with
    | none => simp only [Projection.entry, hm, hget, if_true, JobEvent.read]
    | some message =>
     rw [entry_message hm hget]
     obtain ⟨hobs, hjob⟩ := hmessage hm message hget
     exact message_plain p _ hobs hjob
  · by_cases hn : entry.entryType = "custom_message"
    · simp only [Projection.entry, hn, if_true, JobEvent.read]
      rw [if_neg (by decide), if_pos (hnotice hn)]
    · simp only [Projection.entry, hm, hn, if_false, JobEvent.read]
      rw [if_neg fun hc => hcustom hc.1 hc.2]

/-! ## Histories -/

/-- A file's entries, each with what was written in it. -/
abbrev History := List (SessionEntry × JobEvent)

section

variable (branch : List String) (history : History)

/-- The jobs started anywhere in the file, in the order of their first starts. -/
def firstStarts : List String := (history.filterMap (·.2.starts.map fst)).eraseDups

def labelOf (id : String) : Option String :=
 history.findSome? fun written => (written.2.starts.filter (·.1 = id)).map snd

def startedOn (id : String) : Bool :=
 history.any fun written => decide (written.1.id ∈ branch) && written.2.starts.map fst == some id

/-- The branch has been told how a job ended. -/
def reportedOn (id : String) : Bool :=
 history.any fun written => decide (written.1.id ∈ branch) && written.2.reports == some id

/-- The first end of a job recorded anywhere in the file. -/
def endOf (id : String) : Option (String × Option String) :=
 history.findSome? fun written => (written.2.ends.filter (·.1 = id)).map snd

def named : List JobId := history.filterMap (·.2.names)

end

variable {branch : List String} {history : History} {p : Projection} {entry : SessionEntry}
 {event : JobEvent}

theorem firstStarts_snoc : firstStarts (history ++ [(entry, event)]) =
 match event.starts with
 | some (id, _) =>
  if id ∈ firstStarts history then firstStarts history else firstStarts history ++ [id]
 | none => firstStarts history := by
 unfold firstStarts
 rw [filterMap_append, eraseDups_append]
 cases hs : event.starts with
 | none => simp [hs]
 | some start =>
  obtain ⟨id, label⟩ := start
  simp only [filterMap_cons, hs, map_some, filterMap_nil]
  by_cases hmem : id ∈ history.filterMap (·.2.starts.map fst)
  · rw [if_pos (mem_eraseDups.mpr hmem)]
    simp [List.removeAll, hmem]
  · rw [if_neg fun h => hmem (mem_eraseDups.mp h)]
    simp [List.removeAll, hmem, eraseDups_cons]

theorem labelOf_snoc (id : String) : labelOf (history ++ [(entry, event)]) id
 = (labelOf history id).or ((event.starts.filter (·.1 = id)).map snd) := by
 unfold labelOf
 rw [findSome?_append, findSome?_singleton]

theorem startedOn_snoc (id : String) : startedOn branch (history ++ [(entry, event)]) id
 = (startedOn branch history id
  || (decide (entry.id ∈ branch) && event.starts.map fst == some id)) := by
 simp [startedOn, any_append]

theorem reportedOn_snoc (id : String) : reportedOn branch (history ++ [(entry, event)]) id
 = (reportedOn branch history id || (decide (entry.id ∈ branch) && event.reports == some id)) := by
 simp [reportedOn, any_append]

theorem endOf_snoc (id : String) : endOf (history ++ [(entry, event)]) id
 = (endOf history id).or ((event.ends.filter (·.1 = id)).map snd) := by
 unfold endOf
 rw [findSome?_append, findSome?_singleton]

theorem named_snoc : named (history ++ [(entry, event)]) = named history ++ event.names.toList := by
 unfold named
 rw [filterMap_append]
 cases hn : event.names <;> simp [hn]

theorem mem_firstStarts {id : String} :
 id ∈ firstStarts history ↔ (labelOf history id).isSome = true := by
 unfold firstStarts labelOf
 rw [mem_eraseDups, mem_filterMap, isSome_findSome?, any_eq_true]
 refine exists_congr fun written => and_congr_right fun _ => ?_
 cases written.2.starts with
 | none => simp
 | some start => by_cases hid : start.1 = id <;> simp [Option.filter, hid]

theorem mem_firstStarts_of_startedOn {id : String} (h : startedOn branch history id = true) :
 id ∈ firstStarts history := by
 obtain ⟨written, hmem, hon⟩ := any_eq_true.mp h
 simp only [Bool.and_eq_true, beq_iff_eq] at hon
 exact mem_eraseDups.mpr (mem_filterMap.mpr ⟨written, hmem, hon.2⟩)

structure Reads (branch : List String) (history : History) (p : Projection) : Prop where
 order : p.order = firstStarts history
 started : ∀ id, get? p.started id = (labelOf history id).map fun label =>
  { kind := "bash", label, onBranch := startedOn branch history id }
 reported : ∀ id, id ∈ p.reported ↔ reportedOn branch history id = true
 recorded : p.recorded = (named history).map JobId.text
 terminal : ∀ id, get? p.terminal id = endOf history id

theorem reads_empty : Reads branch [] .empty where
 order := rfl
 started := fun _ => rfl
 reported := fun _ => by simp [Projection.empty, reportedOn]
 recorded := rfl
 terminal := fun _ => rfl

theorem Reads.start (h : Reads branch history p) {label : String}
 (hstarts : event.starts = some (id.text, label)) (hreports : event.reports = none)
 (hends : event.ends = none) (hnames : event.names = some id) :
 Reads branch (history ++ [(entry, event)])
  ((p.record id.text).start id.text "bash" label (decide (entry.id ∈ branch))) := by
 have hreported : ∀ other, reportedOn branch (history ++ [(entry, event)]) other
  = reportedOn branch history other := fun other => by
  rw [reportedOn_snoc, hreports]
  simp
 have hended : ∀ other, endOf (history ++ [(entry, event)]) other = endOf history other :=
  fun other => by
   rw [endOf_snoc, hends]
   simp
 have hnamed : (named (history ++ [(entry, event)])).map JobId.text
  = (named history).map JobId.text ++ [id.text] := by
  rw [named_snoc, hnames, map_append]
  rfl
 have hlabel : ∀ other, labelOf (history ++ [(entry, event)]) other
  = (labelOf history other).or (if id.text = other then some label else none) := by
  intro other
  rw [labelOf_snoc, hstarts]
  by_cases heq : id.text = other <;> simp [heq, Option.filter]
 have hon : ∀ other, startedOn branch (history ++ [(entry, event)]) other
  = (startedOn branch history other
   || (decide (entry.id ∈ branch) && decide (id.text = other))) := by
  intro other
  rw [startedOn_snoc, hstarts]
  by_cases heq : id.text = other <;> simp [heq]
 unfold Projection.start
 have hget : get? (p.record id.text).started id.text = _ := h.started id.text
 rw [hget]
 cases hl : labelOf history id.text with
 | some first =>
  have hmem : id.text ∈ firstStarts history := mem_firstStarts.mpr (by simp [hl])
  dsimp only [map_some]
  refine ⟨?_, fun other => ?_, fun other => (h.reported other).trans ?_, ?_,
   fun other => (h.terminal other).trans (hended other).symm⟩
  · rw [firstStarts_snoc, hstarts]
    simp only [hmem, if_true]
    exact h.order
  · rw [OrdMap.get?_insert, hlabel, hon]
    by_cases heq : id.text = other
    · subst heq
      simp [hl]
    · simp only [heq, if_false, decide_false, Bool.and_false, Bool.or_false, or_none]
      exact h.started other
  · rw [hreported]
  · rw [hnamed, ← h.recorded]
    rfl
 | none =>
  have hmem : id.text ∉ firstStarts history := fun hin => by
   have hsome := mem_firstStarts.mp hin
   rw [hl] at hsome
   simp at hsome
  have hoff : startedOn branch history id.text = false := by
   by_contra hon
   exact hmem (mem_firstStarts_of_startedOn (by simpa using hon))
  dsimp only [Option.map_none]
  refine ⟨?_, fun other => ?_, fun other => (h.reported other).trans ?_, ?_,
   fun other => (h.terminal other).trans (hended other).symm⟩
  · rw [firstStarts_snoc, hstarts]
    simp only [hmem, if_false]
    exact congrArg (· ++ [id.text]) h.order
  · rw [OrdMap.get?_insert, hlabel, hon]
    by_cases heq : id.text = other
    · subst heq
      simp [hl, hoff]
    · simp only [heq, if_false, decide_false, Bool.and_false, Bool.or_false, or_none]
      exact h.started other
  · rw [hreported]
  · rw [hnamed, ← h.recorded]
    rfl

theorem starts_of_none (branch : List String) (history : History) (entry : SessionEntry)
 (hstarts : event.starts = none) :
 firstStarts (history ++ [(entry, event)]) = firstStarts history
  ∧ (∀ id, labelOf (history ++ [(entry, event)]) id = labelOf history id)
  ∧ ∀ id, startedOn branch (history ++ [(entry, event)]) id = startedOn branch history id := by
 refine ⟨?_, fun id => ?_, fun id => ?_⟩
 · rw [firstStarts_snoc, hstarts]
 · rw [labelOf_snoc, hstarts]
   simp
 · rw [startedOn_snoc, hstarts]
   simp

theorem Reads.report (h : Reads branch history p) (hstarts : event.starts = none)
 (hreports : event.reports = some id.text) (hends : event.ends = none)
 (hnames : event.names = some id) :
 Reads branch (history ++ [(entry, event)]) (p.report id.text (decide (entry.id ∈ branch))) := by
 obtain ⟨hfirst, hlabel, hon⟩ := starts_of_none branch history entry hstarts
 refine ⟨h.order.trans hfirst.symm, fun other => ?_, fun other => ?_, ?_, fun other => ?_⟩
 · rw [hlabel, hon]
   exact h.started other
 · rw [reportedOn_snoc, hreports, Bool.or_eq_true, ← h.reported other]
   unfold Projection.report
   by_cases hin : entry.id ∈ branch
   · simp only [hin, decide_true, if_true, Bool.true_and, mem_append, mem_singleton,
      beq_iff_eq, Option.some.injEq]
     exact or_congr_right eq_comm
   · simp [hin]
 · rw [named_snoc, hnames, map_append, ← h.recorded]
   rfl
 · rw [endOf_snoc, hends]
   exact (h.terminal other).trans (by simp)

variable {detail : Option String}

theorem Reads.finish (h : Reads branch history p) {status : String} (hstarts : event.starts = none) (hreports : event.reports = none)
 (hends : event.ends = some (id.text, status, detail)) (hnames : event.names = some id) :
 Reads branch (history ++ [(entry, event)]) ((p.record id.text).finish id.text status detail) := by
 obtain ⟨hfirst, hlabel, hon⟩ := starts_of_none branch history entry hstarts
 have hreported : ∀ other, other ∈ p.reported
  ↔ reportedOn branch (history ++ [(entry, event)]) other = true := fun other => by
  rw [reportedOn_snoc, hreports]
  simpa using h.reported other
 have hrecorded : (p.record id.text).recorded
  = (named (history ++ [(entry, event)])).map JobId.text := by
  rw [named_snoc, hnames, map_append, ← h.recorded]
  rfl
 have hstarted : ∀ other, get? p.started other
  = (labelOf (history ++ [(entry, event)]) other).map fun label =>
   { kind := "bash", label,
     onBranch := startedOn branch (history ++ [(entry, event)]) other } := fun other => by
  rw [hlabel, hon]
  exact h.started other
 have hend : ∀ other, endOf (history ++ [(entry, event)]) other
  = (endOf history other).or (if id.text = other then some (status, detail) else none) := by
  intro other
  rw [endOf_snoc, hends]
  by_cases heq : id.text = other <;> simp [heq, Option.filter]
 unfold Projection.finish
 have hget : get? (p.record id.text).terminal id.text = _ := h.terminal id.text
 rw [hget]
 cases he : endOf history id.text with
 | some first =>
  refine ⟨h.order.trans hfirst.symm, hstarted, hreported, hrecorded, fun other => ?_⟩
  rw [hend]
  by_cases heq : id.text = other
  · subst heq
    rw [he]
    exact hget.trans he
  · simp only [heq, if_false, or_none]
    exact h.terminal other
 | none =>
  refine ⟨h.order.trans hfirst.symm, hstarted, hreported, hrecorded, fun other => ?_⟩
  dsimp only
  rw [hend, OrdMap.get?_insert]
  by_cases heq : id.text = other
  · subst heq
    simp [he]
  · simp only [heq, if_false, or_none]
    exact h.terminal other

theorem Reads.other (h : Reads branch history p) :
 Reads branch (history ++ [(entry, .other)]) p := by
 obtain ⟨hfirst, hlabel, hon⟩ := starts_of_none branch history entry
  (show JobEvent.other.starts = none from rfl)
 refine ⟨h.order.trans hfirst.symm, fun id => ?_, fun id => ?_, ?_, fun id => ?_⟩
 · rw [hlabel, hon]
   exact h.started id
 · rw [reportedOn_snoc]
   simpa [JobEvent.reports] using h.reported id
 · rw [named_snoc]
   simpa [JobEvent.names] using h.recorded
 · rw [endOf_snoc]
   simpa [JobEvent.ends] using h.terminal id

/-- **One more entry is read.** -/
theorem Reads.snoc (h : Reads branch history p) (hwrites : Writes entry event) :
 Reads branch (history ++ [(entry, event)]) (p.entry branch entry) := by
 rw [entry_writes hwrites]
 cases event with
 | fact snapshot =>
  cases ht : snapshot.status.isTerminal with
  | false =>
   have hstarts : (JobEvent.fact snapshot).starts = some (snapshot.id.text, snapshot.label) := by
    simp [JobEvent.starts, ht]
   have hends : (JobEvent.fact snapshot).ends = none := by simp [JobEvent.ends, ht]
   simp only [JobEvent.read, ht, Bool.false_eq_true, if_false]
   exact h.start hstarts rfl hends rfl
  | true =>
   have hstarts : (JobEvent.fact snapshot).starts = none := by simp [JobEvent.starts, ht]
   have hends : (JobEvent.fact snapshot).ends
    = some (snapshot.id.text, snapshot.status.asStr, snapshot.detail) := by
    simp [JobEvent.ends, ht]
   simp only [JobEvent.read, ht, if_true]
   exact h.finish hstarts rfl hends rfl
 | notice id ended | observation id ended => exact h.report rfl rfl rfl rfl
 | began id label => exact h.start rfl rfl rfl rfl
 | other => exact h.other

/-- **A file is read as it was written.** -/
theorem reads_project {session : SessionManager} (hentries : session.entries = history.map fst)
 (hwrites : ∀ written ∈ history, Writes written.1 written.2) :
 Reads ((session.branchEntries none).map (·.id)) history (project session) := by
 unfold project
 rw [hentries]
 generalize (session.branchEntries none).map (·.id) = branch
 clear hentries
 induction history using List.reverseRecOn with
 | nil => exact reads_empty
 | append_singleton history written ih =>
  obtain ⟨entry, event⟩ := written
  rw [map_append, foldl_append]
  exact (ih fun written hmem => hwrites written (mem_append_left _ hmem)).snoc
   (hwrites (entry, event) (mem_append_right _ (mem_singleton_self _)))

/-! ## Notices -/

/-- The notice due for a job: how it ended by its first recorded end, or that it is lost. -/
def dueNotice (history : History) (now : Int) (id : String) : CustomMessage :=
 let job : Started := { kind := "bash", label := (labelOf history id).getD "", onBranch := true }
 match endOf history id with
 | some (status, detail) => recoveredCompletion id job status detail now
 | none => lostNotice id job.kind job.label now

def dueJobs (branch : List String) (history : History) : List String :=
 (firstStarts history).filter fun id => startedOn branch history id && !reportedOn branch history id

theorem named_of_firstStarts {id : String} (h : id ∈ firstStarts history) :
 ∃ job ∈ named history, job.text = id := by
 obtain ⟨⟨entry, event⟩, hmem, hstarts⟩ := mem_filterMap.mp (mem_eraseDups.mp h)
 refine ⟨(event.names).getD ⟨0, "", 0⟩, mem_filterMap.mpr ⟨(entry, event), hmem, ?_⟩, ?_⟩
 all_goals
  cases event with
  | fact snapshot =>
   simp only [JobEvent.starts] at hstarts
   split at hstarts
   · simp at hstarts
   · first | rfl | simpa [JobEvent.names] using hstarts
  | began id label => first | rfl | simpa [JobEvent.names, JobEvent.starts] using hstarts
  | _ => simp [JobEvent.starts] at hstarts

theorem bashId_of_named (hwrites : ∀ written ∈ history, Writes written.1 written.2) {job : JobId}
 (h : job ∈ named history) : BashId job := by
 obtain ⟨⟨entry, event⟩, hmem, hnames⟩ := mem_filterMap.mp h
 have hw := hwrites _ hmem
 cases event with
 | other => simp [JobEvent.names] at hnames
 | _ =>
  cases hnames
  exact hw.1

/-- **One notice for each job started on the branch and not reported there.** -/
theorem Reads.notices (h : Reads branch history p)
 (hwrites : ∀ written ∈ history, Writes written.1 written.2) (now : Int) :
 p.notices now = (dueJobs branch history).map (dueNotice history now) := by
 unfold Projection.notices dueJobs
 rw [h.order, filterMap_filter, ← filterMap_eq_map, filterMap_filter]
 refine filterMap_congr fun id hmem => ?_
 obtain ⟨job, hjob, rfl⟩ := named_of_firstStarts hmem
 have hparse := parse_text (bashId_of_named hwrites hjob)
 have hreported := h.reported job.text
 obtain ⟨label, hlabel⟩ := Option.isSome_iff_exists.mp (mem_firstStarts.mp hmem)
 rw [h.started, hlabel, h.terminal]
 cases hon : startedOn branch history job.text with
 | false => simp
 | true =>
  by_cases hin : job.text ∈ p.reported
  · simp [hin, hreported.mp hin]
  · have hoff : reportedOn branch history job.text = false := by
     by_contra hc
     exact hin (hreported.mpr (by simpa using hc))
    simp only [hin, hparse, hoff, dueNotice, hlabel, map_some, bind_some,
     getD_some, Function.comp_apply]
    cases endOf history job.text with
    | none | some _ => simp

/-! ## The notices are appended -/

def Appends (message : CustomMessage) (call : Op × Env) : Prop := ∃ content, call.1
  = .appendCustomMessageEntry message.customType content message.display message.details

def DrawsNew (w : World) (call : Op × Env) : Prop :=
 (call.2.draws 0).uuid ∉ OrdMap.keys w.manager.index.byId ∧ w.manager.nextId call.2 0 ≠ ""

def IsNotice (message : CustomMessage) (id : JobId) (ended : Option OutcomeStatus) : Prop :=
 BashId id ∧ message.customType = noticeType
  ∧ message.details = some (noticeDetails id.text (noticeStatus ended))

theorem appended_notice {labels : Prop} {w : World} {message : CustomMessage} {call : Op × Env}
 {ended : Option OutcomeStatus} (h : Indexed labels w.manager)
 (hne : w.manager.branchEntries none ≠ []) (hnotice : IsNotice message id ended)
 (happends : Appends message call) (hnew : DrawsNew w call) :
 ∃ entry, (w.step call).manager.entries = w.manager.entries ++ [entry]
  ∧ (w.step call).manager.branchEntries none = w.manager.branchEntries none ++ [entry]
  ∧ entry.id ∉ w.manager.entries.map (·.id) ∧ Writes entry (.notice id ended)
  ∧ Indexed labels (w.step call).manager := by
 obtain ⟨op, env⟩ := call
 obtain ⟨content, hop⟩ := happends
 obtain ⟨hid, htype, hdetails⟩ := hnotice
 dsimp only at hop
 subst hop
 rw [htype, hdetails]
 let details := noticeDetails id.text (noticeStatus ended)
 let entryId := w.manager.nextId env 0
 let raw := w.manager.customMessageRaw env entryId noticeType content message.display (some details)
 have hfresh : get? w.manager.index.byId entryId = none :=
  OrdMap.get?_eq_none.mpr (SessionManager.nextId_fresh hnew.1)
 have hparent : strMember raw "parentId" = w.manager.index.leafId := by
  have hget : get? raw "parentId" = some w.manager.leafValue := rfl
  rw [strMember, hget]
  unfold SessionManager.leafValue
  cases w.manager.index.leafId <;> rfl
 have hlabel : ({ id := entryId, raw } : SessionEntry).entryType ≠ "label" := by
  change "custom_message" ≠ "label"
  decide
 have hsame := w.appendEntry_same env entryId raw
 have hbranch := h.branchEntries_pushEntry hfresh hnew.2 hlabel hparent hne
 have hstep : (w.step (.appendCustomMessageEntry noticeType content message.display (some details),
  env)).manager = (w.appendEntry env entryId raw).2.manager := by
  rw [step, perform, Result.failure_snd]
  rfl
 rw [hstep]
 refine ⟨{ id := entryId, raw }, ?_, ?_, fun hmem => ?_, ⟨hid, rfl, rfl, rfl⟩, (h.push hlabel).same hsame⟩
 · rw [SessionManager.entries, hsame.fileEntries]
   simp [SessionManager.entries, SessionManager.pushEntry, FileEntry.asEntry]
 · obtain ⟨writer, flushed, heq⟩ := hsame
   rw [heq]
   exact hbranch
 · obtain ⟨old, hold, heq⟩ := mem_map.mp hmem
   have hnone : get? (indexEntries w.manager.entries) entryId = none := by
    rw [← h.entry_eq, SessionManager.entry, hfresh]
    rfl
   rw [get?_indexEntries] at hnone
   have hnot := find?_eq_none.mp hnone old (mem_reverse.mpr hold)
   exact hnot (by simpa using heq)

/-- **Notices are appended** to the branch, each under an id of its own. -/
theorem appended_notices {labels : Prop} {messages : List CustomMessage} {calls : List (Op × Env)}
 (happends : List.Forall₂ Appends messages calls) :
 ∀ {w : World}, Indexed labels w.manager → w.manager.branchEntries none ≠ [] →
 (∀ message ∈ messages, ∃ id ended, IsNotice message id ended) →
 Run.Allowed step DrawsNew w calls →
 ∃ new : History, (Run.final step w calls).manager.entries = w.manager.entries ++ new.map fst
  ∧ (Run.final step w calls).manager.branchEntries none
   = w.manager.branchEntries none ++ new.map fst
  ∧ (∀ written ∈ new, written.1.id ∉ w.manager.entries.map (·.id)
   ∧ Writes written.1 written.2 ∧ ∃ id ended, written.2 = .notice id ended)
  ∧ ∀ message ∈ messages, ∃ written ∈ new, written.2.reports = noticeId message.details := by
 induction happends with
 | nil =>
  intro w _ _ _ _
  exact ⟨[], by simp [Run.final], by simp [Run.final], by simp, by simp⟩
 | @cons message call messages calls happend _ ih =>
  intro w h hne hnotices hallowed
  obtain ⟨id, ended, hnotice⟩ := hnotices message mem_cons_self
  obtain ⟨entry, hentries, hbranch, hfresh, hwrites, hindexed⟩ :=
   appended_notice h hne hnotice happend hallowed.1
  obtain ⟨new, hentries', hbranch', hnew, hreports⟩ := ih hindexed
   (by rw [hbranch]; simp) (fun m hm => hnotices m (mem_cons_of_mem _ hm)) hallowed.2
  refine ⟨(entry, .notice id ended) :: new, ?_, ?_, fun written hmem => ?_, fun m hm => ?_⟩
  · rw [show Run.final step w (call :: calls) = Run.final step (w.step call) calls
     from rfl, hentries', hentries]
    simp
  · rw [show Run.final step w (call :: calls) = Run.final step (w.step call) calls
     from rfl, hbranch', hbranch]
    simp
  · rcases mem_cons.mp hmem with rfl | hmem
    · exact ⟨hfresh, hwrites, id, ended, rfl⟩
    · obtain ⟨hold, hrest⟩ := hnew written hmem
      refine ⟨fun hin => hold ?_, hrest⟩
      rw [hentries, map_append]
      exact mem_append_left _ hin
  · rcases mem_cons.mp hm with rfl | hm
    · refine ⟨_, mem_cons_self, ?_⟩
      rw [hnotice.2.2, noticeId_details hnotice.1]
      rfl
    · obtain ⟨written, hmem, hreport⟩ := hreports m hm
      exact ⟨written, mem_cons_of_mem _ hmem, hreport⟩

theorem endOf_status {id status : String} (h : endOf history id = some (status, detail)) :
 ∃ ended : OutcomeStatus, status = ended.toJobStatus.asStr := by
 obtain ⟨⟨entry, event⟩, hmem, hend⟩ := exists_of_findSome?_eq_some h
 dsimp only at hend
 obtain ⟨⟨name, found⟩, hfilter, rfl⟩ := Option.map_eq_some_iff.mp hend
 obtain ⟨hends, -⟩ := Option.filter_eq_some_iff.mp hfilter
 cases event with
 | fact snapshot =>
  simp only [JobEvent.ends] at hends
  split at hends
  next hterminal =>
   injection hends with hends
   injection hends with _ hends
   injection hends with hends
   rw [← hends]
   cases hs : snapshot.status with
   | completed => exact ⟨.completed, rfl⟩
   | killed => exact ⟨.killed, rfl⟩
   | failed => exact ⟨.failed, rfl⟩
   | _ => simp [hs, JobStatus.isTerminal] at hterminal
  · simp at hends
 | _ => simp [JobEvent.ends] at hends

theorem isNotice_due (hwrites : ∀ written ∈ history, Writes written.1 written.2) (now : Int)
 {id : String} (h : id ∈ firstStarts history) :
 ∃ job ended, IsNotice (dueNotice history now id) job ended ∧ job.text = id := by
 obtain ⟨job, hjob, rfl⟩ := named_of_firstStarts h
 have hbash := bashId_of_named hwrites hjob
 unfold dueNotice
 dsimp only
 cases he : endOf history job.text with
 | none => exact ⟨job, none, ⟨hbash, rfl, rfl⟩, rfl⟩
 | some fin =>
  obtain ⟨status, detail⟩ := fin
  obtain ⟨ended, rfl⟩ := endOf_status he
  exact ⟨job, some ended, ⟨hbash, rfl, rfl⟩, rfl⟩

/-- **Appended, the notices that were due are due no more.** -/
theorem dueJobs_appended (hwrites : ∀ written ∈ history, Writes written.1 written.2) {new : History}
 {branch' : List String} (now : Int) (hbranch : branch' = branch ++ new.map fun written => written.1.id)
 (hfresh : ∀ written ∈ new, written.1.id ∉ history.map fun written => written.1.id)
 (hnotices : ∀ written ∈ new, ∃ id ended, written.2 = .notice id ended)
 (hreports : ∀ message ∈ (dueJobs branch history).map (dueNotice history now),
  ∃ written ∈ new, written.2.reports = noticeId message.details) :
 dueJobs branch' (history ++ new) = [] := by
 have hstarts : ∀ written ∈ new, written.2.starts = none := fun written hmem => by
  obtain ⟨id, ended, heq⟩ := hnotices written hmem
  rw [heq]
  rfl
 have hfirst : firstStarts (history ++ new) = firstStarts history := by
  unfold firstStarts
  have hnone : new.filterMap (·.2.starts.map fst) = [] :=
   filterMap_eq_nil_iff.mpr fun written hmem => by rw [hstarts written hmem]; rfl
  rw [filterMap_append, hnone, append_nil]
 unfold dueJobs
 rw [hfirst, filter_eq_nil_iff]
 intro id hmem hdue
 rw [Bool.and_eq_true, Bool.not_eq_true'] at hdue
 obtain ⟨hon, hoff⟩ := hdue
 have hstarted : startedOn branch history id = true := by
  obtain ⟨written, hin, hw⟩ := any_eq_true.mp hon
  rw [Bool.and_eq_true, decide_eq_true_eq, beq_iff_eq] at hw
  rcases mem_append.mp hin with hold | hnew
  · refine any_eq_true.mpr ⟨written, hold, ?_⟩
    rw [Bool.and_eq_true, decide_eq_true_eq, beq_iff_eq]
    refine ⟨?_, hw.2⟩
    have hor := hw.1
    rw [hbranch, mem_append] at hor
    refine hor.resolve_right fun hin' => ?_
    obtain ⟨other, hother, heq⟩ := mem_map.mp hin'
    exact hfresh other hother (heq ▸ mem_map_of_mem hold)
  · rw [hstarts written hnew] at hw
    exact absurd hw.2 (by simp)
 have hnone : reportedOn branch history id = false := by
  by_contra hc
  rw [Bool.not_eq_false] at hc
  obtain ⟨written, hin, hw⟩ := any_eq_true.mp hc
  rw [Bool.and_eq_true, decide_eq_true_eq] at hw
  refine absurd (any_eq_true.mpr ⟨written, mem_append_left _ hin, ?_⟩)
   (by rw [show (history ++ new).any _ = reportedOn branch' (history ++ new) id from rfl, hoff]; simp)
  rw [Bool.and_eq_true, decide_eq_true_eq]
  exact ⟨by rw [hbranch]; exact mem_append_left _ hw.1, hw.2⟩
 obtain ⟨job, ended, hnotice, rfl⟩ := isNotice_due hwrites now hmem
 obtain ⟨written, hin, hreport⟩ := hreports _ (mem_map_of_mem
  (mem_filter.mpr ⟨hmem, by simp [hstarted, hnone]⟩))
 rw [hnotice.2.2, noticeId_details hnotice.1] at hreport
 have hyes : reportedOn branch' (history ++ new) job.text = true := by
  refine any_eq_true.mpr ⟨written, mem_append_right _ hin, ?_⟩
  rw [Bool.and_eq_true, decide_eq_true_eq, beq_iff_eq]
  refine ⟨?_, hreport⟩
  rw [hbranch]
  exact mem_append_right _ (mem_map_of_mem hin)
 exact absurd (hoff.symm.trans hyes) (by simp)

theorem nodup_firstStarts (history : History) : (firstStarts history).Nodup := by
 induction history using List.reverseRecOn with
 | nil => exact nodup_nil
 | append_singleton history written ih =>
  obtain ⟨entry, event⟩ := written
  rw [firstStarts_snoc]
  split
  · split
    · exact ih
    next hnot =>
     exact nodup_append.mpr ⟨ih, nodup_singleton _, fun a ha b hb heq =>
      hnot (mem_singleton.mp hb ▸ heq ▸ ha)⟩
  · exact ih

/-! ## The ids are reserved -/

theorem highest_le (p : Projection) {id kind : String} {ordinal : Nat} (hmem : id ∈ p.recorded)
 (hparse : parse id = some (kind, ordinal)) :
 ∃ slot ∈ p.highest, slot.1 = kind ∧ ordinal ≤ slot.2 := by
 have hfold : ∀ recorded : List String, id ∈ recorded →
   ∃ through, get? ({ p with recorded } : Projection).highest kind = some through
    ∧ ordinal ≤ through := by
  intro recorded
  induction recorded using List.reverseRecOn with
  | nil => exact by simp
  | append_singleton recorded last ih =>
   intro hmem
   have hstep : ({ p with recorded := recorded ++ [last] } : Projection).highest
     = (parse last).elim ({ p with recorded } : Projection).highest fun found =>
      OrdMap.insert ({ p with recorded } : Projection).highest found.1
       (max ((get? ({ p with recorded } : Projection).highest found.1).getD 0) found.2) := by
    rw [Projection.highest, foldl_concat]
    cases parse last <;> rfl
   rw [hstep]
   generalize ({ p with recorded } : Projection).highest = slots at ih ⊢
   cases hlast : parse last with
   | none =>
    refine ih ((mem_append.mp hmem).resolve_right fun hin => ?_)
    obtain rfl := mem_singleton.mp hin
    rw [hparse] at hlast
    simp at hlast
   | some found =>
    obtain ⟨kind', n⟩ := found
    rw [Option.elim_some, OrdMap.get?_insert]
    by_cases hkind : kind' = kind
    · subst hkind
      rw [if_pos rfl]
      refine ⟨_, rfl, ?_⟩
      rcases mem_append.mp hmem with hold | hin
      · obtain ⟨through, hget, hle⟩ := ih hold
        rw [hget, getD_some]
        exact le_trans hle (le_max_left _ _)
      · obtain rfl := mem_singleton.mp hin
        rw [hparse] at hlast
        simp only [Option.some.injEq, Prod.mk.injEq] at hlast
        rw [hlast.2]
        exact le_max_right _ _
    · rw [if_neg hkind]
      refine ih ((mem_append.mp hmem).resolve_right fun hin => ?_)
      obtain rfl := mem_singleton.mp hin
      rw [hparse] at hlast
      simp only [Option.some.injEq, Prod.mk.injEq] at hlast
      exact hkind hlast.1.symm
 obtain ⟨through, hget, hle⟩ := hfold p.recorded hmem
 exact ⟨(kind, through), OrdMap.mem_of_get? hget, rfl, hle⟩

namespace JobSystem

/-- Reservations one after the other. -/
def reservations (slots : List (String × Nat)) : List JobInput :=
 slots.map fun slot => .reserveOrdinals slot.1 slot.2

theorem final_reservations (slots : List (String × Nat)) : ∀ j : JobSystem,
 Run.final JobSystem.step j (reservations slots) = j.withRegistry
  (slots.foldl (fun jobs slot => (jobs.reserveOrdinals slot.1 slot.2).2) j.registry) := by
 induction slots with
 | nil => exact fun j => rfl
 | cons slot slots ih => exact fun j => ih _

theorem Sound.reserved {slots : List (String × Nat)} : ∀ {j : JobSystem}, Sound j →
 ∀ slot ∈ slots, validKind slot.1 = true →
  ∃ ids, (Run.final JobSystem.step j (reservations slots)).registry.kind? slot.1 = some ids
   ∧ slot.2 ≤ ids.last := by
 induction slots with
 | nil => exact fun _ slot hmem => absurd hmem (by simp)
 | cons first slots ih =>
  intro j h slot hmem hvalid
  have hstep := h.step (.reserveOrdinals first.1 first.2)
  rcases mem_cons.mp hmem with rfl | hmem
  · obtain ⟨ids, hk, hle⟩ := j.reserve_kind? hvalid slot.2
    obtain ⟨ids', hk', hle'⟩ := (hstep.sound.final (reservations slots)).2.kinds slot.1 ids hk
    exact ⟨ids', hk', le_trans hle hle'⟩
  · exact ih hstep.sound slot hmem hvalid

end JobSystem

/-- **Restart accounts for every background job.** Whatever was written and whatever branch is
selected, `recover` returns one notice for each job started on the branch and not reported
there, in the order of their first starts, saying how the job ended if that is recorded
anywhere in the file; appended to the branch, they leave none to be returned; and the
registry gives no job an id that the file names. -/
theorem restart_accounts {w : World} (hw : Run.Reach Opened step (IndexKept False) w)
 {history : History} (hentries : w.manager.entries = history.map fst)
 (hwrites : ∀ written ∈ history, Writes written.1 written.2) {registry : Nat} {limits : JobLimits}
 {j : JobSystem} (hj : JobSystem.Reachable registry limits j) (hfresh : j.drivers = [])
 (now : Int) :
 let branch := (w.manager.branchEntries none).map (·.id)
 let recovered := recover w.manager j.registry now
 recovered.1 = (dueJobs branch history).map (dueNotice history now)
 ∧ (dueJobs branch history).Nodup
 ∧ (∀ calls later, List.Forall₂ Appends recovered.1 calls → Run.Allowed step DrawsNew w calls →
  unobserved (Run.final step w calls).manager later = [])
 ∧ ∀ inputs, ∀ id ∈ (Run.final JobSystem.step (j.withRegistry recovered.2) inputs).drivers.map (·.id),
  ∀ job ∈ named history, id.text ≠ job.text := by
 intro branch recovered
 have hindexed : Indexed False w.manager :=
  hw.invariant (fun w => Indexed False w.manager) (fun _ => indexed_opened)
   fun _ call => indexed_step call
 have hreads := reads_project hentries hwrites
 have hnotices : recovered.1 = (dueJobs branch history).map (dueNotice history now) :=
  hreads.notices hwrites now
 refine ⟨hnotices, (nodup_firstStarts history).filter _, fun calls later happends hallowed => ?_,
  fun inputs id hid job hjob => ?_⟩
 · rw [hnotices] at happends
   have hdue : ∀ message ∈ (dueJobs branch history).map (dueNotice history now),
    ∃ id ended, IsNotice message id ended := by
    intro message hmem
    obtain ⟨id, hin, rfl⟩ := mem_map.mp hmem
    obtain ⟨job, ended, hnotice, -⟩ := isNotice_due hwrites now (mem_filter.mp hin).1
    exact ⟨job, ended, hnotice⟩
   by_cases hnone : dueJobs branch history = []
   · rw [hnone, map_nil, List.forall₂_nil_left_iff] at happends
     subst happends
     change (project w.manager).notices later = []
     rw [hreads.notices hwrites later, hnone]
     rfl
   have hne : w.manager.branchEntries none ≠ [] := by
    obtain ⟨id, hin⟩ := exists_mem_of_ne_nil _ hnone
    have hon := (mem_filter.mp hin).2
    rw [Bool.and_eq_true] at hon
    obtain ⟨written, -, hw⟩ := any_eq_true.mp hon.1
    rw [Bool.and_eq_true, decide_eq_true_eq] at hw
    rintro hempty
    rw [show branch = [] by simp only [branch, hempty, map_nil]] at hw
    exact absurd hw.1 (by simp)
   obtain ⟨new, hentries', hbranch', hnew, hreports⟩ :=
    appended_notices happends hindexed hne hdue hallowed
   have hall : ∀ written ∈ history ++ new, Writes written.1 written.2 := by
    intro written hmem
    rcases mem_append.mp hmem with hold | hin
    · exact hwrites written hold
    · exact (hnew written hin).2.1
   have hreads' : Reads _ (history ++ new) (project (Run.final step w calls).manager) :=
    reads_project (by rw [hentries', hentries, map_append]) hall
   change (project (Run.final step w calls).manager).notices later = []
   rw [hreads'.notices hall later, map_eq_nil_iff]
   refine dueJobs_appended hwrites now (by rw [hbranch', map_append, map_map]; rfl)
    (fun written hin => ?_) (fun written hin => (hnew written hin).2.2) hreports
   have hold := (hnew written hin).1
   rw [hentries, map_map] at hold
   exact hold
 have hsound := hj.sound.1
 have hbash := bashId_of_named hwrites hjob
 have hrecorded : job.text ∈ (project w.manager).recorded := by
  rw [hreads.recorded]
  exact mem_map_of_mem hjob
 obtain ⟨slot, hslot, hkind, hle⟩ := highest_le (project w.manager) hrecorded (parse_text hbash)
 obtain ⟨ids, hk, hlast⟩ := hsound.reserved slot hslot (by rw [hkind]; decide)
 have hsound' := (hsound.final (JobSystem.reservations (project w.manager).highest)).1
 have hids := (hsound.final (JobSystem.reservations (project w.manager).highest)).2.ids
 rw [JobSystem.final_reservations] at hk hsound'
 obtain ⟨new, hnewIds, hnew⟩ := (hsound'.final inputs).2.ids
 change id ∈ (Run.final JobSystem.step (j.withRegistry recovered.2) inputs).drivers.map (·.id) at hid
 have hin : id ∈ new := by
  have hafter : (Run.final JobSystem.step (j.withRegistry recovered.2) inputs).drivers.map (·.id)
   = j.drivers.map (·.id) ++ new := hnewIds
  rw [hafter, hfresh] at hid
  simpa using hid
 intro heq
 obtain ⟨hkinds, hordinals⟩ := idText_injective heq
 have hlt := hnew id hin ids (by rw [hkinds, hbash.1, ← hkind]; exact hk)
 omega

/-- A job that was started and is not known to have ended. -/
def startedSnapshot : JobSnapshot where
 id := { registry := 0, kind := "bash", ordinal := 3 }
 label := "make"
 output := .stream
 status := .running
 stop := none
 detail := none
 startedAt := 0
 finishedAt := none
 reported := false

/-- A file that holds the start of a job and nothing of its end. -/
def startedWorld : World := (newWorld fun _ => none).step
  (.appendCustomEntry journalType (some (factData startedSnapshot)), .calm)

def startedHistory : History :=
 startedWorld.manager.entries.map fun entry => (entry, .fact startedSnapshot)

theorem startedHistory_writes : ∀ written ∈ startedHistory, Writes written.1 written.2 := by
 intro written hmem
 obtain ⟨entry, hentry, rfl⟩ := mem_map.mp hmem
 have hentries : startedWorld.manager.entries = [{
  id := "00000001"
  raw := (newWorld fun _ => none).manager.customRaw .calm "00000001" journalType
   (some (factData startedSnapshot)) }] := by
  rfl
 rw [hentries, mem_singleton] at hentry
 subst hentry
 exact ⟨⟨rfl, by decide, by decide⟩, rfl, rfl, rfl⟩

/-- The job of that file is lost. -/
theorem restart_accounts_lost : (recover startedWorld.manager (.new 1 JobSystem.fewJobs) 0).1
  = [lostNotice "bash-3" "bash" "make" 0] := by
 have hw : Run.Reach Opened step (IndexKept False) startedWorld :=
  .step (.init (opened_newWorld fun _ => none)) trivial
 have hentries : startedWorld.manager.entries = startedHistory.map fst := by
  rw [startedHistory, map_map]
  exact (map_id _).symm
 have hdue : dueJobs ((startedWorld.manager.branchEntries none).map (·.id)) startedHistory
  = ["bash-3"] := by
  decide +kernel
 have hnotices := (restart_accounts hw hentries startedHistory_writes
  (JobSystem.reachable_run 1 JobSystem.fewJobs []) rfl 0).1
 rw [hdue] at hnotices
 exact hnotices.trans (by rfl)

end Bake.Jobs
