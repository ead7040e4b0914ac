import Bake.Permissions.Engine

/-!
# What the recorder writes

An id belongs to the call that drew it: only that call writes entries with it. So what has
been written for a request is known from where its call stands, and a result once
returned stays true of the session, whatever the other calls do. The entries of all calls
together are an orderly history.
-/

open List Option
open OrdMap (get?)

namespace Bake.Permissions

open Bake.Json Bake.Session Interleave ApprovalEntry
open ApprovalSession (approvedWith unwritten)

variable (shown : Value → String)

def written (entries : List SessionEntry) : List ApprovalEntry :=
 entries.filterMap (approvalOf shown)

@[simp] theorem written_nil : written shown [] = [] := rfl

@[simp] theorem written_append (a b : List SessionEntry) :
 written shown (a ++ b) = written shown a ++ written shown b := filterMap_append

theorem isApproval_approvalEntry (stamp : Stamp) (entry : ApprovalEntry) :
 isApproval (approvalEntry stamp entry) = true := by
 simp [isApproval, approvalEntry, SessionEntry.entryType, SessionEntry.get, strMember, get?,
  Value.asStr]

variable {entry e : ApprovalEntry} {engine : PermissionEngine} {id : String}

theorem approvalOf_approvalEntry (stamp : Stamp) (h : entry.Named) :
 approvalOf shown (approvalEntry stamp entry) = some entry := by
 have hdata : (approvalEntry stamp entry).get "data" = some entry.toData := by
  simp [approvalEntry, SessionEntry.get, get?]
 rw [approvalOf, if_pos (isApproval_approvalEntry stamp entry), hdata, fromData_toData shown h]
 rfl

theorem written_approvalEntry (stamp : Stamp) (h : entry.Named) :
 written shown [approvalEntry stamp entry] = [entry] := by
 rw [written, filterMap_cons_some (approvalOf_approvalEntry shown stamp h), filterMap_nil]

theorem written_other {entry : SessionEntry} (h : isApproval entry = false) :
 written shown [entry] = [] := by
 simp [written, approvalOf, h]

theorem ApprovalEntry.admitted_some {aborted : Bool} (h : entry.admitted aborted = some e) :
 (entry.Named → e.Named) ∧ e.id = entry.id := by
 cases entry with
 | asked request =>
  cases aborted with
  | true => simp [admitted] at h
  | false =>
   injection h with h
   exact h ▸ ⟨fun hn => hn, rfl⟩
 | decided id outcome =>
  injection h with h
  exact h ▸ ⟨fun hn => hn, rfl⟩

/-! ## Sections -/

namespace ApprovalSession

/-- What `record` does: nothing, without an entry or with an error; it writes the entry
admitted; or its write fails, and the session stops. -/
theorem record_cases (s : ApprovalSession) (entry : ApprovalEntry) (cancel : Option Nat)
 (write : Write) :
 (∃ text, s.record entry cancel write = (s, .error text))
 ∨ (entry.admitted (s.fired cancel) = none ∧ s.record entry cancel write = (s, .ok none))
 ∨ (∃ stamp e, entry.admitted (s.fired cancel) = some e ∧ s.gap = none
  ∧ s.record entry cancel write = (s.append (approvalEntry stamp e), .ok (some e)))
 ∨ (∃ error landed, s.gap = none
  ∧ (landed = none ∨ ∃ stamp e, entry.admitted (s.fired cancel) = some e
   ∧ landed = some (approvalEntry stamp e))
  ∧ s.record entry cancel write = (s.stop error landed, .error (unwritten error))) := by
 have hlanded : ∀ landed : Option Stamp,
  (landed.bind fun stamp => (entry.admitted (s.fired cancel)).map (approvalEntry stamp)) = none
  ∨ ∃ stamp e, entry.admitted (s.fired cancel) = some e
   ∧ (landed.bind fun stamp => (entry.admitted (s.fired cancel)).map (approvalEntry stamp))
    = some (approvalEntry stamp e) := by
  intro landed
  cases landed with
  | none => exact .inl rfl
  | some stamp =>
   cases entry.admitted (s.fired cancel) with
   | none => exact .inl rfl
   | some e => exact .inr ⟨stamp, e, rfl, rfl⟩
 unfold record
 by_cases hs : s.shut
 · rw [if_pos hs]
   exact .inl ⟨_, rfl⟩
 rw [if_neg hs]
 cases write with
 | refused text => exact .inl ⟨text, rfl⟩
 | done stamp =>
  cases hg : s.gap with
  | some error => exact .inl ⟨_, rfl⟩
  | none =>
   cases ha : entry.admitted (s.fired cancel) with
   | none => exact .inr (.inl ⟨rfl, rfl⟩)
   | some e => exact .inr (.inr (.inl ⟨stamp, e, rfl, rfl, rfl⟩))
 | failed error landed =>
  cases hg : s.gap with
  | some error => exact .inl ⟨_, rfl⟩
  | none =>
   have hl := hlanded landed
   cases ha : entry.admitted (s.fired cancel) with
   | none => exact .inr (.inl ⟨rfl, rfl⟩)
   | some e =>
    rw [ha] at hl
    exact .inr (.inr (.inr ⟨error, _, rfl, hl, rfl⟩))
 | lost error landed =>
  cases hg : s.gap with
  | some error => exact .inl ⟨_, rfl⟩
  | none => exact .inr (.inr (.inr ⟨_, _, rfl, hlanded landed, rfl⟩))

end ApprovalSession

/-- The request a stage has in flight, and whether its `asked` entry is written. -/
def Stage.inFlight : Stage → Option (String × Bool)
 | .recordAsked _ id => some (id, false)
 | .request _ (some id) | .poll _ (some id) _ | .race _ (some id) _ | .check _ (some id) _
 | .recordDecided _ (some id) _ => some (id, true)
 | _ => none

/-- A moment that draws, writes and returns nothing for a recorded request. -/
def Moment.Quiet : Moment → Prop
 | .evaluated _ | .started _ | .asked | .answered _ | .approved none _ => True
 | _ => False

variable {moments : List Moment} {stage : Stage}

/-- What a section does: it leaves the session alone; it draws an id; or it records a
request, or its answer. -/
theorem ApprovalSession.next_cases {s s' : ApprovalSession} {t : Nat} {stage' : Stage}
 {choice : EngineChoice} (h : s.next engine t stage choice = some (s', moments, stage')) :
 (s' = s ∧ stage'.inFlight = stage.inFlight ∧ ∀ moment ∈ moments, moment.Quiet)
 ∨ (∃ p id, stage = .approve p ∧ id ≠ "" ∧ get? s.drawn id = none
  ∧ s' = { s with drawn := OrdMap.insert s.drawn id t } ∧ moments = [.drew id]
  ∧ stage' = .recordAsked p id)
 ∨ (∃ p id write, stage = .recordAsked p id ∧ (s', moments, stage') = s.recordAskedNext p id write)
 ∨ (∃ p id outcome write, stage = .recordDecided p (some id) outcome
  ∧ (s', moments, stage') = s.recordDecidedNext p id outcome write) := by
 have happrover : ∀ {st : Stage} {ms : List Moment} {st' : Stage},
  s.approverNext st choice = some (ms, st') →
  st'.inFlight = st.inFlight ∧ ∀ moment ∈ ms, moment.Quiet := by
  intro st ms st' hn
  unfold approverNext at hn
  split at hn
  next p id =>
   cases hn
   cases id <;> exact ⟨rfl, by simp [Moment.Quiet]⟩
  next p id policy =>
   split at hn
   · injection hn with hn
     cases hn
     cases id <;> exact ⟨rfl, by simp⟩
   · split at hn <;>
      (cases hn
       cases id <;> exact ⟨rfl, by simp⟩)
  next p id asking answer =>
   split at hn
   · injection hn with hn
     cases hn
     cases id <;> exact ⟨rfl, by simp⟩
   · dsimp only at hn
     split at hn <;>
      (cases hn
       cases id <;> cases asking <;> exact ⟨rfl, by simp [Moment.Quiet]⟩)
  next p id outcome =>
   cases hn
   cases id <;> exact ⟨rfl, by simp⟩
  · simp at hn
 unfold next at h
 split at h
 · cases h
   exact .inl ⟨rfl, rfl, by simp⟩
 next call signal layers policy =>
  injection h with h
  injection h with h1 h2
  refine .inl ⟨h1.symm, ?_⟩
  unfold resolveNext at h2
  split at h2
  · split at h2 <;>
     (cases h2
      exact ⟨rfl, by simp⟩)
  · cases h2
    refine ⟨?_, by simp [Moment.Quiet]⟩
    split <;> rfl
 next p id =>
  split at h
  · split at h
    · simp at h
    next hid =>
     injection h with h
     injection h with h1 h2
     injection h2 with h2 h3
     have hnone : get? s.drawn id = none := by
      cases hg : get? s.drawn id with
      | none => rfl
      | some u => exact absurd (Or.inr (by rw [hg]; rfl)) hid
     exact .inr (.inl ⟨p, id, rfl, fun he => hid (.inl he), hnone, h1.symm, h2.symm, h3.symm⟩)
  · cases h
    exact .inl ⟨rfl, rfl, by simp⟩
 next p id write =>
  injection h with h
  exact .inr (.inr (.inl ⟨p, id, write, rfl, h.symm⟩))
 next p id outcome write =>
  injection h with h
  exact .inr (.inr (.inr ⟨p, id, outcome, write, rfl, h.symm⟩))
 · cases h
   exact .inl ⟨rfl, rfl, by simp [Moment.Quiet]⟩
 next p result =>
  cases h
  refine .inl ⟨rfl, ?_, by simp⟩
  unfold approvedNext
  split <;> rfl
 · obtain ⟨⟨ms, st'⟩, hn, heq⟩ := map_eq_some_iff.mp h
   injection heq with h1 h2
   injection h2 with h2 h3
   subst h1 h2 h3
   obtain ⟨h1, h2⟩ := happrover hn
   exact .inl ⟨rfl, h1, h2⟩

/-! ## What a request has written -/

/-- How the session has changed: its gap stays, ids keep their owners, and entries came at
the end, those of `mine` only. -/
structure Grows (s s' : ApprovalSession) (mine : String → Prop) : Prop where
 drawn : ∀ id t, get? s.drawn id = some t → get? s'.drawn id = some t
 gap : ∀ error, s.gap = some error → s'.gap = some error
 entries : ∃ new, written shown s'.entries = written shown s.entries ++ new ∧ ∀ e ∈ new, mine e.id
 file : ∃ new, written shown s'.file = written shown s.file ++ new ∧ ∀ e ∈ new, mine e.id

variable {shown} {s s' : ApprovalSession} {mine : String → Prop}

theorem Grows.refl (s : ApprovalSession) : Grows shown s s mine :=
 ⟨fun _ _ h => h, fun _ h => h, ⟨[], by simp, by simp⟩, ⟨[], by simp, by simp⟩⟩

theorem Grows.mem_entries (h : Grows shown s s' mine) (he : e ∈ written shown s.entries) :
 e ∈ written shown s'.entries := by
 obtain ⟨new, hnew, -⟩ := h.entries
 exact hnew ▸ mem_append_left _ he

theorem Grows.of_entries (h : Grows shown s s' mine) (hm : ¬ mine e.id)
 (he : e ∈ written shown s'.entries) : e ∈ written shown s.entries := by
 obtain ⟨new, hnew, hmine⟩ := h.entries
 rw [hnew] at he
 rcases mem_append.mp he with he | he
 · exact he
 · exact absurd (hmine e he) hm

theorem Grows.of_file (h : Grows shown s s' mine) (hm : ¬ mine e.id)
 (he : e ∈ written shown s'.file) : e ∈ written shown s.file := by
 obtain ⟨new, hnew, hmine⟩ := h.file
 rw [hnew] at he
 rcases mem_append.mp he with he | he
 · exact he
 · exact absurd (hmine e he) hm

variable (shown)

/-- Nothing is written of a request. -/
def Unwritten (s : ApprovalSession) (id : String) : Prop := ∀ e ∈ written shown s.file, e.id ≠ id

def Unanswered (s : ApprovalSession) (id : String) : Prop :=
 (∃ request, .asked request ∈ written shown s.entries ∧ request.id = id)
  ∧ ∀ outcome, .decided id outcome ∉ written shown s.file

/-- What a request has written once `approve` has returned its result: the outcome
returned is the one written, and nothing is written of a request that was not asked; with
an error the session keeps no answer, and one is in the file only where its write failed and
the session stopped. -/
def Settled (s : ApprovalSession) (id : String) : Except String EscalationOutcome → Prop
 | .ok outcome =>
  .decided id outcome ∈ written shown s.entries
   ∧ (∀ other, .decided id other ∈ written shown s.file → other = outcome)
  ∨ outcome = .cancelled ∧ Unwritten shown s id
 | .error text =>
  (∀ outcome, .decided id outcome ∉ written shown s.entries)
   ∧ ∀ outcome, .decided id outcome ∈ written shown s.file →
    ∃ error, s.gap = some error ∧ text = unwritten error

variable {shown}

theorem Unwritten.grows (h : Unwritten shown s id) (hg : Grows shown s s' mine) (hm : ¬ mine id) :
 Unwritten shown s' id :=
 fun e he hid => h e (hg.of_file (hid ▸ hm) he) hid

theorem Unanswered.grows (h : Unanswered shown s id) (hg : Grows shown s s' mine) (hm : ¬ mine id) :
 Unanswered shown s' id := by
 obtain ⟨⟨request, hr, hid⟩, hno⟩ := h
 exact ⟨⟨request, hg.mem_entries hr, hid⟩, fun outcome he => hno outcome (hg.of_file hm he)⟩

theorem Settled.grows {result : Except String EscalationOutcome} (h : Settled shown s id result)
 (hg : Grows shown s s' mine) (hm : ¬ mine id) : Settled shown s' id result := by
 cases result with
 | ok outcome =>
  rcases h with ⟨hd, hone⟩ | ⟨rfl, hno⟩
  · exact .inl ⟨hg.mem_entries hd, fun other ho => hone other (hg.of_file hm ho)⟩
  · exact .inr ⟨rfl, hno.grows hg hm⟩
 | error text =>
  refine ⟨fun outcome he => h.1 outcome (hg.of_entries hm he), fun outcome he => ?_⟩
  obtain ⟨error, hgap, rfl⟩ := h.2 outcome (hg.of_file hm he)
  exact ⟨error, hg.gap error hgap, rfl⟩

/-! ## The invariants -/

variable (shown)

/-- The file holds what the manager keeps and, once the session has stopped, perhaps a line
more; its approval entries are the recorder's, each with an id that was drawn; and they are
an orderly history. -/
structure Kept (s : ApprovalSession) : Prop where
 file : ∃ left, s.file = s.entries ++ left ∧ (left = [] ∨ s.gap.isSome)
 named : ∀ id t, get? s.drawn id = some t → id ≠ ""
 ours : ∀ entry ∈ s.file, isApproval entry → ∃ stamp e, entry = approvalEntry stamp e ∧ e.Named
  ∧ (get? s.drawn e.id).isSome
 orderly : Orderly (written shown s.file)

/-- What holds of a call: the ids it drew are its own, what it wrote is there, its results
are settled, and each id drawn is the one in flight or has its result. -/
structure Own (s : ApprovalSession) (t : Nat) (task : Task) : Prop where
 drew : ∀ id, .drew id ∈ task.trace → get? s.drawn id = some t
 wrote : ∀ e aborted, .wrote e aborted ∈ task.trace → e ∈ written shown s.entries
 settled : ∀ id result, .approved (some id) result ∈ task.trace →
  .drew id ∈ task.trace ∧ Settled shown s id result
 closed : ∀ id, .drew id ∈ task.trace →
  (∃ asked, task.stage.inFlight = some (id, asked)) ∨ ∃ result, .approved (some id) result ∈ task.trace
 inFlight : ∀ id asked, task.stage.inFlight = some (id, asked) →
  .drew id ∈ task.trace ∧ (∀ result, .approved (some id) result ∉ task.trace)
   ∧ if asked then Unanswered shown s id else Unwritten shown s id

variable {shown} {t : Nat} {task : Task}

theorem Own.grows (h : Own shown s t task) (hg : Grows shown s s' mine)
 (hm : ∀ id, get? s.drawn id = some t → ¬ mine id) : Own shown s' t task := by
 refine ⟨fun id hid => hg.drawn id t (h.drew id hid), fun e aborted he =>
  hg.mem_entries (h.wrote e aborted he), fun id result hr => ?_, h.closed, fun id asked hid => ?_⟩
 · obtain ⟨hd, hs⟩ := h.settled id result hr
   exact ⟨hd, hs.grows hg (hm id (h.drew id hd))⟩
 · obtain ⟨hd, hno, hs⟩ := h.inFlight id asked hid
   refine ⟨hd, hno, ?_⟩
   cases asked with
   | false => exact Unwritten.grows hs hg (hm id (h.drew id hd))
   | true => exact Unanswered.grows hs hg (hm id (h.drew id hd))

/-! ## What a write does -/

theorem written_append_entry (s : ApprovalSession) (stamp : Stamp) {e : ApprovalEntry} (he : e.Named) :
 written shown (s.append (approvalEntry stamp e)).entries = written shown s.entries ++ [e]
  ∧ written shown (s.append (approvalEntry stamp e)).file = written shown s.file ++ [e] := by
 simp only [ApprovalSession.append, written_append, written_approvalEntry shown stamp he, and_self]

theorem Kept.append (h : Kept shown s) (hgap : s.gap = none) (stamp : Stamp) (he : e.Named)
 (hd : (get? s.drawn e.id).isSome) (hf : Follows (written shown s.file) e) :
 Kept shown (s.append (approvalEntry stamp e)) := by
 obtain ⟨left, hfile, hleft⟩ := h.file
 obtain rfl : left = [] := by
  rcases hleft with rfl | hg
  · rfl
  · rw [hgap] at hg
    simp at hg
 refine ⟨⟨[], by simpa [ApprovalSession.append] using hfile, .inl rfl⟩, h.named,
  fun entry hm ha => ?_, ?_⟩
 · rcases mem_append.mp hm with hm | hm
   · exact h.ours entry hm ha
   · exact ⟨stamp, e, mem_singleton.mp hm, he, hd⟩
 · rw [(written_append_entry s stamp he).2]
   exact History.valid_snoc.mpr ⟨h.orderly, hf⟩

theorem Kept.stop (h : Kept shown s) (error : String) {landed : Option SessionEntry}
 (hl : landed = none ∨ ∃ stamp e, landed = some (approvalEntry stamp e) ∧ e.Named
  ∧ (get? s.drawn e.id).isSome ∧ Follows (written shown s.file) e) :
 Kept shown (s.stop error landed) := by
 obtain ⟨left, hfile, -⟩ := h.file
 refine ⟨⟨left ++ landed.toList, by simp [ApprovalSession.stop, hfile], .inr rfl⟩, h.named,
  fun entry hm ha => ?_, ?_⟩
 · rcases mem_append.mp hm with hm | hm
   · exact h.ours entry hm ha
   · rcases hl with rfl | ⟨stamp, e, rfl, he, hd, -⟩
     · simp at hm
     · exact ⟨stamp, e, mem_singleton.mp hm, he, hd⟩
 · unfold ApprovalSession.stop
   rw [written_append]
   rcases hl with rfl | ⟨stamp, e, rfl, he, -, hf⟩
   · simpa using h.orderly
   · rw [toList_some, written_approvalEntry shown stamp he]
     exact History.valid_snoc.mpr ⟨h.orderly, hf⟩

variable (shown) in
/-- What a write came to, by its result. -/
def RecordedAs (s s' : ApprovalSession) (admitted : Option ApprovalEntry) :
 Except String (Option ApprovalEntry) → Prop
 | .ok none => s' = s ∧ admitted = none
 | .ok (some e) => admitted = some e ∧ written shown s'.entries = written shown s.entries ++ [e]
  ∧ written shown s'.file = written shown s.file ++ [e]
 | .error text => written shown s'.entries = written shown s.entries
  ∧ (written shown s'.file = written shown s.file
   ∨ ∃ error e, admitted = some e ∧ s'.gap = some error ∧ text = unwritten error
    ∧ written shown s'.file = written shown s.file ++ [e])

/-- **A write of an entry that may come next** keeps the session in order and writes nothing
of another request. -/
theorem Kept.record (h : Kept shown s) {entry : ApprovalEntry} (cancel : Option Nat) (write : Write)
 (hn : entry.Named) (hd : (get? s.drawn entry.id).isSome)
 (hf : ∀ e, entry.admitted (s.fired cancel) = some e → Follows (written shown s.file) e) :
 Kept shown (s.record entry cancel write).1
  ∧ Grows shown s (s.record entry cancel write).1 (· = entry.id)
  ∧ RecordedAs shown s (s.record entry cancel write).1
   (entry.admitted (s.fired cancel)) (s.record entry cancel write).2 := by
 rcases s.record_cases entry cancel write with ⟨text, heq⟩ | ⟨hnone, heq⟩ |
  ⟨stamp, e, ha, hgap, heq⟩ | ⟨error, landed, hgap, hl, heq⟩ <;> rw [heq]
 · exact ⟨h, .refl s, rfl, .inl rfl⟩
 · exact ⟨h, .refl s, rfl, hnone⟩
 · obtain ⟨hnamed, hid⟩ := admitted_some ha
   obtain ⟨h1, h2⟩ := @written_append_entry shown s stamp e (hnamed hn)
   refine ⟨h.append hgap stamp (hnamed hn) (hid ▸ hd) (hf e ha),
    ⟨fun _ _ hg => hg, fun error hg => absurd (hgap.symm.trans hg) (by simp), ⟨[e], h1, ?_⟩,
     ⟨[e], h2, ?_⟩⟩, ha, h1, h2⟩ <;> simpa using hid
 have hgrows : ∀ error', s.gap = some error' → (s.stop error landed).gap = some error' :=
  fun error' hg => absurd (hgap.symm.trans hg) (by simp)
 rcases hl with rfl | ⟨stamp, e, ha, rfl⟩
 · have hfile : written shown (s.stop error none).file = written shown s.file := by
    simp [ApprovalSession.stop]
   exact ⟨h.stop error (.inl rfl),
    ⟨fun _ _ hg => hg, hgrows, ⟨[], by simp [ApprovalSession.stop], by simp⟩,
     ⟨[], by simp [hfile], by simp⟩⟩, rfl, .inl hfile⟩
 · obtain ⟨hnamed, hid⟩ := admitted_some ha
   have hfile : written shown (s.stop error (some (approvalEntry stamp e))).file
    = written shown s.file ++ [e] := by
    simp [ApprovalSession.stop, written_approvalEntry shown stamp (hnamed hn)]
   refine ⟨h.stop error (.inr ⟨stamp, e, rfl, hnamed hn, hid ▸ hd, hf e ha⟩),
    ⟨fun _ _ hg => hg, hgrows, ⟨[], by simp [ApprovalSession.stop], by simp⟩,
     ⟨[e], hfile, by simpa using hid⟩⟩, rfl, .inr ⟨error, e, ha, rfl, rfl, hfile⟩⟩

/-! ## The steps -/

theorem Own.quiet (h : Own shown s t task) (hflight : stage.inFlight = task.stage.inFlight)
 (hq : ∀ moment ∈ moments, moment.Quiet) :
 Own shown s t { stage, trace := task.trace ++ moments } := by
 have hold : ∀ {moment : Moment}, ¬ moment.Quiet → moment ∈ task.trace ++ moments →
  moment ∈ task.trace := by
  intro moment hn hm
  rcases mem_append.mp hm with hm | hm
  · exact hm
  · exact absurd (hq moment hm) hn
 refine ⟨fun id hid => h.drew id (hold (by simp [Moment.Quiet]) hid), fun e aborted he =>
  h.wrote e aborted (hold (by simp [Moment.Quiet]) he), fun id result hr => ?_, fun id hid => ?_,
  fun id asked hid => ?_⟩
 · obtain ⟨hd, hs⟩ := h.settled id result (hold (by simp [Moment.Quiet]) hr)
   exact ⟨mem_append_left _ hd, hs⟩
 · rcases h.closed id (hold (by simp [Moment.Quiet]) hid) with ⟨asked, ha⟩ | ⟨result, hr⟩
   · exact .inl ⟨asked, hflight.trans ha⟩
   · exact .inr ⟨result, mem_append_left _ hr⟩
 · obtain ⟨hd, hno, hs⟩ := h.inFlight id asked (hflight ▸ hid)
   exact ⟨mem_append_left _ hd, fun result hr => hno result (hold (by simp [Moment.Quiet]) hr),
    hs⟩

theorem Kept.found (h : Kept shown s) (he : e ∈ written shown s.file) :
 e.Named ∧ (get? s.drawn e.id).isSome := by
 obtain ⟨entry, hm, hof⟩ := mem_filterMap.mp he
 have ha : isApproval entry := by
  by_contra hn
  rw [approvalOf, if_neg hn] at hof
  simp at hof
 obtain ⟨stamp, e', rfl, hn, hd⟩ := h.ours entry hm ha
 rw [approvalOf_approvalEntry shown stamp hn] at hof
 injection hof with hof
 exact hof ▸ ⟨hn, hd⟩

theorem Grows.draw (hnone : get? s.drawn id = none) (t : Nat) :
 Grows shown s { s with drawn := OrdMap.insert s.drawn id t } mine := by
 refine ⟨fun other u hu => ?_, fun _ h => h, ⟨[], by simp, by simp⟩, ⟨[], by simp, by simp⟩⟩
 rw [OrdMap.get?_insert_ne _ _ fun he => by
  rw [he, hu] at hnone
  exact absurd hnone (by simp)]
 exact hu

theorem Kept.draw (h : Kept shown s) (hne : id ≠ "") (hnone : get? s.drawn id = none)
 (t : Nat) : Kept shown { s with drawn := OrdMap.insert s.drawn id t } := by
 have hg : Grows shown s { s with drawn := OrdMap.insert s.drawn id t } fun _ => False :=
  .draw hnone t
 refine ⟨h.file, fun other u hu => ?_, fun entry hm ha => ?_, h.orderly⟩
 · rw [OrdMap.get?_insert] at hu
   split at hu
   next he =>
    exact he ▸ hne
   · exact h.named other u hu
 · obtain ⟨stamp, e, heq, hn, hd⟩ := h.ours entry hm ha
   obtain ⟨u, hu⟩ := isSome_iff_exists.mp hd
   exact ⟨stamp, e, heq, hn, isSome_iff_exists.mpr ⟨u, hg.drawn e.id u hu⟩⟩

theorem Own.draw (hk : Kept shown s) (h : Own shown s t task) {p : Pending}
 (hstage : task.stage = .approve p) (hnone : get? s.drawn id = none) :
 Own shown { s with drawn := OrdMap.insert s.drawn id t } t
  { stage := .recordAsked p id, trace := task.trace ++ [.drew id] } := by
 have hg : Grows shown s { s with drawn := OrdMap.insert s.drawn id t } fun _ => False :=
  .draw hnone t
 have hold := h.grows hg fun _ _ hf => hf
 refine ⟨fun other hm => ?_, fun e aborted hm => ?_, fun other result hm => ?_, fun other hm => ?_,
  fun other asked hm => ?_⟩
 · rcases mem_append.mp hm with hm | hm
   · exact hold.drew other hm
   · injection mem_singleton.mp hm with he
     rw [he, OrdMap.get?_insert, if_pos rfl]
 · exact hold.wrote e aborted (by simpa using hm)
 · obtain ⟨hd, hs⟩ := hold.settled other result (by simpa using hm)
   exact ⟨mem_append_left _ hd, hs⟩
 · rcases mem_append.mp hm with hm | hm
   · rcases h.closed other hm with ⟨asked, ha⟩ | ⟨result, hr⟩
     · rw [hstage] at ha
       simp [Stage.inFlight] at ha
     · exact .inr ⟨result, mem_append_left _ hr⟩
   · injection mem_singleton.mp hm with he
     exact .inl ⟨false, by rw [he]; rfl⟩
 · simp only [Stage.inFlight, some.injEq, Prod.mk.injEq] at hm
   obtain ⟨rfl, rfl⟩ := hm
   refine ⟨by simp, fun result hr => ?_, fun e he hid => ?_⟩
   · have := h.drew id (h.settled id result (by simpa using hr)).1
     exact absurd (hnone.symm.trans this) (by simp)
   · have := (hk.found he).2
     rw [hid, hnone] at this
     simp at this

/-- A call's facts where a section writes for the request it has in flight. -/
theorem Own.write (h : Own shown s t task) {asked : Bool}
 (hflight : task.stage.inFlight = some (id, asked)) (hg : Grows shown s s' (· = id))
 (hdrew : ∀ i, .drew i ∉ moments)
 (hwrote : ∀ e aborted, .wrote e aborted ∈ moments → e ∈ written shown s'.entries)
 (happroved : ∀ i r, .approved (some i) r ∈ moments → i = id ∧ Settled shown s' id r)
 (hstage : (stage.inFlight = some (id, true) ∧ Unanswered shown s' id
  ∧ ∀ i r, .approved i r ∉ moments)
  ∨ (stage.inFlight = none ∧ ∃ r, .approved (some id) r ∈ moments)) :
 Own shown s' t { stage, trace := task.trace ++ moments } := by
 obtain ⟨hd, hno, -⟩ := h.inFlight id asked hflight
 have hdold : ∀ {i}, .drew i ∈ task.trace ++ moments → .drew i ∈ task.trace := by
  intro i hm
  rcases mem_append.mp hm with hm | hm
  · exact hm
  · exact absurd hm (hdrew i)
 refine ⟨fun i hm => hg.drawn i t (h.drew i (hdold hm)), fun e aborted hm => ?_,
  fun i result hm => ?_, fun i hm => ?_, fun i b hm => ?_⟩
 · rcases mem_append.mp hm with hm | hm
   · exact hg.mem_entries (h.wrote e aborted hm)
   · exact hwrote e aborted hm
 · rcases mem_append.mp hm with hm | hm
   · obtain ⟨hdi, hs⟩ := h.settled i result hm
     exact ⟨mem_append_left _ hdi, hs.grows hg fun he => hno result (he ▸ hm)⟩
   · obtain ⟨rfl, hs⟩ := happroved i result hm
     exact ⟨mem_append_left _ hd, hs⟩
 · rcases h.closed i (hdold hm) with ⟨b, hb⟩ | ⟨result, hr⟩
   · obtain rfl : i = id := by
      rw [hflight] at hb
      injection hb with hb
      exact (Prod.mk.inj hb).1.symm
     rcases hstage with ⟨hst, -, -⟩ | ⟨-, r, hr⟩
     · exact .inl ⟨true, hst⟩
     · exact .inr ⟨r, mem_append_right _ hr⟩
   · exact .inr ⟨result, mem_append_left _ hr⟩
 rcases hstage with ⟨hst, hu, hna⟩ | ⟨hst, -⟩
 · have hm : stage.inFlight = some (i, b) := hm
   rw [hst] at hm
   injection hm with hm
   cases hm
   refine ⟨mem_append_left _ hd, fun result hr => ?_, hu⟩
   rcases mem_append.mp hr with hr | hr
   · exact hno result hr
   · exact hna _ _ hr
 · have hm : stage.inFlight = some (i, b) := hm
   rw [hst] at hm
   simp at hm

theorem Grows.mono {mine' : String → Prop} (h : Grows shown s s' mine) (hm : ∀ id, mine id → mine' id) :
 Grows shown s s' mine' := by
 obtain ⟨hd, hgap, ⟨new, hnew, hmine⟩, new', hnew', hmine'⟩ := h
 exact ⟨hd, hgap, ⟨new, hnew, fun e he => hm _ (hmine e he)⟩,
  ⟨new', hnew', fun e he => hm _ (hmine' e he)⟩⟩

variable (shown) in
/-- What a section of a call keeps: the session in order, its own facts, and whatever is
written of the others' requests. -/
def Sections (s : ApprovalSession) (t : Nat) (s' : ApprovalSession) (task' : Task) : Prop :=
 Kept shown s' ∧ Own shown s' t task' ∧ Grows shown s s' fun id => get? s.drawn id = some t

theorem Kept.mem_file (h : Kept shown s) (he : e ∈ written shown s.entries) :
 e ∈ written shown s.file := by
 obtain ⟨left, hfile, -⟩ := h.file
 rw [hfile, written_append]
 exact mem_append_left _ he

theorem Own.recordAsked (hk : Kept shown s) (h : Own shown s t task) {p : Pending} {id : String}
 (hstage : task.stage = .recordAsked p id) (write : Write) :
 Sections shown s t (s.recordAskedNext p id write).1
  { stage := (s.recordAskedNext p id write).2.2
    trace := task.trace ++ (s.recordAskedNext p id write).2.1 } := by
 have hflight : task.stage.inFlight = some (id, false) := by rw [hstage]; rfl
 obtain ⟨hdrew, -, hno⟩ := h.inFlight id false hflight
 have hno : Unwritten shown s id := hno
 have howner := h.drew id hdrew
 have hfollows : ∀ e, (p.asked id).admitted (s.fired p.signal) = some e →
  e = p.asked id ∧ Follows (written shown s.file) e := by
  intro e he
  cases hf : s.fired p.signal with
  | true =>
   rw [hf] at he
   simp [Pending.asked, admitted] at he
  | false =>
   rw [hf] at he
   obtain rfl : p.asked id = e := some.inj he
   exact ⟨rfl, fun earlier hm hid => hno _ hm hid⟩
 obtain ⟨hkept, hg, hr⟩ := @Kept.record shown s hk (p.asked id) p.signal write
  ⟨hk.named id t howner, p.call.named⟩ (by
   show (get? s.drawn id).isSome
   rw [howner]
   rfl) fun e he => (hfollows e he).2
 unfold ApprovalSession.recordAskedNext
 generalize s.record (p.asked id) p.signal write = r at hkept hg hr ⊢
 obtain ⟨s', result⟩ := r
 have hg : Grows shown s s' (· = id) := hg
 cases result with
 | error text =>
  refine ⟨hkept, ?_, hg.mono fun i hi => hi ▸ howner⟩
  have hnone : ∀ outcome, .decided id outcome ∉ written shown s'.file := by
   intro outcome hm
   rcases hr.2 with hfile | ⟨error, e, he, -, -, hfile⟩
   · exact hno _ (hfile ▸ hm) rfl
   · rw [hfile, (hfollows e he).1] at hm
     rcases mem_append.mp hm with hm | hm
     · exact hno _ hm rfl
     · exact absurd (mem_singleton.mp hm) (by simp [Pending.asked])
  refine h.write hflight hg (by simp [approvedWith])
   (by simp [approvedWith]) (fun i r hm => ?_)
   (.inr ⟨rfl, .error text, by simp [approvedWith]⟩)
  simp only [approvedWith, mem_singleton, Moment.approved.injEq, some.injEq] at hm
  obtain ⟨rfl, rfl⟩ := hm
  exact ⟨rfl, fun outcome hm => hnone outcome (hkept.mem_file hm),
   fun outcome hm => absurd hm (hnone outcome)⟩
 | ok entry =>
  cases entry with
  | none =>
   refine ⟨hkept, ?_, hg.mono fun i hi => hi ▸ howner⟩
   obtain ⟨rfl, -⟩ := hr
   refine h.write hflight hg (by simp [approvedWith])
    (by simp [approvedWith]) (fun i r hm => ?_)
    (.inr ⟨rfl, .ok .cancelled, by simp [approvedWith]⟩)
   simp only [approvedWith, mem_singleton, Moment.approved.injEq, some.injEq] at hm
   obtain ⟨rfl, rfl⟩ := hm
   exact ⟨rfl, .inr ⟨rfl, hno⟩⟩
  | some e =>
   refine ⟨hkept, ?_, hg.mono fun i hi => hi ▸ howner⟩
   obtain ⟨ha, hentries, hfile⟩ := hr
   obtain ⟨rfl, -⟩ := hfollows e ha
   refine h.write hflight hg (by simp) (fun e aborted hm => ?_) (by simp)
    (.inl ⟨rfl, ⟨⟨_, by rw [hentries]; exact mem_append_right _ (mem_singleton.mpr rfl),
     rfl⟩, fun outcome hm => ?_⟩, by simp⟩)
   · simp only [mem_singleton, Moment.wrote.injEq] at hm
     rw [hm.1, hentries]
     simp
   · rw [hfile] at hm
     rcases mem_append.mp hm with hm | hm
     · exact hno _ hm rfl
     · exact absurd (mem_singleton.mp hm) (by simp [Pending.asked])

theorem Own.recordDecided (hk : Kept shown s) (h : Own shown s t task) {p : Pending} {id : String}
 {outcome : EscalationOutcome} (hstage : task.stage = .recordDecided p (some id) outcome)
 (write : Write) :
 Sections shown s t (s.recordDecidedNext p id outcome write).1
  { stage := (s.recordDecidedNext p id outcome write).2.2
    trace := task.trace ++ (s.recordDecidedNext p id outcome write).2.1 } := by
 have hflight : task.stage.inFlight = some (id, true) := by rw [hstage]; rfl
 obtain ⟨hdrew, -, hun⟩ := h.inFlight id true hflight
 obtain ⟨⟨request, hasked, hrid⟩, hno⟩ : Unanswered shown s id := hun
 have howner := h.drew id hdrew
 have hfollows : ∀ e, (decided id outcome).admitted (s.fired p.signal) = some e →
  (∃ o, e = .decided id o) ∧ Follows (written shown s.file) e := by
  intro e he
  cases he
  exact ⟨⟨_, rfl⟩, ⟨request, hk.mem_file hasked, hrid⟩, hno⟩
 obtain ⟨hkept, hg, hr⟩ := @Kept.record shown s hk (.decided id outcome) p.signal write
  (hk.named id t howner) (by
   show (get? s.drawn id).isSome
   rw [howner]
   rfl) fun e he => (hfollows e he).2
 unfold ApprovalSession.recordDecidedNext
 generalize s.record (.decided id outcome) p.signal write = r at hkept hg hr ⊢
 obtain ⟨s', result⟩ := r
 have hg : Grows shown s s' (· = id) := hg
 cases result with
 | error text =>
  refine ⟨hkept, ?_, hg.mono fun i hi => hi ▸ howner⟩
  refine h.write hflight hg (by simp [approvedWith])
   (by simp [approvedWith]) (fun i r hm => ?_)
   (.inr ⟨rfl, .error text, by simp [approvedWith]⟩)
  simp only [approvedWith, mem_singleton, Moment.approved.injEq, some.injEq] at hm
  obtain ⟨rfl, rfl⟩ := hm
  refine ⟨rfl, fun o hm => hno o (hk.mem_file (hr.1 ▸ hm)), fun o hm => ?_⟩
  rcases hr.2 with hfile | ⟨error, e, -, hgap, rfl, -⟩
  · exact absurd (hfile ▸ hm) (hno o)
  · exact ⟨error, hgap, rfl⟩
 | ok entry =>
  cases entry with
  | none => exact absurd hr.2 (by simp [admitted])
  | some e =>
   obtain ⟨ha, hentries, hfile⟩ := hr
   obtain ⟨⟨o, rfl⟩, -⟩ := hfollows e ha
   refine ⟨hkept, ?_, hg.mono fun i hi => hi ▸ howner⟩
   refine h.write hflight hg (by simp) (fun e aborted hm => ?_) (fun i r hm => ?_)
    (.inr ⟨rfl, .ok o, by simp⟩)
   · simp only [mem_cons, Moment.wrote.injEq, reduceCtorEq, not_mem_nil, or_false] at hm
     rw [hm.1, hentries]
     simp
   · simp only [mem_cons, reduceCtorEq, Moment.approved.injEq, some.injEq,
      not_mem_nil, or_false, false_or] at hm
     obtain ⟨rfl, rfl⟩ := hm
     refine ⟨rfl, .inl ⟨by rw [hentries]; simp, fun other hm => ?_⟩⟩
     rw [hfile] at hm
     rcases mem_append.mp hm with hm | hm
     · exact absurd hm (hno other)
     · injection mem_singleton.mp hm

/-! ## Runs -/

theorem Own.sections (hk : Kept shown s) (h : Own shown s t task) {choice : EngineChoice}
 {task' : Task} (hn : (engineProgram engine).next s t task choice = some (s', task')) :
 Sections shown s t s' task' := by
 obtain ⟨⟨s₁, moments, stage'⟩, hnext, heq⟩ := map_eq_some_iff.mp hn
 cases heq
 rcases ApprovalSession.next_cases hnext with ⟨rfl, hflight, hq⟩ |
  ⟨p, id, hst, hne, hnone, rfl, rfl, rfl⟩ | ⟨p, id, write, hst, heq⟩ |
  ⟨p, id, outcome, write, hst, heq⟩
 · exact ⟨hk, h.quiet hflight hq, .refl _⟩
 · exact ⟨hk.draw hne hnone t, h.draw hk hst hnone, .draw hnone t⟩
 · have hs := h.recordAsked hk hst write
   rwa [← heq] at hs
 · have hs := h.recordDecided hk hst write
   rwa [← heq] at hs

theorem Kept.act (h : Kept shown s) (event : EngineEvent) :
 Kept shown (s.act event) ∧ Grows shown s (s.act event) fun _ => False := by
 have hsame : ∀ s' : ApprovalSession, s'.drawn = s.drawn → s'.gap = s.gap → s'.entries = s.entries →
  s'.file = s.file → Kept shown s' ∧ Grows shown s s' fun _ => False := by
  intro s' hd hg he hf
  refine ⟨⟨by rw [hf, he, hg]; exact h.file, by rw [hd]; exact h.named, by rw [hf, hd]; exact h.ours,
   by rw [hf]; exact h.orderly⟩, ⟨fun _ _ hu => by rw [hd]; exact hu, fun _ hu => by rw [hg]; exact hu,
   ⟨[], by rw [he]; simp, by simp⟩, ⟨[], by rw [hf]; simp, by simp⟩⟩⟩
 cases event with
 | gap error =>
  simp only [ApprovalSession.act]
  split
  next hgap =>
   refine ⟨h.stop error (.inl rfl), ⟨fun _ _ hu => hu, fun _ hu => ?_,
    ⟨[], by simp [ApprovalSession.stop], by simp⟩, ⟨[], by simp [ApprovalSession.stop], by simp⟩⟩⟩
   exact absurd (hgap.symm.trans hu) (by simp)
  · exact hsame _ rfl rfl rfl rfl
 | append entry =>
  simp only [ApprovalSession.act]
  split
  next hok =>
   obtain ⟨hgap, hno⟩ := hok
   have hno : isApproval entry = false := by simpa using hno
   have hw : ∀ entries, written shown (entries ++ [entry]) = written shown entries := by
    intro entries
    rw [written_append, written_other shown hno, append_nil]
   obtain ⟨left, hfile, hleft⟩ := h.file
   obtain rfl : left = [] := by
    rcases hleft with rfl | hg
    · rfl
    · rw [hgap] at hg
      simp at hg
   refine ⟨⟨⟨[], by simpa [ApprovalSession.append] using hfile, .inl rfl⟩, h.named,
    fun other hm ha => ?_, (hw s.file).symm ▸ h.orderly⟩,
    ⟨fun _ _ hu => hu, fun _ hu => hu, ⟨[], (hw s.entries).trans (append_nil _).symm, by simp⟩,
     ⟨[], (hw s.file).trans (append_nil _).symm, by simp⟩⟩⟩
   rcases mem_append.mp hm with hm | hm
   · exact h.ours other hm ha
   · obtain rfl := mem_singleton.mp hm
     simp [hno] at ha
  · exact hsame _ rfl rfl rfl rfl
 | _ => exact hsame _ rfl rfl rfl rfl

theorem Task.entry_eq (h : task.entry) :
 ∃ call signal, task = { stage := .start call signal, trace := [] } := by
 unfold Task.entry at h
 split at h
 · exact ⟨_, _, rfl⟩
 · simp at h

variable (shown) in
/-- **The session stays in order, and every call's facts true**, through every section of
every call and whatever happens around them. -/
theorem engine_keeps (engine : PermissionEngine) :
 (engineProgram engine).Keeps (Kept shown) (Own shown) where
 next hi hj hn := ⟨(hj.sections hi hn).1, (hj.sections hi hn).2.1⟩
 others hi hj hn := by
  intro u q hu hq
  refine hq.grows (hj.sections hi hn).2.2 fun id ho ht => hu ?_
  rw [ho] at ht
  exact some.inj ht
 spawn := by
  intro s t task _ he
  obtain ⟨call, signal, rfl⟩ := Task.entry_eq he
  exact ⟨fun _ hm => absurd hm (by simp), fun _ _ hm => absurd hm (by simp),
   fun _ _ hm => absurd hm (by simp), fun _ hm => absurd hm (by simp),
   fun _ _ hm => absurd hm (by simp [Stage.inFlight])⟩
 act hi e := ⟨(hi.act e).1, fun hj => hj.grows (hi.act e).2 fun _ _ hf => hf⟩

def ApprovalSession.opened (standing : StandingPermissions) (bound : Bool) (aborted : Nat → Bool)
 (entries : List SessionEntry) : ApprovalSession where
 standing := standing
 bound := bound
 aborted := aborted
 gap := none
 shut := false
 entries := entries.filter fun entry => !isApproval entry
 file := entries.filter fun entry => !isApproval entry
 drawn := []

theorem Kept.opened (standing : StandingPermissions) (bound : Bool) (aborted : Nat → Bool)
 (entries : List SessionEntry) : Kept shown (.opened standing bound aborted entries) := by
 have hnone : ∀ entry ∈ entries.filter (fun entry => !isApproval entry), isApproval entry = false :=
  fun entry hm => by simpa using (mem_filter.mp hm).2
 have hw : written shown (entries.filter fun entry => !isApproval entry) = [] := by
  refine filterMap_eq_nil_iff.mpr fun entry hm => ?_
  simp [approvalOf, hnone entry hm]
 refine ⟨⟨[], (append_nil _).symm, .inl rfl⟩, fun id t h => absurd h (by simp [ApprovalSession.opened]),
  fun entry hm ha => absurd ha (by simp [hnone entry hm]), ?_⟩
 show Orderly (written shown (entries.filter fun entry => !isApproval entry))
 rw [hw]
 exact History.Valid.nil

def ApprovalSession.Opened (s : ApprovalSession) : Prop :=
 ∃ standing bound aborted entries, s = .opened standing bound aborted entries

theorem engine_run (shown : Value → String) (engine : PermissionEngine) (standing : StandingPermissions) (bound : Bool)
 (aborted : Nat → Bool) (entries : List SessionEntry)
 (inputs : List (Input Task EngineChoice EngineEvent)) :
 Program.Holds (Kept shown) (Own shown)
  ((engineProgram engine).run (.opened standing bound aborted entries) inputs) := by
 have hreach : (engineProgram engine).Reachable ApprovalSession.Opened
  ((engineProgram engine).run (.opened standing bound aborted entries) inputs) :=
  Program.reachable_run ⟨standing, bound, aborted, entries, rfl⟩ inputs
 refine (engine_keeps shown engine).reachable (fun s hs => ?_) hreach
 obtain ⟨standing, bound, aborted, entries, rfl⟩ := hs
 exact .opened standing bound aborted entries

/-! ## The history of a run -/

theorem Kept.cut (h : Kept shown s) (n : Nat) :
 (foldApprovalHistory shown (s.file.take n)).Tells (written shown (s.file.take n)) := by
 refine foldApprovalHistory_tells shown (fun entry hm ha => ?_) ?_
 · obtain ⟨stamp, e, rfl, hn, -⟩ := h.ours entry (mem_of_mem_take hm) ha
   rw [approvalOf_approvalEntry shown stamp hn]
   rfl
 · have hv := h.orderly
   rw [← take_append_drop n s.file, written_append] at hv
   exact History.Valid.before hv

/-- A call that asks for a wider mode. -/
def buildCall : ToolCall where
 toolName := "bash"
 named := by decide
 callId := "c1"
 parentToolCallId := none
 args := .object [("sandbox_permissions", .string "workspace-write"),
  ("justification", .string "write the build dir")]
 subject := "command"
 blankJustification := .ignoredAlone

def readOnlyAsking : StandingPermissions where
 sandbox := .readOnly
 approval := .ask
 workspaceRoot := absolutePath []
 sessionId := none

/-- A call whose answer, a grant, is written but not synced. -/
def unsyncedRun : Interleave.Config ApprovalSession Task :=
 (engineProgram .standard).run (.opened readOnlyAsking true (fun _ => false) [])
  [.spawn ⟨.start buildCall none, []⟩, .run 0 .go, .run 0 .go, .run 0 .go, .run 0 (.draw "r1"),
   .run 0 (.write (.done ⟨"e1", .null, "t1"⟩)), .run 0 .go, .run 0 .go,
   .run 0 (.poll (some (some .allowedOnce))), .run 0 .go,
   .run 0 (.write (.failed "sync failed" (some ⟨"e2", .string "e1", "t2"⟩))), .run 0 .go]

end Bake.Permissions
