import Bake.Process.Account
import Bake.Process.Heard

/-!
# A killed tree is called settled only when it is

For each pid the account counts no more processes than the job associated under it: neither
by the members it opened nor by the messages that follow an exit. When the counts add up to
the job's lifetime count, each pid's reaches it, and a pid whose last process still runs has
a record a check would wait for, unless the message counted for that process was taken while
nothing told the process apart from the one recorded before it.
-/

open List OrdMap
open OrdMap (get?)

namespace Bake.Process

open Ledger (check exited reported seen verdict)
open Record
open Option (mem_some_iff some some.inj)

/-! ## One pid -/

/-- What holds of a pid's processes, its messages queued, and what the account keeps of it. -/
structure PidOk (good : Prop) (pid : UInt32) (ps : List Member) (mail : List Note)
 (record : Option (Record Handle)) (tally : Option Tally) (exited : Bool) : Prop where
 past : ∀ p ∈ ps.tail, p.signalled = true
 latest : ∀ p ∈ ps.head?, p.released = true → p.signalled = true ∧ p.exit ≠ .pending
 times : (ps.map (·.created)).Nodup
 stands : RecordOk pid ps record (tally.getD .zero).members
 tallied : tally.isSome = true → record.isSome = true
 heard : ∃ rank, Heard good ps mail record.isSome exited (tally.getD .zero).messages rank

namespace PidOk

variable {good : Prop} {pid : UInt32} {ps : List Member} {mail : List Note}
 {record : Option (Record Handle)} {tally : Option Tally} {exited : Bool}

theorem empty : PidOk good pid [] [] none none false where
 past := fun _ h => absurd h (by simp)
 latest := fun _ h => absurd h (by simp)
 times := nodup_nil
 stands := rfl
 tallied := id
 heard := ⟨0, Heard.nil⟩

theorem weaken {good' : Prop} (h : PidOk good pid ps mail record tally exited)
 (hg : good' → good) : PidOk good' pid ps mail record tally exited where
 past := h.past
 latest := h.latest
 times := h.times
 stands := h.stands
 tallied := h.tallied
 heard := h.heard.imp fun _ hh => hh.weaken hg

theorem counted_le (h : PidOk good pid ps mail record tally exited) :
 (tally.getD .zero).counted ≤ ps.length := by
 obtain ⟨rank, hh⟩ := h.heard
 have h1 := h.stands.members_le
 have h2 := hh.bound
 have h3 := hh.top
 unfold Tally.counted
 split <;> omega

theorem replace {p p' : Member} {rest : List Member} {mail' : List Note}
 (h : PidOk good pid (p :: rest) mail record tally exited) (hc : p'.created = p.created)
 (hr : p'.released = true → p'.signalled = true ∧ p'.exit ≠ .pending)
 (hrec : RecordOk pid (p' :: rest) record (tally.getD .zero).members)
 (hheard : ∀ {rank}, Heard good (p :: rest) mail record.isSome exited
  (tally.getD .zero).messages rank →
  Heard good (p' :: rest) mail' record.isSome exited (tally.getD .zero).messages rank) :
 PidOk good pid (p' :: rest) mail' record tally exited where
 past := h.past
 latest := fun q hq => by
  rw [head?_cons, mem_some_iff] at hq
  exact hq ▸ hr
 times := by
  have := h.times
  rw [map_cons] at this ⊢
  rwa [hc]
 stands := hrec
 tallied := h.tallied
 heard := h.heard.imp fun _ hh => hheard hh

end PidOk

/-! ## One opening -/

theorem Tally.counted_mono {a b : Tally} (h1 : a.members ≤ b.members)
 (h2 : a.messages ≤ b.messages) : a.counted ≤ b.counted := by
 unfold Tally.counted
 split <;> split <;> omega

namespace Ledger

/-- A pid is opened, and what it counts is added to its tally. -/
def account (l : Ledger Handle) (pid : UInt32) (opened : Opened Handle) (messages : Nat) :
 Ledger Handle :=
 (l.observe pid opened).2.tally pid (l.observe pid opened).1 messages

variable (l : Ledger Handle) (pid : UInt32) (opened : Opened Handle) (messages : Nat)

theorem account_records (q : UInt32) : get? (l.account pid opened messages).records q
  = if pid = q then some (observed (get? l.records pid) opened).2.1
   else get? l.records q := by
 simp only [account, tally, observe, get?_insert]
 cases (observed (get? l.records pid) opened).2.2 <;> rfl

theorem account_tallies : (l.account pid opened messages).tallies = insert l.tallies pid
  { members := ((get? l.tallies pid).getD .zero).members
     + (observed (get? l.records pid) opened).1
    messages := ((get? l.tallies pid).getD .zero).messages + messages } := by
 simp only [account, tally, observe]
 cases (observed (get? l.records pid) opened).2.2 <;> rfl

theorem account_recordKeys (h : (keys l.records).Nodup) :
 (keys (l.account pid opened messages).records).Nodup := by
 simp only [account, tally, observe]
 cases (observed (get? l.records pid) opened).2.2 <;> exact nodup_insert h _ _

theorem account_openPids : (l.account pid opened messages).openPids
  = if (observed (get? l.records pid) opened).2.1.isOpen then insertPid l.openPids pid
   else removePid l.openPids pid := by
 simp only [account, tally, observe]
 cases (observed (get? l.records pid) opened).2.2 <;> rfl

theorem account_exitedPids : (l.account pid opened messages).exitedPids = l.exitedPids := by
 simp only [account, tally, observe]
 cases (observed (get? l.records pid) opened).2.2 <;> rfl

theorem account_contradiction (h : (observed (get? l.records pid) opened).2.2 = none) :
 (l.account pid opened messages).contradiction = l.contradiction := by
 simp only [account, tally, observe, h]

theorem account_counted (h : l.counted = (l.tallies.map fun entry => entry.2.counted).sum) :
 (l.account pid opened messages).counted
  = ((l.account pid opened messages).tallies.map fun entry => entry.2.counted).sum := by
 rw [account_tallies]
 have hsum := sum_insert Tally.counted l.tallies pid
  { members := ((get? l.tallies pid).getD .zero).members
     + (observed (get? l.records pid) opened).1
    messages := ((get? l.tallies pid).getD .zero).messages + messages }
 have hat : valueAt Tally.counted l.tallies pid = ((get? l.tallies pid).getD .zero).counted := by
  unfold valueAt
  cases get? l.tallies pid <;> rfl
 have hle : ((get? l.tallies pid).getD .zero).counted ≤ Tally.counted
  { members := ((get? l.tallies pid).getD .zero).members
     + (observed (get? l.records pid) opened).1
    messages := ((get? l.tallies pid).getD .zero).messages + messages } :=
  Tally.counted_mono (Nat.le_add_right _ _) (Nat.le_add_right _ _)
 have hcounted : (l.account pid opened messages).counted = l.counted + (Tally.counted
   { members := ((get? l.tallies pid).getD .zero).members
      + (observed (get? l.records pid) opened).1
     messages := ((get? l.tallies pid).getD .zero).messages + messages }
   - ((get? l.tallies pid).getD .zero).counted) := by
  simp only [account, tally, observe]
  cases (observed (get? l.records pid) opened).2.2 <;> rfl
 omega

theorem nodup_insertPid {pids : List UInt32} (h : pids.Nodup) (pid : UInt32) :
 (insertPid pids pid).Nodup := by
 unfold insertPid
 split
 · exact h
 next hp =>
  exact nodup_append.mpr ⟨h, by simp, fun a ha b hb => by
   rw [mem_singleton] at hb
   rintro rfl
   exact hp (hb ▸ ha)⟩

theorem nodup_removePid {pids : List UInt32} (h : pids.Nodup) (pid : UInt32) :
 (removePid pids pid).Nodup := h.filter _

end Ledger

/-! ## The job -/

namespace JobWorld

def mail (w : JobWorld) (pid : UInt32) : List Note := (w.queue.filter (·.1 = pid)).map (·.2)

/-- What holds of every job reached. -/
structure Sound (w : JobWorld) : Prop where
 pids : ∀ pid, PidOk (w.ledger.contradiction = none) pid (w.under pid) (w.mail pid)
  (get? w.ledger.records pid) (get? w.ledger.tallies pid)
  (decide (pid ∈ w.ledger.exitedPids))
 processKeys : (keys w.processes).Nodup
 recordKeys : (keys w.ledger.records).Nodup
 tallyKeys : (keys w.ledger.tallies).Nodup
 counted : w.ledger.counted = (w.ledger.tallies.map fun entry => entry.2.counted).sum
 opens : ∀ pid, pid ∈ w.ledger.openPids ↔
  ∃ record, get? w.ledger.records pid = some record ∧ record.isOpen = true
 openKeys : w.ledger.openPids.Nodup
 clean : w.ledger.contradiction = none ∨ 0 ∈ keys w.processes ∨ maxRecords < w.processes.length
 polled : ∀ {total}, w.poll = .checked total (some 0) → w.ledger.openPids = []

theorem sound_new : Sound new where
 pids := fun _ => PidOk.empty
 processKeys := nodup_nil
 recordKeys := nodup_nil
 tallyKeys := nodup_nil
 counted := rfl
 opens := fun pid => by simp [new, Ledger.empty]
 openKeys := nodup_nil
 clean := .inl rfl
 polled := by simp [new]

variable {pid : UInt32} {w : JobWorld} {p : Member} {rest : List Member} {l : Ledger Handle}
 {pids : List UInt32} {found : List (UInt32 × Ledger.Seen)} {opening : UInt32 → Opening}

theorem mem_keys_of_under (h : w.under pid ≠ []) : pid ∈ keys w.processes := by
 rw [OrdMap.mem_keys]
 cases hp : get? w.processes pid with
 | none => exact absurd (by simp [under, hp]) h
 | some ps => rfl

theorem under_put (w : JobWorld) (pid q : UInt32) (ps : List Member) :
 (w.put pid ps).under q = if pid = q then ps else w.under q := by
 unfold under put
 rw [get?_insert]
 split <;> rfl

theorem length_insert {κ α : Type} [DecidableEq κ] (m : List (κ × α)) (k : κ) (v : α) :
 m.length ≤ (OrdMap.insert m k v).length := by
 have hkeys : ∀ m : List (κ × α), (OrdMap.keys m).length = m.length := fun m => length_map _
 by_cases hk : k ∈ OrdMap.keys m
 · rw [← hkeys, ← hkeys, OrdMap.keys_insert_of_mem hk]
 · rw [OrdMap.insert_of_not_mem hk, length_append]
   exact Nat.le_add_right _ _

/-! ### What happens to the processes -/

theorem Sound.change {w : JobWorld} (h : Sound w) {pid : UInt32} {ps : List Member}
 (notes : List Note)
 (hpid : PidOk (w.ledger.contradiction = none) pid ps (w.mail pid ++ notes)
  (get? w.ledger.records pid) (get? w.ledger.tallies pid)
  (decide (pid ∈ w.ledger.exitedPids))) :
 Sound { w.put pid ps with queue := w.queue ++ notes.map (pid, ·) } where
 pids := fun q => by
  by_cases hq : pid = q
  · subst hq
    have hmail : mail { w.put pid ps with queue := w.queue ++ notes.map (pid, ·) } pid
     = w.mail pid ++ notes := by
     simp [mail, filter_append, filter_map, Function.comp_def]
    have hunder : under { w.put pid ps with queue := w.queue ++ notes.map (pid, ·) } pid = ps :=
     (w.under_put pid pid ps).trans (if_pos rfl)
    rw [hmail, hunder]
    exact hpid
  · have hmail : mail { w.put pid ps with queue := w.queue ++ notes.map (pid, ·) } q = w.mail q := by
     simp [mail, filter_append, filter_map, Function.comp_def, hq]
    have hunder : under { w.put pid ps with queue := w.queue ++ notes.map (pid, ·) } q = w.under q :=
     (w.under_put pid q ps).trans (if_neg hq)
    rw [hmail, hunder]
    exact h.pids q
 processKeys := nodup_insert h.processKeys pid ps
 recordKeys := h.recordKeys
 tallyKeys := h.tallyKeys
 counted := h.counted
 opens := h.opens
 openKeys := h.openKeys
 clean := by
  rcases h.clean with hc | h0 | hm
  · exact .inl hc
  · refine .inr (.inl ?_)
    rw [OrdMap.mem_keys] at h0 ⊢
    rw [put, get?_insert]
    split
    · rfl
    · exact h0
  · exact .inr (.inr (Nat.lt_of_lt_of_le hm (length_insert _ _ _)))
 polled := h.polled

theorem Sound.changeOnly (h : Sound w) {ps : List Member}
 (hpid : PidOk (w.ledger.contradiction = none) pid ps (w.mail pid)
  (get? w.ledger.records pid) (get? w.ledger.tallies pid)
  (decide (pid ∈ w.ledger.exitedPids))) : Sound (w.put pid ps) := by
 have h' : Sound { w.put pid ps with queue := w.queue ++ [].map (pid, ·) } :=
  h.change [] (by rwa [append_nil])
 rw [map_nil, append_nil] at h'
 exact h'

theorem sound_associate (h : Sound w) (pid : UInt32) (created : Nat) :
 Sound (w.step (.associate pid created)) := by
 simp only [step]
 split
 next hc =>
  simp only [Bool.and_eq_true, all_eq_true] at hc
  obtain ⟨hcurrent, hnew⟩ := hc
  have hpid := h.pids pid
  have hreleased : ∀ p ∈ (w.under pid).head?, p.released = true := by
   intro p hp
   unfold current at hcurrent
   cases hps : w.under pid with
   | nil => simp [hps] at hp
   | cons q rest =>
    rw [hps, head?_cons, mem_some_iff] at hp
    subst hp
    rw [hps] at hcurrent
    by_contra hne
    simp [hne] at hcurrent
  refine h.changeOnly ⟨fun p hp => ?_, fun p hp => ?_, ?_, hpid.stands.associate hreleased,
   hpid.tallied, ?_⟩
  · rw [tail_cons] at hp
    cases hps : w.under pid with
    | nil => simp [hps] at hp
    | cons q rest =>
     rw [hps] at hp
     rcases mem_cons.mp hp with rfl | hp
     · exact (hpid.latest p (by simp [hps]) (hreleased p (by simp [hps]))).1
     · exact hpid.past p (by rwa [hps])
  · rw [head?_cons, mem_some_iff] at hp
    subst hp
    exact by simp
  · rw [map_cons, nodup_cons]
    refine ⟨fun hmem => ?_, hpid.times⟩
    obtain ⟨q, hq, heq⟩ := mem_map.mp hmem
    exact absurd heq (by simpa using hnew q hq)
  · obtain ⟨rank, hh⟩ := hpid.heard
    exact ⟨rank, hh.associate ⟨rfl, rfl⟩ fun q hq => (hpid.latest q hq (hreleased q hq)).2⟩
 · exact h

theorem Sound.replace (h : Sound w) {p' : Member} (hps : w.under pid = p :: rest)
 (notes : List Note) (hc : p'.created = p.created) (hr : p'.released = p.released)
 (hs : p.signalled = true → p'.signalled = true) (hx : p.exit ≠ .pending → p'.exit ≠ .pending)
 (hheard : ∀ {good : Prop} {recorded exited : Bool} {messages rank : Nat},
  Heard good (p :: rest) (w.mail pid) recorded exited messages rank →
  Heard good (p' :: rest) (w.mail pid ++ notes) recorded exited messages rank) :
 Sound { w.put pid (p' :: rest) with queue := w.queue ++ notes.map (pid, ·) } := by
 have hpid := h.pids pid
 rw [hps] at hpid
 refine h.change notes (hpid.replace hc (fun hrel => ?_) (hpid.stands.same hc hs hr) hheard)
 obtain ⟨h1, h2⟩ := hpid.latest p (by simp) (hr ▸ hrel)
 exact ⟨hs h1, hx h2⟩

theorem Sound.replaceOnly (h : Sound w) {p' : Member} (hps : w.under pid = p :: rest)
 (hc : p'.created = p.created) (hr : p'.released = p.released)
 (hs : p.signalled = true → p'.signalled = true) (hx : p.exit ≠ .pending → p'.exit ≠ .pending)
 (hheard : ∀ {good : Prop} {recorded exited : Bool} {messages rank : Nat},
  Heard good (p :: rest) (w.mail pid) recorded exited messages rank →
  Heard good (p' :: rest) (w.mail pid) recorded exited messages rank) :
 Sound (w.put pid (p' :: rest)) := by
 have h' := h.replace hps [] hc hr hs hx fun hh => by
  rw [append_nil]
  exact hheard hh
 rw [map_nil, append_nil] at h'
 exact h'

theorem sound_announce (h : Sound w) (pid : UInt32) : Sound (w.step (.announce pid)) := by
 simp only [step]
 split
 next p rest hps =>
  split
  next hp =>
   have h' : Sound { w.put pid ({ p with told := true } :: rest) with
    queue := w.queue ++ [{ isExit := false, rank := rest.length + 1 }].map (pid, ·) } :=
    h.replace hps _ rfl rfl id id fun hh => hh.announce hp hp
   simpa [push, put] using h'
  · exact h
 · exact h

theorem sound_signal (h : Sound w) (pid : UInt32) : Sound (w.step (.signal pid)) := by
 simp only [step]
 split
 next p rest hps =>
  exact h.replaceOnly hps rfl rfl (fun _ => rfl) id fun hh => hh.same rfl rfl
 · exact h

theorem sound_exit (h : Sound w) (pid : UInt32) (lost : Bool) :
 Sound (w.step (.exit pid lost)) := by
 simp only [step]
 split
 next p rest hps =>
  split
  next hp =>
   split
   · exact h.replaceOnly hps rfl rfl id (fun _ => by simp) fun hh => hh.lose rfl
   · have h' : Sound { w.put pid ({ p with exit := .queued } :: rest) with
      queue := w.queue ++ [{ isExit := true, rank := rest.length + 1 }].map (pid, ·) } :=
      h.replace hps _ rfl rfl id (fun _ => by simp) fun hh => hh.exit hp rfl rfl
     simpa [push, put] using h'
  · exact h
 · exact h

theorem sound_release (h : Sound w) (pid : UInt32) : Sound (w.step (.release pid)) := by
 simp only [step]
 split
 next p rest hps =>
  split
  next hc =>
   simp only [Bool.and_eq_true, Bool.not_eq_true', decide_eq_true_eq] at hc
   obtain ⟨⟨hs, hx⟩, hheld⟩ := hc
   have hpid := h.pids pid
   rw [hps] at hpid
   refine h.changeOnly (hpid.replace rfl (fun _ => ⟨hs, hx⟩)
    (hpid.stands.release rfl rfl rfl fun created hrec => ?_) fun hh => hh.same rfl rfl)
   unfold held at hheld
   simp [hrec] at hheld
  · exact h
 · exact h

/-! ### What the account does -/

/-- **The account opens a pid.** -/
theorem Sound.account {w : JobWorld} (h : Sound w) (hpoll : w.polling = false) {pid : UInt32}
 {opened : Opened Handle} {messages : Nat} {queue : List (UInt32 × Note)}
 {exitedPids : List UInt32} (hps : w.under pid ≠ [])
 (ha : Answers pid (w.under pid) opened)
 (hothers : ∀ q, pid ≠ q → mail { w with queue } q = w.mail q
  ∧ (q ∈ exitedPids ↔ q ∈ w.ledger.exitedPids))
 (hheard : ∃ rank, Heard (w.ledger.contradiction = none) (w.under pid) (mail { w with queue } pid)
  true (decide (pid ∈ exitedPids))
  (((get? w.ledger.tallies pid).getD .zero).messages + messages) rank) :
 Sound { w with
  queue := queue
  ledger := Ledger.account { w.ledger with exitedPids } pid opened messages } := by
 have hpid := h.pids pid
 obtain ⟨hstands, hwhy⟩ := hpid.stands.observed hps hpid.times ha
 have hgood := Ledger.account_contradiction { w.ledger with exitedPids } pid opened messages hwhy
 dsimp only at hgood
 exact
  { pids := fun q => by
     show PidOk (Ledger.contradiction (Ledger.account _ pid opened messages) = none) q (w.under q)
      (mail { w with queue } q) _ _ _
     rw [hgood, Ledger.account_records, Ledger.account_tallies, get?_insert,
      Ledger.account_exitedPids]
     by_cases hq : pid = q
     · subst hq
       rw [if_pos rfl, if_pos rfl]
       exact ⟨hpid.past, hpid.latest, hpid.times, hstands, fun _ => rfl, hheard⟩
     · rw [if_neg hq, if_neg hq, (hothers q hq).1, decide_eq_decide.mpr (hothers q hq).2]
       exact h.pids q
    processKeys := h.processKeys
    recordKeys := Ledger.account_recordKeys { w.ledger with exitedPids } _ _ _ h.recordKeys
    tallyKeys := by
     show (keys (Ledger.account _ pid opened messages).tallies).Nodup
     rw [Ledger.account_tallies]
     exact nodup_insert h.tallyKeys _ _
    counted := Ledger.account_counted { w.ledger with exitedPids } _ _ _ h.counted
    opens := fun q => by
     show q ∈ (Ledger.account _ pid opened messages).openPids ↔ _
     rw [Ledger.account_openPids, Ledger.account_records]
     by_cases hq : pid = q
     · subst hq
       rw [if_pos rfl]
       split
       next hopen =>
        exact ⟨fun _ => ⟨_, rfl, hopen⟩, fun _ => by simp⟩
       next hopen =>
        refine ⟨fun hmem => absurd rfl (mem_removePid.mp hmem).2, fun hex => ?_⟩
        obtain ⟨record, hrec, hopen'⟩ := hex
        exact absurd ((some.inj hrec) ▸ hopen') hopen
     · rw [if_neg hq]
       split
       · rw [mem_insertPid, h.opens]
         exact ⟨fun hor => hor.elim id fun he => absurd he.symm hq, .inl⟩
       · rw [mem_removePid, h.opens]
         exact ⟨And.left, fun he => ⟨he, fun he' => hq he'.symm⟩⟩
    openKeys := by
     show (Ledger.account _ pid opened messages).openPids.Nodup
     rw [Ledger.account_openPids]
     split
     · exact Ledger.nodup_insertPid h.openKeys _
     · exact Ledger.nodup_removePid h.openKeys _
    clean := by
     show Ledger.contradiction (Ledger.account _ pid opened messages) = none ∨ _
     rw [hgood]
     exact h.clean
    polled := fun hp => by
     have hp' : w.poll = .checked _ (some 0) := hp
     simp [polling, hp'] at hpoll }

theorem mail_pop {note : Note} {rest : List (UInt32 × Note)} (hq : w.queue = (pid, note) :: rest)
 (q : UInt32) : w.mail q = if pid = q then note :: mail { w with queue := rest } q
  else mail { w with queue := rest } q := by
 simp only [mail, hq, filter_cons]
 by_cases h : pid = q <;> simp [h]

theorem Sound.under_ne_nil (h : Sound w) {note : Note} (hm : note ∈ w.mail pid) :
 w.under pid ≠ [] := by
 obtain ⟨rank, hh⟩ := (h.pids pid).heard
 obtain ⟨h0, h1, -⟩ := hh.ahead note hm
 intro hnil
 rw [hnil] at h1
 simp at h1
 omega

theorem Sound.contradict (h : Sound w) (hpoll : w.polling = false) {note : Note}
 {rest : List (UInt32 × Note)} (hq : w.queue = (pid, note) :: rest) (why : String)
 (hclean : 0 ∈ keys w.processes ∨ maxRecords < w.processes.length) :
 Sound { w with queue := rest, ledger := w.ledger.contradict why } where
 pids := fun q => by
  have hbad : (w.ledger.contradict why).contradiction = none ↔ False := by
   simp [Ledger.contradict]
  show PidOk ((w.ledger.contradict why).contradiction = none) q (w.under q)
   (mail { w with queue := rest } q) (get? w.ledger.records q)
   (get? w.ledger.tallies q) (decide (q ∈ w.ledger.exitedPids))
  rw [hbad]
  have hpid := h.pids q
  rw [mail_pop hq q] at hpid
  split at hpid
  · exact ⟨hpid.past, hpid.latest, hpid.times, hpid.stands, hpid.tallied,
     hpid.heard.imp fun _ hh => hh.drop⟩
  · exact hpid.weaken False.elim
 processKeys := h.processKeys
 recordKeys := h.recordKeys
 tallyKeys := h.tallyKeys
 counted := h.counted
 opens := h.opens
 openKeys := h.openKeys
 clean := .inr hclean
 polled := fun hp => by
  have hp' : w.poll = .checked _ (some 0) := hp
  simp [polling, hp'] at hpoll

theorem Sound.many (h : Sound w) (hps : w.under pid ≠ [])
 (hnew : get? w.ledger.records pid = none) (hmany : maxRecords ≤ w.ledger.records.length) :
 maxRecords < w.processes.length := by
 have hnodup : (pid :: keys w.ledger.records).Nodup :=
  nodup_cons.mpr ⟨get?_eq_none.mp hnew, h.recordKeys⟩
 have hsub : pid :: keys w.ledger.records ⊆ keys w.processes := by
  intro q hq
  rcases mem_cons.mp hq with rfl | hq
  · exact mem_keys_of_under hps
  · refine mem_keys_of_under ((h.pids q).stands.ne_nil fun hnone => ?_)
    rw [OrdMap.mem_keys, hnone] at hq
    simp at hq
 have hlen := (subperm_of_subset hnodup hsub).length_le
 have hk1 : (keys w.ledger.records).length = w.ledger.records.length := length_map _
 have hk2 : (keys w.processes).length = w.processes.length := length_map _
 rw [length_cons] at hlen
 omega

theorem sound_take (h : Sound w) (opening : Opening) : Sound (w.step (.take opening)) := by
 simp only [step]
 split
 · exact h
 rename_i hpoll
 have hpoll : w.polling = false := by simpa using hpoll
 split
 next pid note rest hq =>
  have hmem : note ∈ w.mail pid := by simp [mail, hq]
  have hps := h.under_ne_nil hmem
  have hpid := h.pids pid
  have hmail : w.mail pid = note :: mail { w with queue := rest } pid :=
   (mail_pop hq pid).trans (if_pos rfl)
  have hothers : ∀ q, pid ≠ q → mail { w with queue := rest } q = w.mail q := fun q hne =>
   ((mail_pop hq q).trans (if_neg hne)).symm
  rw [hmail] at hpid
  obtain ⟨rank, hh⟩ := hpid.heard
  obtain ⟨isExit, r⟩ := note
  unfold deliver
  dsimp only
  split
  · -- an exit message
    rename_i hx
    subst hx
    unfold exited
    cases hrec : get? w.ledger.records pid with
    | none =>
     rw [hrec] at hh
     exact
      { h with
        pids := fun q => by
         by_cases hne : pid = q
         · subst hne
           exact ⟨hpid.past, hpid.latest, hpid.times, hpid.stands, hpid.tallied, rank, by
            show Heard _ (w.under pid) _ (get? w.ledger.records pid).isSome _ _ _
            rw [hrec]
            exact hh.dropExit⟩
         · have := h.pids q
           rwa [← hothers q hne] at this }
    | some record =>
     rw [hrec] at hh
     exact
      { h with
        pids := fun q => by
         by_cases hne : pid = q
         · subst hne
           refine ⟨hpid.past, hpid.latest, hpid.times, hpid.stands, hpid.tallied, r, ?_⟩
           show Heard _ (w.under pid) _ (get? w.ledger.records pid).isSome
            (decide (pid ∈ insertPid w.ledger.exitedPids pid)) _ _
           rw [hrec, decide_eq_true (mem_insertPid.mpr (.inr rfl))]
           exact hh.takeExit
         · have hq' := h.pids q
           rw [← hothers q hne] at hq'
           show PidOk _ q (w.under q) _ _ _ (decide (q ∈ insertPid w.ledger.exitedPids pid))
           have hiff : q ∈ insertPid w.ledger.exitedPids pid ↔ q ∈ w.ledger.exitedPids := by
            rw [mem_insertPid]
            exact ⟨fun ho => ho.elim id fun he => absurd he.symm hne, .inl⟩
           rw [decide_eq_decide.mpr hiff]
           exact hq' }
  -- a new-process message
  rename_i hx
  have hx : isExit = false := by simpa using hx
  subst hx
  unfold reported
  split
  next h0 =>
   exact h.contradict hpoll hq _ (.inl (h0 ▸ mem_keys_of_under hps))
  dsimp only
  split
  next hmany =>
   simp only [Bool.and_eq_true, Option.isNone_iff_eq_none, decide_eq_true_eq] at hmany
   exact h.contradict hpoll hq _ (.inr (h.many hps hmany.1 hmany.2))
  · have hheard := hh.takeNew
    refine h.account hpoll hps (w.opened_answers pid opening)
     (fun q hne => ⟨hothers q hne, ?_⟩) ?_
    · rw [mem_removePid]
      exact ⟨And.left, fun hmem => ⟨hmem, fun he => hne he.symm⟩⟩
    · rw [decide_eq_false fun hmem => (mem_removePid.mp hmem).2 rfl]
      have hnone : (!(get? w.ledger.records pid).isSome)
       = (get? w.ledger.records pid).isNone := by
       cases get? w.ledger.records pid <;> rfl
      rwa [hnone] at hheard
 · exact h

theorem Sound.retryPid (h : Sound w) (hpoll : w.polling = false)
 (hrec : get? w.ledger.records pid ≠ none) (opening : UInt32 → Opening) :
 Sound { w with
  ledger := w.ledger.retryPid (fun pid => w.opened pid (opening pid)) pid } := by
 obtain ⟨rank, hh⟩ := (h.pids pid).heard
 rw [Option.isSome_iff_ne_none.mpr hrec] at hh
 exact @Sound.account w h hpoll pid _ 0 w.queue w.ledger.exitedPids
  ((h.pids pid).stands.ne_nil hrec) (w.opened_answers pid (opening pid))
  (fun _ _ => ⟨rfl, Iff.rfl⟩) ⟨rank, hh⟩

theorem retryPid_records (l : Ledger Handle) (open_ : UInt32 → Opened Handle) (pid q : UInt32) :
 get? (l.retryPid open_ pid).records q
  = if pid = q then some (observed (get? l.records pid) (open_ pid)).2.1
   else get? l.records q :=
 Ledger.account_records l pid (open_ pid) 0 q

theorem mem_unresolved :
 pid ∈ l.unresolved ↔ pid ∈ l.openPids ∧ get? l.records pid = some .unresolved := by
 unfold Ledger.unresolved
 rw [mem_filter]
 refine and_congr_right fun _ => ?_
 cases get? l.records pid with
 | none => simp
 | some record => cases record <;> simp

theorem Sound.retryPids (hpoll : w.polling = false) (opening : UInt32 → Opening)
 (h : Sound { w with ledger := l }) (hrec : ∀ pid ∈ pids, get? l.records pid ≠ none) :
 Sound { w with
  ledger := pids.foldl (Ledger.retryPid fun pid => w.opened pid (opening pid)) l } := by
 induction pids generalizing l with
 | nil => exact h
 | cons pid rest ih =>
  rw [foldl_cons]
  refine ih (h.retryPid (w := { w with ledger := l }) hpoll (hrec pid mem_cons_self) opening)
   fun q hq => ?_
  rw [retryPid_records]
  split
  · simp
  · exact hrec q (mem_cons_of_mem _ hq)

theorem sound_retry (h : Sound w) (opening : UInt32 → Opening) :
 Sound (w.step (.retry opening)) := by
 simp only [step]
 split
 · exact h
 next hpoll =>
  exact Sound.retryPids (by simpa using hpoll) opening h fun pid hpid => by
   simp [(mem_unresolved.mp hpid).2]

/-- **A held member that ended** is no longer held. -/
theorem Sound.finish {w : JobWorld} (h : Sound w) (hpoll : w.polling = false) {pid : UInt32}
 {created : Option Nat} {handle : Handle}
 (hrec : get? w.ledger.records pid = some (.live created handle))
 (hs : ∀ p ∈ (w.under pid).head?, p.signalled = true) :
 Sound { w with ledger := w.ledger.finish pid created } where
 pids := fun q => by
  show PidOk _ q (w.under q) (w.mail q) (get? (insert w.ledger.records pid (.ended created)) q) _ _
  have hpid := h.pids q
  rw [get?_insert]
  split
  next hq =>
   subst hq
   refine ⟨hpid.past, hpid.latest, hpid.times, ?_, fun _ => rfl, ?_⟩
   · have hstands := hpid.stands
     rw [hrec] at hstands
     cases hps : w.under pid with
     | nil => exact absurd hps (hstands.ne_nil (by simp))
     | cons p rest =>
      rw [hps] at hstands
      exact hstands.finish (hs p (by simp [hps]))
   · have hheard := hpid.heard
     rwa [hrec] at hheard
  · exact hpid
 processKeys := h.processKeys
 recordKeys := nodup_insert h.recordKeys _ _
 tallyKeys := h.tallyKeys
 counted := h.counted
 opens := fun q => by
  show q ∈ removePid w.ledger.openPids pid ↔ ∃ record,
   get? (insert w.ledger.records pid (.ended created)) q = some record ∧ _
  rw [mem_removePid, get?_insert]
  split
  next hq =>
   subst hq
   refine ⟨fun hne => absurd rfl hne.2, fun hex => ?_⟩
   obtain ⟨record, hr, hopen⟩ := hex
   cases hr
   simp [isOpen] at hopen
  next hq =>
   rw [h.opens]
   exact ⟨And.left, fun he => ⟨he, fun he' => hq he'.symm⟩⟩
 openKeys := Ledger.nodup_removePid h.openKeys _
 clean := h.clean
 polled := fun hp => by
  have hp' : w.poll = .checked _ (some 0) := hp
  simp [polling, hp'] at hpoll

/-- One turn of the loop behind a check. -/
def finishSeen (l : Ledger Handle) (entry : UInt32 × Ledger.Seen) : Ledger Handle :=
 match entry.2 with
 | .ended created => l.finish entry.1 created
 | _ => l

theorem Sound.finishAll (hpoll : w.polling = false) (hnodup : (found.map Prod.fst).Nodup)
 (h : Sound { w with ledger := l })
 (hrec : ∀ pid created, (pid, Ledger.Seen.ended created) ∈ found →
  (∃ handle, get? l.records pid = some (.live created handle))
   ∧ ∀ p ∈ (w.under pid).head?, p.signalled = true) :
 Sound { w with ledger := found.foldl finishSeen l } := by
 induction found generalizing l with
 | nil => exact h
 | cons entry rest ih =>
  obtain ⟨pid, seen⟩ := entry
  rw [map_cons, nodup_cons] at hnodup
  rw [foldl_cons]
  cases seen with
  | waiting | failed => exact ih hnodup.2 h fun q c hq => hrec q c (mem_cons_of_mem _ hq)
  | ended created =>
   obtain ⟨⟨handle, hr⟩, hs⟩ := hrec pid created mem_cons_self
   refine ih hnodup.2 (h.finish (w := { w with ledger := l }) hpoll hr hs) fun q c hq => ?_
   obtain ⟨⟨handle', hr'⟩, hs'⟩ := hrec q c (mem_cons_of_mem _ hq)
   refine ⟨⟨handle', ?_⟩, hs'⟩
   show get? (insert l.records pid (.ended created)) q = _
   rw [get?_insert, if_neg (by rintro rfl; exact hnodup.1 (mem_map.mpr ⟨_, hq, rfl⟩))]
   exact hr'

theorem finishAll_openPids (found : List (UInt32 × Ledger.Seen)) (l : Ledger Handle) (q : UInt32) :
 q ∈ (found.foldl finishSeen l).openPids
  ↔ q ∈ l.openPids ∧ ∀ created, (q, Ledger.Seen.ended created) ∉ found := by
 induction found generalizing l with
 | nil => simp
 | cons entry rest ih =>
  obtain ⟨pid, seen⟩ := entry
  rw [foldl_cons, ih]
  cases seen with
  | waiting | failed => simp [finishSeen]
  | ended created =>
   show q ∈ removePid l.openPids pid ∧ _ ↔ _
   rw [mem_removePid]
   constructor
   · rintro ⟨⟨hq, hne⟩, hrest⟩
     refine ⟨hq, fun c hc => ?_⟩
     rcases mem_cons.mp hc with heq | hc
     · exact hne (Prod.mk.inj heq).1
     · exact hrest c hc
   · rintro ⟨hq, hall⟩
     refine ⟨⟨hq, fun he => ?_⟩, fun c hc => hall c (mem_cons_of_mem _ hc)⟩
     subst he
     exact hall created mem_cons_self

def reading (w : JobWorld) (readable : Handle → Bool) (handle : Handle) : Option Bool :=
 if readable handle then w.signalled handle else none

/-- A member a check finds ended is the pid's last process, and signalled. -/
theorem Sound.seen_ended (h : Sound w) {readable : Handle → Bool} {created : Option Nat}
 (hs : w.ledger.seen (w.reading readable) pid = .ended created) :
 (∃ handle, get? w.ledger.records pid = some (.live created handle))
  ∧ ∀ p ∈ (w.under pid).head?, p.signalled = true := by
 unfold seen at hs
 cases hrec : get? w.ledger.records pid with
 | none => simp [hrec] at hs
 | some record =>
  rw [hrec] at hs
  cases record with
  | live c handle =>
   dsimp only at hs
   cases hread : w.reading readable handle with
   | none => simp [hread] at hs
   | some signalled =>
    rw [hread] at hs
    cases signalled with
    | false => simp at hs
    | true =>
     have hc : c = created := by simpa using hs
     subst hc
     refine ⟨⟨handle, rfl⟩, fun p hp => ?_⟩
     have hstands := (h.pids pid).stands
     rw [hrec] at hstands
     obtain ⟨q, rest, hps, -, hh, -⟩ := hstands
     rw [hps, head?_cons, mem_some_iff] at hp
     subst hp
     unfold reading at hread
     split at hread
     · simpa [hh, signalled, hps] using hread
     · simp at hread
  | _ => simp at hs

theorem Sound.checked (h : Sound w) (hpoll : w.polling = false) (readable : Handle → Bool) :
 Sound { w with ledger := (w.ledger.check (w.reading readable)).2 } := by
 refine Sound.finishAll hpoll ?_ (l := w.ledger) h fun pid created hmem => ?_
 · rw [map_map]
   exact (map_id _).symm ▸ h.openKeys
 · obtain ⟨q, -, heq⟩ := mem_map.mp hmem
   obtain ⟨rfl, hs⟩ := Prod.mk.inj heq
   exact h.seen_ended hs

theorem check_none_open {signalled : Handle → Option Bool} (h : (l.check signalled).1 = some 0) :
 (l.check signalled).2.openPids = [] := by
 rw [eq_nil_iff_forall_not_mem]
 intro q hq
 obtain ⟨hq, hended⟩ := (finishAll_openPids _ l q).mp hq
 have hmem : (q, l.seen signalled q) ∈ l.openPids.map fun pid => (pid, l.seen signalled pid) :=
  mem_map_of_mem hq
 unfold check at h
 dsimp only at h
 split at h
 · simp at h
 next hfailed =>
  rw [some.injEq, length_eq_zero_iff, filter_eq_nil_iff] at h
  cases hs : l.seen signalled q with
  | ended created => exact hended created (hs ▸ hmem)
  | waiting => exact h _ hmem (by simp [hs])
  | failed => exact hfailed (any_eq_true.mpr ⟨_, hmem, by simp [hs]⟩)

theorem sound_check (h : Sound w) (readable : Handle → Bool) :
 Sound (w.step (.check readable)) := by
 simp only [step]
 split
 · exact h
 rename_i hpoll
 have hpoll : w.polling = false := by simpa using hpoll
 have hchecked := h.checked hpoll readable
 split
 · split
   · exact
      { hchecked with
        polled := fun hp => by
         have hp' := (Poll.checked.inj hp).2
         exact check_none_open hp' }
   · exact hchecked
 · exact hchecked

theorem sound_total (h : Sound w) : Sound (w.step .total) := by
 simp only [step]
 split
 · exact h
 · exact { h with polled := by simp }

theorem sound_verdict (h : Sound w) : Sound (w.step .verdict) := by
 simp only [step]
 split
 · exact { h with polled := by simp }
 · exact h

theorem sound_step (h : Sound w) (i : JobInput) : Sound (w.step i) := by
 cases i with
 | associate pid created => exact sound_associate h pid created
 | announce pid => exact sound_announce h pid
 | signal pid => exact sound_signal h pid
 | exit pid lost => exact sound_exit h pid lost
 | release pid => exact sound_release h pid
 | take opening => exact sound_take h opening
 | retry opening => exact sound_retry h opening
 | total => exact sound_total h
 | check readable => exact sound_check h readable
 | verdict => exact sound_verdict h

/-! ## Counts -/

theorem valueAt_tallies (w : JobWorld) (pid : UInt32) : valueAt Tally.counted w.ledger.tallies pid
  = ((get? w.ledger.tallies pid).getD .zero).counted := by
 unfold valueAt
 cases get? w.ledger.tallies pid <;> rfl

theorem valueAt_processes (w : JobWorld) (pid : UInt32) :
 valueAt List.length w.processes pid = (w.under pid).length := by
 unfold valueAt under
 cases get? w.processes pid <;> rfl

theorem Sound.sums (h : Sound w) : w.ledger.counted = ∑ pid ∈ (keys w.processes).toFinset,
  ((get? w.ledger.tallies pid).getD .zero).counted
  ∧ w.associated = ∑ pid ∈ (keys w.processes).toFinset, (w.under pid).length := by
 constructor
 · rw [h.counted, sum_eq Tally.counted h.tallyKeys fun pid hpid => ?_]
   · exact Finset.sum_congr rfl fun pid _ => w.valueAt_tallies pid
   · rw [mem_toFinset]
     rw [OrdMap.mem_keys] at hpid
     exact mem_keys_of_under ((h.pids pid).stands.ne_nil
      (Option.isSome_iff_ne_none.mp ((h.pids pid).tallied hpid)))
 · unfold associated
   rw [sum_eq List.length h.processKeys fun pid hpid => mem_toFinset.mpr hpid]
   exact Finset.sum_congr rfl fun pid _ => w.valueAt_processes pid

theorem Sound.counted_le (h : Sound w) : w.ledger.counted ≤ w.associated := by
 rw [h.sums.1, h.sums.2]
 exact Finset.sum_le_sum fun pid _ => (h.pids pid).counted_le

theorem Sound.each (h : Sound w) (heq : w.ledger.counted = w.associated) (hps : w.under pid ≠ []) :
 ((get? w.ledger.tallies pid).getD .zero).counted = (w.under pid).length := by
 rw [h.sums.1, h.sums.2] at heq
 exact (Finset.sum_eq_sum_iff_of_le fun pid _ => (h.pids pid).counted_le).mp heq pid
  (mem_toFinset.mpr (mem_keys_of_under hps))

/-! ## Settled means ended -/

/-- A pid whose last process still runs, and whose record no check would wait for, is short of
a message. -/
def Awaited (w : JobWorld) : Prop :=
 ∀ pid p rest record, w.under pid = p :: rest → p.signalled = false →
  get? w.ledger.records pid = some record → record.isOpen = false →
  ((get? w.ledger.tallies pid).getD .zero).messages < rest.length + 1

/-- Opening a pid tells a process that has it now from the one its record names. -/
def tells : Option (Record Handle) → Opening → Bool
 | some (.ended none), _ => false
 | some (.ended (some _)), .truthful timed _ => timed
 | some (.ended (some _)), .unknown => false
 | some .vanished, .truthful _ _ => true
 | some .vanished, .unknown => false
 | _, _ => true

/-- A new-process message that follows an exit, of a pid whose last process is not signalled,
is taken while opening the pid tells that process from the one recorded. -/
def Told (w : JobWorld) : JobInput → Prop
 | .take opening =>
  ∀ pid note rest, w.queue = (pid, note) :: rest → note.isExit = false →
   pid ∈ w.ledger.exitedPids → (∀ p ∈ (w.under pid).head?, p.signalled = false) →
   tells (get? w.ledger.records pid) opening = true
 | _ => True

section Awaiting

variable {pid : UInt32} {p : Member} {rest : List Member} {record : Option (Record Handle)}

theorem closed_of_observed {opened : Opened Handle} (ha : Answers pid (p :: rest) opened)
 (hp : p.released = false) (h : (observed record opened).2.1.isOpen = false) :
 ∃ closed, record = some closed ∧ closed.isOpen = false := by
 cases opened with
 | noSuchProcess | otherProcess => exact absurd (ha p (by simp)) (by simp [hp])
 | unknown | member created handle =>
  rcases record with _ | record
  · simp [observed, isOpen] at h
  cases record <;> first | exact ⟨_, rfl, rfl⟩ | simp [observed, isOpen] at h

/-- **A process told from the one recorded** has a record that a check waits for. -/
theorem open_of_tells {w : JobWorld} {opening : Opening} {members : Nat}
 (hps : w.under pid = p :: rest) (hp : p.released = false) (hs : p.signalled = false)
 (htimes : ((p :: rest).map (·.created)).Nodup)
 (hstands : RecordOk pid (p :: rest) record members) (ht : tells record opening = true) :
 (observed record (w.opened pid opening)).2.1.isOpen = true := by
 have ha := w.opened_answers pid opening
 rw [hps] at ha
 by_contra hopen
 obtain ⟨closed, rfl, hclosed⟩ := closed_of_observed ha hp (by simpa using hopen)
 cases opening with
 | unknown =>
  cases closed with
  | live created handle | unresolved => simp [isOpen] at hclosed
  | ended created => cases created <;> simp [tells] at ht
  | vanished => simp [tells] at ht
 | truthful timed other =>
  have hopened : w.opened pid (.truthful timed other)
   = .member (if timed then some p.created else none) (pid, p.created) := by
   simp [opened, current, hps, hp]
  rw [hopened] at hopen
  cases closed with
  | live created handle | unresolved => simp [isOpen] at hclosed
  | vanished => simp [observed, isOpen] at hopen
  | ended created =>
   cases created with
   | none => simp [tells] at ht
   | some old =>
    have ht : timed = true := ht
    subst ht
    obtain ⟨q, tail, hsuffix, hq, hd, -⟩ := hstands
    have hne : old ≠ p.created := by
     rw [hd old rfl]
     rcases suffix_cons_iff.mp hsuffix with heq | hsuffix
     · obtain ⟨rfl, rfl⟩ := List.cons.inj heq
       simp [hs] at hq
     · rw [map_cons, nodup_cons] at htimes
       intro heq
       exact htimes.1 (heq ▸ mem_map_of_mem (hsuffix.subset mem_cons_self))
    simp [observed, hne, isOpen] at hopen

end Awaiting

theorem closed_lt {record : Record Handle} {members : Nat}
 (h : RecordOk pid (p :: rest) (some record) members) (hclosed : record.isOpen = false)
 (hs : p.signalled = false) (hp : p.released = false) : members < rest.length + 1 := by
 cases record with
 | live created handle | unresolved => simp [isOpen] at hclosed
 | ended created =>
  obtain ⟨q, tail, hsuffix, hq, -, -, hm⟩ := h
  rcases suffix_cons_iff.mp hsuffix with heq | hsuffix
  · obtain ⟨rfl, rfl⟩ := List.cons.inj heq
    simp [hs] at hq
  · have := hsuffix.length_le
    rw [length_cons] at this
    omega
 | vanished =>
  have := h.2
  simp [releasedCount, hp] at this
  omega

theorem Sound.not_released (h : Sound w) (hps : w.under pid = p :: rest)
 (hs : p.signalled = false) : p.released = false := by
 by_contra hr
 have := ((h.pids pid).latest p (by simp [hps]) (by simpa using hr)).1
 simp [hs] at this

theorem Awaited.account {w w' : JobWorld} (h : Awaited w) {pid : UInt32}
 (hunder : ∀ q, w'.under q = w.under q)
 (hothers : ∀ q, pid ≠ q → get? w'.ledger.records q = get? w.ledger.records q
  ∧ get? w'.ledger.tallies q = get? w.ledger.tallies q)
 (hself : ∀ p rest, w.under pid = p :: rest → p.signalled = false →
  ∀ record, get? w'.ledger.records pid = some record → record.isOpen = false →
   (∃ closed, get? w.ledger.records pid = some closed ∧ closed.isOpen = false)
    ∧ ((get? w'.ledger.tallies pid).getD .zero).messages
     = ((get? w.ledger.tallies pid).getD .zero).messages) : Awaited w' := by
 intro q p rest record hps hs hrec hclosed
 rw [hunder] at hps
 by_cases hq : pid = q
 · subst hq
   obtain ⟨⟨closed, hrec', hclosed'⟩, hm⟩ := hself p rest hps hs record hrec hclosed
   rw [hm]
   exact h pid p rest closed hps hs hrec' hclosed'
 · rw [(hothers q hq).1] at hrec
   rw [(hothers q hq).2]
   exact h q p rest record hps hs hrec hclosed

theorem Awaited.replace {w' : JobWorld} (h : Awaited w) {p' : Member}
 (hps : w.under pid = p :: rest) (hledger : w'.ledger = w.ledger)
 (hunder : ∀ q, w'.under q = if pid = q then p' :: rest else w.under q)
 (hs : p'.signalled = false → p.signalled = false) : Awaited w' := by
 intro q r tail record hq hr hrec hclosed
 rw [hledger] at hrec ⊢
 rw [hunder] at hq
 split at hq
 next he =>
  subst he
  obtain ⟨rfl, rfl⟩ := List.cons.inj hq
  exact h pid p rest record hps (hs hr) hrec hclosed
 · exact h q r tail record hq hr hrec hclosed

theorem awaited_new : Awaited new := fun pid p rest record hps => by
 simp [under, new] at hps

theorem awaited_take (h : Sound w) (hw : Awaited w) {opening : Opening}
 (ht : Told w (.take opening)) : Awaited (w.step (.take opening)) := by
 simp only [step]
 split
 · exact hw
 split
 next pid note rest hq =>
  unfold deliver
  dsimp only
  split
  · unfold exited
    split <;> exact hw
  next hx =>
   have hx : note.isExit = false := by simpa using hx
   unfold reported
   split
   · exact hw
   dsimp only
   split
   · exact hw
   -- the pid is opened
   have hrecord := Ledger.account_records
    { w.ledger with exitedPids := removePid w.ledger.exitedPids pid } pid
    (w.opened pid opening)
    (if (get? w.ledger.records pid).isNone || decide (pid ∈ w.ledger.exitedPids)
     then 1 else 0)
   have htally := Ledger.account_tallies
    { w.ledger with exitedPids := removePid w.ledger.exitedPids pid } pid
    (w.opened pid opening)
    (if (get? w.ledger.records pid).isNone || decide (pid ∈ w.ledger.exitedPids)
     then 1 else 0)
   refine hw.account (fun _ => rfl) (fun q (hne : pid ≠ q) => ⟨?_, ?_⟩) ?_
   · exact (hrecord q).trans (if_neg hne)
   · exact (congrArg (get? · q) htally).trans ((get?_insert _ _ _ _).trans (if_neg hne))
   intro p rest' hps hs record hrec hclosed
   have hp := h.not_released hps hs
   have ha := w.opened_answers pid opening
   rw [hps] at ha
   have hnext := some.inj (((hrecord pid).trans (if_pos rfl)).symm.trans hrec)
   obtain ⟨closed, hbefore, hclosed'⟩ := closed_of_observed ha hp (hnext ▸ hclosed)
   dsimp only at hbefore
   refine ⟨⟨closed, hbefore, hclosed'⟩, ?_⟩
   have hexited : pid ∉ w.ledger.exitedPids := by
    intro hmem
    have htells := ht pid note rest hq hx hmem fun q hq' => by
     rw [hps, head?_cons, mem_some_iff] at hq'
     exact hq' ▸ hs
    have hpid := h.pids pid
    have htimes := hpid.times
    have hstands := hpid.stands
    rw [hps] at htimes hstands
    have hopen := open_of_tells hps hp hs htimes hstands htells
    dsimp only at hnext
    rw [hnext, hclosed] at hopen
    simp at hopen
   refine (congrArg (fun tallies => ((get? tallies pid).getD .zero).messages) htally).trans ?_
   simp [hbefore, hexited]
 · exact hw

theorem Awaited.retryPids (hpoll : w.polling = false) (opening : UInt32 → Opening)
 (hnodup : pids.Nodup) (h : Sound { w with ledger := l }) (hw : Awaited { w with ledger := l })
 (hrec : ∀ pid ∈ pids, get? l.records pid = some .unresolved) :
 Awaited { w with
  ledger := pids.foldl (Ledger.retryPid fun pid => w.opened pid (opening pid)) l } := by
 induction pids generalizing l with
 | nil => exact hw
 | cons pid rest ih =>
  rw [nodup_cons] at hnodup
  rw [foldl_cons]
  have hunresolved := hrec pid mem_cons_self
  refine ih hnodup.2 (h.retryPid (w := { w with ledger := l }) hpoll (by simp [hunresolved]) opening)
   ?_ fun q hq => ?_
  · refine hw.account (fun _ => rfl) (fun q (hne : pid ≠ q) => ⟨?_, ?_⟩) ?_
    · exact (retryPid_records l _ pid q).trans (if_neg hne)
    · show get? (Ledger.account l pid _ 0).tallies q = _
      rw [Ledger.account_tallies, get?_insert, if_neg hne]
    intro p tail hps hs record hr hclosed
    have hp := Sound.not_released h hps hs
    have ha := w.opened_answers pid (opening pid)
    have hps' : w.under pid = p :: tail := hps
    rw [hps'] at ha
    have hnext := some.inj
     (((retryPid_records l (fun pid => w.opened pid (opening pid)) pid pid).trans
      (if_pos rfl)).symm.trans hr)
    obtain ⟨closed, hbefore, hclosed'⟩ := closed_of_observed ha hp (hnext ▸ hclosed)
    rw [hunresolved] at hbefore
    cases hbefore
    simp [isOpen] at hclosed'
  · rw [retryPid_records, if_neg (by rintro rfl; exact hnodup.1 hq)]
    exact hrec q (mem_cons_of_mem _ hq)

theorem Awaited.finishAll (hw : Awaited { w with ledger := l })
 (hs : ∀ pid created, (pid, Ledger.Seen.ended created) ∈ found →
  ∀ p ∈ (w.under pid).head?, p.signalled = true) :
 Awaited { w with ledger := found.foldl finishSeen l } := by
 induction found generalizing l with
 | nil => exact hw
 | cons entry rest ih =>
  obtain ⟨pid, seen⟩ := entry
  rw [foldl_cons]
  refine ih ?_ fun q c hq => hs q c (mem_cons_of_mem _ hq)
  cases seen with
  | waiting | failed => exact hw
  | ended created =>
   refine hw.account (fun _ => rfl) (fun q (hne : pid ≠ q) => ⟨?_, rfl⟩) ?_
   · show get? (insert l.records pid (.ended created)) q = _
     rw [get?_insert, if_neg hne]
   · intro p tail hps hunsignalled
     have hps' : w.under pid = p :: tail := hps
     have := hs pid created mem_cons_self p (by simp [hps'])
     simp [hunsignalled] at this

theorem awaited_step (h : Sound w) (hw : Awaited w) (i : JobInput) (ht : Told w i) :
 Awaited (w.step i) := by
 cases i with
 | associate pid created =>
  simp only [step]
  split
  · intro q p rest record hps hs hrec hclosed
    rw [under_put] at hps
    split at hps
    next he =>
     subst he
     obtain ⟨-, rfl⟩ := List.cons.inj hps
     obtain ⟨rank, hh⟩ := (h.pids pid).heard
     exact Nat.lt_succ_of_le (Nat.le_trans hh.bound hh.top)
    · exact hw q p rest record hps hs hrec hclosed
  · exact hw
 | announce pid | release pid =>
  simp only [step]
  split
  next p rest hps =>
   split
   · exact hw.replace hps rfl (fun q => w.under_put pid q _) id
   · exact hw
  · exact hw
 | signal pid =>
  simp only [step]
  split
  next p rest hps =>
   exact hw.replace hps rfl (fun q => w.under_put pid q _) fun hf => absurd hf (by simp)
  · exact hw
 | exit pid lost =>
  simp only [step]
  split
  next p rest hps =>
   split
   · split <;> exact hw.replace hps rfl (fun q => w.under_put pid q _) id
   · exact hw
  · exact hw
 | take opening => exact awaited_take h hw ht
 | retry opening =>
  simp only [step]
  split
  · exact hw
  next hpoll =>
   exact Awaited.retryPids (by simpa using hpoll) opening (h.openKeys.filter _) h hw
    fun pid hpid => (mem_unresolved.mp hpid).2
 | total | verdict =>
  simp only [step]
  split <;> exact hw
 | check readable =>
  have hfound : Awaited { w with ledger := (w.ledger.check (w.reading readable)).2 } :=
   Awaited.finishAll hw fun pid created hmem => by
    obtain ⟨q, -, heq⟩ := mem_map.mp hmem
    obtain ⟨rfl, hs⟩ := Prod.mk.inj heq
    exact (h.seen_ended hs).2
  simp only [step]
  split
  · exact hw
  split
  · split <;> exact hfound
  · exact hfound

def Reachable : JobWorld → Prop := Run.Reach (· = new) step fun _ _ => True

def ToldReachable : JobWorld → Prop := Run.Reach (· = new) step Told

theorem Reachable.sound (h : Reachable w) : Sound w :=
 Run.Reach.invariant Sound (by rintro _ rfl; exact sound_new) (fun _ i hs _ => sound_step hs i) h

theorem ToldReachable.awaited (h : ToldReachable w) : Sound w ∧ Awaited w :=
 Run.Reach.invariant (fun w => Sound w ∧ Awaited w)
  (by rintro _ rfl; exact ⟨sound_new, awaited_new⟩)
  (fun _ i hs ht => ⟨sound_step hs.1 i, awaited_step hs.1 hs.2 i ht⟩) h

theorem verdict_settled {before after active : Nat} {waiting : Option Nat}
 (h : l.verdict before after active waiting = .settled) :
 l.counted = after ∧ waiting = some 0 := by
 unfold verdict at h
 split at h
 · simp at h
 split at h
 · simp at h
 split at h
 · simp at h
 split at h
 · simp at h
 · split at h
   · simp at h
   split at h
   · simp at h
   next hne =>
    rw [not_or, not_not, not_not] at hne
    exact ⟨hne.2, rfl⟩
 · simp at h

/-- **Settled means ended**: while every message counted for a running process was taken with
the process told apart. -/
theorem settled_ended (h : Sound w) (hw : Awaited w) {active : Nat}
 (hv : w.verdict? active = some .settled) : w.Ended := by
 unfold verdict? at hv
 split at hv
 next total waiting hpoll =>
  obtain ⟨hcounted, rfl⟩ := verdict_settled (some.inj hv)
  have hopen := h.polled hpoll
  rintro ⟨pid, ps⟩ hentry p hp
  have hunder : w.under pid = ps := by
   unfold under
   rw [get?_of_mem h.processKeys hentry]
   rfl
  dsimp only at hp
  have hpid := h.pids pid
  rw [hunder] at hpid
  cases ps with
  | nil => simp at hp
  | cons q rest =>
   rcases mem_cons.mp hp with rfl | hp
   · by_contra hs
     have hs : p.signalled = false := by simpa using hs
     have heach := h.each hcounted (show w.under pid ≠ [] by simp [hunder])
     rw [hunder, length_cons] at heach
     -- it was counted, so the pid is recorded, and nothing is open
     cases hrec : get? w.ledger.records pid with
     | none =>
      have htally : get? w.ledger.tallies pid = none := by
       by_contra hne
       have := hpid.tallied (Option.isSome_iff_ne_none.mpr hne)
       rw [hrec] at this
       simp at this
      rw [htally] at heach
      simp [Tally.zero, Tally.counted] at heach
     | some record =>
      have hclosed : record.isOpen = false := by
       by_contra ho
       have := (h.opens pid).mpr ⟨record, hrec, by simpa using ho⟩
       rw [hopen] at this
       simp at this
      have hstands := hpid.stands
      rw [hrec] at hstands
      have h1 := closed_lt hstands hclosed hs (h.not_released hunder hs)
      have h2 := hw pid p rest record hunder hs hrec hclosed
      unfold Tally.counted at heach
      split at heach <;> omega
   · exact hpid.past p hp
 · simp at hv

/-! ## An ended tree settles -/

/-- After a retry that learns what each pid names, none is unresolved. -/
theorem retry_resolves (hknown : ∀ pid, opening pid ≠ .unknown)
 (h : ∀ pid, get? l.records pid = some .unresolved → pid ∈ pids) (q : UInt32) :
 get? (pids.foldl (Ledger.retryPid fun pid => w.opened pid (opening pid)) l).records q
  ≠ some .unresolved := by
 induction pids generalizing l with
 | nil => exact fun hq => absurd (h q hq) (by simp)
 | cons pid rest ih =>
  rw [foldl_cons]
  refine ih fun r hr => ?_
  rw [retryPid_records] at hr
  split at hr
  next he =>
   subst he
   exfalso
   have hopened : w.opened pid (opening pid) ≠ .unknown := by
    cases ho : opening pid with
    | unknown => exact absurd ho (hknown pid)
    | truthful timed other =>
     simp only [opened]
     split
     · simp
     · split <;> simp
   have hnext := some.inj hr
   revert hnext hopened
   cases w.opened pid (opening pid) with
   | unknown => exact fun hne => absurd rfl hne
   | noSuchProcess | otherProcess =>
    rcases get? l.records pid with _ | record
    · simp [observed]
    · cases record <;> simp [observed]
   | member created handle =>
    rcases get? l.records pid with _ | record
    · simp [observed]
    · cases record with
      | ended c =>
       cases c with
       | none => simp [observed]
       | some old =>
        cases created with
        | none => simp [observed]
        | some new =>
         simp only [observed]
         split <;> simp
      | _ => simp [observed]
  next hne =>
   rcases mem_cons.mp (h r hr) with rfl | hmem
   · exact absurd rfl hne
   · exact hmem

theorem Sound.reached (h : Sound w) (hgood : w.ledger.contradiction = none) (hqueue : w.queue = [])
 (hlost : w.NoneLost) (hresolved : ∀ pid, get? w.ledger.records pid ≠ some .unresolved)
 (pid : UInt32) :
 ((get? w.ledger.tallies pid).getD .zero).counted = (w.under pid).length := by
 have hpid := h.pids pid
 have hle := hpid.counted_le
 obtain ⟨rank, hh⟩ := hpid.heard
 have hmail : w.mail pid = [] := by simp [mail, hqueue]
 rw [hmail] at hh
 have hall := hh.all hgood fun p hp => by
  unfold under at hp
  cases hget : get? w.processes pid with
  | none => simp [hget] at hp
  | some ps => exact hlost _ (mem_of_get? hget) p (by simpa [hget] using hp)
 rcases Nat.eq_zero_or_pos (w.under pid).length with h0 | hpos
 · omega
 have hmembers : 0 < ((get? w.ledger.tallies pid).getD .zero).members := by
  have hbound := hh.bound
  have hstands := hpid.stands
  cases hrec : get? w.ledger.records pid with
  | none =>
   have := (hh.fresh (by simp [hrec])).1
   omega
  | some record =>
   rw [hrec] at hstands
   cases record with
   | live created handle =>
    obtain ⟨-, -, -, -, -, -, h0, -⟩ := hstands
    exact h0
   | ended created =>
    obtain ⟨-, -, -, -, -, h0, -⟩ := hstands
    exact h0
   | vanished => exact hstands.1
   | unresolved => exact absurd hrec (hresolved pid)
 have : ((get? w.ledger.tallies pid).getD .zero).messages
  ≤ ((get? w.ledger.tallies pid).getD .zero).counted := by
  unfold Tally.counted
  split <;> omega
 omega

theorem Sound.nothing_waits (h : Sound w) (hended : w.Ended)
 (hresolved : ∀ pid, get? w.ledger.records pid ≠ some .unresolved) :
 (w.ledger.check (w.reading fun _ => true)).1 = some 0 := by
 have hseen : ∀ pid ∈ w.ledger.openPids, ∃ created,
  w.ledger.seen (w.reading fun _ => true) pid = .ended created := by
  intro pid hpid
  obtain ⟨record, hrec, hopen⟩ := (h.opens pid).mp hpid
  have hstands := (h.pids pid).stands
  rw [hrec] at hstands
  cases record with
  | ended created | vanished => simp [isOpen] at hopen
  | unresolved => exact absurd hrec (hresolved pid)
  | live created handle =>
   obtain ⟨p, rest, hps, -, hh, -⟩ := hstands
   have hs : p.signalled = true := by
    cases hget : get? w.processes pid with
    | none => simp [under, hget] at hps
    | some ps =>
     have hps' : ps = p :: rest := by simpa [under, hget] using hps
     exact hended _ (mem_of_get? hget) p (by simp [hps'])
   refine ⟨created, ?_⟩
   have hread : w.reading (fun _ => true) handle = some true := by
    simp [reading, signalled, hh, hps, hs]
   simp only [seen, hrec, hread]
 unfold check
 dsimp only
 rw [if_neg, some.injEq, length_eq_zero_iff, filter_eq_nil_iff]
 · intro entry hentry
   obtain ⟨pid, hpid, rfl⟩ := mem_map.mp hentry
   obtain ⟨created, hs⟩ := hseen pid hpid
   simp [hs]
 · rw [any_eq_true]
   rintro ⟨entry, hentry, hfailed⟩
   obtain ⟨pid, hpid, rfl⟩ := mem_map.mp hentry
   obtain ⟨created, hs⟩ := hseen pid hpid
   simp [hs] at hfailed

theorem step_check {total : Nat} (hpoll : w.poll = .before total) (hqueue : w.queue = [])
 (readable : Handle → Bool) :
 w.step (.check readable) = { w with
  ledger := (w.ledger.check (w.reading readable)).2
  poll := .checked total (w.ledger.check (w.reading readable)).1 } := by
 have hp : w.polling = false := by simp [polling, hpoll]
 simp only [step, hp, hpoll, hqueue, isEmpty_nil, Bool.false_eq_true, if_false, if_true]
 rfl

/-- The steps of a poll, up to its answer. -/
def settle (opening : UInt32 → Opening) : List JobInput :=
 [.retry opening, .total, .check fun _ => true]

/-- An ended tree of which every message was taken and none lost settles with the next poll
that learns what the unknown pids name. -/
theorem Sound.settles (h : Sound w) (hended : w.Ended) (hlost : w.NoneLost) (hqueue : w.queue = [])
 (hpoll : w.polling = false) (hzero : 0 ∉ keys w.processes)
 (hmany : w.processes.length ≤ maxRecords) (hknown : ∀ pid, opening pid ≠ .unknown) :
 (Run.final step w (settle opening)).verdict? 0 = some .settled := by
 have h1 : Sound (w.step (.retry opening)) := sound_step h _
 have hstep : w.step (.retry opening)
  = { w with ledger := w.ledger.retry fun pid => w.opened pid (opening pid) } := by
  simp [step, hpoll]
 rw [hstep] at h1
 have hresolved : ∀ pid, get?
  (w.ledger.retry fun pid => w.opened pid (opening pid)).records pid ≠ some .unresolved :=
  retry_resolves hknown fun pid hpid =>
   mem_unresolved.mpr ⟨(h.opens pid).mpr ⟨_, hpid, rfl⟩, hpid⟩
 have hgood : (w.ledger.retry fun pid => w.opened pid (opening pid)).contradiction = none := by
  rcases h1.clean with hc | h0 | hm
  · exact hc
  · exact absurd h0 hzero
  · exact absurd hm (by
     show ¬maxRecords < w.processes.length
     omega)
 have hcheck := h1.nothing_waits hended hresolved
 have hchecked := h1.checked hpoll fun _ => true
 -- a check changes records, and no count
 have hkept : ∀ (found : List (UInt32 × Ledger.Seen)) (l : Ledger Handle),
  (found.foldl finishSeen l).counted = l.counted
   ∧ (found.foldl finishSeen l).contradiction = l.contradiction := by
  intro found
  induction found with
  | nil => exact fun _ => ⟨rfl, rfl⟩
  | cons entry rest ih =>
   intro l
   rw [foldl_cons, (ih _).1, (ih _).2]
   unfold finishSeen
   split <;> exact ⟨rfl, rfl⟩
 have hcounted : (w.ledger.retry fun pid => w.opened pid (opening pid)).counted = w.associated := by
  rw [show w.associated = associated { w with
   ledger := w.ledger.retry fun pid => w.opened pid (opening pid) } from rfl, h1.sums.2]
  refine h1.sums.1.trans (Finset.sum_congr rfl fun pid _ => ?_)
  exact h1.reached hgood hqueue hlost hresolved pid
 have hempty : w.queue.isEmpty = true := by simp [hqueue]
 have hfinal : Run.final step w (settle opening) = { w with
  ledger := (check (w.ledger.retry fun pid => w.opened pid (opening pid))
   (w.reading fun _ => true)).2
  poll := .checked w.associated (some 0) } := by
  have htotal : step { w with ledger := w.ledger.retry fun pid => w.opened pid (opening pid) }
   .total = { w with
    ledger := w.ledger.retry fun pid => w.opened pid (opening pid)
    poll := .before w.associated } := by
   have hp : polling { w with ledger := w.ledger.retry fun pid => w.opened pid (opening pid) }
    = false := hpoll
   simp only [step, hp, hempty]
   rfl
  simp only [Run.final, settle, foldl_cons, foldl_nil]
  rw [hstep, htotal]
  have hbefore : poll { w with
   ledger := w.ledger.retry fun pid => w.opened pid (opening pid)
   poll := .before w.associated } = .before w.associated := rfl
  refine (step_check hbefore hqueue fun _ => true).trans ?_
  exact congrArg (fun waiting => { w with
   ledger := (check (w.ledger.retry fun pid => w.opened pid (opening pid))
    (w.reading fun _ => true)).2
   poll := .checked w.associated waiting }) hcheck
 rw [hfinal]
 obtain ⟨hc, hg⟩ := hkept ((w.ledger.retry fun pid => w.opened pid (opening pid)).openPids.map
  fun pid => (pid, (w.ledger.retry fun pid => w.opened pid (opening pid)).seen
   (w.reading fun _ => true) pid)) (w.ledger.retry fun pid => w.opened pid (opening pid))
 show some (verdict _ w.associated w.associated 0 (some 0)) = _
 have hc' : (check (w.ledger.retry fun pid => w.opened pid (opening pid))
  (w.reading fun _ => true)).2.counted = w.associated := hc.trans hcounted
 have hg' : (check (w.ledger.retry fun pid => w.opened pid (opening pid))
  (w.reading fun _ => true)).2.contradiction = none := hg.trans hgood
 simp [verdict, hc', hg']

/-- **A killed tree is called settled only when it is.** The count never passes the processes
associated. In every run that takes each message that follows an exit, of a pid whose last
process still runs, while opening the pid tells that process from the one recorded, a poll
answers settled only when every process ever associated is signalled. And once every process
has ended, and every message was queued and taken, a poll that learns what each pid names
answers settled, unless a pid is 0 or there are more pids than the account keeps. -/
theorem killed_tree_settles {w : JobWorld} (hw : Reachable w) : w.ledger.counted ≤ w.associated
 ∧ (ToldReachable w → ∀ active, w.verdict? active = some .settled → w.Ended)
 ∧ (w.Ended → w.NoneLost → w.queue = [] → w.polling = false →
  0 ∉ keys w.processes → w.processes.length ≤ maxRecords →
  ∀ opening : UInt32 → Opening, (∀ pid, opening pid ≠ .unknown) →
   (Run.final step w (settle opening)).verdict? 0 = some .settled) :=
 ⟨hw.sound.counted_le, fun ht _ hv => settled_ended ht.awaited.1 ht.awaited.2 hv,
  fun hended hlost hqueue hpoll hzero hmany _ hknown =>
   hw.sound.settles hended hlost hqueue hpoll hzero hmany hknown⟩

def oneProcess : List JobInput :=
 [.associate 4 1, .announce 4, .take (.truthful true false), .signal 4, .exit 4 false,
  .take .unknown]

theorem killed_tree_settled :
 (Run.final step new (oneProcess ++ settle fun _ => .truthful true false)).verdict? 0
  = some .settled
  ∧ (Run.final step new oneProcess).ledger.counted ≤ 1 := by
 have hreach : Reachable (Run.final step new oneProcess) :=
  Run.Reach.final_free (fun _ _ => trivial) (.init (by rfl)) _
 obtain ⟨hcounted, -, hsettles⟩ := killed_tree_settles hreach
 refine ⟨?_, hcounted⟩
 have hfinal := hsettles (by unfold Ended; decide) (by unfold NoneLost; decide) (by rfl)
  (by decide) (by decide) (by decide) (fun _ => .truthful true false) (fun _ => by simp)
 rw [Run.final, foldl_append]
 exact hfinal

/-- A second process takes the pid of one that ended; its message is taken while the pid
cannot be opened. -/
def reusedPid : List JobInput :=
 [.associate 4 1, .announce 4, .take (.truthful true false), .signal 4, .exit 4 false,
  .take .unknown, .check fun _ => true, .release 4, .associate 4 2, .announce 4, .take .unknown,
  .total, .check fun _ => true]

/-- **A tree is called settled while a process of it runs**: the second process is counted by
the message behind an exit, and its record says that the first has ended. -/
theorem settled_unended : (Run.final step new reusedPid).verdict? 0 = some .settled
  ∧ ¬(Run.final step new reusedPid).Ended := by
 unfold Ended
 decide

end JobWorld

end Bake.Process
