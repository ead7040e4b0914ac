import Bake.Tools.Decoder
import Bake.Tools.OutputAccumulator

/-!
# The full output

The bytes an accumulator keeps: in memory up to its limits, then in a file. A run is any
order of chunks, snapshots and finishes. `Retains` says where the bytes so far are, and that
what exceeds the limits is in a file; `Retains.call` that every call that succeeds
keeps it, also where the file is made in the middle of one, and `full_output` what follows
for whole runs.
-/

namespace Bake.Tools

open OutputAccumulator Or
open Except (bind_ok map)

namespace OutputAccumulator

/-- What `finish` does before it closes the file. -/
def finishSpill (acc : OutputAccumulator) (disk : Disk) : Except IoError OutputAccumulator := do
 let (decoder, rest) := acc.decoder.finish
 let acc ← appendDecoded { acc with decoder } rest
 acc.spill disk

/-- The bytes that the file holds as `finish` closes it. -/
def closing (acc : OutputAccumulator) (disk : Disk) : Option (List UInt8) :=
 if acc.state = .open then (acc.finishSpill disk).toOption.bind (·.file) else none

end OutputAccumulator

open OutputAccumulator

structure Retention where
 acc : OutputAccumulator
 /-- What the spill file holds, once there is one. -/
 spilled : Option (List UInt8)

/-- A call of an accumulator, and what the file system answers while it runs. -/
inductive Call
 | append (disk : Disk) (data : List UInt8)
 | finish (disk : Disk)
 | snapshot

def Call.data : Call → List UInt8
 | .append _ data => data
 | .finish _ => []
 | .snapshot => []

namespace Retention

def new (limits : TruncationOptions) : Retention :=
 { acc := OutputAccumulator.new limits, spilled := none }

def call (s : Retention) : Call → Retention × Except IoError (Option OutputSnapshot)
 | .append disk data =>
  let (acc, result) := s.acc.append disk data
  ({ acc, spilled := acc.file.or s.spilled }, result.map fun _ => none)
 | .finish disk =>
  let (acc, result) := s.acc.finish disk
  ({ acc, spilled := (s.acc.closing disk).or s.spilled }, result.map fun _ => none)
 | .snapshot => (s, s.acc.snapshot.map some)

/-- Calls one after the other, whatever becomes of each. -/
def calls (s : Retention) : List Call → Retention
 | [] => s
 | c :: cs => (s.call c).1.calls cs

/-- The bytes that are kept: in memory while there is no file, else in the file. -/
def retained (s : Retention) : List UInt8 :=
 match s.acc.path with
 | none => s.acc.raw
 | some _ => s.spilled.getD []

def Succeed (s : Retention) : List Call → Prop
 | [] => True
 | c :: cs => (∃ answer, (s.call c).2 = .ok answer) ∧ (s.call c).1.Succeed cs

/-- The bytes so far are in memory or in the file, and in a file once they exceed a limit. -/
structure Retains (s : Retention) (bytes : List UInt8) : Prop where
 memory : s.acc.path = none → s.acc.raw = bytes ∧ s.acc.file = none
 file : s.acc.path ≠ none → s.spilled = some bytes ∧ s.acc.raw = []
  ∧ (s.acc.state = .open → s.acc.file = some bytes)
 closed : s.acc.state ≠ .open → s.acc.file = none
 spills : s.acc.shouldSpill = true → s.acc.path ≠ none

theorem retains_new (limits : TruncationOptions) : (new limits).Retains [] where
 memory _ := ⟨rfl, rfl⟩
 file h := absurd rfl h
 closed _ := rfl
 spills h := by simp [new, OutputAccumulator.new, shouldSpill] at h

theorem Retains.retained {s : Retention} {bytes : List UInt8} (h : s.Retains bytes) :
 s.retained = bytes := by
 unfold Retention.retained
 split
 · exact (h.memory ‹_›).1
 next hpath =>
  rw [(h.file (by rw [hpath]; simp)).1]
  rfl

end Retention

/-! ## What the parts of a call keep -/

/-- What an accumulator holds beside its text. -/
def bytesPart (acc : OutputAccumulator) :
 List UInt8 × Option String × Option (List UInt8) × State :=
 (acc.raw, acc.path, acc.file, acc.state)

variable {acc acc' : OutputAccumulator} {bytes : List UInt8} {disk : Disk}

theorem appendDecoded_bytesPart {text : List Char} (h : acc.appendDecoded text = .ok acc') :
 bytesPart acc' = bytesPart acc := by
 unfold appendDecoded at h
 split at h
 · injection h with h
   rw [h]
 · obtain ⟨_, -, h⟩ := bind_ok h
   obtain ⟨⟨_, _⟩, -, h⟩ := bind_ok h
   obtain ⟨_, -, h⟩ := bind_ok h
   cases h
   unfold trim
   dsimp only
   split <;> rfl

/-- An accumulator in the middle of a call: the bytes before the call are in memory or in the
open file. -/
structure Holds (acc : OutputAccumulator) (bytes : List UInt8) : Prop where
 memory : acc.path = none → acc.raw = bytes ∧ acc.file = none
 file : acc.path ≠ none → acc.raw = [] ∧ acc.file = some bytes

theorem Holds.of_bytesPart (h : Holds acc bytes) (heq : bytesPart acc' = bytesPart acc) :
 Holds acc' bytes := by
 simp only [bytesPart, Prod.mk.injEq] at heq
 obtain ⟨hraw, hpath, hfile, -⟩ := heq
 exact ⟨by rw [hraw, hpath, hfile]; exact h.memory, by rw [hraw, hpath, hfile]; exact h.file⟩

theorem Holds.spill (h : Holds acc bytes) (hok : acc.spill disk = .ok acc') :
 Holds acc' bytes ∧ acc'.shouldSpill = acc.shouldSpill ∧ acc'.state = acc.state
  ∧ (acc.shouldSpill = true → acc'.path ≠ none) := by
 unfold OutputAccumulator.spill at hok
 split at hok
 · unfold ensureFile at hok
   split at hok
   next hpath =>
    cases hok
    exact ⟨h, rfl, rfl, fun _ => by rw [Option.isSome_iff_ne_none] at hpath; exact hpath⟩
   next hpath =>
    rw [Bool.not_eq_true, Option.isSome_eq_false_iff, Option.isNone_iff_eq_none] at hpath
    obtain ⟨path, -, hok⟩ := bind_ok hok
    obtain ⟨-, -, hok⟩ := bind_ok hok
    cases hok
    refine ⟨⟨by simp, fun _ => ⟨rfl, ?_⟩⟩, rfl, rfl, by simp⟩
    rw [(h.memory hpath).1]
 next hspill =>
  cases hok
  exact ⟨h, rfl, rfl, fun hspill' => absurd hspill' hspill⟩

theorem appendInner_holds {data : List UInt8} (h : Holds acc bytes)
 (hok : acc.appendInner disk data = .ok acc') :
 Holds acc' (bytes ++ data) ∧ acc'.state = acc.state
  ∧ (acc'.shouldSpill = true → acc'.path ≠ none) := by
 obtain ⟨total, -, hok⟩ := bind_ok hok
 obtain ⟨acc1, hacc1, hok⟩ := bind_ok hok
 obtain ⟨acc2, hacc2, hok⟩ := bind_ok hok
 have hpart := appendDecoded_bytesPart hacc1
 have hstate1 : acc1.state = acc.state := (Prod.mk.inj (Prod.mk.inj (Prod.mk.inj hpart).2).2).2
 obtain ⟨hholds, hshould, hstate, hspills⟩ := (h.of_bytesPart hpart).spill hacc2
 cases hfile : acc2.file with
 | none =>
  rw [hfile] at hok
  cases hok
  have hpath : acc2.path = none := by
   by_contra hpath
   rw [(hholds.file hpath).2] at hfile
   simp at hfile
  refine ⟨⟨fun _ => ⟨?_, rfl⟩, fun hne => absurd hpath hne⟩, by rw [← hstate1, ← hstate], ?_⟩
  · rw [(hholds.memory hpath).1]
  · intro hspill
    exact hspills (by rw [← hshould]; exact hspill)
 | some file =>
  rw [hfile] at hok
  obtain ⟨-, -, hok⟩ := bind_ok hok
  cases hok
  have hpath : acc2.path ≠ none := by
   intro hpath
   rw [(hholds.memory hpath).2] at hfile
   simp at hfile
  obtain ⟨hraw, hsome⟩ := hholds.file hpath
  rw [hfile] at hsome
  cases hsome
  exact ⟨⟨fun hnone => absurd hnone hpath, fun _ => ⟨hraw, rfl⟩⟩, by rw [← hstate1, ← hstate],
   fun _ => hpath⟩

theorem finishSpill_holds (h : Holds acc bytes) (hok : acc.finishSpill disk = .ok acc') :
 Holds acc' bytes ∧ (acc'.shouldSpill = true → acc'.path ≠ none) := by
 unfold finishSpill at hok
 dsimp only at hok
 obtain ⟨acc1, hacc1, hok⟩ := bind_ok hok
 have hpart := appendDecoded_bytesPart hacc1
 obtain ⟨hholds, hshould, -, hspills⟩ := (h.of_bytesPart hpart).spill hok
 exact ⟨hholds, fun hspill => hspills (by rw [← hshould]; exact hspill)⟩

/-- A finish that succeeds is its spill, and the file closed behind it. -/
theorem finishInner_ok (h : acc.finishInner disk = .ok acc') :
 ∃ acc1, acc.finishSpill disk = .ok acc1
  ∧ acc' = { acc1 with file := none, state := .finished } := by
 unfold finishInner at h
 dsimp only at h
 obtain ⟨acc1, hacc1, h⟩ := bind_ok h
 obtain ⟨acc2, hacc2, h⟩ := bind_ok h
 refine ⟨acc2, ?_, ?_⟩
 · unfold finishSpill
   dsimp only
   rw [Except.ok_bind _ hacc1, hacc2]
 · cases hfile : acc2.file with
   | none =>
    rw [hfile] at h
    injection h with h
    exact h.symm
   | some file =>
    rw [hfile] at h
    obtain ⟨-, -, h⟩ := bind_ok h
    injection h with h
    exact h.symm

/-! ## What every call keeps -/

namespace Retention

theorem Retains.holds {s : Retention} {bytes : List UInt8} (h : s.Retains bytes)
 (hopen : s.acc.state = .open) : Holds s.acc bytes where
 memory := h.memory
 file hpath := ⟨(h.file hpath).2.1, (h.file hpath).2.2 hopen⟩

variable {s : Retention} {bytes : List UInt8}

theorem call_append (hopen : s.acc.state = .open) (disk : Disk) (data : List UInt8) :
 s.call (.append disk data) = match s.acc.appendInner disk data with
  | .ok acc => ({ acc, spilled := acc.file.or s.spilled }, .ok none)
  | .error error =>
   ({ acc := { s.acc with state := .failed, file := none }, spilled := s.spilled },
    .error error) := by
 unfold Retention.call append
 simp only [hopen, ne_eq, not_true_eq_false, if_false]
 cases s.acc.appendInner disk data <;> rfl

theorem call_append_closed (hclosed : s.acc.state ≠ .open) (hfile : s.acc.file = none)
 (disk : Disk) (data : List UInt8) :
 ∃ error, s.call (.append disk data) = (s, .error error) := by
 unfold Retention.call append
 simp only [if_pos hclosed, hfile]
 exact ⟨_, rfl⟩

theorem call_finish (hopen : s.acc.state = .open) (disk : Disk) :
 (∃ acc, s.acc.finishSpill disk = .ok acc
  ∧ s.call (.finish disk) = ({ acc := { acc with file := none, state := .finished }
                               spilled := acc.file.or s.spilled }, .ok none))
 ∨ ∃ spilled error, s.call (.finish disk)
  = ({ acc := { s.acc with state := .failed, file := none }, spilled }, .error error) := by
 have hfinish : s.acc.finish disk = s.acc.recordFailure (s.acc.finishInner disk) := by
  unfold finish checkHealthy
  rw [if_neg (by rw [hopen]; decide)]
  dsimp only
  rw [if_neg (by rw [hopen]; decide)]
 unfold Retention.call
 dsimp only
 rw [hfinish]
 cases hinner : s.acc.finishInner disk with
 | error error => exact inr ⟨_, error, rfl⟩
 | ok acc =>
  obtain ⟨acc1, hspill, rfl⟩ := finishInner_ok hinner
  refine inl ⟨acc1, hspill, ?_⟩
  rw [closing, if_pos hopen, hspill]
  rfl

theorem call_finish_finished (hfinished : s.acc.state = .finished) (disk : Disk) :
 s.call (.finish disk) = (s, .ok none) := by
 unfold Retention.call finish checkHealthy closing
 simp [hfinished, map]

/-- **After a failure every call fails**, and changes nothing. -/
theorem call_failed (hfailed : s.acc.state = .failed) (c : Call) :
 (∃ error, (s.call c).2 = .error error) ∧ (s.call c).1.acc.state = .failed := by
 cases c with
 | append disk data =>
  unfold Retention.call append
  simp [hfailed, map]
 | finish disk =>
  unfold Retention.call finish checkHealthy
  simp [hfailed, map]
 | snapshot =>
  unfold Retention.call snapshot checkHealthy
  simp [hfailed, map, bind, Except.bind]

theorem finished_of {state : State} (hopen : state ≠ .open) (hhealthy : state ≠ .failed) :
 state = .finished := by
 cases state <;> simp_all

/-- **One call**: it succeeds and the bytes so far are kept, or it fails and every later call
does, or it is a chunk that a finished accumulator refuses. -/
theorem Retains.call (h : s.Retains bytes) (hhealthy : s.acc.state ≠ .failed) (c : Call) :
 ((∃ answer, (s.call c).2 = .ok answer) ∧ (s.call c).1.Retains (bytes ++ c.data)
  ∧ (s.call c).1.acc.state ≠ .failed)
 ∨ ((∃ error, (s.call c).2 = .error error)
  ∧ ((s.call c).1.acc.state = .failed ∨ s.acc.state = .finished ∧ (s.call c).1 = s)) := by
 cases c with
 | append disk data =>
  by_cases hopen : s.acc.state = .open
  · rw [call_append hopen]
    cases hinner : s.acc.appendInner disk data with
    | error error => exact inr ⟨⟨error, rfl⟩, inl rfl⟩
    | ok acc =>
     obtain ⟨hholds, hstate, hspills⟩ := appendInner_holds (h.holds hopen) hinner
     rw [hopen] at hstate
     refine inl ⟨⟨none, rfl⟩, ⟨hholds.memory, fun hpath => ?_, ?_, hspills⟩, ?_⟩
     · obtain ⟨hraw, hfile⟩ := hholds.file hpath
       exact ⟨by simp [hfile, Call.data], hraw, fun _ => hfile⟩
     · exact fun hne => absurd hstate hne
     · simp [hstate]
  · obtain ⟨error, herror⟩ := call_append_closed hopen (h.closed hopen) disk data
    rw [herror]
    exact inr ⟨⟨error, rfl⟩, inr ⟨finished_of hopen hhealthy, rfl⟩⟩
 | finish disk =>
  rw [Call.data, List.append_nil]
  by_cases hopen : s.acc.state = .open
  · rcases call_finish hopen disk with ⟨acc, hspill, hcall⟩ | ⟨spilled, error, hcall⟩
    · rw [hcall]
      obtain ⟨hholds, hspills⟩ := finishSpill_holds (h.holds hopen) hspill
      refine inl ⟨⟨none, rfl⟩, ⟨fun hpath => ?_, fun hpath => ?_, fun _ => rfl, hspills⟩, ?_⟩
      · exact ⟨(hholds.memory hpath).1, rfl⟩
      · obtain ⟨hraw, hfile⟩ := hholds.file hpath
        exact ⟨by simp [hfile], hraw, by simp⟩
      · simp
    · rw [hcall]
      exact inr ⟨⟨error, rfl⟩, inl rfl⟩
  · rw [call_finish_finished (finished_of hopen hhealthy)]
    exact inl ⟨⟨none, rfl⟩, h, hhealthy⟩
 | snapshot =>
  obtain ⟨snapshot, hsnapshot⟩ := snapshot_healthy hhealthy
  rw [Call.data, List.append_nil]
  refine inl ⟨⟨some snapshot, ?_⟩, h, hhealthy⟩
  simp only [Retention.call, hsnapshot]
  rfl

/-! ## Whole runs -/

def dataOf (cs : List Call) : List UInt8 := (cs.map Call.data).flatten

theorem calls_append (s : Retention) (a b : List Call) :
 s.calls (a ++ b) = (s.calls a).calls b := by
 induction a generalizing s with
 | nil => rfl
 | cons c a ih => exact ih _

theorem calls_failed (hfailed : s.acc.state = .failed) (cs : List Call) :
 (s.calls cs).acc.state = .failed := by
 induction cs generalizing s with
 | nil => exact hfailed
 | cons c cs ih => exact ih (call_failed hfailed c).2

/-- After any calls the accumulator has failed in one of them, or the bytes of those that
succeeded are kept. -/
theorem Retains.calls (h : s.Retains bytes) (hhealthy : s.acc.state ≠ .failed) (cs : List Call) :
 ((s.calls cs).acc.state = .failed ∧ ¬ s.Succeed cs)
  ∨ ((s.calls cs).acc.state ≠ .failed ∧ ∃ kept, (s.calls cs).Retains kept
   ∧ (s.Succeed cs → kept = bytes ++ dataOf cs)) := by
 induction cs generalizing s bytes with
 | nil => exact inr ⟨hhealthy, bytes, h, fun _ => by simp [dataOf]⟩
 | cons c cs ih =>
  rcases h.call hhealthy c with ⟨-, hretains, hhealthy'⟩ | ⟨⟨error, herror⟩, hafter⟩
  · rcases ih hretains hhealthy' with ⟨hfailed, hnot⟩ | ⟨hhealthy'', kept, hkept, hdata⟩
    · exact inl ⟨hfailed, fun hsucceed => hnot hsucceed.2⟩
    · refine inr ⟨hhealthy'', kept, hkept, fun hsucceed => ?_⟩
      rw [hdata hsucceed.2, List.append_assoc]
      rfl
  · have hnot : ¬ s.Succeed (c :: cs) := by
     rintro ⟨⟨answer, hanswer⟩, -⟩
     rw [herror] at hanswer
     simp at hanswer
    rcases hafter with hfailed | ⟨-, hsame⟩
    · exact inl ⟨calls_failed hfailed cs, hnot⟩
    · rw [Retention.calls, hsame]
      rcases ih h hhealthy with ⟨hfailed, -⟩ | ⟨hhealthy', kept, hkept, -⟩
      · exact inl ⟨hfailed, hnot⟩
      · exact inr ⟨hhealthy', kept, hkept, fun hsucceed => absurd hsucceed hnot⟩

theorem Retains.snapshot (h : s.Retains bytes) {snapshot : OutputSnapshot}
 (hsnapshot : s.acc.snapshot = .ok snapshot)
 (htruncated : snapshot.truncation.truncated = true) :
 (∃ path, snapshot.fullOutputPath = some path) ∧ s.spilled = some bytes := by
 obtain ⟨_, -, hok⟩ := bind_ok hsnapshot
 cases hok
 have hpath : s.acc.path ≠ none := by
  refine h.spills ?_
  simp only [truncation, Bool.or_eq_true, decide_eq_true_eq] at htruncated
  simp only [shouldSpill, Bool.or_eq_true, decide_eq_true_eq]
  omega
 exact ⟨Option.ne_none_iff_exists'.mp hpath, (h.file hpath).1⟩

/-- **The full output is never lost.** In any order of chunks, snapshots and finishes that
all succeed, what is kept, in memory or in the file, is the chunks' bytes one after the
other. Whenever a snapshot reports cut output it names a file, and the file holds what is
kept. A call that fails on an accumulator that has not finished is the last one to succeed:
every later chunk, snapshot and finish fails. -/
theorem full_output (limits : TruncationOptions) (cs : List Call) :
 ((new limits).Succeed cs → ((new limits).calls cs).retained = dataOf cs)
  ∧ (∀ snapshot, ((new limits).calls cs).acc.snapshot = .ok snapshot →
   snapshot.truncation.truncated = true →
   (∃ path, snapshot.fullOutputPath = some path)
    ∧ ((new limits).calls cs).spilled = some ((new limits).calls cs).retained)
  ∧ ∀ c error, (((new limits).calls cs).call c).2 = .error error →
   ((new limits).calls cs).acc.state ≠ .finished →
   ∀ more later, ∃ error', (((new limits).calls (cs ++ c :: more)).call later).2
    = .error error' := by
 have hruns := (retains_new limits).calls (by simp [new, OutputAccumulator.new]) cs
 refine ⟨fun hsucceed => ?_, fun snapshot hsnapshot htruncated => ?_,
  fun c error herror hfinished more later => ?_⟩
 · rcases hruns with ⟨-, hnot⟩ | ⟨-, kept, hkept, hdata⟩
   · exact absurd hsucceed hnot
   · rw [hkept.retained, hdata hsucceed, List.nil_append]
 · rcases hruns with ⟨hfailed, -⟩ | ⟨-, kept, hkept, -⟩
   · exact absurd hfailed (snapshot_ok hsnapshot).1
   · obtain ⟨hpath, hspilled⟩ := hkept.snapshot hsnapshot htruncated
     exact ⟨hpath, by rw [hspilled, hkept.retained]⟩
 · have hfailed : (((new limits).calls cs).call c).1.acc.state = .failed := by
    rcases hruns with ⟨hfailed, -⟩ | ⟨hhealthy, kept, hkept, -⟩
    · exact (call_failed hfailed c).2
    · rcases hkept.call hhealthy c with ⟨⟨answer, hanswer⟩, -⟩ | ⟨-, hafter⟩
      · rw [herror] at hanswer
        simp at hanswer
      · exact hafter.resolve_right fun h => hfinished h.1
   rw [calls_append]
   exact (call_failed (calls_failed hfailed more) later).1

end Retention

end Bake.Tools
