import Bake.Agent.ToolCall

/-!
# The record of nested calls

The calls a tool makes while it runs are recorded on the result of the model-issued call
they are below: id, name, arguments and how each ended, within limits. Arguments over a
limit are left out, calls beyond the count are dropped, and the record is then not
complete; nor is it while a call it lists has not finished.

A recorder also keeps, for its statements only, every call it was started for, in order.
-/

open List

namespace Bake.Agent

open Bake.Json Bake.Ai

structure NestedCallLimits where
 maxCalls : Nat
 maxArgumentBytesPerCall : Nat
 maxArgumentBytesTotal : Nat
 maxErrorChars : Nat

def nestedCallLimits : NestedCallLimits where
 maxCalls := 256
 maxArgumentBytesPerCall := 8 * 1024
 maxArgumentBytesTotal := 32 * 1024
 maxErrorChars := 500

/-- The `status` of a recorded call. -/
inductive NestedCallStatus where
 | unfinished | ok | error
 deriving DecidableEq, Repr

structure NestedToolCallRecord where
 id : String
 name : String
 arguments : Option JsonObject
 argumentsBytes : Option Nat
 status : NestedCallStatus
 error : Option String

def NestedToolCallRecord.unfinished (id name : String) (arguments : Option JsonObject)
 (argumentsBytes : Option Nat) : NestedToolCallRecord :=
 { id, name, arguments, argumentsBytes, status := .unfinished, error := none }

/-- `NestedToolCalls`: what a result carries. -/
structure NestedToolCalls where
 calls : List NestedToolCallRecord
 complete : Bool

/-- `NestedCallRecorder`, and the calls it was started for. -/
structure NestedCallRecorder where
 calls : List NestedToolCallRecord
 complete : Bool
 argumentBytes : Nat
 started : List Nat

namespace NestedCallRecorder

def new : NestedCallRecorder := { calls := [], complete := true, argumentBytes := 0, started := [] }

/-- `NestedCallRecorder::start`, for one call: its index, unless it is dropped. -/
def start (jsonBytes : Value → Nat) (recorder : NestedCallRecorder) (call : Nat)
 (id name : String) (arguments : Value) : Option Nat × NestedCallRecorder :=
 let started := recorder.started ++ [call]
 if nestedCallLimits.maxCalls ≤ recorder.calls.length then
  (none, { recorder with complete := false, started })
 else
  let bytes := jsonBytes arguments
  let kept : Option JsonObject :=
   match arguments with
   | .object object =>
    if bytes ≤ nestedCallLimits.maxArgumentBytesPerCall
     ∧ recorder.argumentBytes + bytes ≤ nestedCallLimits.maxArgumentBytesTotal then
     some object
    else none
   | _ => none
  let recorder : NestedCallRecorder :=
   match kept with
   | some object =>
    { recorder with
      calls := recorder.calls ++ [.unfinished id name (some object) none]
      argumentBytes := recorder.argumentBytes + bytes
      started }
   | none =>
    { recorder with
      calls := recorder.calls ++ [.unfinished id name none (some bytes)]
      complete := false
      started }
  (some (recorder.calls.length - 1), recorder)

def finished (record : NestedToolCallRecord) (isError : Bool) (errorText : String) :
 NestedToolCallRecord :=
 { record with
   status := if isError then .error else .ok
   error := if isError && !errorText.isEmpty then
    some (String.ofList (errorText.toList.take nestedCallLimits.maxErrorChars))
    else record.error }

def finish (recorder : NestedCallRecorder) (index : Option Nat) (isError : Bool)
 (errorText : String) : NestedCallRecorder :=
 match index with
 | none => recorder
 | some index =>
  { recorder with
    calls := recorder.calls.modify index fun record => finished record isError errorText }

def snapshot (recorder : NestedCallRecorder) : Option NestedToolCalls :=
 if recorder.calls.isEmpty && recorder.complete then none
 else
  some
   { calls := recorder.calls
     complete := recorder.complete && recorder.calls.all (·.status != .unfinished) }

/-! ## What a recorder holds -/

def recordBytes (jsonBytes : Value → Nat) (record : NestedToolCallRecord) : Nat :=
 (record.arguments.map fun object => jsonBytes (.object object)).getD 0

/-- A recorder lists the first calls it was started for, up to the limit, with arguments
within theirs, and counts itself complete while nothing was left out. -/
structure Kept (jsonBytes : Value → Nat) (recorder : NestedCallRecorder) : Prop where
 first : recorder.calls.length = min nestedCallLimits.maxCalls recorder.started.length
 bytes : recorder.argumentBytes = (recorder.calls.map (recordBytes jsonBytes)).sum
 total : recorder.argumentBytes ≤ nestedCallLimits.maxArgumentBytesTotal
 perCall : ∀ record ∈ recorder.calls,
  recordBytes jsonBytes record ≤ nestedCallLimits.maxArgumentBytesPerCall
 complete : recorder.complete = true ↔ recorder.calls.length = recorder.started.length
  ∧ ∀ record ∈ recorder.calls, record.arguments.isSome

variable {jsonBytes : Value → Nat} {recorder : NestedCallRecorder}

theorem kept_new : Kept jsonBytes new where
 first := rfl
 bytes := rfl
 total := Nat.zero_le _
 perCall := fun _ h => absurd h (by simp [new])
 complete := ⟨fun _ => ⟨rfl, fun _ h => absurd h (by simp [new])⟩, fun _ => rfl⟩

/-- What a start does: nothing is listed beyond the limit, else one unfinished record. -/
theorem start_cases (jsonBytes : Value → Nat) (recorder : NestedCallRecorder) (call : Nat)
 (id name : String) (arguments : Value) :
 (nestedCallLimits.maxCalls ≤ recorder.calls.length
  ∧ recorder.start jsonBytes call id name arguments
   = (none, { recorder with complete := false, started := recorder.started ++ [call] }))
 ∨ (recorder.calls.length < nestedCallLimits.maxCalls ∧ ∃ record : NestedToolCallRecord,
  record.id = id ∧ record.name = name ∧ record.status = .unfinished
  ∧ recordBytes jsonBytes record ≤ nestedCallLimits.maxArgumentBytesPerCall
  ∧ recorder.argumentBytes + recordBytes jsonBytes record
   ≤ max recorder.argumentBytes nestedCallLimits.maxArgumentBytesTotal
  ∧ recorder.start jsonBytes call id name arguments = (some recorder.calls.length,
    { calls := recorder.calls ++ [record]
      complete := recorder.complete && record.arguments.isSome
      argumentBytes := recorder.argumentBytes + recordBytes jsonBytes record
      started := recorder.started ++ [call] })) := by
 by_cases hfull : nestedCallLimits.maxCalls ≤ recorder.calls.length
 · exact .inl ⟨hfull, by simp only [start, if_pos hfull]⟩
 refine .inr ⟨by omega, ?_⟩
 simp only [start, if_neg hfull]
 split
 · -- the arguments are kept
   rename_i object hkept
   split at hkept
   · split at hkept
     next object' hfit =>
      obtain rfl : object' = object := Option.some.inj hkept
      refine ⟨.unfinished id name (some object') none, rfl, rfl, rfl, hfit.1,
       Nat.le_trans hfit.2 (Nat.le_max_right _ _), ?_⟩
      simp only [length_append, length_singleton, Nat.add_sub_cancel]
      simp [recordBytes, NestedToolCallRecord.unfinished]
     · simp at hkept
   · simp at hkept
 · -- they are left out
   refine ⟨.unfinished id name none (some (jsonBytes arguments)), rfl, rfl, rfl, Nat.zero_le _,
    Nat.le_max_left _ _, ?_⟩
   simp only [length_append, length_singleton, Nat.add_sub_cancel]
   simp [recordBytes, NestedToolCallRecord.unfinished]

/-- **A start keeps the limits.** -/
theorem Kept.start (h : Kept jsonBytes recorder) (call : Nat) (id name : String)
 (arguments : Value) :
 Kept jsonBytes (recorder.start jsonBytes call id name arguments).2 := by
 have hfirst := h.first
 rcases start_cases jsonBytes recorder call id name arguments with
  ⟨hfull, heq⟩ | ⟨hroom, record, -, -, -, hper, htotal, heq⟩ <;> rw [heq]
 · refine ⟨?_, h.bytes, h.total, h.perCall, ?_⟩
   · simp only [length_append, length_singleton]
     omega
   · simp only [length_append, length_singleton, Bool.false_eq_true, false_iff]
     omega
 refine ⟨?_, ?_, ?_, ?_, ?_⟩
 · simp only [length_append, length_singleton]
   omega
 · simp [h.bytes]
 · have := h.total
   simp only
   omega
 · intro other hother
   rcases mem_append.mp hother with hother | hother
   · exact h.perCall other hother
   · rw [mem_singleton.mp hother]
     exact hper
 · simp only [Bool.and_eq_true, h.complete, length_append, length_singleton,
    mem_append, mem_singleton]
   constructor
   · rintro ⟨⟨hlen, hall⟩, hrecord⟩
     refine ⟨by omega, fun other hother => ?_⟩
     rcases hother with hother | rfl
     · exact hall other hother
     · exact hrecord
   · rintro ⟨hlen, hall⟩
     exact ⟨⟨by omega, fun other hother => hall other (.inl hother)⟩, hall record (.inr rfl)⟩

variable (recorder) in
theorem finish_eq (index : Option Nat) (isError : Bool) (errorText : String) :
 recorder.finish index isError errorText = { recorder with
  calls := match index with
   | none => recorder.calls
   | some index =>
    recorder.calls.modify index fun record => finished record isError errorText } := by
 cases index <;> rfl

variable (recorder) in
theorem arguments_finish (index : Option Nat) (isError : Bool) (errorText : String) :
 (recorder.finish index isError errorText).calls.map (·.arguments)
  = recorder.calls.map (·.arguments) := by
 cases index with
 | none => rfl
 | some index =>
  refine ext_getElem? fun i => ?_
  simp only [finish, getElem?_map, getElem?_modify]
  by_cases hi : index = i <;> cases recorder.calls[i]? <;> simp [hi, finished]

/-- **A finish keeps the limits.** -/
theorem Kept.finish (h : Kept jsonBytes recorder) (index : Option Nat) (isError : Bool)
 (errorText : String) : Kept jsonBytes (recorder.finish index isError errorText) := by
 have hrest := finish_eq recorder index isError errorText
 have hargs := arguments_finish recorder index isError errorText
 have hlen : (recorder.finish index isError errorText).calls.length = recorder.calls.length := by
  simpa using congrArg List.length hargs
 have hall : ∀ Q : Option JsonObject → Prop,
  (∀ record ∈ (recorder.finish index isError errorText).calls, Q record.arguments)
   ↔ ∀ record ∈ recorder.calls, Q record.arguments := by
  intro Q
  have hmap : ∀ calls : List NestedToolCallRecord,
   (∀ record ∈ calls, Q record.arguments) ↔ ∀ a ∈ calls.map (·.arguments), Q a :=
   fun calls => by simp
  rw [hmap, hmap, hargs]
 have hstarted : (recorder.finish index isError errorText).started = recorder.started := by
  rw [hrest]
 have hbytes : (recorder.finish index isError errorText).argumentBytes
  = recorder.argumentBytes := by
  rw [hrest]
 have hcomplete : (recorder.finish index isError errorText).complete = recorder.complete := by
  rw [hrest]
 refine ⟨?_, ?_, ?_, ?_, ?_⟩
 · rw [hlen, hstarted, h.first]
 · rw [hbytes, h.bytes]
   have hmap : ∀ calls : List NestedToolCallRecord, calls.map (recordBytes jsonBytes)
    = (calls.map (·.arguments)).map fun kept =>
     (kept.map fun object => jsonBytes (.object object)).getD 0 := fun calls => by
    rw [map_map]
    rfl
   rw [hmap, hmap, hargs]
 · rw [hbytes]
   exact h.total
 · exact (hall fun kept => (kept.map fun object => jsonBytes (.object object)).getD 0
    ≤ nestedCallLimits.maxArgumentBytesPerCall).mpr h.perCall
 · rw [hcomplete, h.complete, hlen, hstarted, hall (fun kept => kept.isSome = true)]

end NestedCallRecorder

end Bake.Agent
