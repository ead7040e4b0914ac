import Bake.Ai.ToolState

/-!
# The tools of the request's own list, and those in place

`resolve_transcript_tools` for a transport that takes additions in place. A system message
stays in place where it removes nothing and declares only new names; the request's own list
holds what the messages before come to. How many those are is the least count with that
property, and a transcript that goes on with additions keeps it.
-/

open List

namespace Bake.Ai

def SystemMessage.declares (message : SystemMessage) : List String :=
 (message.toolsAdded.getD []).map Tool.name

def Additive (earlier : List SystemMessage) (message : SystemMessage) : Prop :=
 message.toolsRemoved.getD [] = [] ∧ message.declares.Nodup
  ∧ ∀ name ∈ message.declares, ∀ other ∈ earlier, name ∉ other.declares

/-- Every message behind the first `folded` ones only adds to those before it. -/
def InPlace (systems : List SystemMessage) (folded : Nat) : Prop :=
 ∀ i message, systems[i]? = some message → folded ≤ i → Additive (systems.take i) message

variable {systems more : List SystemMessage} {message : SystemMessage} {f g : Nat}

theorem InPlace.mono (h : InPlace systems f) (hle : f ≤ g) : InPlace systems g :=
 fun i message hi hg => h i message hi (Nat.le_trans hle hg)

theorem inPlace_length (systems : List SystemMessage) : InPlace systems systems.length :=
 fun i message hi hle => absurd (List.getElem_of_getElem? hi).1 (by omega)

/-- A transcript is in place where its front is, and what follows it. -/
theorem inPlace_append : InPlace (systems ++ more) f ↔ InPlace systems f
 ∧ ∀ i message, more[i]? = some message → f ≤ systems.length + i →
  Additive (systems ++ more.take i) message := by
 constructor
 · intro h
   refine ⟨fun i message hi hf => ?_, fun i message hi hf => ?_⟩
   · have hlt := (List.getElem_of_getElem? hi).1
     have := h i message (by rw [getElem?_append_left hlt, hi]) hf
     rwa [take_append_of_le_length (Nat.le_of_lt hlt)] at this
   · have := h (systems.length + i) message
      (by rw [getElem?_append_right (Nat.le_add_right ..), Nat.add_sub_cancel_left, hi]) hf
     rwa [take_length_add_append] at this
 · rintro ⟨hfront, hmore⟩ i message hi hf
   by_cases hlt : i < systems.length
   · rw [getElem?_append_left hlt] at hi
     rw [take_append_of_le_length (Nat.le_of_lt hlt)]
     exact hfront i message hi hf
   · obtain ⟨k, rfl⟩ := Nat.exists_eq_add_of_le (Nat.le_of_not_lt hlt)
     rw [getElem?_append_right (Nat.le_add_right ..), Nat.add_sub_cancel_left] at hi
     rw [take_length_add_append]
     exact hmore k message hi hf

theorem inPlace_snoc : InPlace (systems ++ [message]) f
 ↔ InPlace systems f ∧ (f ≤ systems.length → Additive systems message) := by
 rw [inPlace_append]
 refine and_congr_right fun _ => ⟨fun h hf => ?_, fun h i m hi hf => ?_⟩
 · simpa using h 0 message rfl hf
 · cases i with
   | zero =>
    cases hi
    simpa using h hf
   | succ i => simp at hi

/-! ## The walk -/

/-- One message's declarations: each name is declared behind them, and the count moves
behind the message at a name that is not new. -/
theorem foldTools_spec (tools : List Tool) (declared : List String) (folded index : Nat) :
 let walked := tools.foldl (fun (declared, folded) tool =>
   if tool.name ∈ declared then (declared, max folded (index + 1))
   else (tool.name :: declared, folded)) (declared, folded)
 let names := tools.map Tool.name
 (∀ name, name ∈ walked.1 ↔ name ∈ declared ∨ name ∈ names)
 ∧ (names.Nodup ∧ (∀ name ∈ names, name ∉ declared) → walked.2 = folded)
 ∧ (¬ (names.Nodup ∧ ∀ name ∈ names, name ∉ declared) → walked.2 = max folded (index + 1)) := by
 induction tools generalizing declared folded with
 | nil => simp
 | cons tool rest ih =>
  simp only [foldl_cons, map_cons]
  split
  next hmem =>
   obtain ⟨hnames, hnew, hold⟩ := ih declared (max folded (index + 1))
   refine ⟨fun name => ?_, fun h => absurd hmem (h.2 _ mem_cons_self), fun _ => ?_⟩
   · rw [hnames, mem_cons]
     constructor
     · rintro (h | h)
       · exact .inl h
       · exact .inr (.inr h)
     · rintro (h | rfl | h)
       · exact .inl h
       · exact .inl hmem
       · exact .inr h
   · by_cases h : (rest.map Tool.name).Nodup ∧ ∀ name ∈ rest.map Tool.name, name ∉ declared
     · exact hnew h
     · rw [hold h]
       omega
  next hmem =>
   obtain ⟨hnames, hnew, hold⟩ := ih (tool.name :: declared) folded
   have hiff : (tool.name :: rest.map Tool.name).Nodup
     ∧ (∀ name ∈ tool.name :: rest.map Tool.name, name ∉ declared)
    ↔ (rest.map Tool.name).Nodup ∧ ∀ name ∈ rest.map Tool.name, name ∉ tool.name :: declared := by
    simp only [nodup_cons, mem_cons, not_or]
    constructor
    · rintro ⟨⟨hnot, hnodup⟩, hall⟩
      exact ⟨hnodup, fun name hname => ⟨fun he => hnot (he ▸ hname), hall name (.inr hname)⟩⟩
    · rintro ⟨hnodup, hall⟩
      refine ⟨⟨fun h => (hall _ h).1 rfl, hnodup⟩, ?_⟩
      rintro name (rfl | hname)
      · exact hmem
      · exact (hall name hname).2
   refine ⟨fun name => ?_, fun h => hnew (hiff.mp h), fun h => hold fun h' => h (hiff.mpr h')⟩
   rw [hnames, mem_cons, mem_cons, or_assoc, or_left_comm]

/-- The walk over the system messages: the names declared, and the count. -/
def foldSystems (systems : List SystemMessage) (start : Nat) : List String × Nat :=
 systems.zipIdx.foldl
  (fun (declared, folded) (message, index) => foldSystem declared folded index message) ([], start)

/-- **What the walk counts** is the least number, from `start` on, behind which every
message is in place. The induction is on the last message. -/
theorem foldSystems_spec (systems : List SystemMessage) (start : Nat) :
 (∀ name, name ∈ (foldSystems systems start).1 ↔ ∃ m ∈ systems, name ∈ m.declares)
 ∧ start ≤ (foldSystems systems start).2 ∧ InPlace systems (foldSystems systems start).2
 ∧ ∀ g, start ≤ g → InPlace systems g → (foldSystems systems start).2 ≤ g := by
 induction systems using reverseRecOn with
 | nil => simp [foldSystems, InPlace]
 | append_singleton systems message ih =>
  obtain ⟨hnames, hstart, hplace, hleast⟩ := ih
  have hstep : foldSystems (systems ++ [message]) start
   = foldSystem (foldSystems systems start).1 (foldSystems systems start).2 systems.length
    message := by
   rw [foldSystems, zipIdx_append, foldl_append]
   simp [foldSystems]
  rw [hstep]
  generalize foldSystems systems start = before at *
  have hspec := foldTools_spec (message.toolsAdded.getD []) before.1
   (if (message.toolsRemoved.getD []).isEmpty then before.2 else max before.2 (systems.length + 1))
   systems.length
  rw [← foldSystem] at hspec
  generalize foldSystem before.1 before.2 systems.length message = behind at hspec
  obtain ⟨hdeclared, hnew, hold⟩ := hspec
  have hbehind : (Additive systems message → behind.2 = before.2)
   ∧ (¬ Additive systems message → behind.2 = max before.2 (systems.length + 1)) := by
   have hfresh : (message.declares.Nodup ∧ ∀ name ∈ message.declares, name ∉ before.1)
    ↔ message.declares.Nodup
     ∧ ∀ name ∈ message.declares, ∀ other ∈ systems, name ∉ other.declares := by
    simp only [hnames, not_exists, not_and]
   refine ⟨fun h => ?_, fun h => ?_⟩
   · rw [hnew (hfresh.mpr h.2), h.1]
     rfl
   · by_cases hf : message.declares.Nodup ∧ ∀ name ∈ message.declares, name ∉ before.1
     · rw [hnew hf, if_neg fun he => h ⟨isEmpty_iff.mp he, hfresh.mp hf⟩]
     · rw [hold hf]
       split <;> omega
  refine ⟨fun name => ?_, ?_⟩
  · rw [hdeclared, hnames]
    simp [or_and_right, exists_or, SystemMessage.declares]
  by_cases ha : Additive systems message
  · rw [hbehind.1 ha]
    exact ⟨hstart, inPlace_snoc.mpr ⟨hplace, fun _ => ha⟩,
     fun g hg h => hleast g hg (inPlace_snoc.mp h).1⟩
  · rw [hbehind.2 ha]
    refine ⟨by omega, inPlace_snoc.mpr ⟨hplace.mono (by omega), fun h => by omega⟩, fun g hg h => ?_⟩
    obtain ⟨hfront, hlast⟩ := inPlace_snoc.mp h
    have := hleast g hg hfront
    by_cases hle : g ≤ systems.length
    · exact absurd (hlast hle) ha
    · omega

/-! ## The request -/

def leading (messages : List Message) : Nat := if startsWithSystem messages then 1 else 0

variable (messages : List Message)

theorem resolveTranscriptTools_additions :
 resolveTranscriptTools messages .additions = (currentTools ((systemMessages messages).take
    (foldSystems (systemMessages messages) (leading messages)).2),
   (foldSystems (systemMessages messages) (leading messages)).2) := rfl

theorem leading_le : leading messages ≤ (systemMessages messages).length := by
 unfold leading startsWithSystem
 split
 next h =>
  cases messages with
  | nil => simp at h
  | cons first rest =>
   cases first with
   | system system => simp [systemMessages, Message.system?]
   | _ => simp [Message.isSystem] at h
 · exact Nat.zero_le _

/-- **Splitting the tool declarations loses nothing.** What the request's own list holds,
with the changes of the system messages that are not folded into it, comes to the current
tools. Those messages only add names that are new, the count is the least one of which this
holds, and a transcript that goes on with such messages keeps the count and the list. -/
theorem tools_split (messages : List Message) :
 let systems := systemMessages messages
 let (request, folded) := resolveTranscriptTools messages .additions
 (systems.drop folded).foldl changeTools request = getCurrentTools messages
 ∧ InPlace systems folded ∧ leading messages ≤ folded
 ∧ (∀ count, leading messages ≤ count → InPlace systems count → folded ≤ count)
 ∧ ∀ added : List Message, (messages = [] → startsWithSystem added = false) →
  (∀ i message, (systemMessages added)[i]? = some message →
   Additive (systems ++ (systemMessages added).take i) message) →
  resolveTranscriptTools (messages ++ added) .additions = (request, folded) := by
 rw [resolveTranscriptTools_additions]
 dsimp only
 obtain ⟨-, hlead, hplace, hleast⟩ := foldSystems_spec (systemMessages messages) (leading messages)
 have hle := hleast _ (leading_le messages) (inPlace_length _)
 generalize (foldSystems (systemMessages messages) (leading messages)).2 = folded at *
 refine ⟨?_, hplace, hlead, hleast, fun added hempty hadded => ?_⟩
 · rw [← currentTools_append, take_append_drop]
   rfl
 have hsame : leading (messages ++ added) = leading messages := by
  unfold leading startsWithSystem
  cases messages with
  | nil => simpa [startsWithSystem] using hempty rfl
  | cons first rest => rfl
 have hsystems : systemMessages (messages ++ added)
  = systemMessages messages ++ systemMessages added := filterMap_append
 rw [resolveTranscriptTools_additions, hsame, hsystems]
 obtain ⟨-, hlead', hplace', hleast'⟩ :=
  foldSystems_spec (systemMessages messages ++ systemMessages added) (leading messages)
 generalize (foldSystems (systemMessages messages ++ systemMessages added) (leading messages)).2
  = folded' at *
 obtain rfl : folded' = folded := Nat.le_antisymm
  (hleast' _ hlead (inPlace_append.mpr ⟨hplace, fun i m hi _ => hadded i m hi⟩))
  (hleast _ hlead' (inPlace_append.mp hplace').1)
 rw [take_append_of_le_length hle]

/-- Behind no message at all, a system message is the leading one, and is folded. -/
theorem tools_split_leading : ¬ ∀ messages added : List Message,
  (∀ i message, (systemMessages added)[i]? = some message →
   Additive (systemMessages messages ++ (systemMessages added).take i) message) →
  (resolveTranscriptTools (messages ++ added) .additions).2
   = (resolveTranscriptTools messages .additions).2 := by
 intro h
 let prompt : SystemMessage :=
  { content := .text "", sections := none, toolsAdded := none, toolsRemoved := none,
    timestamp := 0 }
 have hpart := h [] [.system prompt] fun i message hi => by
  cases i with
  | zero =>
   cases hi
   exact ⟨rfl, nodup_nil, by simp [SystemMessage.declares, prompt]⟩
  | succ i => simp [systemMessages, Message.system?] at hi
 exact absurd hpart (by decide)

end Bake.Ai
