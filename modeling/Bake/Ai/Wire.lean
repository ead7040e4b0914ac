import Bake.Ai.Runs
import Bake.Ai.Stream

/-!
# What a request says

A request's messages are JSON objects, of a different shape for each protocol. `Wire` is
what every protocol's reading of one of them gives: its role, the tool calls it makes,
the calls it answers, and its texts and images. The readings are what the claims about a
request are about; the converters write objects only.
-/

namespace Bake.Ai

open Bake.Json

/-- A text or an image of a message; an image as its protocol writes it. -/
inductive Part where
 | text (text : String)
 | image (image : Value)

def Part.shown : Part → Bool
 | .text shown => !isBlank shown
 | .image _ => true

/-- What a message of a request says. -/
structure Wire where
 role : Option String
 /-- The ids of the tool calls it makes. -/
 calls : List String
 /-- The ids of the calls it answers. -/
 answers : List String
 parts : List Part

/-! ## What is to be said -/

def UserContentBlock.part (image : ImageContent → Value) : UserContentBlock → Part
 | .text block => .text block.text
 | .image block => .image (image block)

theorem UserContentBlock.shown_part (image : ImageContent → Value) (block : UserContentBlock) :
 (block.part image).shown = !block.isBlankText := by
 cases block <;> rfl

def UserContent.parts (image : ImageContent → Value) : UserContent → List Part
 | .text content => [.text content]
 | .blocks content => content.map (UserContentBlock.part image)

def shownParts (image : ImageContent → Value) (users : List UserMessage) : List Part :=
 (users.flatMap fun user => user.content.parts image).filter Part.shown

/-- The texts system messages add to a conversation, in order, without empty ones. -/
def updateTexts (systems : List SystemMessage) : List String :=
 (systems.map renderSystemMessageUpdate).filter (· ≠ "")

/-- The texts of the system messages of a request that opens with its prompt, in order,
without empty ones. -/
def promptTexts (messages : List Message) : List String :=
 match messages with
 | .system system :: rest =>
  (getSystemMessageText system :: (systemMessages rest).map renderSystemMessageUpdate).filter
   (· ≠ "")
 | _ => updateTexts (systemMessages messages)

/-! ## A reading of a list -/

def saidBy (role : String) (wire : List Wire) : List Part :=
 (wire.filter fun m => m.role = some role).flatMap Wire.parts

@[simp] theorem saidBy_nil (role : String) : saidBy role [] = [] := rfl

@[simp] theorem saidBy_append (role : String) (a b : List Wire) :
 saidBy role (a ++ b) = saidBy role a ++ saidBy role b := by
 simp [saidBy]

theorem saidBy_cons (role : String) (m : Wire) (wire : List Wire) :
 saidBy role (m :: wire) = (if m.role = some role then m.parts else []) ++ saidBy role wire := by
 unfold saidBy
 by_cases h : m.role = some role <;> simp [h]

/-- Each message with calls is followed at once by a user message that answers them. -/
def AnsweredNext (wire : List Wire) : Prop :=
 ∀ before m after, wire = before ++ m :: after → m.calls ≠ [] →
  ∃ answer rest, after = answer :: rest ∧ answer.role = some "user"
   ∧ ∀ id ∈ m.calls, id ∈ answer.answers

/-- Each message with calls is followed at once by messages of a role that answer them. -/
def AnsweredByRun (role : String) (wire : List Wire) : Prop :=
 ∀ before m after, wire = before ++ m :: after → ∀ id ∈ m.calls,
  ∃ answer ∈ after.takeWhile (fun m => m.role = some role), id ∈ answer.answers

theorem AnsweredNext.nil : AnsweredNext [] := fun before m after h => absurd h (by simp)

theorem AnsweredNext.cons {m : Wire} {wire : List Wire} (h : AnsweredNext wire)
 (hm : m.calls ≠ [] → ∃ answer rest, wire = answer :: rest ∧ answer.role = some "user"
  ∧ ∀ id ∈ m.calls, id ∈ answer.answers) : AnsweredNext (m :: wire) := by
 intro before m' after he hcalls
 cases before with
 | nil =>
  obtain ⟨rfl, rfl⟩ := List.cons.inj he
  exact hm hcalls
 | cons first before => exact h before m' after (List.cons.inj he).2 hcalls

variable {wire : List Wire}

theorem AnsweredNext.append {silent : List Wire} (h : AnsweredNext wire)
 (hs : ∀ m ∈ silent, m.calls = []) : AnsweredNext (silent ++ wire) := by
 induction silent with
 | nil => exact h
 | cons m silent ih =>
  exact (ih fun m' hm' => hs m' (by simp [hm'])).cons fun hc => absurd (hs m (by simp)) hc

theorem AnsweredByRun.nil (role : String) : AnsweredByRun role [] :=
 fun before m after h => absurd h (by simp)

theorem AnsweredByRun.cons {role : String} {m : Wire} {wire : List Wire}
 (h : AnsweredByRun role wire) (hm : ∀ id ∈ m.calls,
  ∃ answer ∈ wire.takeWhile (fun m => m.role = some role), id ∈ answer.answers) :
 AnsweredByRun role (m :: wire) := by
 intro before m' after he
 cases before with
 | nil =>
  obtain ⟨rfl, rfl⟩ := List.cons.inj he
  exact hm
 | cons first before => exact h before m' after (List.cons.inj he).2

theorem AnsweredByRun.append {role : String} {silent : List Wire} (h : AnsweredByRun role wire)
 (hs : ∀ m ∈ silent, m.calls = []) : AnsweredByRun role (silent ++ wire) := by
 induction silent with
 | nil => exact h
 | cons m silent ih =>
  refine (ih fun m' hm' => hs m' (by simp [hm'])).cons fun id hid => ?_
  rw [hs m (by simp)] at hid
  simp at hid

/-- What the messages of a role say, of the parts that are kept, other than messages that
are beside them. -/
inductive SaysBeside (role : String) (keep : Part → Bool) (beside : Wire → Prop) :
 List Wire → List Part → Prop where
 | nil : SaysBeside role keep beside [] []
 | own {m : Wire} {wire : List Wire} {parts : List Part} : m.role = some role →
  SaysBeside role keep beside wire parts →
  SaysBeside role keep beside (m :: wire) (m.parts.filter keep ++ parts)
 | other {m : Wire} {wire : List Wire} {parts : List Part} : m.role ≠ some role →
  SaysBeside role keep beside wire parts → SaysBeside role keep beside (m :: wire) parts
 | beside {m : Wire} {wire : List Wire} {parts : List Part} : beside m →
  SaysBeside role keep beside wire parts → SaysBeside role keep beside (m :: wire) parts

section SaysBeside

variable {role : String} {keep : Part → Bool} {beside : Wire → Prop}

theorem SaysBeside.append {silent : List Wire} {parts : List Part}
 (h : SaysBeside role keep beside wire parts) (hs : ∀ m ∈ silent, m.role ≠ some role ∨ beside m) :
 SaysBeside role keep beside (silent ++ wire) parts := by
 induction silent with
 | nil => exact h
 | cons m silent ih =>
  have hrest := ih fun m' hm' => hs m' (by simp [hm'])
  exact (hs m (by simp)).elim (.other · hrest) (.beside · hrest)

theorem SaysBeside.mono {beside' : Wire → Prop} {parts : List Part}
 (h : SaysBeside role keep beside wire parts) (hb : ∀ m, beside m → beside' m) :
 SaysBeside role keep beside' wire parts := by
 induction h with
 | nil => exact .nil
 | own hr _ ih => exact .own hr ih
 | other hr _ ih => exact .other hr ih
 | beside hm _ ih => exact .beside (hb _ hm) ih

end SaysBeside

theorem saidBy_other {role : String} (h : ∀ m ∈ wire, m.role ≠ some role) :
 saidBy role wire = [] := by
 unfold saidBy
 rw [List.filter_eq_nil_iff.mpr fun m hm => by simp [h m hm]]
 rfl

/-! ## The texts of system messages -/

/-- The texts of the system messages among the runs, the first one of the request as its
prompt. -/
def sentTexts : Bool → List Run → List String
 | _, [] => []
 | first, .system system :: rest =>
  let text := if first then getSystemMessageText system else renderSystemMessageUpdate system
  (if text = "" then [] else [text]) ++ sentTexts false rest
 | _, _ :: rest => sentTexts false rest

theorem sentTexts_false (l : List Run) :
 sentTexts false l = updateTexts (l.filterMap Run.system?) := by
 induction l with
 | nil => rfl
 | cons run rest ih =>
  cases run with
  | system system =>
   simp only [sentTexts, ih, updateTexts, List.filterMap_cons, Run.system?, List.map_cons,
    List.filter_cons]
   by_cases h : renderSystemMessageUpdate system = "" <;> simp [h]
  | _ => simpa [sentTexts, List.filterMap_cons, Run.system?] using ih

theorem sentTexts_runs (messages : List Message) :
 sentTexts true (runs messages) = promptTexts messages := by
 cases messages with
 | nil => rfl
 | cons m rest =>
  cases m with
  | system system =>
   simp only [runs, sentTexts, sentTexts_false, promptTexts, runs_system, updateTexts,
    List.filter_cons]
   by_cases h : getSystemMessageText system = "" <;> simp [h]
  | toolResult result =>
   have hsystem := runs_system (.toolResult result :: rest)
   have hhead : ∀ s more, runs (.toolResult result :: rest) ≠ .system s :: more := by
    intro s more
    simp only [runs]
    split <;> simp
   have hrest := sentTexts_false (runs (.toolResult result :: rest))
   rw [hsystem] at hrest
   rw [promptTexts, ← hrest]
   generalize runs (.toolResult result :: rest) = l at hhead
   cases l with
   | nil => rfl
   | cons run l =>
    cases run with
    | system s => exact absurd rfl (hhead s l)
    | _ => rfl
   intro s l
   simp
  | _ =>
   simp only [runs, sentTexts, sentTexts_false, promptTexts, runs_system]
   rfl

end Bake.Ai
