import Bake.Ai.Closed
import Bake.Ai.Transcript

/-!
# Runs of tool results

A converter goes through the messages of a request one by one, except for the tool
results that follow each other: an inner loop takes them together. `runs` is that
reading of the messages. Behind the calls of an assistant message the run of results
answers all of them, because that is how `transform_messages` leaves them.
-/

open List

namespace Bake.Ai

/-- What a converter takes at once: a message, or the tool results that follow each
other. -/
inductive Run where
 | system (system : SystemMessage)
 | user (user : UserMessage)
 | assistant (assistant : AssistantMessage)
 | results (results : List ToolResultMessage)

/-- The messages, as a converter takes them. -/
def runs : List Message → List Run
 | [] => []
 | .system system :: rest => .system system :: runs rest
 | .user user :: rest => .user user :: runs rest
 | .assistant assistant :: rest => .assistant assistant :: runs rest
 | .toolResult result :: rest =>
  match runs rest with
  | .results results :: more => .results (result :: results) :: more
  | more => .results [result] :: more

def Run.user? : Run → Option UserMessage
 | .user message => some message
 | _ => none

def Run.system? : Run → Option SystemMessage
 | .system message => some message
 | _ => none

def leadingResults : List Message → List ToolResultMessage
 | .toolResult result :: rest => result :: leadingResults rest
 | _ => []

variable (messages : List Message)

theorem runs_leading (h : leadingResults messages ≠ []) :
 ∃ more, runs messages = .results (leadingResults messages) :: more := by
 induction messages with
 | nil => exact absurd rfl h
 | cons m rest ih =>
  cases m with
  | toolResult result =>
   by_cases hrest : leadingResults rest = []
   · simp only [leadingResults, hrest, runs]
     split
     next results more hruns =>
      cases rest with
      | nil => simp [runs] at hruns
      | cons m' rest' =>
       cases m' with
       | toolResult r => simp [leadingResults] at hrest
       | _ => simp [runs] at hruns
     · exact ⟨_, rfl⟩
   · obtain ⟨more, hmore⟩ := ih hrest
     exact ⟨more, by simp only [runs, hmore, leadingResults]⟩
  | _ => exact absurd rfl h

/-! ## Answered at once -/

def AnsweredBy (assistant : AssistantMessage) (results : List ToolResultMessage) : Prop :=
 ∀ call ∈ assistant.toolCalls, ∃ result ∈ results, result.toolCallId = call.id

/-- Each assistant message is followed by tool results that answer its calls. -/
def CallsAnswered : List Message → Prop
 | [] => True
 | .assistant assistant :: rest =>
  AnsweredBy assistant (leadingResults rest) ∧ CallsAnswered rest
 | _ :: rest => CallsAnswered rest

/-- Each assistant message with calls is followed by a run that answers them. -/
def RunsAnswered : List Run → Prop
 | [] => True
 | .assistant assistant :: rest =>
  (assistant.toolCalls ≠ [] →
   ∃ results more, rest = .results results :: more ∧ AnsweredBy assistant results)
   ∧ RunsAnswered rest
 | _ :: rest => RunsAnswered rest

theorem runsAnswered {messages : List Message} (h : CallsAnswered messages) :
 RunsAnswered (runs messages) := by
 induction messages with
 | nil => trivial
 | cons m rest ih =>
  cases m with
  | system system | user user => exact ih h
  | assistant assistant =>
   refine ⟨fun hcalls => ?_, ih h.2⟩
   obtain ⟨call, hcall⟩ := exists_mem_of_ne_nil _ hcalls
   obtain ⟨result, hresult, -⟩ := h.1 call hcall
   obtain ⟨more, hmore⟩ := runs_leading rest (ne_nil_of_mem hresult)
   exact ⟨_, more, hmore, h.1⟩
  | toolResult result =>
   have hrest := ih h
   simp only [runs]
   split
   next results more hruns =>
    rw [hruns] at hrest
    exact hrest
   · exact hrest

theorem mem_leadingResults {results after : List Message} (hpre : results <+: after)
 (hrun : ∀ m ∈ results, m.isToolResult) {m : Message} (hm : m ∈ results) {id : String}
 (hid : m.answers? = some id) : ∃ result ∈ leadingResults after, result.toolCallId = id := by
 induction results generalizing after with
 | nil => simp at hm
 | cons first results ih =>
  obtain ⟨more, rfl⟩ := hpre
  have hfirst := hrun first (by simp)
  cases first with
  | toolResult result =>
   rcases mem_cons.mp hm with rfl | hm
   · exact ⟨result, by simp [leadingResults], by simpa [Message.answers?] using hid⟩
   · obtain ⟨r, hr, hrid⟩ := ih (prefix_append results more)
      (fun m' hm' => hrun m' (by simp [hm'])) hm
     exact ⟨r, by simpa [leadingResults] using Or.inr hr, hrid⟩
  | _ => simp [Message.isToolResult] at hfirst

theorem ClosedUp.callsAnswered {sent : List Sent} (h : ClosedUp sent) :
 CallsAnswered (sent.map Sent.message) := by
 induction sent with
 | nil => trivial
 | cons m rest ih =>
  have hrest : ClosedUp rest := fun before assistant after he =>
   h (m :: before) assistant after (by rw [he]; rfl)
  cases m with
  | synthetic result => exact ih hrest
  | given message =>
   cases message with
   | assistant assistant =>
    refine ⟨fun call hcall => ?_, ih hrest⟩
    obtain ⟨results, hpre, hrun, hcalls⟩ := h [] assistant rest rfl
    obtain ⟨answer, hanswer, hid⟩ := hcalls call hcall
    refine mem_leadingResults (hpre.map Sent.message) ?_ (mem_map_of_mem hanswer) hid
    intro m hm
    obtain ⟨m', hm', rfl⟩ := mem_map.mp hm
    exact hrun m' hm'
   | _ => exact ih hrest

/-! ## What a request is made of -/

def Message.user? : Message → Option UserMessage
 | .user message => some message
 | _ => none

def userMessages (messages : List Message) : List UserMessage := messages.filterMap Message.user?

variable {β : Type}

theorem runs_filterMap (f : Run → Option β) (g : Message → Option β)
 (hsystem : ∀ m, f (.system m) = g (.system m)) (huser : ∀ m, f (.user m) = g (.user m))
 (hassistant : ∀ m, f (.assistant m) = g (.assistant m)) (hresults : ∀ l, f (.results l) = none)
 (hresult : ∀ m, g (.toolResult m) = none) (messages : List Message) :
 (runs messages).filterMap f = messages.filterMap g := by
 induction messages with
 | nil => rfl
 | cons m rest ih =>
  cases m with
  | system m => simp only [runs, filterMap_cons, hsystem, ih]
  | user m => simp only [runs, filterMap_cons, huser, ih]
  | assistant m => simp only [runs, filterMap_cons, hassistant, ih]
  | toolResult m =>
   rw [filterMap_cons, hresult, ← ih, runs]
   split
   next results more hruns =>
    simp only [hruns, filterMap_cons, hresults]
   · simp only [filterMap_cons, hresults]

theorem runs_user : (runs messages).filterMap Run.user? = userMessages messages :=
 runs_filterMap _ _ (fun _ => rfl) (fun _ => rfl) (fun _ => rfl) (fun _ => rfl) (fun _ => rfl) _

theorem runs_system : (runs messages).filterMap Run.system? = systemMessages messages :=
 runs_filterMap _ _ (fun _ => rfl) (fun _ => rfl) (fun _ => rfl) (fun _ => rfl) (fun _ => rfl) _

theorem userMessages_rewrites {model : Model} {messages rewritten : List Message}
 (h : List.Forall₂ (Rewrites model) messages rewritten) :
 userMessages rewritten = userMessages (downgradeUnsupportedImages messages model) := by
 have hmap : downgradeUnsupportedImages messages model
  = messages.map fun m => if model.acceptsImages then m else downgradeMessage m := by
  unfold downgradeUnsupportedImages
  split <;> simp
 rw [hmap]
 clear hmap
 induction h with
 | nil => rfl
 | @cons m m' _ _ hm _ ih =>
  have hhead : m'.user? = (if model.acceptsImages then m else downgradeMessage m).user? := by
   cases hm with
   | user user => rfl
   | _ => split <;> rfl
  simp only [userMessages, map_cons, filterMap_cons, hhead] at ih ⊢
  rw [ih]

theorem filterMap_kept (f : Message → Option β) (keep : Message → Bool)
 (h : ∀ m, keep m = false → f m = none) (messages : List Message) :
 (messages.filter keep).filterMap f = messages.filterMap f := by
 rw [filterMap_filter]
 congr 1
 funext m
 cases hm : keep m with
 | true => rfl
 | false => simp [h m hm]

theorem filterMap_sent (f : Message → Option β) (h : ∀ r, f (.toolResult r) = none)
 (sent : List Sent) : (sent.map Sent.message).filterMap f = (given sent).filterMap f := by
 rw [given, filterMap_filterMap, filterMap_map]
 congr 1
 funext m
 cases m with
 | given message => rfl
 | synthetic r => exact h r

variable (clock : Nat → Int)

theorem transformMessages_spec (messages : List Message) (model : Model)
 (normalize : Option NormalizeToolCallId) :
 CallsAnswered (transformMessages clock messages model normalize)
  ∧ userMessages (transformMessages clock messages model normalize)
   = userMessages (downgradeUnsupportedImages messages model)
  ∧ systemMessages (transformMessages clock messages model normalize)
   = systemMessages messages := by
 obtain ⟨hclosed, rewritten, hrewrites, hothers, hsystems⟩ :=
  transform_rewritten clock messages model normalize
 refine ⟨hclosed.callsAnswered, ?_, ?_⟩
 · have hl := congrArg (List.filterMap Message.user?) hothers
   rw [filterMap_kept _ _ fun m hm => by cases m <;> simp_all [Message.isSystem, Message.user?],
    filterMap_kept _ _ fun m hm => by
     cases m <;> simp_all [Message.survives, Message.isSystem, Message.isFailed, Message.user?]] at hl
   rw [← userMessages_rewrites hrewrites]
   exact (filterMap_sent _ (fun _ => rfl) _).trans hl
 · have hl := congrArg (List.filterMap Message.system?) hsystems
   have hkeep : ∀ m : Message, m.isSystem = false → m.system? = none := by
    intro m hm
    cases m <;> simp_all [Message.isSystem, Message.system?]
   rw [filterMap_kept _ _ hkeep, filterMap_kept _ _ hkeep] at hl
   exact (filterMap_sent _ (fun _ => rfl) _).trans hl

/-! ## What is sent stays -/

theorem Closing.close_extends (s : Closing) :
  ∃ added, (s.close clock).result = s.result ++ added := by
 unfold Closing.close
 split
 · exact ⟨_, rfl⟩
 · obtain ⟨made, hmade, -⟩ := pushResults_spec clock s.existing s.result s.pending
   exact ⟨_, by rw [hmade]; exact append_assoc _ _ _⟩

theorem Closing.step_extends (s : Closing) (message : Message) :
 ∃ added, (s.step clock message).result = s.result ++ added := by
 obtain ⟨added, hadded⟩ := s.close_extends clock
 cases message with
 | assistant assistant =>
  simp only [Closing.step]
  split
  · exact ⟨added, hadded⟩
  · split <;> exact ⟨added ++ [_], by rw [← append_assoc, ← hadded]; rfl⟩
 | toolResult result => exact ⟨_, rfl⟩
 | user user => exact ⟨added ++ [_], by rw [← append_assoc, ← hadded]; rfl⟩
 | system system =>
  simp only [Closing.step]
  split
  · exact ⟨_, rfl⟩
  · exact ⟨[], by simp⟩

theorem transformMessages_head (system : SystemMessage) (rest : List Message)
 (model : Model) (normalize : Option NormalizeToolCallId) :
 ∃ more, transformMessages clock (.system system :: rest) model normalize
  = .system system :: more := by
 have hfirst : ∃ more, firstPass model normalize []
  (downgradeUnsupportedImages (.system system :: rest) model) = .system system :: more := by
  unfold downgradeUnsupportedImages
  split <;> exact ⟨_, rfl⟩
 obtain ⟨more, hmore⟩ := hfirst
 have hhead : ∀ (s : Closing) (m : Message), (∃ tail, s.result = .given (.system system) :: tail) →
  ∃ tail, (s.step clock m).result = .given (.system system) :: tail := by
  intro s m ⟨tail, htail⟩
  obtain ⟨added, hadded⟩ := s.step_extends clock m
  exact ⟨tail ++ added, by rw [hadded, htail, cons_append]⟩
 have hrun : ∀ (l : List Message) (s : Closing),
  (∃ tail, s.result = .given (.system system) :: tail) →
  ∃ tail, (l.foldl (Closing.step clock) s).result = .given (.system system) :: tail := by
  intro l
  induction l with
  | nil => exact fun s h => h
  | cons m l ih => exact fun s h => ih _ (hhead s m h)
 obtain ⟨tail, htail⟩ := hrun more (Closing.start.step clock (.system system)) ⟨[], rfl⟩
 obtain ⟨added, hadded⟩ := (more.foldl (Closing.step clock)
  (Closing.start.step clock (.system system))).close_extends clock
 refine ⟨(tail ++ added).map Sent.message, ?_⟩
 rw [transformMessages, transform, hmore, secondPass, foldl_cons, hadded, htail]
 rfl

end Bake.Ai
