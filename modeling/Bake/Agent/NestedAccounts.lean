import Bake.Agent.NestedRecord
import Bake.Lib.Tables
import Std.Data.String.ToNat

/-!
# The accounts of nested calls

What a batch's nested calls leave in its books: which scope each is in, the id it was
given, its place in the record of the model-issued call it is below, whether its outcome
is recorded, and the scope of its own tool's calls. Eight things happen to them, and they
keep two promises: ids below one model-issued call differ, and the record lists the calls
in the order they took their places in it.
-/

open List Option OrdMap Nat

namespace Bake.Agent

open Bake.Json
open NestedCallRecorder (finish_eq finished kept_new new start_cases)

/-- How far a call has been entered: admitted by its scope's gate, given its id, given its
place in the record. -/
inductive CallStage where
 | entered | numbered | recorded
 deriving DecidableEq, Repr

/-- A call in the books. `seen` is how many calls had places when it was admitted. -/
structure CallAccount where
 scope : Nat
 id : String
 name : String
 stage : CallStage
 record : Option Nat
 finished : Bool
 child : Option Nat
 seen : Nat

structure ScopeAccount where
 root : Nat
 call : Option Nat
 callerId : String
 nextId : Nat

/-- A model-issued call in the books: its scope, its record, and whether that was taken. -/
structure IssuedAccount where
 scope : Nat
 taken : Bool
 recorder : NestedCallRecorder

structure NestedAccounts where
 issued : List IssuedAccount
 scopes : List ScopeAccount
 calls : List CallAccount

namespace NestedAccounts

/-- The id a scope gives its `n`-th call. -/
def idOf (callerId : String) (n : Nat) : String := callerId ++ "/" ++ toString n

/-- How many calls below a model-issued call have places in its record. -/
def recorded (a : NestedAccounts) (i : Nat) : Nat :=
 (a.issued[i]?.map fun issued => issued.recorder.started.length).getD 0

/-- What happens to the books. -/
inductive Step (jsonBytes : Value → Nat) (a : NestedAccounts) : NestedAccounts → Prop where
 | stay : Step jsonBytes a a
 | issue (callerId : String) : Step jsonBytes a
  { a with
    issued := a.issued ++ [{ scope := a.scopes.length, taken := false, recorder := .new }]
    scopes := a.scopes ++ [{ root := a.issued.length, call := none, callerId, nextId := 1 }] }
 | admitted {s : Nat} {scope : ScopeAccount} (name : String) (hs : a.scopes[s]? = some scope) :
  Step jsonBytes a
   { a with
     calls := a.calls ++
      [{ scope := s
         id := ""
         name
         stage := .entered
         record := none
         finished := false
         child := none
         seen := a.recorded scope.root }] }
 | number {c : Nat} {call : CallAccount} {scope : ScopeAccount} (hc : a.calls[c]? = some call)
  (hs : a.scopes[call.scope]? = some scope) (hstage : call.stage = .entered) :
  Step jsonBytes a
   { a with
     scopes := a.scopes.set call.scope { scope with nextId := scope.nextId + 1 }
     calls := a.calls.set c
      { call with stage := .numbered, id := idOf scope.callerId scope.nextId } }
 | record {c : Nat} {call : CallAccount} {scope : ScopeAccount} {issued : IssuedAccount}
  (args : Value) (hc : a.calls[c]? = some call) (hs : a.scopes[call.scope]? = some scope)
  (hi : a.issued[scope.root]? = some issued) (hstage : call.stage = .numbered) :
  Step jsonBytes a
   { a with
     issued := a.issued.set scope.root { issued with
      recorder := (issued.recorder.start jsonBytes c call.id call.name args).2 }
     calls := a.calls.set c { call with
      stage := .recorded
      record := (issued.recorder.start jsonBytes c call.id call.name args).1 } }
 | prepare {c : Nat} {call : CallAccount} {scope : ScopeAccount} (hc : a.calls[c]? = some call)
  (hs : a.scopes[call.scope]? = some scope) (hstage : call.stage ≠ .entered)
  (hchild : call.child = none) : Step jsonBytes a
   { a with
     scopes := a.scopes ++
      [{ root := scope.root, call := some c, callerId := call.id, nextId := 1 }]
     calls := a.calls.set c { call with child := some a.scopes.length } }
 | finish {c : Nat} {call : CallAccount} {scope : ScopeAccount} {issued : IssuedAccount}
  (isError : Bool) (text : String) (hc : a.calls[c]? = some call)
  (hs : a.scopes[call.scope]? = some scope) (hi : a.issued[scope.root]? = some issued)
  (hstage : call.stage = .recorded) : Step jsonBytes a
   { a with
     issued := a.issued.set scope.root { issued with
      recorder := issued.recorder.finish call.record isError text }
     calls := a.calls.set c { call with finished := true } }
 | take {i : Nat} {issued : IssuedAccount} (hi : a.issued[i]? = some issued) : Step jsonBytes a
  { a with issued := a.issued.set i { issued with taken := true, recorder := .new } }

/-! ## Ids -/

theorem append_mark_inj {α : Type} {x : α} {ds es l l' : List α} (hds : x ∉ ds) (hes : x ∉ es)
 (h : ds ++ x :: l = es ++ x :: l') : ds = es ∧ l = l' := by
 induction ds generalizing es with
 | nil =>
  cases es with
  | nil => exact ⟨rfl, (List.cons.inj h).2⟩
  | cons e es => exact absurd (List.cons.inj h).1 fun heq => hes (heq ▸ mem_cons_self)
 | cons d ds ih =>
  cases es with
  | nil => exact absurd (List.cons.inj h).1 fun heq => hds (heq ▸ mem_cons_self)
  | cons e es =>
   obtain ⟨heq, hrest⟩ := List.cons.inj h
   obtain ⟨rfl, hl⟩ := ih (fun hx => hds (mem_cons_of_mem _ hx))
    (fun hx => hes (mem_cons_of_mem _ hx)) hrest
   exact ⟨by rw [heq], hl⟩

theorem slash_notMem (n : Nat) : '/' ∉ (toString n).toList := by
 have hrepr : (toString n).toList = toDigits 10 n := String.toList_ofList
 rw [hrepr]
 exact fun h => absurd (isDigit_of_mem_toDigits (by decide) (by decide) h) (by decide)

theorem idOf_inj {callerId callerId' : String} {n m : Nat} (h : idOf callerId n = idOf callerId' m) :
 callerId = callerId' ∧ n = m := by
 have hlist := congrArg (fun id : String => id.toList.reverse) h
 simp only [idOf, String.toList_append, reverse_append, append_assoc] at hlist
 have hmark : ("/" : String).toList.reverse = ['/'] := rfl
 rw [hmark] at hlist
 obtain ⟨hdigits, hcaller⟩ := append_mark_inj (fun hx => slash_notMem n (mem_reverse.mp hx))
  (fun hx => slash_notMem m (mem_reverse.mp hx)) hlist
 refine ⟨String.toList_injective (reverse_injective hcaller), ?_⟩
 exact repr_injective (String.toList_injective (reverse_injective hdigits))

theorem idOf_length (callerId : String) (n : Nat) : callerId.length < (idOf callerId n).length := by
 simp only [idOf, String.length_append]
 have : ("/" : String).length = 1 := rfl
 omega

/-! ## What the books keep -/

variable {jsonBytes : Value → Nat} {a a' : NestedAccounts}

/-- A scope as it was, but for the numbers it has given out. -/
structure ScopeAccount.Same (scope scope' : ScopeAccount) : Prop where
 root : scope'.root = scope.root
 call : scope'.call = scope.call
 callerId : scope'.callerId = scope.callerId
 nextId : scope.nextId ≤ scope'.nextId

theorem ScopeAccount.Same.refl (scope : ScopeAccount) : Same scope scope :=
 ⟨rfl, rfl, rfl, le_refl _⟩

/-- A call as it was: an id once given and a tool's scope once made stay. -/
structure CallAccount.Same (call call' : CallAccount) : Prop where
 scope : call'.scope = call.scope
 name : call'.name = call.name
 seen : call'.seen = call.seen
 id : call.stage ≠ .entered → call'.stage ≠ .entered ∧ call'.id = call.id
 child : ∀ k, call.child = some k → call'.child = some k

theorem CallAccount.Same.refl (call : CallAccount) : Same call call :=
 ⟨rfl, rfl, rfl, fun h => ⟨h, rfl⟩, fun _ h => h⟩

/-- Nothing leaves the books. -/
structure Keeps (a a' : NestedAccounts) : Prop where
 issued : ∀ (i : Nat) issued, a.issued[i]? = some issued →
  ∃ issued', a'.issued[i]? = some issued' ∧ issued'.scope = issued.scope
 scopes : ∀ (s : Nat) scope, a.scopes[s]? = some scope →
  ∃ scope', a'.scopes[s]? = some scope' ∧ ScopeAccount.Same scope scope'
 calls : ∀ (c : Nat) call, a.calls[c]? = some call →
  ∃ call', a'.calls[c]? = some call' ∧ CallAccount.Same call call'

variable {i : Nat} {call : CallAccount}

theorem getElem?_snoc {β : Type} {l : List β} {b x : β} (h : l[i]? = some b) :
 (l ++ [x])[i]? = some b :=
 (getElem?_append_left (List.getElem_of_getElem? h).1).trans h

theorem getElem?_set_of {β : Type} {l : List β} {j : Nat} {b c : β} (b' : β) (hi : l[i]? = some b)
 (hj : l[j]? = some c) :
 (j = i ∧ c = b ∧ (l.set i b')[j]? = some b') ∨ (j ≠ i ∧ (l.set i b')[j]? = some c) := by
 by_cases hji : j = i
 · subst hji
   refine .inl ⟨rfl, some.inj (hj.symm.trans hi), ?_⟩
   exact getElem?_set_self (List.getElem_of_getElem? hi).1
 · exact .inr ⟨hji, (getElem?_set_ne (Ne.symm hji)).trans hj⟩

theorem keeps_scopes_set {scopes : List ScopeAccount} {b b' : ScopeAccount}
 (hi : scopes[i]? = some b) (hsame : ScopeAccount.Same b b') (s : Nat) (scope : ScopeAccount)
 (hs : scopes[s]? = some scope) :
 ∃ scope', (scopes.set i b')[s]? = some scope' ∧ ScopeAccount.Same scope scope' := by
 rcases getElem?_set_of b' hi hs with ⟨rfl, rfl, hget⟩ | ⟨-, hget⟩
 · exact ⟨b', hget, hsame⟩
 · exact ⟨scope, hget, .refl scope⟩

theorem keeps_calls_set {calls : List CallAccount} {b b' : CallAccount} (hi : calls[i]? = some b)
 (hsame : CallAccount.Same b b') (c : Nat) (call : CallAccount) (hc : calls[c]? = some call) :
 ∃ call', (calls.set i b')[c]? = some call' ∧ CallAccount.Same call call' := by
 rcases getElem?_set_of b' hi hc with ⟨rfl, rfl, hget⟩ | ⟨-, hget⟩
 · exact ⟨b', hget, hsame⟩
 · exact ⟨call, hget, .refl call⟩

theorem keeps_issued_set {issued : List IssuedAccount} {b b' : IssuedAccount}
 (hi : issued[i]? = some b) (hscope : b'.scope = b.scope) (j : Nat) (c : IssuedAccount)
 (hj : issued[j]? = some c) : ∃ c', (issued.set i b')[j]? = some c' ∧ c'.scope = c.scope := by
 rcases getElem?_set_of b' hi hj with ⟨rfl, rfl, hget⟩ | ⟨-, hget⟩
 · exact ⟨b', hget, hscope⟩
 · exact ⟨c, hget, rfl⟩

/-- **Nothing that happens takes anything out of the books.** -/
theorem Step.keeps (h : Step jsonBytes a a') : Keeps a a' := by
 have hissued : ∀ (i : Nat) issued, a.issued[i]? = some issued →
  ∃ issued', a.issued[i]? = some issued' ∧ issued'.scope = issued.scope :=
  fun _ issued hi => ⟨issued, hi, rfl⟩
 have hscopes : ∀ (s : Nat) scope, a.scopes[s]? = some scope →
  ∃ scope', a.scopes[s]? = some scope' ∧ ScopeAccount.Same scope scope' :=
  fun _ scope hs => ⟨scope, hs, .refl scope⟩
 have hcalls : ∀ (c : Nat) call, a.calls[c]? = some call →
  ∃ call', a.calls[c]? = some call' ∧ CallAccount.Same call call' :=
  fun _ call hc => ⟨call, hc, .refl call⟩
 cases h with
 | stay => exact ⟨hissued, hscopes, hcalls⟩
 | issue callerId =>
  exact ⟨fun _ issued hi => ⟨issued, getElem?_snoc hi, rfl⟩,
   fun _ scope hs => ⟨scope, getElem?_snoc hs, .refl scope⟩, hcalls⟩
 | admitted name hs =>
  exact ⟨hissued, hscopes, fun _ call hc => ⟨call, getElem?_snoc hc, .refl call⟩⟩
 | number hc hs hstage =>
  refine ⟨hissued, keeps_scopes_set hs ⟨rfl, rfl, rfl, le_succ _⟩, keeps_calls_set hc ?_⟩
  exact ⟨rfl, rfl, rfl, fun hne => absurd hstage hne, fun _ hk => hk⟩
 | record args hc hs hi hstage =>
  refine ⟨keeps_issued_set hi rfl, hscopes, keeps_calls_set hc ?_⟩
  exact ⟨rfl, rfl, rfl, fun _ => ⟨by simp, rfl⟩, fun _ hk => hk⟩
 | prepare hc hs hstage hchild =>
  refine ⟨hissued, fun _ scope hs => ⟨scope, getElem?_snoc hs, .refl scope⟩, keeps_calls_set hc ?_⟩
  exact ⟨rfl, rfl, rfl, fun hne => ⟨hne, rfl⟩, fun k hk => absurd (hchild.symm.trans hk) (by simp)⟩
 | finish isError text hc hs hi hstage =>
  refine ⟨keeps_issued_set hi rfl, hscopes, keeps_calls_set hc ?_⟩
  exact ⟨rfl, rfl, rfl, fun hne => ⟨hne, rfl⟩, fun _ hk => hk⟩
 | take hi => exact ⟨keeps_issued_set hi rfl, hscopes, hcalls⟩

/-! ## Who is called what -/

/-- What holds of a scope: it is the scope of a model-issued call, or of the tool of a call
in an older scope, whose id its own calls' ids begin with. -/
structure ScopeNamed (a : NestedAccounts) (s : Nat) (scope : ScopeAccount) : Prop where
 top : ∃ issued top, a.issued[scope.root]? = some issued ∧ a.scopes[issued.scope]? = some top
  ∧ top.callerId.length ≤ scope.callerId.length ∧ (scope.call = none → issued.scope = s)
 above : ∀ p, scope.call = some p → ∃ call above, a.calls[p]? = some call ∧ call.child = some s
  ∧ call.scope < s ∧ call.stage ≠ .entered ∧ scope.callerId = call.id
  ∧ a.scopes[call.scope]? = some above ∧ above.root = scope.root

/-- What holds of the ids in the books. -/
structure Named (a : NestedAccounts) : Prop where
 scopes : ∀ (s : Nat) scope, a.scopes[s]? = some scope → ScopeNamed a s scope
 calls : ∀ (c : Nat) call, a.calls[c]? = some call → ∃ scope, a.scopes[call.scope]? = some scope
  ∧ (call.stage ≠ .entered → ∃ n, n < scope.nextId ∧ call.id = idOf scope.callerId n)
 apart : ∀ (c d : Nat) call callD, a.calls[c]? = some call → a.calls[d]? = some callD →
  call.scope = callD.scope → call.stage ≠ .entered → callD.stage ≠ .entered →
  call.id = callD.id → c = d

theorem ScopeNamed.keeps {s : Nat} {scope scope' : ScopeAccount} (h : ScopeNamed a s scope)
 (hsame : ScopeAccount.Same scope scope') (hkeeps : Keeps a a') : ScopeNamed a' s scope' := by
 refine ⟨?_, fun p hp => ?_⟩
 · obtain ⟨issued, top, hissued, htop, hlen, hnone⟩ := h.top
   obtain ⟨issued', hissued', hscope⟩ := hkeeps.issued _ issued hissued
   obtain ⟨top', htop', hsameTop⟩ := hkeeps.scopes _ top htop
   refine ⟨issued', top', by rw [hsame.root]; exact hissued', by rw [hscope]; exact htop', ?_, ?_⟩
   · rw [hsameTop.callerId, hsame.callerId]
     exact hlen
   · rw [hsame.call, hscope]
     exact hnone
 · rw [hsame.call] at hp
   obtain ⟨call, above, hcall, hchild, hlt, hstage, hid, habove, hroot⟩ := h.above p hp
   obtain ⟨call', hcall', hsameCall⟩ := hkeeps.calls p call hcall
   obtain ⟨above', habove', hsameAbove⟩ := hkeeps.scopes _ above habove
   obtain ⟨hstage', hid'⟩ := hsameCall.id hstage
   refine ⟨call', above', hcall', hsameCall.child _ hchild, by rw [hsameCall.scope]; exact hlt,
    hstage', ?_, by rw [hsameCall.scope]; exact habove', ?_⟩
   · rw [hsame.callerId, hid, hid']
   · rw [hsameAbove.root, hroot, hsame.root]

variable {call' : CallAccount} {c : Nat}

theorem Named.calls_keep (h : Named a) (hkeeps : Keeps a a')
 (hc : a.calls[c]? = some call) (hsame : CallAccount.Same call call')
 (hnew : call.stage = .entered → call'.stage = .entered) :
 ∃ scope, a'.scopes[call'.scope]? = some scope
  ∧ (call'.stage ≠ .entered → ∃ n, n < scope.nextId ∧ call'.id = idOf scope.callerId n) := by
 obtain ⟨scope, hscope, hid⟩ := h.calls c call hc
 obtain ⟨scope', hscope', hsameScope⟩ := hkeeps.scopes _ scope hscope
 refine ⟨scope', by rw [hsame.scope]; exact hscope', fun hstage => ?_⟩
 have hold : call.stage ≠ .entered := fun he => hstage (hnew he)
 obtain ⟨n, hn, heq⟩ := hid hold
 refine ⟨n, lt_of_lt_of_le hn hsameScope.nextId, ?_⟩
 rw [(hsame.id hold).2, hsameScope.callerId]
 exact heq

/-- What leaves names and numbers as they are keeps what holds of them. -/
theorem Named.same (h : Named a) (hkeeps : Keeps a a')
 (hscopes : ∀ (s : Nat) scope', a'.scopes[s]? = some scope' →
  (∃ scope, a.scopes[s]? = some scope ∧ ScopeAccount.Same scope scope') ∨ ScopeNamed a' s scope')
 (hcalls : ∀ (c : Nat) call', a'.calls[c]? = some call' → call'.stage ≠ .entered →
  ∃ call, a.calls[c]? = some call ∧ CallAccount.Same call call' ∧ call.stage ≠ .entered)
 (hentered : ∀ (c : Nat) call', a'.calls[c]? = some call' → call'.stage = .entered →
  ∃ scope, a'.scopes[call'.scope]? = some scope) : Named a' := by
 refine ⟨fun s scope' hs => ?_, fun c call' hc => ?_, fun c d call' callD' hc hd hscope hs hsD hid => ?_⟩
 · rcases hscopes s scope' hs with ⟨scope, hget, hsame⟩ | hnew
   · exact (h.scopes s scope hget).keeps hsame hkeeps
   · exact hnew
 · by_cases hstage : call'.stage = .entered
   · obtain ⟨scope, hget⟩ := hentered c call' hc hstage
     exact ⟨scope, hget, fun hne => absurd hstage hne⟩
   · obtain ⟨call, hget, hsame, hold⟩ := hcalls c call' hc hstage
     exact h.calls_keep hkeeps hget hsame fun he => absurd he hold
 · obtain ⟨call, hget, hsame, hold⟩ := hcalls c call' hc hs
   obtain ⟨callD, hgetD, hsameD, holdD⟩ := hcalls d callD' hd hsD
   refine h.apart c d call callD hget hgetD ?_ hold holdD ?_
   · rw [← hsame.scope, ← hsameD.scope]
     exact hscope
   · rw [← (hsame.id hold).2, ← (hsameD.id holdD).2]
     exact hid

/-- **Ids stay apart**, whatever happens. -/
theorem Named.step (h : Named a) (hstep : Step jsonBytes a a') : Named a' := by
 have hkeeps := hstep.keeps
 have hsame : ∀ (s : Nat) scope', a.scopes[s]? = some scope' →
  (∃ scope, a.scopes[s]? = some scope ∧ ScopeAccount.Same scope scope') ∨ ScopeNamed a' s scope' :=
  fun _ scope hs => .inl ⟨scope, hs, .refl scope⟩
 have hstay : ∀ (c : Nat) call', a.calls[c]? = some call' → call'.stage ≠ .entered →
  ∃ call, a.calls[c]? = some call ∧ CallAccount.Same call call' ∧ call.stage ≠ .entered :=
  fun _ call hc hs => ⟨call, hc, .refl call, hs⟩
 have hin : ∀ (c : Nat) call, a.calls[c]? = some call →
  ∃ scope, a'.scopes[call.scope]? = some scope := by
  intro c call hc
  obtain ⟨scope, hscope, -⟩ := h.calls c call hc
  obtain ⟨scope', hscope', -⟩ := hkeeps.scopes _ scope hscope
  exact ⟨scope', hscope'⟩
 -- a call that is changed, and is not given its id
 have hset : ∀ {c : Nat} {call call' : CallAccount}, a.calls[c]? = some call →
  CallAccount.Same call call' → call.stage ≠ .entered → ∀ (d : Nat) callD',
  (a.calls.set c call')[d]? = some callD' → callD'.stage ≠ .entered →
  ∃ callD, a.calls[d]? = some callD ∧ CallAccount.Same callD callD' ∧ callD.stage ≠ .entered := by
  intro c call call' hc hsame hold d callD' hd hs
  rcases getElem?_set_some hd with ⟨rfl, rfl⟩ | ⟨-, hd⟩
  · exact ⟨call, hc, hsame, hold⟩
  · exact hstay d callD' hd hs
 have hsetIn : ∀ {c : Nat} {call call' : CallAccount}, a.calls[c]? = some call →
  ∀ (d : Nat) callD', (a.calls.set c call')[d]? = some callD' →
  call'.scope = call.scope → ∃ scope, a'.scopes[callD'.scope]? = some scope := by
  intro c call call' hc d callD' hd hscope
  rcases getElem?_set_some hd with ⟨rfl, rfl⟩ | ⟨-, hd⟩
  · rw [hscope]
    exact hin d call hc
  · exact hin d callD' hd
 cases hstep with
 | stay => exact h
 | issue callerId =>
  refine h.same hkeeps (fun s scope' hs => ?_) hstay fun c call' hc _ => hin c call' hc
  rcases getElem?_snoc_some hs with ⟨rfl, rfl⟩ | ⟨-, hs⟩
  · refine .inr ⟨⟨_, _, getElem?_concat_length, getElem?_concat_length, le_refl _,
     fun _ => rfl⟩, fun p hp => absurd hp (by simp)⟩
  · exact .inl ⟨scope', hs, .refl scope'⟩
 | admitted name hs =>
  refine h.same hkeeps hsame (fun c call' hc hstage => ?_) fun c call' hc hstage => ?_
  · rcases getElem?_snoc_some hc with ⟨rfl, rfl⟩ | ⟨-, hc⟩
    · exact absurd rfl hstage
    · exact hstay c call' hc hstage
  · rcases getElem?_snoc_some hc with ⟨rfl, rfl⟩ | ⟨-, hc⟩
    · exact ⟨_, hs⟩
    · exact hin c call' hc
 | @number c call scope hc hs hstage =>
  have hnumber : ∀ {d : Nat} {callD : CallAccount}, a.calls[d]? = some callD →
   callD.scope = call.scope → callD.stage ≠ .entered →
   idOf scope.callerId scope.nextId ≠ callD.id := by
   intro d callD hd hscope hsD heq
   obtain ⟨scopeD, hscopeD, hid⟩ := h.calls d callD hd
   rw [hscope] at hscopeD
   obtain rfl : scope = scopeD := some.inj (hs.symm.trans hscopeD)
   obtain ⟨n, hn, hidD⟩ := hid hsD
   have := (idOf_inj (heq.trans hidD)).2
   omega
  refine ⟨fun s scope' hs' => ?_, fun d callD' hd => ?_,
   fun d e callD' callE' hd he hscope hsD hsE hid => ?_⟩
  · rcases getElem?_set_some hs' with ⟨rfl, rfl⟩ | ⟨-, hs'⟩
    · exact (h.scopes _ scope hs).keeps ⟨rfl, rfl, rfl, le_succ _⟩ hkeeps
    · exact (h.scopes s scope' hs').keeps (.refl scope') hkeeps
  · rcases getElem?_set_some hd with ⟨rfl, rfl⟩ | ⟨-, hd⟩
    · refine ⟨_, getElem?_set_self (List.getElem_of_getElem? hs).1, fun _ => ?_⟩
      exact ⟨scope.nextId, lt_succ_self _, rfl⟩
    · exact h.calls_keep hkeeps hd (.refl callD') id
  · rcases getElem?_set_some hd with ⟨rfl, rfl⟩ | ⟨-, hd'⟩ <;>
     rcases getElem?_set_some he with ⟨rfl, rfl⟩ | ⟨-, he'⟩
    · rfl
    · exact absurd hid (hnumber he' hscope.symm hsE)
    · exact absurd hid.symm (hnumber hd' hscope hsD)
    · exact h.apart d e callD' callE' hd' he' hscope hsD hsE hid
 | record args hc hs hi hstage =>
  have hold : ∀ stage, CallStage.numbered = stage → stage ≠ CallStage.entered := by
   rintro _ rfl
   simp
  exact h.same hkeeps hsame (hset hc ⟨rfl, rfl, rfl, fun _ => ⟨by simp, rfl⟩, fun _ hk => hk⟩
   (hold _ hstage.symm)) fun d callD' hd _ => hsetIn hc d callD' hd rfl
 | @prepare c call scope hc hs hstage hchild =>
  have hchanged : ∀ k, CallAccount.Same call { call with child := some k } := fun k =>
   ⟨rfl, rfl, rfl, fun hne => ⟨hne, rfl⟩, fun _ hk => absurd (hchild.symm.trans hk) (by simp)⟩
  refine h.same hkeeps (fun s scope' hs' => ?_) (hset hc (hchanged _) hstage)
   fun d callD' hd _ => hsetIn hc d callD' hd rfl
  rcases getElem?_snoc_some hs' with ⟨rfl, rfl⟩ | ⟨-, hs'⟩
  · obtain ⟨issued, top, hissued, htop, hlen, -⟩ := (h.scopes _ scope hs).top
    refine .inr ⟨⟨issued, top, hissued, getElem?_snoc htop, ?_, by simp⟩,
     fun p hp => ?_⟩
    · obtain ⟨scope', hscope', hid⟩ := h.calls c call hc
      obtain rfl : scope = scope' := some.inj (hs.symm.trans hscope')
      obtain ⟨n, -, heq⟩ := hid hstage
      rw [heq]
      exact le_of_lt (lt_of_le_of_lt hlen (idOf_length _ _))
    · obtain rfl : c = p := some.inj hp
      exact ⟨_, scope, getElem?_set_self (List.getElem_of_getElem? hc).1, rfl,
       (List.getElem_of_getElem? hs).1, hstage, rfl, getElem?_snoc hs, rfl⟩
  · exact .inl ⟨scope', hs', .refl scope'⟩
 | finish isError text hc hs hi hstage =>
  have hold : ∀ stage, CallStage.recorded = stage → stage ≠ CallStage.entered := by
   rintro _ rfl
   simp
  exact h.same hkeeps hsame (hset hc ⟨rfl, rfl, rfl, fun hne => ⟨hne, rfl⟩, fun _ hk => hk⟩
   (hold _ hstage.symm)) fun d callD' hd _ => hsetIn hc d callD' hd rfl
 | take hi => exact h.same hkeeps hsame hstay fun c call' hc _ => hin c call' hc

def rootOf (a : NestedAccounts) (call : CallAccount) : Option Nat :=
 a.scopes[call.scope]?.map (·.root)

theorem Named.length_lt (h : Named a) (hc : a.calls[c]? = some call)
 (hstage : call.stage ≠ .entered) {issued : IssuedAccount} {top scope : ScopeAccount}
 (hs : a.scopes[call.scope]? = some scope) (hi : a.issued[scope.root]? = some issued)
 (htop : a.scopes[issued.scope]? = some top) : top.callerId.length < call.id.length := by
 obtain ⟨issued', top', hissued', htop', hlen, -⟩ := (h.scopes _ scope hs).top
 obtain rfl : issued = issued' := some.inj (hi.symm.trans hissued')
 obtain rfl : top = top' := some.inj (htop.symm.trans htop')
 obtain ⟨scope', hscope', hid⟩ := h.calls c call hc
 obtain rfl : scope = scope' := some.inj (hs.symm.trans hscope')
 obtain ⟨n, -, heq⟩ := hid hstage
 rw [heq]
 exact lt_of_le_of_lt hlen (idOf_length _ _)

/-- **Ids below one model-issued call are distinct.** -/
theorem Named.distinct (h : Named a) {d : Nat} {callD : CallAccount}
 (hc : a.calls[c]? = some call) (hd : a.calls[d]? = some callD)
 (hroot : a.rootOf call = a.rootOf callD) (hs : call.stage ≠ .entered)
 (hsD : callD.stage ≠ .entered) (hid : call.id = callD.id) : c = d := by
 -- on the scope of the first call: its caller's scope is older
 induction hk : call.scope using Nat.strongRecOn generalizing c d call callD with
 | ind k ih =>
  obtain ⟨scope, hscope, hnum⟩ := h.calls c call hc
  obtain ⟨scopeD, hscopeD, hnumD⟩ := h.calls d callD hd
  obtain ⟨n, -, heq⟩ := hnum hs
  obtain ⟨m, -, heqD⟩ := hnumD hsD
  obtain ⟨hcaller, -⟩ := idOf_inj (heq.symm.trans (hid.trans heqD))
  have hsame : scope.root = scopeD.root := by
   rw [rootOf, rootOf, hscope, hscopeD] at hroot
   exact some.inj hroot
  obtain ⟨issued, top, hissued, htop, -, hnone⟩ := (h.scopes _ scope hscope).top
  obtain ⟨issuedD, topD, hissuedD, htopD, -, hnoneD⟩ := (h.scopes _ scopeD hscopeD).top
  rw [← hsame] at hissuedD
  obtain rfl : issued = issuedD := some.inj (hissued.symm.trans hissuedD)
  obtain rfl : top = topD := some.inj (htop.symm.trans htopD)
  -- a caller's id is not the model-issued call's
  have hnot : ∀ {s : Nat} {scope' : ScopeAccount} {p : Nat}, a.scopes[s]? = some scope' →
   scope'.root = scope.root → scope'.call = some p → top.callerId ≠ scope'.callerId := by
   intro s scope' p hs' hroot' hp heq'
   obtain ⟨callP, above, hcallP, -, -, hstageP, hidP, habove, hrootP⟩ := (h.scopes s scope' hs').above p hp
   have hlt := h.length_lt hcallP hstageP habove (by rw [hrootP, hroot']; exact hissued) htop
   rw [heq', hidP] at hlt
   exact absurd hlt (Nat.lt_irrefl _)
  cases hp : scope.call with
  | none =>
   obtain rfl : top = scope := by
    rw [hnone hp] at htop
    exact some.inj (htop.symm.trans hscope)
   cases hq : scopeD.call with
   | none =>
    have heqs : call.scope = callD.scope := (hnone hp).symm.trans (hnoneD hq)
    exact h.apart c d call callD hc hd heqs hs hsD hid
   | some q => exact absurd hcaller (hnot hscopeD hsame.symm hq)
  | some p =>
   cases hq : scopeD.call with
   | none =>
    obtain rfl : top = scopeD := by
     rw [hnoneD hq] at htop
     exact some.inj (htop.symm.trans hscopeD)
    exact absurd hcaller.symm (hnot hscope rfl hp)
   | some q =>
    obtain ⟨callP, above, hcallP, hchild, hlt, hstageP, hidP, habove, hrootP⟩ :=
     (h.scopes _ scope hscope).above p hp
    obtain ⟨callQ, aboveQ, hcallQ, hchildQ, -, hstageQ, hidQ, haboveQ, hrootQ⟩ :=
     (h.scopes _ scopeD hscopeD).above q hq
    have hpq : p = q := by
     refine ih callP.scope (hk ▸ hlt) hcallP hcallQ ?_ hstageP hstageQ ?_ rfl
     · rw [rootOf, rootOf, habove, haboveQ]
       exact congrArg some (hrootP.trans (hsame.trans hrootQ.symm))
     · rw [← hidP, ← hidQ, hcaller]
    subst hpq
    obtain rfl : callP = callQ := some.inj (hcallP.symm.trans hcallQ)
    have heqs : call.scope = callD.scope := some.inj (hchild.symm.trans hchildQ)
    exact h.apart c d call callD hc hd heqs hs hsD hid

/-! ## The record -/

/-- What holds of the record of a model-issued call: it lists the calls below it, in the
order they took their places, none before a call that had its place when it was admitted. -/
structure ListedIn (jsonBytes : Value → Nat) (a : NestedAccounts) (i : Nat)
 (recorder : NestedCallRecorder) : Prop where
 kept : recorder.Kept jsonBytes
 nodup : recorder.started.Nodup
 seen : ∀ (c : Nat) call, a.calls[c]? = some call → a.rootOf call = some i →
  call.seen ≤ recorder.started.length
 recorded : ∀ (c : Nat) call, a.calls[c]? = some call → a.rootOf call = some i →
  (call.stage = .recorded ↔ c ∈ recorder.started)
 listed : ∀ (j c : Nat), recorder.started[j]? = some c → ∃ call, a.calls[c]? = some call
  ∧ a.rootOf call = some i ∧ call.seen ≤ j
  ∧ call.record = (if j < nestedCallLimits.maxCalls then some j else none)
  ∧ ∀ record, recorder.calls[j]? = some record → record.id = call.id ∧ record.name = call.name
   ∧ (record.status ≠ .unfinished ↔ call.finished = true)

/-- What holds of the records not yet taken. -/
structure Listed (jsonBytes : Value → Nat) (a : NestedAccounts) : Prop where
 fresh : ∀ (c : Nat) call, a.calls[c]? = some call → call.stage ≠ .recorded → call.finished = false
 records : ∀ (i : Nat) issued, a.issued[i]? = some issued → issued.taken = false →
  ListedIn jsonBytes a i issued.recorder

/-- Two calls a record makes no difference between. -/
structure Alike (call call' : CallAccount) : Prop where
 seen : call'.seen = call.seen
 stage : call'.stage = .recorded ↔ call.stage = .recorded
 entry : call.stage = .recorded → call'.id = call.id ∧ call'.name = call.name
  ∧ call'.record = call.record ∧ call'.finished = call.finished

theorem Alike.refl (call : CallAccount) : Alike call call :=
 ⟨rfl, Iff.rfl, fun _ => ⟨rfl, rfl, rfl, rfl⟩⟩

theorem Named.rootOf_keep (h : Named a) (hkeeps : Keeps a a')
 (hc : a.calls[c]? = some call) (hscope : call'.scope = call.scope) :
 a'.rootOf call' = a.rootOf call := by
 obtain ⟨scope, hs, -⟩ := h.calls c call hc
 obtain ⟨scope', hs', hsame⟩ := hkeeps.scopes _ scope hs
 rw [rootOf, rootOf, hscope, hs, hs']
 exact congrArg some hsame.root

variable {recorder : NestedCallRecorder}

section

variable (h : ListedIn jsonBytes a i recorder)

include h

/-- A record holds on while its own calls are alike, and new ones have no place. -/
theorem ListedIn.same
 (hcalls : ∀ (c : Nat) call', a'.calls[c]? = some call' → a'.rootOf call' = some i →
  (∃ call, a.calls[c]? = some call ∧ a.rootOf call = some i ∧ Alike call call')
  ∨ (a.calls.length ≤ c ∧ call'.stage ≠ .recorded ∧ call'.seen ≤ recorder.started.length))
 (hkeep : ∀ (c : Nat) call, a.calls[c]? = some call → a.rootOf call = some i →
  ∃ call', a'.calls[c]? = some call' ∧ a'.rootOf call' = some i ∧ Alike call call') :
 ListedIn jsonBytes a' i recorder := by
 refine ⟨h.kept, h.nodup, fun c call' hc hroot => ?_, fun c call' hc hroot => ?_, fun j c hj => ?_⟩
 · rcases hcalls c call' hc hroot with ⟨call, hget, hold, halike⟩ | ⟨-, -, hseen⟩
   · rw [halike.seen]
     exact h.seen c call hget hold
   · exact hseen
 · rcases hcalls c call' hc hroot with ⟨call, hget, hold, halike⟩ | ⟨hnew, hstage, -⟩
   · rw [halike.stage]
     exact h.recorded c call hget hold
   · refine ⟨fun hs => absurd hs hstage, fun hmem => ?_⟩
     obtain ⟨j, hj⟩ := getElem?_of_mem hmem
     obtain ⟨call, hget, -⟩ := h.listed j c hj
     have := (List.getElem_of_getElem? hget).1
     omega
 · obtain ⟨call, hget, hroot, hseen, hrecord, hlisted⟩ := h.listed j c hj
   obtain ⟨call', hget', hroot', halike⟩ := hkeep c call hget hroot
   have hstage := (h.recorded c call hget hroot).mpr (mem_of_getElem? hj)
   obtain ⟨hid, hname, hrecord', hfinished⟩ := halike.entry hstage
   refine ⟨call', hget', hroot', by rw [halike.seen]; exact hseen,
    hrecord'.trans hrecord, fun record hr => ?_⟩
   rw [hid, hname, hfinished]
   exact hlisted record hr

theorem ListedIn.start (hc : a.calls[c]? = some call)
 (hstage : call.stage = .numbered) (hfresh : call.finished = false) (hroot : a.rootOf call = some i)
 (args : Value) (hcalls : a'.calls = a.calls.set c call')
 (hroots : ∀ (d : Nat) callD callD', a.calls[d]? = some callD → callD'.scope = callD.scope →
  a'.rootOf callD' = a.rootOf callD)
 (hcall' : call' = { call with
  stage := .recorded
  record := (recorder.start jsonBytes c call.id call.name args).1 }) :
 ListedIn jsonBytes a' i (recorder.start jsonBytes c call.id call.name args).2 := by
 have hnot : c ∉ recorder.started := fun hmem => by
  have := (h.recorded c call hc hroot).mpr hmem
  rw [hstage] at this
  simp at this
 have hstarted : (recorder.start jsonBytes c call.id call.name args).2.started
  = recorder.started ++ [c] := by
  rcases start_cases jsonBytes recorder c call.id call.name args with
   ⟨-, heq⟩ | ⟨-, record, -, -, -, -, -, heq⟩ <;> rw [heq]
 have hget : a'.calls[c]? = some call' := by
  rw [hcalls]
  exact getElem?_set_self (List.getElem_of_getElem? hc).1
 have hother : ∀ (d : Nat) callD', a'.calls[d]? = some callD' → d ≠ c → a.calls[d]? = some callD' := by
  intro d callD' hd hne
  rwa [hcalls, getElem?_set_ne (Ne.symm hne)] at hd
 have hback : ∀ (d : Nat) callD, a.calls[d]? = some callD → d ≠ c → a'.calls[d]? = some callD := by
  intro d callD hd hne
  rw [hcalls, getElem?_set_ne (Ne.symm hne)]
  exact hd
 refine ⟨h.kept.start c call.id call.name args, ?_, fun d callD' hd hrootD => ?_,
  fun d callD' hd hrootD => ?_, fun j d hj => ?_⟩
 · rw [hstarted]
   refine nodup_append.mpr ⟨h.nodup, nodup_singleton c, fun x hx y hy => ?_⟩
   rw [mem_singleton.mp hy]
   rintro rfl
   exact hnot hx
 · rw [hstarted, length_append, length_singleton]
   refine le_succ_of_le ?_
   by_cases hdc : d = c
   · subst hdc
     obtain rfl : call' = callD' := some.inj (hget.symm.trans hd)
     rw [hcall']
     exact h.seen d call hc hroot
   · have hold := hother d callD' hd hdc
     rw [hroots d callD' callD' hold rfl] at hrootD
     exact h.seen d callD' hold hrootD
 · rw [hstarted, mem_append, mem_singleton]
   by_cases hdc : d = c
   · subst hdc
     obtain rfl : call' = callD' := some.inj (hget.symm.trans hd)
     rw [hcall']
     exact ⟨fun _ => .inr rfl, fun _ => rfl⟩
   · have hold := hother d callD' hd hdc
     rw [hroots d callD' callD' hold rfl] at hrootD
     rw [or_iff_left hdc]
     exact h.recorded d callD' hold hrootD
 rw [hstarted] at hj
 have hlen := h.kept.first
 rcases getElem?_snoc_some hj with ⟨rfl, rfl⟩ | ⟨hlt, hj⟩
 · -- the new place
   refine ⟨call', hget, ?_, ?_, ?_, fun record hr => ?_⟩
   · rw [hroots d call call' hc (by rw [hcall']), hroot]
   · rw [hcall']
     exact h.seen d call hc hroot
   · rw [hcall']
     rcases start_cases jsonBytes recorder d call.id call.name args with
      ⟨hfull, heq⟩ | ⟨hroom, record, -, -, -, -, -, heq⟩ <;> simp only [heq]
     · rw [if_neg (by omega)]
     · rw [if_pos (by omega), show recorder.calls.length = recorder.started.length by omega]
   · rw [hcall']
     rcases start_cases jsonBytes recorder d call.id call.name args with
      ⟨hfull, heq⟩ | ⟨hroom, new, hid, hname, hstatus, -, -, heq⟩ <;> rw [heq] at hr
     · have := (List.getElem_of_getElem? hr).1
       simp only at this
       omega
     · have hpos : recorder.started.length = recorder.calls.length := by omega
       rw [hpos, getElem?_concat_length, some.injEq] at hr
       subst hr
       exact ⟨hid, hname, by simp [hstatus, hfresh]⟩
 · obtain ⟨callD, hgetD, hrootD, hseen, hrecord, hlisted⟩ := h.listed j d hj
   have hdc : d ≠ c := fun heq => hnot (heq ▸ mem_of_getElem? hj)
   refine ⟨callD, hback d callD hgetD hdc, by rw [hroots d callD callD hgetD rfl]; exact hrootD,
    hseen, hrecord, fun record hr => hlisted record ?_⟩
   rcases start_cases jsonBytes recorder c call.id call.name args with
    ⟨-, heq⟩ | ⟨hroom, new, -, -, -, -, -, heq⟩ <;> rw [heq] at hr
   · exact hr
   · rcases getElem?_snoc_some hr with ⟨rfl, -⟩ | ⟨-, hr⟩
     · omega
     · exact hr

theorem ListedIn.finish (hc : a.calls[c]? = some call)
 (hstage : call.stage = .recorded) (hroot : a.rootOf call = some i) (isError : Bool)
 (text : String) (hcalls : a'.calls = a.calls.set c call')
 (hroots : ∀ (d : Nat) callD callD', a.calls[d]? = some callD → callD'.scope = callD.scope →
  a'.rootOf callD' = a.rootOf callD)
 (hcall' : call' = { call with finished := true }) :
 ListedIn jsonBytes a' i (recorder.finish call.record isError text) := by
 have hget : a'.calls[c]? = some call' := by
  rw [hcalls]
  exact getElem?_set_self (List.getElem_of_getElem? hc).1
 have hstarted : (recorder.finish call.record isError text).started = recorder.started := by
  rw [finish_eq]
 obtain ⟨k, hk⟩ := getElem?_of_mem ((h.recorded c call hc hroot).mp hstage)
 obtain ⟨call₀, hc₀, -, -, hplace, -⟩ := h.listed k c hk
 obtain rfl : call = call₀ := Option.some.inj (hc.symm.trans hc₀)
 have hentry : ∀ (j : Nat) record,
  (recorder.finish call.record isError text).calls[j]? = some record →
  ∃ old, recorder.calls[j]? = some old ∧ record.id = old.id ∧ record.name = old.name
   ∧ (j ≠ k → record = old) ∧ (j = k → record.status ≠ .unfinished) := by
  intro j record hr
  rw [hplace] at hr
  split at hr
  · simp only [NestedCallRecorder.finish, getElem?_modify] at hr
    cases hold : recorder.calls[j]? with
    | none => rw [hold] at hr; simp at hr
    | some old =>
     simp only [hold, Option.map_eq_map, Option.map_some, Option.some.injEq] at hr
     refine ⟨old, rfl, ?_⟩
     by_cases hkj : k = j
     · rw [if_pos hkj] at hr
       subst hr
       refine ⟨rfl, rfl, fun hne => absurd hkj.symm hne, fun _ => ?_⟩
       simp only [finished]
       split <;> simp
     · rw [if_neg hkj] at hr
       subst hr
       exact ⟨rfl, rfl, fun _ => rfl, fun heq => absurd heq.symm hkj⟩
  · -- a dropped call has no entry
    rename_i hfull
    have hlt := (List.getElem_of_getElem? hr).1
    have hlen := h.kept.first
    refine ⟨record, hr, rfl, rfl, fun _ => rfl, fun heq => ?_⟩
    simp only [NestedCallRecorder.finish] at hlt
    omega
 refine ⟨h.kept.finish _ _ _, by rw [hstarted]; exact h.nodup, fun d callD' hd hrootD => ?_,
  fun d callD' hd hrootD => ?_, fun j d hj => ?_⟩
 · rw [hstarted]
   rw [hcalls] at hd
   rcases getElem?_set_some hd with ⟨rfl, rfl⟩ | ⟨-, hold⟩
   · rw [hcall']
     exact h.seen d call hc hroot
   · rw [hroots d callD' callD' hold rfl] at hrootD
     exact h.seen d callD' hold hrootD
 · rw [hstarted]
   rw [hcalls] at hd
   rcases getElem?_set_some hd with ⟨rfl, rfl⟩ | ⟨-, hold⟩
   · rw [hcall']
     exact h.recorded d call hc hroot
   · rw [hroots d callD' callD' hold rfl] at hrootD
     exact h.recorded d callD' hold hrootD
 rw [hstarted] at hj
 obtain ⟨callD, hgetD, hrootD, hseen, hrecord, hlisted⟩ := h.listed j d hj
 by_cases hdc : d = c
 · subst hdc
   obtain rfl : call = callD := Option.some.inj (hc.symm.trans hgetD)
   have hjk : j = k :=
    (getElem?_inj (List.getElem_of_getElem? hj).1 h.nodup).mp (hj.trans hk.symm)
   refine ⟨call', hget, by rw [hroots d call call' hc (by rw [hcall'])]; exact hroot,
    by rw [hcall']; exact hseen, by rw [hcall']; exact hrecord, fun record hr => ?_⟩
   obtain ⟨old, hold, hid, hname, -, hfinished⟩ := hentry j record hr
   obtain ⟨hid', hname', -⟩ := hlisted old hold
   rw [hcall', hid, hname]
   exact ⟨hid', hname', fun _ => rfl, fun _ => hfinished hjk⟩
 · have hback : a'.calls[d]? = some callD := by
    rw [hcalls, getElem?_set_ne (Ne.symm hdc)]
    exact hgetD
   refine ⟨callD, hback, by rw [hroots d callD callD hgetD rfl]; exact hrootD, hseen, hrecord,
    fun record hr => ?_⟩
   obtain ⟨old, hold, hid, hname, hsame, -⟩ := hentry j record hr
   have hjk : j ≠ k := by
    rintro rfl
    exact hdc (Option.some.inj (hj.symm.trans hk))
   rw [hsame hjk]
   exact hlisted old hold

end

/-- **Records not yet taken hold on**, whatever happens. -/
theorem Listed.step (h : Listed jsonBytes a) (hn : Named a) (hstep : Step jsonBytes a a') :
 Listed jsonBytes a' := by
 have hkeeps := hstep.keeps
 have hroots : ∀ (d : Nat) callD callD', a.calls[d]? = some callD → callD'.scope = callD.scope →
  a'.rootOf callD' = a.rootOf callD := fun d _ _ hd hs => hn.rootOf_keep hkeeps hd hs
 -- one call is changed, in a way that makes no difference to the record of a root
 have hset : ∀ {i c : Nat} {recorder : NestedCallRecorder} {call call' : CallAccount},
  ListedIn jsonBytes a i recorder → a.calls[c]? = some call → a'.calls = a.calls.set c call' →
  call'.scope = call.scope → (a.rootOf call = some i → Alike call call') →
  ListedIn jsonBytes a' i recorder := by
  intro i c recorder call call' hold hc hcalls hscope halike
  refine hold.same (fun d callD' hd hroot => .inl ?_) fun d callD hd hroot => ?_
  · rw [hcalls] at hd
    rcases getElem?_set_some hd with ⟨rfl, rfl⟩ | ⟨-, hd⟩
    · rw [hroots d call _ hc hscope] at hroot
      exact ⟨call, hc, hroot, halike hroot⟩
    · rw [hroots d callD' callD' hd rfl] at hroot
      exact ⟨callD', hd, hroot, .refl callD'⟩
  · rw [hcalls]
    rcases getElem?_set_of call' hc hd with ⟨rfl, rfl, hget⟩ | ⟨-, hget⟩
    · exact ⟨call', hget, by rw [hroots d callD call' hd hscope]; exact hroot, halike hroot⟩
    · exact ⟨callD, hget, by rw [hroots d callD callD hd rfl]; exact hroot, .refl callD⟩
 have hstay : ∀ {i : Nat} {recorder : NestedCallRecorder}, ListedIn jsonBytes a i recorder →
  a'.calls = a.calls → ListedIn jsonBytes a' i recorder := by
  intro i recorder hold hcalls
  refine hold.same (fun d callD' hd hroot => .inl ?_) fun d callD hd hroot => ?_
  · rw [hcalls] at hd
    rw [hroots d callD' callD' hd rfl] at hroot
    exact ⟨callD', hd, hroot, .refl callD'⟩
  · rw [hcalls]
    exact ⟨callD, hd, by rw [hroots d callD callD hd rfl]; exact hroot, .refl callD⟩
 have hfresh : ∀ {c : Nat} {call call' : CallAccount}, a.calls[c]? = some call →
  (call'.stage ≠ .recorded → call'.finished = call.finished ∧ call.stage ≠ .recorded) →
  ∀ (d : Nat) callD', (a.calls.set c call')[d]? = some callD' → callD'.stage ≠ .recorded →
  callD'.finished = false := by
  intro c call call' hc hchange d callD' hd hs
  rcases getElem?_set_some hd with ⟨rfl, rfl⟩ | ⟨-, hd⟩
  · rw [(hchange hs).1]
    exact h.fresh d call hc (hchange hs).2
  · exact h.fresh d callD' hd hs
 cases hstep with
 | stay => exact h
 | issue callerId =>
  refine ⟨h.fresh, fun i issued' hi htaken => ?_⟩
  rcases getElem?_snoc_some hi with ⟨rfl, rfl⟩ | ⟨-, hi⟩
  · -- no call is below a model-issued call that was not there
    have hnone : ∀ (c : Nat) call, a.calls[c]? = some call →
     a.rootOf call ≠ some a.issued.length := by
     intro c call hc hroot
     obtain ⟨scope, hs, -⟩ := hn.calls c call hc
     obtain ⟨issued, -, hissued, -⟩ := (hn.scopes _ scope hs).top
     rw [rootOf, hs, map_some, some.injEq] at hroot
     have := (List.getElem_of_getElem? hissued).1
     omega
    refine ⟨kept_new, nodup_nil, fun c call hc hroot => ?_,
     fun c call hc hroot => ?_, fun j c hj => absurd hj (by simp [new])⟩
    all_goals exact absurd ((hroots c call call hc rfl).symm.trans hroot) (hnone c call hc)
  · exact hstay (h.records i issued' hi htaken) rfl
 | @admitted s scope name hs =>
  refine ⟨fun c call hc hstage => ?_, fun i issued hi htaken => ?_⟩
  · rcases getElem?_snoc_some hc with ⟨-, rfl⟩ | ⟨-, hc⟩
    · rfl
    · exact h.fresh c call hc hstage
  · refine (h.records i issued hi htaken).same (fun c call hc hroot => ?_) fun c call hc hroot => ?_
    · rcases getElem?_snoc_some hc with ⟨rfl, rfl⟩ | ⟨-, hc⟩
      · refine .inr ⟨le_refl _, by simp, ?_⟩
        rw [rootOf, hs, map_some, some.injEq] at hroot
        change a.recorded scope.root ≤ _
        rw [recorded, hroot, hi]
        exact le_refl _
      · rw [hroots c call call hc rfl] at hroot
        exact .inl ⟨call, hc, hroot, .refl call⟩
    · exact ⟨call, getElem?_snoc hc, by rw [hroots c call call hc rfl]; exact hroot, .refl call⟩
 | number hc hs hstage =>
  have hnot : ∀ stage, CallStage.entered = stage → stage ≠ CallStage.recorded := by
   rintro _ rfl
   simp
  refine ⟨hfresh hc fun _ => ⟨rfl, hnot _ hstage.symm⟩, fun i issued hi htaken => ?_⟩
  refine hset (h.records i issued hi htaken) hc rfl rfl fun _ => ⟨rfl, ?_, fun hr => ?_⟩
  · simp [hstage]
  · exact absurd hr (hnot _ hstage.symm)
 | @record c call scope issued args hc hs hi hstage =>
  have hroot : a.rootOf call = some scope.root := by
   rw [rootOf, hs]
   rfl
  refine ⟨hfresh hc fun hne => absurd rfl hne, fun i issued' hi' htaken => ?_⟩
  rcases getElem?_set_some hi' with ⟨rfl, rfl⟩ | ⟨hne, hi'⟩
  · exact (h.records _ issued hi htaken).start hc hstage
     (h.fresh c call hc (by rw [hstage]; simp)) hroot args rfl hroots rfl
  · refine hset (h.records i issued' hi' htaken) hc rfl rfl fun hroot' => ?_
    exact absurd (some.inj (hroot'.symm.trans hroot)) hne
 | prepare hc hs hstage hchild =>
  refine ⟨hfresh hc fun hne => ⟨rfl, hne⟩, fun i issued hi htaken => ?_⟩
  exact hset (h.records i issued hi htaken) hc rfl rfl
   fun _ => ⟨rfl, Iff.rfl, fun _ => ⟨rfl, rfl, rfl, rfl⟩⟩
 | @finish c call scope issued isError text hc hs hi hstage =>
  have hroot : a.rootOf call = some scope.root := by
   rw [rootOf, hs]
   rfl
  refine ⟨hfresh hc fun hne => absurd hstage hne, fun i issued' hi' htaken => ?_⟩
  rcases getElem?_set_some hi' with ⟨rfl, rfl⟩ | ⟨hne, hi'⟩
  · exact (h.records _ issued hi htaken).finish hc hstage hroot isError text rfl hroots rfl
  · refine hset (h.records i issued' hi' htaken) hc rfl rfl fun hroot' => ?_
    exact absurd (some.inj (hroot'.symm.trans hroot)) hne
 | take hi =>
  refine ⟨h.fresh, fun j issued hj htaken => ?_⟩
  rcases getElem?_set_some hj with ⟨rfl, rfl⟩ | ⟨-, hj⟩
  · simp at htaken
  · exact hstay (h.records j issued hj htaken) rfl

/-- The books before anything happened. -/
def empty : NestedAccounts := { issued := [], scopes := [], calls := [] }

theorem named_empty : Named empty where
 scopes := fun s scope hs => absurd hs (by simp [empty])
 calls := fun c call hc => absurd hc (by simp [empty])
 apart := fun c d call callD hc => absurd hc (by simp [empty])

theorem listed_empty : Listed jsonBytes empty where
 fresh := fun c call hc => absurd hc (by simp [empty])
 records := fun i issued hi => absurd hi (by simp [empty])

end NestedAccounts

end Bake.Agent
