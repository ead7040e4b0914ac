import Bake.Ai.Transcript

/-!
# The tools a transcript declares

What replaying the system messages of a transcript comes to, name by name: a later
declaration takes the place of an earlier one, a removal ends it. The changes between two
tool states, replayed behind the first, give the second.
-/

open List

namespace Bake.Ai

def named (tools : List Tool) (name : String) : Option Tool := tools.find? (·.name = name)

def DistinctNames (tools : List Tool) : Prop := (tools.map Tool.name).Nodup

variable {name : String} {tool : Tool} {tools current previous : List Tool} {shown : Tool → String}

theorem named_name (h : named tools name = some tool) : tool.name = name := by
 have := find?_some h
 simpa using this

theorem named_mem (h : named tools name = some tool) : tool ∈ tools := mem_of_find?_eq_some h

theorem named_eq_none : named tools name = none ↔ ∀ tool ∈ tools, tool.name ≠ name := by
 rw [named, find?_eq_none]
 simp

theorem named_cons (tool : Tool) (tools : List Tool) (name : String) :
 named (tool :: tools) name = if tool.name = name then some tool else named tools name := by
 rw [named, find?_cons]
 by_cases h : tool.name = name <;> simp [h, named]

theorem named_append (before after : List Tool) (name : String) :
 named (before ++ after) name = (named before name).or (named after name) :=
 find?_append

theorem named_of_mem (h : DistinctNames tools) (hmem : tool ∈ tools) :
 named tools tool.name = some tool := by
 induction tools with
 | nil => simp at hmem
 | cons first rest ih =>
  rw [DistinctNames, map_cons, nodup_cons] at h
  rw [named_cons]
  rcases mem_cons.mp hmem with rfl | hrest
  · rw [if_pos rfl]
  · have hne : first.name ≠ tool.name := fun he =>
     h.1 (he ▸ mem_map_of_mem hrest)
    rw [if_neg hne]
    exact ih h.2 hrest

theorem toolNamed_eq_named (h : DistinctNames tools) (name : String) :
 toolNamed tools name = named tools name := by
 cases hf : named tools name with
 | none =>
  rw [named_eq_none] at hf
  rw [toolNamed, find?_eq_none]
  intro tool htool
  simpa using hf tool (mem_reverse.mp htool)
 | some tool =>
  have hname := named_name hf
  cases hl : toolNamed tools name with
  | none =>
   rw [toolNamed, find?_eq_none] at hl
   exact absurd (by simpa using hname) (hl tool (mem_reverse.mpr (named_mem hf)))
  | some other =>
   have hother : other ∈ tools := mem_reverse.mp (mem_of_find?_eq_some hl)
   have hsame : other.name = name := by simpa using find?_some hl
   rw [← hf, ← hsame, named_of_mem h hother]

/-! ## One declaration, one removal -/

theorem replaceF_named {added : Tool} (name : String) (h : ∃ tool ∈ tools, tool.name = added.name) :
 named (tools.replaceF fun tool => if tool.name = added.name then some added else none) name
  = if added.name = name then some added else named tools name := by
 induction tools with
 | nil => simp at h
 | cons first rest ih =>
  rw [List.replaceF]
  by_cases hfirst : first.name = added.name
  · rw [if_pos hfirst]
    simp only [named_cons, hfirst]
    split <;> rfl
  · rw [if_neg hfirst]
    simp only [named_cons]
    obtain ⟨tool, htool, hname⟩ := h
    rw [ih ⟨tool, (mem_cons.mp htool).resolve_left fun he => hfirst (he ▸ hname), hname⟩]
    by_cases hat : added.name = name
    · rw [if_pos hat, if_pos hat, if_neg fun he => hfirst (he.trans hat.symm)]
    · rw [if_neg hat, if_neg hat]

/-- **A declaration takes its name**, whatever was under it. -/
theorem named_declareTool (tools : List Tool) (added : Tool) (name : String) :
 named (declareTool tools added) name
  = if added.name = name then some added else named tools name := by
 unfold declareTool
 split
 next hany =>
  simp only [any_eq_true, decide_eq_true_eq] at hany
  exact replaceF_named name hany
 next hany =>
  simp only [any_eq_true, decide_eq_true_eq, not_exists, not_and] at hany
  rw [named_append, named_cons]
  by_cases hat : added.name = name
  · rw [if_pos hat, if_pos hat, named_eq_none.mpr (hat ▸ hany)]
    rfl
  · rw [if_neg hat, if_neg hat]
    exact Option.or_none

theorem names_replaceF (tools : List Tool) (added : Tool) :
 (tools.replaceF fun tool => if tool.name = added.name then some added else none).map Tool.name
  = tools.map Tool.name := by
 induction tools with
 | nil => rfl
 | cons first rest ih =>
  rw [List.replaceF]
  by_cases hfirst : first.name = added.name
  · rw [if_pos hfirst]
    simp [hfirst]
  · rw [if_neg hfirst]
    simp [ih]

theorem DistinctNames.declareTool (h : DistinctNames tools) (added : Tool) :
 DistinctNames (declareTool tools added) := by
 unfold Ai.declareTool DistinctNames
 split
 · rw [names_replaceF]
   exact h
 next hany =>
  simp only [any_eq_true, decide_eq_true_eq, not_exists, not_and] at hany
  rw [map_append, nodup_append]
  refine ⟨h, nodup_singleton _, fun name hname other hother he => ?_⟩
  obtain ⟨tool, htool, rfl⟩ := mem_map.mp hname
  exact hany tool htool (he.trans (mem_singleton.mp hother))

/-! ## One system message -/

theorem named_declared (tools added : List Tool) (name : String) :
 named (added.foldl declareTool tools) name = (toolNamed added name).or (named tools name) := by
 induction added generalizing tools with
 | nil => rfl
 | cons first rest ih =>
  rw [foldl_cons, ih, named_declareTool, toolNamed, toolNamed, reverse_cons, find?_append]
  by_cases hat : first.name = name
  all_goals cases rest.reverse.find? (·.name = name) <;> simp [hat]

theorem removed_eq_filter (tools : List Tool) (removed : List String) :
 removed.foldl (fun tools name => tools.filter (·.name ≠ name)) tools
  = tools.filter (·.name ∉ removed) := by
 induction removed generalizing tools with
 | nil => simp
 | cons first rest ih =>
  rw [foldl_cons, ih, filter_filter]
  refine filter_congr fun tool _ => ?_
  simp [Bool.and_comm]

theorem named_filter (tools : List Tool) (removed : List String) (name : String) :
 named (tools.filter (·.name ∉ removed)) name
  = if name ∈ removed then none else named tools name := by
 split
 next hmem =>
  rw [named_eq_none]
  intro tool htool he
  exact absurd (he ▸ hmem) (by simpa using (mem_filter.mp htool).2)
 next hmem =>
  rw [named, named, find?_filter]
  refine congrArg (fun p => List.find? p tools) (funext fun tool => ?_)
  by_cases hat : tool.name = name
  · simp [hat, hmem]
  · simp [hat]

/-- **What a system message leaves under a name**: its last declaration there, or nothing if
it removes the name, or what was there. -/
theorem named_changeTools (tools : List Tool) (message : SystemMessage) (name : String) :
 named (changeTools tools message) name = (toolNamed (message.toolsAdded.getD []) name).or
   (if name ∈ message.toolsRemoved.getD [] then none else named tools name) := by
 rw [changeTools, named_declared, removed_eq_filter, named_filter]

theorem DistinctNames.filter (h : DistinctNames tools) (p : Tool → Bool) :
 DistinctNames (tools.filter p) := h.sublist (filter_sublist.map _)

theorem DistinctNames.changeTools (h : DistinctNames tools) (message : SystemMessage) :
 DistinctNames (changeTools tools message) := by
 rw [Ai.changeTools, removed_eq_filter]
 generalize message.toolsAdded.getD [] = added
 have hkept : DistinctNames (tools.filter (·.name ∉ message.toolsRemoved.getD [])) := h.filter _
 generalize tools.filter (·.name ∉ message.toolsRemoved.getD []) = kept at hkept
 induction added generalizing kept with
 | nil => exact hkept
 | cons first rest ih => exact ih _ (hkept.declareTool first)

theorem currentTools_append (before after : List SystemMessage) :
 currentTools (before ++ after) = after.foldl changeTools (currentTools before) :=
 foldl_append

theorem distinct_currentTools (systems : List SystemMessage) :
 DistinctNames (currentTools systems) := by
 unfold currentTools
 have hnil : DistinctNames ([] : List Tool) := nodup_nil
 generalize ([] : List Tool) = tools at hnil
 induction systems generalizing tools with
 | nil => exact hnil
 | cons first rest ih => exact ih _ (hnil.changeTools first)

theorem changeTools_none (tools : List Tool) {message : SystemMessage}
 (hadded : message.toolsAdded.getD [] = []) (hremoved : message.toolsRemoved.getD [] = []) :
 changeTools tools message = tools := by
 rw [changeTools, hadded, hremoved]
 rfl

/-! ## The changes between two tool states -/

def SameTools (shown : Tool → String) (declared tools : List Tool) : Prop :=
 ∀ name, (named declared name).map shown = (named tools name).map shown

theorem added_mem : tool ∈ (getToolStateChanges shown previous current).1
  ↔ tool ∈ current ∧ ∀ old, toolNamed previous tool.name = some old → shown old ≠ shown tool := by
 rw [getToolStateChanges, mem_filter]
 refine and_congr_right fun _ => ?_
 cases toolNamed previous tool.name <;> simp [declarationsEqual]

theorem removed_mem : name ∈ (getToolStateChanges shown previous current).2
  ↔ ∃ tool ∈ previous, tool.name = name
   ∧ ∀ new, toolNamed current tool.name = some new → shown tool ≠ shown new := by
 rw [getToolStateChanges, mem_map]
 refine exists_congr fun tool => ?_
 rw [mem_filter]
 cases toolNamed current tool.name <;>
  simp [declarationsEqual, and_comm, and_assoc]

theorem distinct_added (h : DistinctNames current) :
 DistinctNames (getToolStateChanges shown previous current).1 := h.filter _

/-- What is added under a name: its tool, unless it was declared the same. -/
theorem named_added {shown : Tool → String} {previous current : List Tool}
 (hprevious : DistinctNames previous) (hcurrent : DistinctNames current) (name : String) :
 toolNamed (getToolStateChanges shown previous current).1 name
  = if (named previous name).map shown = (named current name).map shown then none
   else named current name := by
 rw [toolNamed_eq_named (distinct_added hcurrent)]
 cases hc : named current name with
 | none =>
  have hnone : named (getToolStateChanges shown previous current).1 name = none := by
   rw [named_eq_none] at hc ⊢
   exact fun tool htool => hc tool (added_mem.mp htool).1
  rw [hnone, ite_self]
 | some tool =>
  have hname := named_name hc
  split
  next hsame =>
   rw [named_eq_none]
   intro other hother he
   obtain ⟨hmem, hdiff⟩ := added_mem.mp hother
   have hsome : named current name = some other := he ▸ named_of_mem hcurrent hmem
   cases hc.symm.trans hsome
   obtain ⟨old, hold, hshown⟩ := Option.map_eq_some_iff.mp hsame
   refine hdiff old ?_ hshown
   rw [toolNamed_eq_named hprevious, hname, hold]
  next hdiff =>
   have hmem : tool ∈ (getToolStateChanges shown previous current).1 := by
    refine added_mem.mpr ⟨named_mem hc, fun old hold hshown => hdiff ?_⟩
    rw [toolNamed_eq_named hprevious, hname] at hold
    rw [hold, Option.map_some, Option.map_some, hshown]
   rw [← hname]
   exact named_of_mem (distinct_added hcurrent) hmem

theorem named_removed (hcurrent : DistinctNames current)
 (h : (named previous name).map shown ≠ (named current name).map shown)
 (htool : named previous name = some tool) :
 name ∈ (getToolStateChanges shown previous current).2 := by
 have hname := named_name htool
 refine removed_mem.mpr ⟨tool, named_mem htool, hname, fun new hnew hshown => h ?_⟩
 rw [toolNamed_eq_named hcurrent, hname] at hnew
 rw [htool, hnew, Option.map_some, Option.map_some, hshown]

section

variable (hprevious : DistinctNames previous)

include hprevious

theorem not_removed (hcurrent : DistinctNames current)
 (h : (named previous name).map shown = (named current name).map shown) :
 name ∉ (getToolStateChanges shown previous current).2 := by
 intro hmem
 obtain ⟨tool, htool, hname, hdiff⟩ := removed_mem.mp hmem
 rw [← hname, named_of_mem hprevious htool, Option.map_some] at h
 obtain ⟨new, hnew, hshown⟩ := Option.map_eq_some_iff.mp h.symm
 rw [← toolNamed_eq_named hcurrent] at hnew
 exact hdiff new hnew hshown.symm

/-- **The changes between two tool states lead from one to the other**: replayed behind the
first state they declare the second under every name. -/
theorem changes_replayed (hcurrent : DistinctNames current)
 {message : SystemMessage}
 (hadded : message.toolsAdded.getD [] = (getToolStateChanges shown previous current).1)
 (hremoved : message.toolsRemoved.getD [] = (getToolStateChanges shown previous current).2) :
 SameTools shown (changeTools previous message) current := by
 intro name
 rw [named_changeTools, hadded, hremoved, named_added hprevious hcurrent]
 by_cases hsame : (named previous name).map shown = (named current name).map shown
 · rw [if_pos hsame, if_neg (not_removed hprevious hcurrent hsame), Option.none_or, hsame]
 · rw [if_neg hsame]
   cases hc : named current name with
   | some tool => rfl
   | none =>
    rw [Option.none_or]
    cases hp : named previous name with
    | none => rw [ite_self]
    | some tool => rw [if_pos (named_removed hcurrent hsame hp)]

theorem changes_nil_iff (hcurrent : DistinctNames current) :
 getToolStateChanges shown previous current = ([], []) ↔ SameTools shown previous current := by
 constructor
 · intro h name
   by_contra hne
   have hadded := @named_added shown _ _ hprevious hcurrent name
   rw [h, if_neg hne] at hadded
   cases hp : named previous name with
   | none =>
    rw [hp, ← hadded] at hne
    exact hne rfl
   | some tool =>
    have hmem := named_removed hcurrent hne hp
    rw [h] at hmem
    simp at hmem
 · intro h
   refine Prod.ext (eq_nil_iff_forall_not_mem.mpr fun tool htool => ?_)
    (eq_nil_iff_forall_not_mem.mpr fun name => not_removed hprevious hcurrent (h name))
   have hadded := @named_added shown _ _ hprevious hcurrent tool.name
   rw [if_pos (h tool.name), toolNamed_eq_named (distinct_added hcurrent),
    named_of_mem (distinct_added hcurrent) htool] at hadded
   simp at hadded

end

end Bake.Ai
