import Bake.Work.Gate
import Mathlib.Data.List.ReduceOption

/-!
# The tree of a gate's tasks

A node that is still there has all its ancestors there with it, since each holds the
next. So the walk of a cancellation, which follows the children that are still there,
reaches every live task below the cancelled one, through tasks that have ended too, and
what is cancelled stays closed downwards: a task joins the tree only under a parent that
is not cancelled.
-/

open List

namespace Bake.Work.WorkGate

variable {g g' : WorkGate}

/-! ### What holds a node -/

/-- Every node was added after its parent. -/
def Ordered (g : WorkGate) : Prop := Forest.Ranked id g.parent

theorem mem_holders {m : Nat} : m ∈ g.holders ↔ some (some m) ∈ g.held ∨ g.holdsNode m = true
  ∨ ∃ closure ∈ g.blocking, closure.live = true ∧ closure.node = some m := by
 have hlt : g.holdsNode m = true → m < g.tasks.length := by
  intro h
  simp only [holdsNode, Option.any_eq_true] at h
  obtain ⟨task, htask, -⟩ := h
  exact (List.getElem_of_getElem? htask).1
 simp only [holders, mem_append, reduceOption_mem_iff, mem_filter,
  mem_range, mem_filterMap, or_assoc, and_assoc]
 exact or_congr Iff.rfl (or_congr ⟨fun h => h.2, fun h => ⟨hlt h, h⟩⟩ Iff.rfl)

variable {n : Nat} {list : List Nat}

theorem alive_iff (ho : g.Ordered) :
 g.alive n = true ↔ ∃ m ∈ g.holders, Forest.Within g.parent n m := by
 simp only [alive, any_eq_true, decide_eq_true_eq]
 constructor
 · rintro ⟨m, hm, hn⟩
   exact ⟨m, hm, (Forest.mem_lineage_iff ho (Nat.le_refl m)).mp hn⟩
 · rintro ⟨m, hm, hn⟩
   exact ⟨m, hm, (Forest.mem_lineage_iff ho (Nat.le_refl m)).mpr hn⟩

theorem alive_holder (ho : g.Ordered) {m : Nat} (h : m ∈ g.holders) : g.alive m = true :=
 (alive_iff ho).mpr ⟨m, h, .refl m⟩

theorem alive_within (ho : g.Ordered) {a : Nat} (h : g.alive n = true)
 (ha : Forest.Within g.parent a n) : g.alive a = true := by
 obtain ⟨m, hm, hn⟩ := (alive_iff ho).mp h
 exact (alive_iff ho).mpr ⟨m, hm, ha.trans hn⟩

/-! ### The tree -/

/-- The tree of a gate: nodes know their parents, each live node is on its parent's list
or among the roots, and what is cancelled is cancelled below. -/
structure Grown (g : WorkGate) : Prop where
 ordered : g.Ordered
 tasks : g.tasks.length = g.nodes.length
 known : ∀ m ∈ g.holders, m < g.nodes.length
 roots : g.roots.Nodup ∧ ∀ r ∈ g.roots, r < g.nodes.length ∧ g.parent r = none
 children : ∀ p, (g.children p).Nodup ∧ ∀ c ∈ g.children p, g.parent c = some p
 tracked : ∀ n, g.alive n = true →
  (g.parent n = none → n ∈ g.roots) ∧ ∀ p, g.parent n = some p → n ∈ g.children p
 passed : ∀ n p, g.alive n = true → g.parent n = some p → g.cancelled p = true →
  g.cancelled n = true

theorem Grown.cancelled_within (h : g.Grown) {a : Nat} (hn : g.alive n = true)
 (ha : Forest.Within g.parent a n) (hc : g.cancelled a = true) : g.cancelled n = true := by
 refine ha.induction (Q := (g.cancelled · = true)) hc fun p c hp hcn hpc => ?_
 exact h.passed c p (alive_within h.ordered hn hcn) hp hpc

theorem Grown.known_alive (h : g.Grown) (hn : g.alive n = true) : n < g.nodes.length := by
 obtain ⟨m, hm, hw⟩ := (alive_iff h.ordered).mp hn
 have hlt := h.known m hm
 rcases h.ordered.within hw with rfl | hr
 · exact hlt
 · exact Nat.lt_trans hr hlt

theorem Grown.keep (h : g.Grown) (hnodes : g'.nodes = g.nodes) (hroots : g'.roots = g.roots)
 (htasks : g'.tasks.length = g.tasks.length)
 (hholders : ∀ m ∈ g'.holders, g.alive m = true) : g'.Grown := by
 have hparent : g'.parent = g.parent := by funext n; simp only [parent, hnodes]
 have hchildren : g'.children = g.children := by funext n; simp only [WorkGate.children, hnodes]
 have hcancelled : g'.cancelled = g.cancelled := by funext n; simp only [cancelled, hnodes]
 have ho : g'.Ordered := by
  rw [Ordered, hparent]
  exact h.ordered
 have hal : ∀ n, g'.alive n = true → g.alive n = true := by
  intro n hn
  obtain ⟨m, hm, hw⟩ := (alive_iff ho).mp hn
  rw [hparent] at hw
  exact alive_within h.ordered (hholders m hm) hw
 refine ⟨ho, ?_, ?_, ?_, ?_, ?_, ?_⟩
 · rw [htasks, hnodes, h.tasks]
 · intro m hm
   rw [hnodes]
   exact h.known_alive (hholders m hm)
 · rw [hroots, hparent, hnodes]
   exact h.roots
 · rw [hchildren, hparent]
   exact h.children
 · rw [hparent, hroots, hchildren]
   exact fun n hn => h.tracked n (hal n hn)
 · rw [hparent, hcancelled]
   exact fun n p hn => h.passed n p (hal n hn)

/-! ### Cancelling -/

theorem nodes_foldl_abort (visited : List Nat) (g : WorkGate) (n : Nat) :
 (visited.foldl abort g).nodes[n]?
  = g.nodes[n]?.map fun node => { node with aborted := node.aborted || decide (n ∈ visited) } := by
 induction visited generalizing g with
 | nil => simp
 | cons v rest ih =>
  rw [foldl_cons, ih]
  simp only [abort, getElem?_modify]
  by_cases hv : v = n
  · subst hv
    cases g.nodes[v]? <;> simp
  · have hne : n ≠ v := fun h => hv h.symm
    cases g.nodes[n]? <;> simp [hv, hne]

theorem foldl_abort_eq (visited : List Nat) (g : WorkGate) :
 visited.foldl abort g = { g with nodes := (visited.foldl abort g).nodes } := by
 induction visited generalizing g with
 | nil => rfl
 | cons v rest ih => rw [foldl_cons, ih]; rfl

variable (start : List Nat)

theorem cancelTree_eq :
 g.cancelTree start = { g with nodes := (g.cancelTree start).nodes } :=
 foldl_abort_eq _ g

@[simp] theorem permits_cancelTree :
 (g.cancelTree start).permits = g.permits := by
 rw [cancelTree_eq]

@[simp] theorem closing_cancelTree :
 (g.cancelTree start).closing = g.closing := by
 rw [cancelTree_eq]

@[simp] theorem closes_cancelTree : (g.cancelTree start).closes = g.closes := by
 rw [cancelTree_eq]

@[simp] theorem livePermits_cancelTree :
 (g.cancelTree start).livePermits = g.livePermits := by
 rw [cancelTree_eq]
 rfl

theorem parent_cancelTree (n : Nat) :
 (g.cancelTree start).parent n = g.parent n := by
 simp only [parent, cancelTree, nodes_foldl_abort]
 cases g.nodes[n]? <;> rfl

theorem children_cancelTree (n : Nat) :
 (g.cancelTree start).children n = g.children n := by
 simp only [WorkGate.children, cancelTree, nodes_foldl_abort]
 cases g.nodes[n]? <;> rfl

theorem cancelled_cancelTree (hn : n < g.nodes.length) :
 (g.cancelTree start).cancelled n = true ↔ g.cancelled n = true
  ∨ n ∈ Forest.visit g.liveChildren g.nodes.length start.reverse := by
 have hsome : g.nodes[n]? = some g.nodes[n] := getElem?_eq_getElem hn
 simp [cancelled, cancelTree, nodes_foldl_abort, hsome]

theorem holders_cancelTree : (g.cancelTree start).holders = g.holders := by
 rw [cancelTree_eq]
 rfl

theorem alive_cancelTree (n : Nat) :
 (g.cancelTree start).alive n = g.alive n := by
 have hparent : (g.cancelTree start).parent = g.parent := funext (parent_cancelTree start)
 simp only [alive, holders_cancelTree, hparent]

theorem length_nodes_cancelTree :
 (g.cancelTree start).nodes.length = g.nodes.length := by
 have h : ∀ (visited : List Nat) (g : WorkGate),
  (visited.foldl abort g).nodes.length = g.nodes.length := by
  intro visited
  induction visited with
  | nil => exact fun _ => rfl
  | cons v rest ih => exact fun g => by rw [foldl_cons, ih]; simp [abort]
 exact h _ g

/-- Nodes none of which is above another: the starts of a cancellation. -/
def Apart (g : WorkGate) (start : List Nat) : Prop :=
 start.Nodup ∧ ∀ s ∈ start, g.alive s = true ∧ ∀ t ∈ start, Forest.Within g.parent s t → s = t

/-- **A cancellation reaches every live node below its starts.** -/
theorem Grown.cancelTree (h : g.Grown) {start : List Nat} (hs : g.Apart start) :
 (g.cancelTree start).Grown ∧ (∀ s ∈ start, (g.cancelTree start).cancelled s = true)
 ∧ ∀ n, g.cancelled n = true → (g.cancelTree start).cancelled n = true := by
 have hlt : ∀ n, g.alive n = true → n < g.nodes.length := fun n => h.known_alive
 have hwalk := Forest.visit_closed (k := g.nodes.length) (List.range g.nodes.length) h.ordered
  (fun p c hc => by
   obtain ⟨hmem, hal⟩ := mem_filter.mp hc
   exact ⟨(h.children p).2 c hmem, mem_range.mpr (hlt c hal)⟩)
  (fun p => (h.children p).1.filter _)
  (fun s hs' => mem_range.mpr (hlt s (hs.2 s (mem_reverse.mp hs')).1))
  (nodup_reverse.mpr hs.1)
  (fun s hs' t ht => (hs.2 s (mem_reverse.mp hs')).2 t (mem_reverse.mp ht))
  (by simp)
 obtain ⟨hstart, hclosed⟩ := hwalk
 have hkept : ∀ n, g.cancelled n = true → (g.cancelTree start).cancelled n = true := by
  intro n hn
  have hn' : n < g.nodes.length := by
   simp only [cancelled, Option.any_eq_true] at hn
   obtain ⟨node, hnode, -⟩ := hn
   exact (List.getElem_of_getElem? hnode).1
  exact (cancelled_cancelTree start hn').mpr (.inl hn)
 refine ⟨⟨?_, ?_, ?_, ?_, ?_, ?_, ?_⟩, ?_, hkept⟩
 · intro n p hp
   rw [parent_cancelTree] at hp
   exact h.ordered n p hp
 · rw [length_nodes_cancelTree, cancelTree_eq]
   exact h.tasks
 · rw [holders_cancelTree, length_nodes_cancelTree]
   exact h.known
 · refine ⟨by rw [cancelTree_eq]; exact h.roots.1, fun r hr => ?_⟩
   rw [parent_cancelTree, length_nodes_cancelTree]
   rw [cancelTree_eq] at hr
   exact h.roots.2 r hr
 · intro p
   rw [children_cancelTree]
   refine ⟨(h.children p).1, fun c hc => ?_⟩
   rw [parent_cancelTree]
   exact (h.children p).2 c hc
 · intro n hn
   rw [alive_cancelTree] at hn
   rw [parent_cancelTree]
   refine ⟨fun hp => ?_, fun p hp => ?_⟩
   · rw [cancelTree_eq]
     exact (h.tracked n hn).1 hp
   · rw [children_cancelTree]
     exact (h.tracked n hn).2 p hp
 · intro n p hn hp hc
   rw [alive_cancelTree] at hn
   rw [parent_cancelTree] at hp
   have hn' := hlt n hn
   have hp' : p < g.nodes.length := Nat.lt_trans (h.ordered n p hp) hn'
   rcases (cancelled_cancelTree start hp').mp hc with hc | hc
   · exact hkept n (h.passed n p hn hp hc)
   · refine (cancelled_cancelTree start hn').mpr (.inr (hclosed p hc n ?_))
     exact mem_filter.mpr ⟨(h.tracked n hn).2 p hp, hn⟩
 · intro s hs'
   refine (cancelled_cancelTree start (hlt s (hs.2 s hs').1)).mpr (.inr (hstart s ?_))
   exact mem_reverse.mpr hs'

/-! ### Spawning -/

/-- What an admitted task changes: its node joins its parent's list, or the roots. -/
structure Spawned (g g' : WorkGate) (node : Option Nat) : Prop where
 opened : g.closing = false
 free : node.any g.cancelled = false
 closing : g'.closing = false
 permits : g'.permits = g.permits + 2
 tasks : g'.tasks = g.tasks ++ [{ stage := .calling, handle := false }]
 held : g'.held = g.held ++ [some (some g.nodes.length)]
 blocking : g'.blocking = g.blocking
 closes : g'.closes = g.closes
 roots : g'.roots = if node = none then g.adopt g.roots g.nodes.length else g.roots
 old : ∀ n, n < g.nodes.length → g'.parent n = g.parent n ∧ g'.cancelled n = g.cancelled n
  ∧ g'.children n = if node = some n then g.adopt (g.children n) g.nodes.length else g.children n
 length : g'.nodes.length = g.nodes.length + 1
 parent : g'.parent g.nodes.length = node
 children : g'.children g.nodes.length = []

theorem spawn_ok {node : Option Nat} {runtime : Bool} (h : g.spawn node runtime = .ok g') :
 Spawned g g' node := by
 simp only [spawn] at h
 split at h
 · simp at h
 split at h
 · simp at h
 split at h
 · simp at h
 rename_i hclosing hparent
 have hclosing' : g.closing = false := by simpa using hclosing
 have hparent' : node.any g.cancelled = false := by simpa using hparent
 cases h
 cases node with
 | none =>
  refine ⟨hclosing', hparent', hclosing', rfl, rfl, rfl, rfl, rfl, rfl, fun n hn => ?_, ?_, ?_, ?_⟩
  · simp [WorkGate.parent, cancelled, WorkGate.children, getElem?_append_left hn]
  · simp
  · simp [WorkGate.parent]
  · simp [WorkGate.children]
 | some p =>
  refine ⟨hclosing', hparent', hclosing', rfl, rfl, rfl, rfl, rfl, rfl, fun n hn => ?_, ?_, ?_, ?_⟩
  · have hmodified : ∀ f, (g.nodes.modify p f ++ [(⟨some p, [], false⟩ : Node)])[n]?
     = (g.nodes.modify p f)[n]? := fun f => getElem?_append_left (by simpa using hn)
    have hsome : g.nodes[n]? = some g.nodes[n] := getElem?_eq_getElem hn
    simp only [WorkGate.parent, cancelled, WorkGate.children, hmodified, getElem?_modify, hsome]
    by_cases hpn : p = n <;> simp [hpn]
  · simp
  · simp [WorkGate.parent]
  · simp [WorkGate.children]

namespace Spawned

variable {node : Option Nat}

theorem parents (hs : Spawned g g' node) {p : Nat} (hp : g'.parent n = some p) :
 (n < g.nodes.length ∧ g.parent n = some p) ∨ (n = g.nodes.length ∧ node = some p) := by
 have hn : n < g'.nodes.length := by
  simp only [WorkGate.parent, Option.bind_eq_some_iff] at hp
  obtain ⟨node, hnode, -⟩ := hp
  exact (List.getElem_of_getElem? hnode).1
 have hlen := hs.length
 by_cases hlt : n < g.nodes.length
 · exact .inl ⟨hlt, by rw [← (hs.old n hlt).1]; exact hp⟩
 · obtain rfl : n = g.nodes.length := by omega
   exact .inr ⟨rfl, by rw [← hs.parent]; exact hp⟩

section

variable (h : g.Grown)
include h

theorem holders (hs : Spawned g g' node) {m : Nat} (hm : m ∈ g'.holders) :
 m ∈ g.holders ∨ m = g.nodes.length := by
 rw [mem_holders] at hm ⊢
 rw [hs.held, hs.blocking] at hm
 rcases hm with hm | hm | hm
 · rcases mem_append.mp hm with hm | hm
   · exact .inl (.inl hm)
   · exact .inr (by simpa using hm)
 · simp only [holdsNode, hs.tasks] at hm
   by_cases hlt : m < g.tasks.length
   · rw [getElem?_append_left hlt] at hm
     exact .inl (.inr (.inl hm))
   · by_cases heq : m = g.tasks.length
     · exact .inr (heq.trans h.tasks)
     · rw [getElem?_eq_none (by rw [length_append, length_singleton]; omega)] at hm
       simp at hm
 · exact .inl (.inr (.inr hm))

theorem holders_le (hs : Spawned g g' node) {m : Nat} (hm : m ∈ g'.holders) :
 m ≤ g.nodes.length := by
 rcases hs.holders h hm with hm | rfl
 · exact Nat.le_of_lt (h.known m hm)
 · exact Nat.le_refl _

theorem within (hs : Spawned g g' node) {m : Nat} (hm : m < g.nodes.length)
 (hw : Forest.Within g'.parent n m) : Forest.Within g.parent n m := by
 induction hw with
 | refl => exact .refl _
 | tail hw hp ih =>
  rcases hs.parents hp with ⟨-, hp'⟩ | ⟨rfl, -⟩
  · exact (ih (Nat.lt_trans (h.ordered _ _ hp') hm)).child hp'
  · exact absurd hm (Nat.lt_irrefl _)

variable (hnode : ∀ p, node = some p → p ∈ g.holders)
include hnode

section

variable (hs : Spawned g g' node)

include hs

theorem parent_lt {p : Nat} (hp : g'.parent n = some p) :
 p < g.nodes.length := by
 rcases hs.parents hp with ⟨hn, hp'⟩ | ⟨-, hp'⟩
 · exact Nat.lt_trans (h.ordered n p hp') hn
 · exact h.known p (hnode p hp')

theorem ordered : g'.Ordered := by
 intro n p hp
 rcases hs.parents hp with ⟨-, hp'⟩ | ⟨rfl, hp'⟩
 · exact h.ordered n p hp'
 · exact h.known p (hnode p hp')

theorem alive (hn : n < g.nodes.length)
 (hal : g'.alive n = true) : g.alive n = true := by
 obtain ⟨m, hm, hw⟩ := (alive_iff (hs.ordered h hnode)).mp hal
 rcases hs.holders h hm with hm | rfl
 · exact (alive_iff h.ordered).mpr ⟨m, hm, hs.within h (h.known m hm) hw⟩
 · rcases Forest.within_iff.mp hw with rfl | ⟨p, hp, hw⟩
   · exact absurd hn (Nat.lt_irrefl _)
   · rw [hs.parent] at hp
     have hp' := hnode p hp
     exact (alive_iff h.ordered).mpr ⟨p, hp', hs.within h (h.known p hp') hw⟩

theorem alive_le (hal : g'.alive n = true) : n ≤ g.nodes.length := by
 obtain ⟨m, hm, hw⟩ := (alive_iff (hs.ordered h hnode)).mp hal
 have hle := hs.holders_le h hm
 rcases (hs.ordered h hnode).within hw with rfl | hr
 · exact hle
 · exact Nat.le_of_lt (Nat.lt_of_lt_of_le hr hle)

end

end

end Spawned

theorem nodup_adopt (hlist : list.Nodup) (hlt : ∀ c ∈ list, c < n) : (g.adopt list n).Nodup := by
 refine nodup_append.mpr ⟨hlist.filter _, nodup_singleton _, fun a ha b hb => ?_⟩
 rw [mem_singleton] at hb
 exact hb ▸ Nat.ne_of_lt (hlt a (mem_filter.mp ha).1)

theorem mem_adopt {c : Nat} (h : c ∈ g.adopt list n) : c ∈ list ∨ c = n := by
 rcases mem_append.mp h with hc | hc
 · exact .inl (mem_filter.mp hc).1
 · exact .inr (mem_singleton.mp hc)

theorem mem_adopt_alive {c : Nat} (h : c ∈ list) (hc : g.alive c = true) : c ∈ g.adopt list n :=
 mem_append_left _ (mem_filter.mpr ⟨h, hc⟩)

theorem mem_adopt_self (list : List Nat) (n : Nat) : n ∈ g.adopt list n :=
 mem_append_right _ (mem_singleton_self n)

theorem Grown.child_lt (h : g.Grown) {p c : Nat} (hc : c ∈ g.children p) : c < g.nodes.length := by
 have hp := (h.children p).2 c hc
 simp only [parent, Option.bind_eq_some_iff] at hp
 obtain ⟨node, hnode, -⟩ := hp
 exact (List.getElem_of_getElem? hnode).1

/-- **A task joins the tree** under a parent that is there and not cancelled. -/
theorem Grown.spawn (h : g.Grown) {node : Option Nat} {runtime : Bool}
 (hnode : ∀ p, node = some p → p ∈ g.holders) (hok : g.spawn node runtime = .ok g') :
 g'.Grown := by
 have hs := spawn_ok hok
 have hlen := hs.length
 refine ⟨hs.ordered h hnode, ?_, ?_, ?_, ?_, ?_, ?_⟩
 · rw [hs.tasks, hlen, length_append, h.tasks]
   rfl
 · intro m hm
   exact hlen ▸ Nat.lt_succ_of_le (hs.holders_le h hm)
 · have hold : ∀ r ∈ g.roots, r < g'.nodes.length ∧ g'.parent r = none := by
    intro r hr
    obtain ⟨hlt, hp⟩ := h.roots.2 r hr
    exact ⟨by omega, by rw [(hs.old r hlt).1]; exact hp⟩
   rw [hs.roots]
   split
   next hnone =>
    refine ⟨nodup_adopt h.roots.1 fun r hr => (h.roots.2 r hr).1, fun r hr => ?_⟩
    rcases mem_adopt hr with hr | rfl
    · exact hold r hr
    · exact ⟨by omega, hs.parent.trans hnone⟩
   · exact ⟨h.roots.1, hold⟩
 · intro p
   by_cases hlt : p < g.nodes.length
   · have hold : ∀ c ∈ g.children p, g'.parent c = some p := fun c hc => by
      rw [(hs.old c (h.child_lt hc)).1]
      exact (h.children p).2 c hc
     rw [(hs.old p hlt).2.2]
     split
     next hp =>
      refine ⟨nodup_adopt (h.children p).1 fun c => h.child_lt, fun c hc => ?_⟩
      rcases mem_adopt hc with hc | rfl
      · exact hold c hc
      · exact hs.parent.trans hp
     · exact ⟨(h.children p).1, hold⟩
   · have hempty : g'.children p = [] := by
      by_cases hp : p = g.nodes.length
      · rw [hp]
        exact hs.children
      · simp [WorkGate.children, getElem?_eq_none (show g'.nodes.length ≤ p by omega)]
     rw [hempty]
     exact ⟨nodup_nil, fun c hc => absurd hc (by simp)⟩
 · intro n hn
   have hcase : n < g.nodes.length ∨ n = g.nodes.length :=
    Nat.lt_or_eq_of_le (hs.alive_le h hnode hn)
   refine ⟨fun hp => ?_, fun p hp => ?_⟩
   · rw [hs.roots]
     rcases hcase with hlt | rfl
     · have hal := hs.alive h hnode hlt hn
       have hmem := (h.tracked n hal).1 (by rw [← (hs.old n hlt).1]; exact hp)
       split
       · exact mem_adopt_alive hmem hal
       · exact hmem
     · rw [if_pos (hs.parent.symm.trans hp)]
       exact mem_adopt_self _ _
   · rw [(hs.old p (hs.parent_lt h hnode hp)).2.2]
     rcases hs.parents hp with ⟨hlt, hp'⟩ | ⟨rfl, hp'⟩
     · have hal := hs.alive h hnode hlt hn
       have hmem := (h.tracked n hal).2 p hp'
       split
       · exact mem_adopt_alive hmem hal
       · exact hmem
     · rw [if_pos hp']
       exact mem_adopt_self _ _
 · intro n p hn hp hc
   rw [(hs.old p (hs.parent_lt h hnode hp)).2.1] at hc
   rcases hs.parents hp with ⟨hlt, hp'⟩ | ⟨rfl, hp'⟩
   · rw [(hs.old n hlt).2.1]
     exact h.passed n p (hs.alive h hnode hlt hn) hp' hc
   · have hfree := hs.free
     rw [hp'] at hfree
     simp [hc] at hfree

end Bake.Work.WorkGate
