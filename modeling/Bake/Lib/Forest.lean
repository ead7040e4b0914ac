import Mathlib.Data.List.Nodup
import Mathlib.Data.List.Perm.Subperm

/-!
# Forests

Trees given by parent pointers: the ancestors of a node, read off the pointers, and a
stack walk from some nodes down to everything below them. The walk keeps no record of
where it has been; a forest has one way down to each node, so it needs none.
-/

open List

namespace Forest

variable {α : Type} {parent : α → Option α}

/-- `a` is `n` or one of its ancestors. -/
def Within (parent : α → Option α) : α → α → Prop :=
 Relation.ReflTransGen fun p c => parent c = some p

theorem Within.refl (n : α) : Within parent n n := Relation.ReflTransGen.refl

variable {a n : α}

theorem Within.trans {b c : α} (h : Within parent a b) (h' : Within parent b c) :
 Within parent a c := Relation.ReflTransGen.trans h h'

theorem Within.child {p : α} (h : Within parent a p) (hp : parent n = some p) :
 Within parent a n := h.tail hp

theorem within_iff : Within parent a n ↔ a = n ∨ ∃ p, parent n = some p ∧ Within parent a p := by
 constructor
 · intro h
   rcases Relation.ReflTransGen.cases_tail h with heq | ⟨p, hap, hp⟩
   · exact .inl heq.symm
   · exact .inr ⟨p, hp, hap⟩
 · rintro (rfl | ⟨p, hp, hap⟩)
   · exact .refl _
   · exact hap.child hp

theorem Within.induction {Q : α → Prop} (h : Within parent a n) (ha : Q a)
 (hstep : ∀ p c, parent c = some p → Within parent c n → Q p → Q c) : Q n := by
 have key : ∀ {b : α}, Relation.ReflTransGen (fun p c => parent c = some p) a b →
  Relation.ReflTransGen (fun p c => parent c = some p) b n → Q b := by
  intro b hab
  induction hab with
  | refl => exact fun _ => ha
  | tail _ hbc ih => exact fun hcn => hstep _ _ hbc hcn (ih (Relation.ReflTransGen.head hbc hcn))
 exact key h .refl

/-- Every node was added after its parent. -/
def Ranked (rank : α → Nat) (parent : α → Option α) : Prop :=
 ∀ n p, parent n = some p → rank p < rank n

theorem Ranked.within {rank : α → Nat} (h : Ranked rank parent) (ha : Within parent a n) :
 a = n ∨ rank a < rank n := by
 induction ha with
 | refl => exact .inl rfl
 | tail _ hp ih =>
  refine .inr ?_
  have := h _ _ hp
  rcases ih with rfl | ih
  · exact this
  · omega

/-- A node and its ancestors, nearest first, for at most so many steps up. -/
def lineage (parent : α → Option α) : Nat → α → List α
 | 0, n => [n]
 | k + 1, n => n :: match parent n with
  | some p => lineage parent k p
  | none => []

theorem mem_lineage_iff {rank : α → Nat} (h : Ranked rank parent) {a : α} :
 ∀ {k : Nat} {n : α}, rank n ≤ k → (a ∈ lineage parent k n ↔ Within parent a n)
 | 0, n, hk => by
  have hnone : ∀ p, parent n ≠ some p := fun p hp => absurd (h _ _ hp) (by omega)
  rw [within_iff, lineage, mem_singleton]
  exact ⟨.inl, fun hor => hor.elim id fun ⟨p, hp, _⟩ => absurd hp (hnone p)⟩
 | k + 1, n, hk => by
  rw [within_iff, lineage, mem_cons]
  cases hp : parent n with
  | none => simp
  | some p =>
   have hrank := h _ _ hp
   have ih := mem_lineage_iff h (a := a) (k := k) (n := p) (by omega)
   simp only [Option.some.injEq, exists_eq_left', ih]

/-- The nodes a stack walk visits, in order, in at most so many steps: it takes the top
of the stack and pushes the children of what it took. -/
def visit (children : α → List α) : Nat → List α → List α
 | 0, _ => []
 | _ + 1, [] => []
 | k + 1, n :: pending => n :: visit children k ((children n).reverse ++ pending)

/-- The nodes a walk may meet: a start, or a child of a node it has visited. -/
private structure Front (parent : α → Option α) (children : α → List α) (domain start : List α)
 (visited pending : List α) : Prop where
 once : (visited ++ pending).Nodup
 inside : ∀ n ∈ visited ++ pending, n ∈ domain
 origin : ∀ n ∈ visited ++ pending, n ∈ start ∨ ∃ p ∈ visited, parent n = some p
 closed : ∀ p ∈ visited, ∀ c ∈ children p, c ∈ visited ++ pending

section

variable {rank : α → Nat} {children : α → List α} {domain start : List α}

private theorem Front.below {visited pending : List α}
 (hfront : Front parent children domain start visited pending) (hr : Ranked rank parent) :
 ∀ n ∈ visited ++ pending, ∃ s ∈ start, Within parent s n := by
 intro n
 induction hn : rank n using Nat.strongRecOn generalizing n with
 | ind k ih =>
  intro hmem
  rcases hfront.origin n hmem with hs | ⟨p, hp, hparent⟩
  · exact ⟨n, hs, .refl n⟩
  · obtain ⟨s, hs, hw⟩ := ih (rank p) (hn ▸ hr _ _ hparent) p rfl
     (mem_append_left _ hp)
    exact ⟨s, hs, hw.child hparent⟩

/-- One step of the walk. -/
private theorem Front.step {visited pending : List α} {n : α} (hr : Ranked rank parent)
 (hchildren : ∀ p, ∀ c ∈ children p, parent c = some p ∧ c ∈ domain)
 (honce : ∀ p, (children p).Nodup)
 (hstart : ∀ s ∈ start, ∀ t ∈ start, Within parent s t → s = t)
 (h : Front parent children domain start visited (n :: pending)) :
 Front parent children domain start (visited ++ [n]) ((children n).reverse ++ pending) := by
 have hsplit : visited ++ n :: pending = (visited ++ [n]) ++ pending := by simp
 have hn : n ∈ visited ++ n :: pending := by simp
 have hnew : ∀ c ∈ children n, c ∉ visited ++ n :: pending := by
  intro c hc hmem
  have hparent := (hchildren n c hc).1
  rcases h.origin c hmem with hs | ⟨p, hp, hp'⟩
  · -- a start strictly below another start
    obtain ⟨s, hs', hw⟩ := h.below hr n hn
    have heq := hstart s hs' c hs (hw.child hparent)
    have hlt := hr _ _ hparent
    rcases hr.within hw with hsn | hsn
    · rw [← hsn, heq] at hlt
      omega
    · rw [heq] at hsn
      omega
  · -- a child of a node visited before
    obtain rfl : p = n := Option.some.inj (hp'.symm.trans hparent)
    have := nodup_append.mp h.once
    exact this.2.2 p hp p (by simp) rfl
 refine ⟨?_, ?_, ?_, ?_⟩
 · have hperm : ((visited ++ [n]) ++ ((children n).reverse ++ pending)).Perm
    ((children n).reverse ++ (visited ++ n :: pending)) := by
    rw [hsplit, ← append_assoc, ← append_assoc]
    exact (@List.perm_append_comm _ (visited ++ [n]) _).append_right pending
   rw [hperm.nodup_iff, nodup_append]
   refine ⟨nodup_reverse.mpr (honce n), h.once, fun c hc d hd heq => ?_⟩
   exact hnew c (mem_reverse.mp hc) (heq ▸ hd)
 · intro c hc
   rcases mem_append.mp hc with hc | hc
   · exact h.inside c (by rw [hsplit]; exact mem_append_left _ hc)
   · rcases mem_append.mp hc with hc | hc
     · exact (hchildren n c (mem_reverse.mp hc)).2
     · exact h.inside c (by rw [hsplit]; exact mem_append_right _ hc)
 · intro c hc
   have hold : c ∈ visited ++ n :: pending →
    c ∈ start ∨ ∃ p ∈ visited ++ [n], parent c = some p := by
    intro hmem
    rcases h.origin c hmem with hs | ⟨p, hp, hp'⟩
    · exact .inl hs
    · exact .inr ⟨p, mem_append_left _ hp, hp'⟩
   rcases mem_append.mp hc with hc | hc
   · exact hold (by rw [hsplit]; exact mem_append_left _ hc)
   · rcases mem_append.mp hc with hc | hc
     · exact .inr ⟨n, by simp, (hchildren n c (mem_reverse.mp hc)).1⟩
     · exact hold (by rw [hsplit]; exact mem_append_right _ hc)
 · intro p hp c hc
   rcases mem_append.mp hp with hp | hp
   · have hmem := h.closed p hp c hc
     rw [hsplit] at hmem
     rcases mem_append.mp hmem with hmem | hmem
     · exact mem_append_left _ hmem
     · exact mem_append_right _ (mem_append_right _ hmem)
   · rw [mem_singleton] at hp
     subst hp
     exact mem_append_right _ (mem_append_left _ (mem_reverse.mpr hc))

private theorem Front.walked (hr : Ranked rank parent)
 (hchildren : ∀ p, ∀ c ∈ children p, parent c = some p ∧ c ∈ domain)
 (honce : ∀ p, (children p).Nodup)
 (hstart : ∀ s ∈ start, ∀ t ∈ start, Within parent s t → s = t) :
 ∀ {k : Nat} {visited pending : List α},
  Front parent children domain start visited pending → domain.length ≤ visited.length + k →
  (∀ n ∈ pending, n ∈ visit children k pending)
  ∧ ∀ p ∈ visited ++ visit children k pending, ∀ c ∈ children p,
   c ∈ visited ++ visit children k pending
 | 0, visited, pending, h, hk => by
  have hlen := (h.once.subperm (fun n hn => h.inside n hn)).length_le
  obtain rfl : pending = [] := by
   rw [length_append] at hlen
   exact length_eq_zero_iff.mp (by omega)
  exact ⟨fun n hn => absurd hn (by simp), by simpa [visit] using h.closed⟩
 | _ + 1, _, [], h, _ => ⟨fun n hn => absurd hn (by simp), by simpa [visit] using h.closed⟩
 | k + 1, visited, n :: pending, h, hk => by
  have hlen : domain.length ≤ (visited ++ [n]).length + k := by
   rw [length_append, length_singleton]
   omega
  have ih := Front.walked (k := k) hr hchildren honce hstart (h.step hr hchildren honce hstart) hlen
  have heq : (visited ++ [n]) ++ visit children k ((children n).reverse ++ pending)
   = visited ++ visit children (k + 1) (n :: pending) := by
   simp [visit]
  rw [heq] at ih
  refine ⟨fun m hm => ?_, ih.2⟩
  rcases mem_cons.mp hm with rfl | hm
  · exact mem_cons_self
  · exact mem_cons_of_mem _ (ih.1 m (mem_append_right _ hm))

/-- **A walk meets its starts and every child of what it meets**, when its starts are
apart and it may take as many steps as there are nodes. -/
theorem visit_closed (domain : List α) (hr : Ranked rank parent)
 (hchildren : ∀ p, ∀ c ∈ children p, parent c = some p ∧ c ∈ domain)
 (honce : ∀ p, (children p).Nodup) (hdomain : ∀ s ∈ start, s ∈ domain)
 (hnodup : start.Nodup)
 (hstart : ∀ s ∈ start, ∀ t ∈ start, Within parent s t → s = t) {k : Nat}
 (hk : domain.length ≤ k) :
 (∀ s ∈ start, s ∈ visit children k start)
 ∧ ∀ p ∈ visit children k start, ∀ c ∈ children p, c ∈ visit children k start := by
 have hfront : Front parent children domain start [] start := by
  refine ⟨hnodup, hdomain, fun n hn => .inl hn, fun p hp => absurd hp (by simp)⟩
 have h := Front.walked (k := k) hr hchildren honce hstart hfront (by simpa using hk)
 exact ⟨h.1, by simpa using h.2⟩

end

end Forest
