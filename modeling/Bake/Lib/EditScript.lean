import Mathlib.Data.List.Basic
import Mathlib.Order.Bounds.Basic

/-!
# Edit scripts

One list becomes another by keeping, removing and adding elements. A script that keeps the
elements of a common sublist removes and adds all others, so scripts and common sublists are two
views of one thing (`script_iff`), and the shortest script belongs to the longest common
sublist (`isLeast_script`).

`Reach` is how far a script has come in both lists. What is reached by one more edit is reached
from a place on a diagonal next to it (`Reach.last`), which is what a search by diagonals needs.
-/

open List

namespace EditScript

variable {α : Type} {a b a' b' : List α} {m n : Nat}

/-- One list becomes another; what is removed and added is counted. -/
inductive Script : List α → List α → Nat → Prop
 | nil : Script [] [] 0
 | keep (c : α) {a b : List α} {n : Nat} : Script a b n → Script (c :: a) (c :: b) n
 | remove (c : α) {a b : List α} {n : Nat} : Script a b n → Script (c :: a) b (n + 1)
 | add (c : α) {a b : List α} {n : Nat} : Script a b n → Script a (c :: b) (n + 1)

def Common (a b : List α) (l : Nat) : Prop := ∃ s : List α, s.Sublist a ∧ s.Sublist b ∧ s.length = l

theorem Script.append (h : Script a b m) (h' : Script a' b' n) :
 Script (a ++ a') (b ++ b') (m + n) := by
 induction h with
 | nil => rwa [Nat.zero_add]
 | keep c _ ih => exact .keep c ih
 | remove c _ ih =>
  rw [Nat.add_right_comm]
  exact .remove c ih
 | add c _ ih =>
  rw [Nat.add_right_comm]
  exact .add c ih

theorem Script.refl (a : List α) : Script a a 0 := by
 induction a with
 | nil => exact .nil
 | cons c a ih => exact .keep c ih

theorem Script.symm (h : Script a b n) : Script b a n := by
 induction h with
 | nil => exact .nil
 | keep c _ ih => exact .keep c ih
 | remove c _ ih => exact .add c ih
 | add c _ ih => exact .remove c ih

theorem Script.eq_of_zero (h : Script a b 0) : a = b := by
 generalize hn : 0 = n at h
 induction h with
 | nil => rfl
 | keep c _ ih => rw [ih hn]
 | _ => exact absurd hn (by omega)

/-- A script for a list with a head adds, then keeps or removes the head. -/
@[elab_as_elim] theorem Script.fromCons {x : α} {P : List α → Nat → Prop} (h : Script (x :: a) b n)
 (keep : ∀ {b n}, Script a b n → P (x :: b) n) (remove : ∀ {b n}, Script a b n → P b (n + 1))
 (add : ∀ {y b n}, P b n → P (y :: b) (n + 1)) : P b n := by
 generalize hx : x :: a = xs at h
 induction h with
 | nil => simp at hx
 | keep y h =>
  cases hx
  exact keep h
 | remove y h =>
  cases hx
  exact remove h
 | add y _ ih => exact add (ih hx)

/-- **One script behind another** is no longer than both. -/
theorem Script.trans {c : List α} (h : Script a b m) (h' : Script b c n) :
 ∃ k ≤ m + n, Script a c k := by
 induction h generalizing c n with
 | nil => exact ⟨n, by omega, h'⟩
 | remove x _ ih =>
  obtain ⟨k, hk, h⟩ := ih h'
  exact ⟨k + 1, by omega, .remove x h⟩
 | keep x _ ih =>
  refine h'.fromCons (fun h' => ?_) (fun h' => ?_) fun ⟨k, hk, h⟩ => ⟨k + 1, by omega, .add _ h⟩
  all_goals obtain ⟨k, hk, h⟩ := ih h'
  · exact ⟨k, hk, .keep x h⟩
  · exact ⟨k + 1, by omega, .remove x h⟩
 | add x _ ih =>
  refine h'.fromCons (fun h' => ?_) (fun h' => ?_) fun ⟨k, hk, h⟩ => ⟨k + 1, by omega, .add _ h⟩
  all_goals obtain ⟨k, hk, h⟩ := ih h'
  · exact ⟨k + 1, by omega, .add x h⟩
  · exact ⟨k, by omega, h⟩

theorem Script.removeAll (a : List α) : Script a [] a.length := by
 induction a with
 | nil => exact .nil
 | cons c a ih => exact .remove c ih

theorem Script.addAll (b : List α) : Script [] b b.length := by
 induction b with
 | nil => exact .nil
 | cons c b ih => exact .add c ih

theorem Script.common (h : Script a b n) : ∃ l, Common a b l ∧ n + 2 * l = a.length + b.length := by
 induction h with
 | nil => exact ⟨0, ⟨[], List.Sublist.refl _, List.Sublist.refl _, rfl⟩, rfl⟩
 | keep c _ ih =>
  obtain ⟨l, ⟨s, ha, hb, hs⟩, hn⟩ := ih
  refine ⟨l + 1, ⟨c :: s, ha.cons_cons c, hb.cons_cons c, by rw [length_cons, hs]⟩, ?_⟩
  rw [length_cons, length_cons]
  omega
 | remove c _ ih =>
  obtain ⟨l, ⟨s, ha, hb, hs⟩, hn⟩ := ih
  exact ⟨l, ⟨s, ha.cons c, hb, hs⟩, by rw [length_cons]; omega⟩
 | add c _ ih =>
  obtain ⟨l, ⟨s, ha, hb, hs⟩, hn⟩ := ih
  exact ⟨l, ⟨s, ha, hb.cons c, hs⟩, by rw [length_cons]; omega⟩

/-- What is common can be kept. -/
theorem script_of_sublists {s : List α} (ha : s.Sublist a) (hb : s.Sublist b) :
 ∃ n, Script a b n ∧ n + 2 * s.length = a.length + b.length := by
 induction ha generalizing b with
 | slnil => exact ⟨b.length, .addAll b, by simp⟩
 | cons c _ ih =>
  obtain ⟨n, hn, hlen⟩ := ih hb
  exact ⟨n + 1, .remove c hn, by rw [length_cons]; omega⟩
 | @cons_cons s a c _ ih =>
  generalize hcs : c :: s = cs at hb
  induction hb with
  | slnil => simp at hcs
  | cons d _ ihb =>
   obtain ⟨n, hn, hlen⟩ := ihb hcs
   exact ⟨n + 1, .add d hn, by simp only [length_cons] at hlen ⊢; omega⟩
  | cons_cons d hb =>
   cases hcs
   obtain ⟨n, hn, hlen⟩ := ih hb
   exact ⟨n, .keep _ hn, by simp only [length_cons]; omega⟩

/-- **Scripts and common sublists.** -/
theorem script_iff : Script a b n ↔ ∃ l, Common a b l ∧ n + 2 * l = a.length + b.length := by
 refine ⟨Script.common, ?_⟩
 rintro ⟨l, ⟨s, ha, hb, rfl⟩, hn⟩
 obtain ⟨m, hm, hlen⟩ := script_of_sublists ha hb
 obtain rfl : m = n := by omega
 exact hm

/-- **A shortest script keeps a longest common sublist.** -/
theorem isGreatest_common (h : IsLeast {n | Script a b n} n) :
 ∃ l, IsGreatest {l | Common a b l} l ∧ n + 2 * l = a.length + b.length := by
 obtain ⟨l, hl, hn⟩ := script_iff.mp h.1
 refine ⟨l, ⟨hl, ?_⟩, hn⟩
 rintro l' ⟨s, ha, hb, rfl⟩
 obtain ⟨m, hm, hlen⟩ := script_of_sublists ha hb
 have := h.2 hm
 omega

/-! ## How far a script has come -/

/-- So many edits have come so far in both lists. -/
inductive Reach (a b : List α) : Nat → Nat → Nat → Prop
 | start : Reach a b 0 0 0
 | keep {n x y : Nat} : Reach a b n x y → x < a.length → a[x]? = b[y]? → Reach a b n (x + 1) (y + 1)
 | remove {n x y : Nat} : Reach a b n x y → x < a.length → Reach a b (n + 1) (x + 1) y
 | add {n x y : Nat} : Reach a b n x y → y < b.length → Reach a b (n + 1) x (y + 1)

variable {x y : Nat}

theorem Reach.bounds (h : Reach a b n x y) :
 x ≤ a.length ∧ y ≤ b.length ∧ x ≤ y + n ∧ y ≤ x + n ∧ (x + y + n) % 2 = 0 := by
 induction h with
 | @keep n x y _ hx heq ih =>
  have hy : y < b.length := by
   rw [getElem?_eq_getElem hx] at heq
   exact (List.getElem_of_getElem? heq.symm).1
  omega
 | _ => omega

/-- The edit that was last, and what is kept behind it. -/
theorem Reach.last (h : Reach a b (n + 1) x y) :
 (∃ x' y', Reach a b n x' y' ∧ (x : Int) - y = x' + 1 - y')
  ∨ ∃ x' y', Reach a b n x' y' ∧ (x : Int) - y = x' - (y' + 1) := by
 generalize hm : n + 1 = m at h
 induction h with
 | start => exact absurd hm (by omega)
 | keep _ _ _ ih =>
  rcases ih hm with ⟨x', y', h, heq⟩ | ⟨x', y', h, heq⟩
  · exact Or.inl ⟨x', y', h, by omega⟩
  · exact Or.inr ⟨x', y', h, by omega⟩
 | @remove k x y h _ _ =>
  obtain rfl : n = k := by omega
  exact Or.inl ⟨x, y, h, by omega⟩
 | @add k x y h _ _ =>
  obtain rfl : n = k := by omega
  exact Or.inr ⟨x, y, h, by omega⟩

/-- **The furthest place on a diagonal.** A place that is as far as any edit from a diagonal next
to it, and where nothing more can be kept, is as far as any place of its diagonal. -/
theorem Reach.furthest {k : Int} {far : Nat}
 (hremove : ∀ x y, Reach a b n x y → (x : Int) - y = k - 1 → x + 1 ≤ a.length → x + 1 ≤ far)
 (hadd : ∀ x y, Reach a b n x y → (x : Int) - y = k + 1 → y + 1 ≤ b.length → x ≤ far)
 (hstop : ∀ y : Nat, (far : Int) - y = k → far < a.length → a[far]? ≠ b[y]?)
 (h : Reach a b (n + 1) x y) (hk : (x : Int) - y = k) : x ≤ far := by
 generalize hm : n + 1 = m at h
 induction h with
 | start => exact absurd hm (by omega)
 | @keep _ x y h hx heq ih =>
  have hle := ih (by omega) hm
  rcases Nat.eq_or_lt_of_le hle with rfl | hlt
  · exact absurd heq (hstop y (by omega) hx)
  · omega
 | @remove m x y h hx _ =>
  obtain rfl : n = m := by omega
  exact hremove x y h (by omega) hx
 | @add m x y h hy _ =>
  obtain rfl : n = m := by omega
  exact hadd x y h (by omega) hy

/-- Without an edit nothing is furthest but what is kept from the start. -/
theorem Reach.furthest_zero {far : Nat} (hstop : far < a.length → a[far]? ≠ b[far]?)
 (h : Reach a b 0 x y) : x ≤ far := by
 generalize hm : 0 = m at h
 induction h with
 | start => omega
 | @keep n x y h hx heq ih =>
  subst hm
  have hle := ih rfl
  have := h.bounds
  obtain rfl : x = y := by omega
  rcases Nat.eq_or_lt_of_le hle with rfl | hlt
  · exact absurd heq (hstop hx)
  · omega
 | remove _ _ _ | add _ _ _ => exact absurd hm (by omega)

theorem drop_eq_cons {c : α} {rest : List α} (h : a.drop x = c :: rest) :
 x < a.length ∧ a[x]? = some c ∧ a.drop (x + 1) = rest := by
 have hx : x < a.length := by
  have := congrArg List.length h
  rw [length_drop, length_cons] at this
  omega
 rw [drop_eq_getElem_cons hx] at h
 injection h with hc hrest
 exact ⟨hx, by rw [getElem?_eq_getElem hx, hc], hrest⟩

/-- A script from where another has come. -/
theorem Reach.script (h : Reach a b m x y) (hs : Script (a.drop x) (b.drop y) n) :
 Reach a b (m + n) a.length b.length := by
 generalize ha : a.drop x = as at hs
 generalize hb : b.drop y = bs at hs
 induction hs generalizing m x y with
 | nil =>
  have hx := drop_eq_nil_iff.mp ha
  have hy := drop_eq_nil_iff.mp hb
  have := h.bounds
  obtain rfl : x = a.length := by omega
  obtain rfl : y = b.length := by omega
  exact h
 | keep c _ ih =>
  obtain ⟨hx, hcx, ha⟩ := drop_eq_cons ha
  obtain ⟨-, hcy, hb⟩ := drop_eq_cons hb
  exact ih (h.keep hx (by rw [hcx, hcy])) ha hb
 | remove c _ ih =>
  obtain ⟨hx, -, ha⟩ := drop_eq_cons ha
  rw [← Nat.add_assoc, Nat.add_right_comm]
  exact ih (h.remove hx) ha hb
 | add c _ ih =>
  obtain ⟨hy, -, hb⟩ := drop_eq_cons hb
  rw [← Nat.add_assoc, Nat.add_right_comm]
  exact ih (h.add hy) ha hb

theorem Script.reach (h : Script a b n) : Reach a b n a.length b.length := by
 have hstart : Script (a.drop 0) (b.drop 0) n := h
 have := Reach.start.script hstart
 rwa [Nat.zero_add] at this

end EditScript
