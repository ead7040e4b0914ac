import Bake.Json.Reading
import Bake.Json.Stringify

/-!
# A line survives a rewrite

Writing a value that was read gives a text that is read and written back as it is
(`Fixed`), and a text `JSON.stringify` writes is such a text already. Kept text stands in
for the values memory holds differently: a string with a lone surrogate, a container past
the depth held, and an object with a lone surrogate in a key, whose text is written back
whole.
-/

open List OrdMap
open OrdMap (get?)

namespace Bake.Json

/-! ## Nothing kept -/

theorem Node.eq_empty {n : Node} (h : n.isEmpty = true) : n = .empty := by
 obtain ⟨kept, keyTexts, members, items⟩ := n
 simp only [isEmpty, Bool.and_eq_true, List.isEmpty_iff, Option.isNone_iff_eq_none] at h
 obtain ⟨⟨⟨rfl, rfl⟩, rfl⟩, rfl⟩ := h
 rfl

theorem writeHeldItems_nil (vs : List Value) (index : Nat) :
 writeHeldItems index vs [] = writeItems vs := by
 induction vs generalizing index with
 | nil => rw [writeHeldItems, writeItems]
 | cons v vs ih => rw [writeHeldItems, writeItems, ih]

theorem writeHeldObject_empty (ms : List (String × Value)) :
 writeHeldObject ms .empty = writeObject ms := by
 induction ms with
 | nil => rw [writeHeldObject, writeObject]
 | cons m ms ih =>
  rw [writeHeldObject, writeObject, ih]
  rfl

theorem writeHeld_leaf {v : Value} (harray : ∀ items, v ≠ .array items)
 (hobject : ∀ object, v ≠ .object object) (n : Node) :
 writeHeld v n = n.textOr v (writeValue v) := by
 cases v with
 | array items => exact absurd rfl (harray items)
 | object object => exact absurd rfl (hobject object)
 | _ =>
  rw [writeHeld]
  · exact harray
  · exact hobject

theorem writeHeld_empty (v : Value) : writeHeld v .empty = writeValue v := by
 cases v with
 | array items =>
  rw [writeHeld, writeValue]
  show arrayText (writeHeldItems 0 items []) = _
  rw [writeHeldItems_nil]
 | object object =>
  rw [writeHeld, writeValue, writeHeldObject_empty]
  rfl
 | _ => exact writeHeld_leaf (by simp) (by simp) _

theorem jsStringifyHeld_eq (v : Value) (n : Node) :
 jsStringifyHeld v (if n.isEmpty then none else some n) = writeHeld v n := by
 split
 next h =>
  rw [Node.eq_empty h, writeHeld_empty]
  rfl
 · rfl

/-! ## What is written for items and members -/

theorem writeHeldItems_skip {index : Nat} {v : Value} {vs : List Value} {held : List (Nat × Node)}
 (h : ∀ b ∈ held, index < b.1) :
 writeHeldItems index (v :: vs) held = writeValue v :: writeHeldItems (index + 1) vs held := by
 cases held with
 | nil => rw [writeHeldItems]
 | cons b held =>
  obtain ⟨i, child⟩ := b
  have : index < i := h _ (mem_cons_self ..)
  rw [writeHeldItems, if_neg (by omega)]

variable (items : List (Value × Node))

theorem writeHeldItems_zipIdx (index : Nat) : writeHeldItems index (items.map Prod.fst)
  (((items.zipIdx index).filter fun b => !b.1.2.isEmpty).map fun b => (b.2, b.1.2))
  = items.map fun item => writeHeld item.1 item.2 := by
 induction items generalizing index with
 | nil => simp [writeHeldItems]
 | cons item items ih =>
  obtain ⟨v, n⟩ := item
  rw [zipIdx_cons, filter_cons, map_cons, map_cons]
  cases hn : n.isEmpty with
  | true =>
   rw [if_neg (by simp), writeHeldItems_skip, ih, Node.eq_empty hn, writeHeld_empty]
   intro b hb
   obtain ⟨c, hc, rfl⟩ := mem_map.mp hb
   exact le_snd_of_mem_zipIdx (mem_of_mem_filter hc)
  | false =>
   rw [if_pos (by simp), map_cons, writeHeldItems, if_pos rfl, ih]

theorem writeHeld_array : writeHeld (.array (items.map Prod.fst)) (arrayNode items)
  = arrayText (items.map fun item => writeHeld item.1 item.2) := by
 rw [writeHeld]
 exact congrArg arrayText (writeHeldItems_zipIdx items 0)

/-- The members that count, with what is kept below them. -/
def memberHeld (members : List (List StrUnit × Value × Node)) : List (String × (Value × Node)) :=
 ofList (members.map fun m => (unitsValue m.1, m.2))

section Members

variable (members : List (List StrUnit × Value × Node))

theorem memberMap_eq : memberMap members = (memberHeld members).map fun b => (b.1, b.2.1) := by
 rw [memberHeld, ofList_map, map_map, ofList, foldl_map]
 rfl

theorem get?_memberNodes (k : String) : get? (memberNodes members) k
 = (get? (memberHeld members) k).bind fun b =>
  if b.2.isEmpty then none else some b.2 := by
 induction members using List.reverseRecOn with
 | nil => rfl
 | append_singleton members m ih =>
  have hheld : memberHeld (members ++ [m]) = insert (memberHeld members) (unitsValue m.1) m.2 := by
   rw [memberHeld, map_append, map_singleton, ofList_snoc]
   rfl
  have hnodes : memberNodes (members ++ [m]) = if m.2.2.isEmpty then
   erase (memberNodes members) (unitsValue m.1)
   else insert (memberNodes members) (unitsValue m.1) m.2.2 := by
   rw [memberNodes, foldl_append]
   rfl
  rw [hheld, hnodes, get?_insert]
  by_cases hk : unitsValue m.1 = k
  · rw [if_pos hk, Option.bind_some]
    split
    · rw [get?_erase, if_pos hk]
    · rw [get?_insert, if_pos hk]
  · rw [if_neg hk, ← ih]
    split
    · rw [get?_erase, if_neg hk]
    · rw [get?_insert, if_neg hk]

theorem memberKeyTexts_nil (h : lossyKeys members = false) : memberKeyTexts members = [] := by
 induction members using List.reverseRecOn with
 | nil => rfl
 | append_singleton members m ih =>
  rw [lossyKeys, any_append, Bool.or_eq_false_iff] at h
  have hm : unitsLossy m.1 = false := by simpa using h.2
  have hnil : memberKeyTexts members = [] := ih h.1
  rw [memberKeyTexts, foldl_append]
  show (if unitsLossy m.1 then insert (memberKeyTexts members) _ _
   else erase (memberKeyTexts members) _) = []
  rw [if_neg (by simp [hm]), hnil]
  rfl

def heldText (b : String × (Value × Node)) : String × List Char :=
 (b.1, memberText (writeString b.1) (writeHeld b.2.1 b.2.2))

theorem writeHeldObject_map {node : Node} (hkeys : node.keyTexts = [])
 {bs : List (String × (Value × Node))}
 (hbs : ∀ b ∈ bs, get? node.members b.1 = if b.2.2.isEmpty then none else some b.2.2) :
 writeHeldObject (bs.map fun b => (b.1, b.2.1)) node = bs.map heldText := by
 induction bs with
 | nil => simp [writeHeldObject]
 | cons b bs ih =>
  have hb := hbs b (mem_cons_self ..)
  rw [map_cons, writeHeldObject, ih fun c hc => hbs c (mem_cons_of_mem _ hc),
   map_cons, hkeys, hb, heldText]
  cases hn : b.2.2.isEmpty with
  | true => rw [Node.eq_empty hn, writeHeld_empty]; rfl
  | false => rfl

theorem writeHeld_object (h : lossyKeys members = false) (text : List Char) (depth : Nat) :
 writeHeld (.object (memberMap members)) (objectNode members text depth)
  = writeMembers ((memberHeld members).map heldText) := by
 have hnode : objectNode members text depth = .mk none [] (memberNodes members) [] := by
  rw [objectNode, h, memberKeyTexts_nil members h]
  rfl
 rw [writeHeld, hnode, memberMap_eq]
 show writeMembers (writeHeldObject _ _) = _
 rw [writeHeldObject_map rfl]
 intro b hb
 show get? (memberNodes members) b.1 = _
 rw [get?_memberNodes, get?_of_mem (m := memberHeld members) (nodup_ofList _) hb, Option.bind_some]

end Members

/-! ## A value that was read equals itself -/

theorem Number.beq_refl (n : Number) : n.beq n = true := by
 cases n <;> simp [beq, F64.beq]

theorem Value.beqItems_refl {vs : List Value} (h : ∀ v ∈ vs, v.beq v = true) :
 beqItems vs vs = true := by
 induction vs with
 | nil => rfl
 | cons v vs ih =>
  rw [beqItems, h v (mem_cons_self ..), Bool.true_and]
  exact ih fun w hw => h w (mem_cons_of_mem _ hw)

theorem Value.beqMembers_refl {object ms : JsonObject}
 (h : ∀ m ∈ ms, get? object m.1 = some m.2 ∧ m.2.beq m.2 = true) :
 beqMembers ms object = true := by
 induction ms with
 | nil => rfl
 | cons m ms ih =>
  obtain ⟨hget, hbeq⟩ := h m (mem_cons_self ..)
  rw [beqMembers, hget]
  simp only [hbeq, Bool.true_and]
  exact ih fun b hb => h b (mem_cons_of_mem _ hb)

variable {members : List (List StrUnit × Value × Node)} {d : Nat} {w : List Char}
 {units : List StrUnit}

theorem mem_memberHeld {b : String × (Value × Node)} (h : b ∈ memberHeld members) :
 ∃ m ∈ members, b = (unitsValue m.1, m.2) := by
 obtain ⟨m, hm, rfl⟩ := mem_map.mp (mem_ofList h)
 exact ⟨m, hm, rfl⟩

/-- What a text is read as equals itself: its objects have no key twice. -/
def Meaning.Reflexive : Meaning → Prop
 | .value v _ => v.beq v = true
 | .elements items => ∀ item ∈ items, item.1.beq item.1 = true
 | .members ms => ∀ m ∈ ms, m.2.1.beq m.2.1 = true

theorem reflexive_of_denotes {m : Meaning} (h : Denotes d w m) : m.Reflexive := by
 induction h with
 | number d h =>
  show (Parser.tokenValue _).beq _ = true
  unfold Parser.tokenValue
  split
  · exact Number.beq_refl _
  · rfl
 | string d h => exact decide_eq_true rfl
 | array _ _ ih =>
  refine Value.beqItems_refl fun v hv => ?_
  obtain ⟨item, hitem, rfl⟩ := mem_map.mp hv
  exact ih item hitem
 | @object d w members _ _ ih =>
  show (decide _ && Value.beqMembers (memberMap members) (memberMap members)) = true
  rw [decide_eq_true rfl, Bool.true_and]
  have hd : (keys (memberMap members)).Nodup := by
   rw [memberMap_eq, memberHeld, ofList_map]
   exact nodup_ofList _
  refine Value.beqMembers_refl fun b hb => ⟨get?_of_mem hd hb, ?_⟩
  rw [memberMap_eq] at hb
  obtain ⟨c, hc, rfl⟩ := mem_map.mp hb
  obtain ⟨m, hm, rfl⟩ := mem_memberHeld hc
  exact ih m hm
 | element _ _ _ ih =>
  intro item hitem
  rw [mem_singleton.mp hitem]
  exact ih
 | elements _ _ _ _ ihw ihv =>
  intro item hitem
  rcases mem_append.mp hitem with hitem | hitem
  · exact ihw item hitem
  · rw [mem_singleton.mp hitem]
    exact ihv
 | member _ _ _ _ ih =>
  intro m hm
  rw [mem_singleton.mp hm]
  exact ih
 | members _ _ _ _ _ ihw ihv =>
  intro m hm
  rcases mem_append.mp hm with hm | hm
  · exact ihw m hm
  · rw [mem_singleton.mp hm]
    exact ihv
 | _ => exact rfl

/-! ## Texts that are rewritten as they are -/

/-- Inside `d` containers the text is read, and written back as it is. -/
def Fixed (d : Nat) (u : List Char) : Prop := ∃ v n, Denotes d u (.value v n) ∧ writeHeld v n = u

theorem Fixed.isValue {u : List Char} (h : Fixed d u) : IsValue u := by
 obtain ⟨v, n, hden, -⟩ := h
 exact hden.derives

theorem bodyReads_write (h : UnitsOk units) :
 BodyReads (units.flatMap StrUnit.write) units := fun rest => stringUnits_write h rest

theorem units_of_not_lossy (h : unitsLossy units = false) :
 units = (unitsValue units).toList.map StrUnit.text := by
 rw [unitsValue, String.toList_ofList, map_map]
 refine (map_id units).symm.trans (map_congr_left fun u hu => ?_)
 cases u with
 | text c => rfl
 | lone n => exact absurd (any_eq_false.mp h _ hu) (by simp)

theorem canonicalString_text (text : String) :
 canonicalString (text.toList.map StrUnit.text) = writeString text := by
 rw [canonicalString, writeString, flatMap_map]
 rfl

theorem canonicalString_of_not_lossy (h : unitsLossy units = false) :
 canonicalString units = writeString (unitsValue units) := by
 rw [← canonicalString_text, ← units_of_not_lossy h]

theorem writeHeld_string (units : List StrUnit) :
 writeHeld (.string (unitsValue units)) (unitsNode units) = canonicalString units := by
 rw [writeHeld_leaf (by simp) (by simp), unitsNode]
 cases h : unitsLossy units with
 | true =>
  show (Kept.textFor _ (.string _ _)).getD _ = _
  rw [Kept.textFor, Value.asStr, if_pos rfl]
  rfl
 | false => exact (canonicalString_of_not_lossy h).symm

theorem fixed_string (d : Nat) (h : UnitsOk units) : Fixed d (canonicalString units) :=
 ⟨_, _, .string d (bodyReads_write h), writeHeld_string units⟩

theorem fixed_literal (d : Nat) (h : w ∈ ["true".toList, "false".toList, "null".toList]) :
 Fixed d w := by
 simp only [mem_cons, not_mem_nil, or_false] at h
 rcases h with rfl | rfl | rfl
 · exact ⟨_, _, .true d, writeHeld_empty _⟩
 · exact ⟨_, _, .false d, writeHeld_empty _⟩
 · exact ⟨_, _, .null d, writeHeld_empty _⟩

theorem fixed_number (d : Nat) (h : IsNumber w) (hw : writeValue (Parser.tokenValue w) = w) :
 Fixed d w :=
 ⟨_, _, .number d h, (writeHeld_empty _).trans hw⟩

theorem fixed_deep (hd : maxHeldDepth ≤ d) {k : Kind} {s : List Char}
 (h : IsValue (opening k :: s)) : Fixed d (opening k :: s) := by
 refine ⟨_, _, .deep hd h, ?_⟩
 rw [writeHeld_leaf (by simp) (by simp)]
 rfl

/-! ## Containers -/

variable {ts : List (List Char)}

theorem denotes_elements {items : List (Value × Node)}
 (hw : Denotes d w (.elements items)) (h : ∀ t ∈ ts, Fixed d t) :
 ∃ more, Denotes d (w ++ ts.flatMap fun u => ',' :: u) (.elements (items ++ more))
  ∧ (more.map fun item => writeHeld item.1 item.2) = ts := by
 induction ts generalizing w items with
 | nil => exact ⟨[], by simpa using hw, rfl⟩
 | cons t ts ih =>
  obtain ⟨v, n, hden, ht⟩ := h t (mem_cons_self ..)
  obtain ⟨more, hmore, hts⟩ := ih (.elements hw .nil hden .nil)
   fun u hu => h u (mem_cons_of_mem _ hu)
  exact ⟨(v, n) :: more, by simpa using hmore, by rw [map_cons, ht, hts]⟩

theorem fixed_array (hd : d < maxHeldDepth) (h : ∀ t ∈ ts, Fixed (d + 1) t) :
  Fixed d (arrayText ts) := by
 cases ts with
 | nil => exact ⟨_, _, .emptyArray hd .nil, writeHeld_empty _⟩
 | cons t ts =>
  obtain ⟨v, n, hden, ht⟩ := h t (mem_cons_self ..)
  obtain ⟨more, hmore, hts⟩ := denotes_elements (.element .nil hden .nil)
   fun u hu => h u (mem_cons_of_mem _ hu)
  have hitems : Denotes (d + 1) (commaSeparated (t :: ts)) (.elements ((v, n) :: more)) := by
   simpa [commaSeparated] using hmore
  exact ⟨_, _, .array hd hitems, by rw [writeHeld_array, map_cons, ht, hts]⟩

/-- A member as `JSON.stringify` writes it: its key in canonical form. -/
def canonicalMember (m : List StrUnit × List Char) : List Char :=
 memberText (canonicalString m.1) m.2

theorem keyReads_canonical (h : UnitsOk units) : KeyReads (canonicalString units ++ [':']) units :=
 ⟨[], _, [], .nil, bodyReads_write h, .nil, by simp [canonicalString]⟩

theorem denotes_members {held : List (List StrUnit × Value × Node)}
 {ms : List (List StrUnit × List Char)} (hw : Denotes d w (.members held))
 (h : ∀ m ∈ ms, UnitsOk m.1 ∧ Fixed d m.2) :
 ∃ more, Denotes d (w ++ (ms.map canonicalMember).flatMap fun u => ',' :: u)
  (.members (held ++ more))
  ∧ (more.map fun m => (m.1, writeHeld m.2.1 m.2.2)) = ms := by
 induction ms generalizing w held with
 | nil => exact ⟨[], by simpa using hw, rfl⟩
 | cons m ms ih =>
  obtain ⟨hok, v, n, hden, ht⟩ := h m (mem_cons_self ..)
  obtain ⟨more, hmore, hms⟩ := ih (.members hw (keyReads_canonical hok) .nil hden .nil)
   fun b hb => h b (mem_cons_of_mem _ hb)
  refine ⟨(m.1, v, n) :: more, ?_, by rw [map_cons, ht, hms]⟩
  simpa [canonicalMember, memberText] using hmore

theorem writeHeld_lossyKeys {text : List Char} (h : lossyKeys members = true)
 (hden : Denotes d text (.value (.object (memberMap members)) (objectNode members text d))) :
 writeHeld (.object (memberMap members)) (objectNode members text d) = text := by
 have hread : parseAtDepth text d = some (.object (memberMap members)) := by
  have := parse_of_denotes .nil hden .nil
  rw [nil_append, append_nil] at this
  rw [parseAtDepth, this, Option.map_some]
 have hkept : (objectNode members text d).kept = some (.lossyKeys text d) := by
  rw [objectNode, if_pos h]
  rfl
 have hrefl : (Value.object (memberMap members)).beq (.object (memberMap members)) = true :=
  reflexive_of_denotes hden
 rw [writeHeld, Node.textOr, hkept, Option.bind_some, Kept.textFor, hread]
 simp only [hrefl, if_true, Option.getD_some]

/-! ## The order of members -/

def enumerated {α : Type} (members : List (String × α)) : List (String × α) :=
 ((members.filter fun m => (arrayIndex m.1).isSome).mergeSort
  fun a b => (arrayIndex a.1).getD 0 ≤ (arrayIndex b.1).getD 0)
  ++ members.filter fun m => (arrayIndex m.1).isNone

theorem writeMembers_eq (ms : List (String × List Char)) :
 writeMembers ms = '{' :: (commaSeparated ((enumerated ms).map Prod.snd) ++ ['}']) := rfl

variable {α : Type}

theorem enumerated_map {β : Type} {g : String × α → String × β} (hg : ∀ m, (g m).1 = m.1)
 (ms : List (String × α)) : enumerated (ms.map g) = (enumerated ms).map g := by
 rw [enumerated, enumerated, map_append, filter_map, filter_map,
  map_mergeSort (s := fun a b => (arrayIndex a.1).getD 0 ≤ (arrayIndex b.1).getD 0)]
 · simp only [Function.comp_def, hg]
 · intro a _ b _
   simp only [hg]

theorem enumerated_perm (ms : List (String × α)) : (enumerated ms).Perm ms := by
 refine ((mergeSort_perm ..).append_right _).trans ?_
 have := filter_append_perm (fun m : String × α => (arrayIndex m.1).isSome) ms
 simpa only [Option.not_isSome] using this

def InOrder (keys : List String) : Prop :=
 ∃ indexed rest, keys = indexed ++ rest ∧ (∀ k ∈ indexed, (arrayIndex k).isSome = true)
  ∧ indexed.Pairwise (fun a b => (arrayIndex a).getD 0 ≤ (arrayIndex b).getD 0)
  ∧ ∀ k ∈ rest, (arrayIndex k).isNone = true

theorem inOrder_enumerated (ms : List (String × α)) : InOrder ((enumerated ms).map Prod.fst) := by
 refine ⟨_, _, map_append, ?_, ?_, ?_⟩
 · intro k hk
   obtain ⟨m, hm, rfl⟩ := mem_map.mp hk
   exact (mem_filter.mp (mem_mergeSort.mp hm)).2
 · rw [pairwise_map]
   refine (pairwise_mergeSort ?_ ?_ _).imp fun h => of_decide_eq_true h
   · intro a b c hab hbc
     exact decide_eq_true (Nat.le_trans (of_decide_eq_true hab) (of_decide_eq_true hbc))
   · intro a b
     simpa using Nat.le_total _ _
 · intro k hk
   obtain ⟨m, hm, rfl⟩ := mem_map.mp hk
   exact (mem_filter.mp hm).2

theorem enumerated_of_inOrder {ms : List (String × α)}
 (h : InOrder (ms.map Prod.fst)) : enumerated ms = ms := by
 obtain ⟨indexed, rest, hkeys, hi, hsorted, hr⟩ := h
 obtain ⟨a, b, rfl, rfl, rfl⟩ := map_eq_append_iff.mp hkeys
 have ha : ∀ m ∈ a, (arrayIndex m.1).isSome = true := fun m hm => hi _ (mem_map_of_mem hm)
 have hb : ∀ m ∈ b, (arrayIndex m.1).isNone = true := fun m hm => hr _ (mem_map_of_mem hm)
 have h1 : (a ++ b).filter (fun m => (arrayIndex m.1).isSome) = a := by
  rw [filter_append, filter_eq_self.mpr ha, filter_eq_nil_iff.mpr, append_nil]
  intro m hm
  have := hb m hm
  simpa using this
 have h2 : (a ++ b).filter (fun m => (arrayIndex m.1).isNone) = b := by
  rw [filter_append, filter_eq_self.mpr hb, filter_eq_nil_iff.mpr, nil_append]
  intro m hm
  have := ha m hm
  cases hx : arrayIndex m.1 <;> simp_all
 rw [enumerated, h1, h2, mergeSort_of_pairwise]
 exact (pairwise_map.mp hsorted).imp fun h => decide_eq_true h

theorem writeHeld_members (hlossy : lossyKeys members = false)
 (hd : (members.map fun m => unitsValue m.1).Nodup)
 (ho : InOrder (members.map fun m => unitsValue m.1)) (text : List Char) (depth : Nat) :
 writeHeld (.object (memberMap members)) (objectNode members text depth)
  = '{' :: (commaSeparated (members.map fun m =>
   canonicalMember (m.1, writeHeld m.2.1 m.2.2)) ++ ['}']) := by
 have hheld : memberHeld members = members.map fun m => (unitsValue m.1, m.2) :=
  ofList_of_nodup (by rw [OrdMap.keys, map_map]; exact hd)
 rw [writeHeld_object members hlossy, hheld, writeMembers_eq, enumerated_of_inOrder]
 · simp only [map_map]
   congr 3
   refine map_congr_left fun m hm => ?_
   have hm : unitsLossy m.1 = false := by
    simpa using any_eq_false.mp hlossy m hm
   simp only [Function.comp_apply, heldText, canonicalMember, canonicalString_of_not_lossy hm]
 · simp only [map_map]
   exact ho

theorem fixed_object (hd : d < maxHeldDepth) {ms : List (List StrUnit × List Char)}
 (h : ∀ m ∈ ms, UnitsOk m.1 ∧ Fixed (d + 1) m.2)
 (hkeys : (∀ m ∈ ms, unitsLossy m.1 = false) → (ms.map fun m => unitsValue m.1).Nodup)
 (ho : InOrder (ms.map fun m => unitsValue m.1)) :
 Fixed d ('{' :: (commaSeparated (ms.map canonicalMember) ++ ['}'])) := by
 cases ms with
 | nil => exact ⟨_, _, .emptyObject hd .nil, (writeHeld_empty _).trans (by
  simp [writeValue, writeObject, writeMembers_eq, enumerated])⟩
 | cons m ms =>
  obtain ⟨hok, v, n, hden, ht⟩ := h m (mem_cons_self ..)
  obtain ⟨more, hmore, hms⟩ := denotes_members
   (.member (keyReads_canonical hok) .nil hden .nil) fun b hb => h b (mem_cons_of_mem _ hb)
  generalize hheld : [(m.1, v, n)] ++ more = held at hmore
  have htexts : (held.map fun b => (b.1, writeHeld b.2.1 b.2.2)) = m :: ms := by
   rw [← hheld, singleton_append, map_cons, hms, ht]
  have hden : Denotes (d + 1) (commaSeparated ((m :: ms).map canonicalMember)) (.members held) := by
   simpa [commaSeparated, canonicalMember, memberText] using hmore
  refine ⟨_, _, .object hd hden, ?_⟩
  cases hlossy : lossyKeys held with
  | true => exact writeHeld_lossyKeys hlossy (.object hd hden)
  | false =>
   have hall : ∀ b ∈ m :: ms, unitsLossy b.1 = false := by
    rw [← htexts]
    intro b hb
    obtain ⟨c, hc, rfl⟩ := mem_map.mp hb
    simpa using any_eq_false.mp hlossy c hc
   have hnames : (held.map fun b => unitsValue b.1) = (m :: ms).map fun b => unitsValue b.1 := by
    rw [← htexts, map_map]
    rfl
   rw [writeHeld_members hlossy (hnames ▸ hkeys hall) (hnames ▸ ho), ← htexts, map_map]
   rfl

theorem fixed_writeMembers {d : Nat} (hd : d < maxHeldDepth) {ms : List (String × List Char)}
 (hkeys : (ms.map Prod.fst).Nodup) (h : ∀ m ∈ ms, Fixed (d + 1) m.2) :
 Fixed d (writeMembers (ms.map fun m => (m.1, memberText (writeString m.1) m.2))) := by
 have hunits : ∀ text : String, unitsValue (text.toList.map StrUnit.text) = text := by
  intro text
  rw [unitsValue, map_map]
  exact (congrArg String.ofList (map_id _)).trans String.ofList_toList
 have hperm := enumerated_perm ms
 have := @fixed_object d hd ((enumerated ms).map fun m => (m.1.toList.map StrUnit.text, m.2))
  ?_ ?_ ?_
 · rw [writeMembers_eq,
    enumerated_map (g := fun m => (m.1, memberText (writeString m.1) m.2)) (fun _ => rfl),
    map_map]
   rw [map_map] at this
   simpa only [Function.comp_def, canonicalMember, canonicalString_text] using this
 · intro m hm
   obtain ⟨b, hb, rfl⟩ := mem_map.mp hm
   exact ⟨unitsOk_text _, h b (hperm.mem_iff.mp hb)⟩
 · intro _
   simp only [map_map, Function.comp_def, hunits]
   exact (hperm.map Prod.fst).nodup_iff.mpr hkeys
 · simp only [map_map, Function.comp_def, hunits]
   exact inOrder_enumerated ms

/-! ## Numbers -/

mutual
def Value.numbers : Value → List Number
 | .number n => [n]
 | .array items => itemsNumbers items
 | .object ms => membersNumbers ms
 | .null | .bool _ | .string _ => []

def Value.itemsNumbers : List Value → List Number
 | [] => []
 | v :: vs => v.numbers ++ Value.itemsNumbers vs

def Value.membersNumbers : List (String × Value) → List Number
 | [] => []
 | m :: ms => m.2.numbers ++ Value.membersNumbers ms
end

theorem Value.itemsNumbers_eq (vs : List Value) : itemsNumbers vs = vs.flatMap numbers := by
 induction vs with
 | nil => rfl
 | cons v vs ih => rw [itemsNumbers, ih, flatMap_cons]

theorem Value.membersNumbers_eq (ms : List (String × Value)) :
 membersNumbers ms = ms.flatMap fun m => m.2.numbers := by
 induction ms with
 | nil => rfl
 | cons m ms ih => rw [membersNumbers, ih, flatMap_cons]

def Number.PrintsBack (n : Number) : Prop :=
 writeValue (Parser.tokenValue (jsNumberValue n)) = jsNumberValue n

instance (n : Number) : Decidable n.PrintsBack :=
 inferInstanceAs (Decidable (writeValue _ = _))

/-! ## What is written is written again as it is -/

theorem fixed_tokenValue (d : Nat) (h : ∀ k ∈ (Parser.tokenValue w).numbers, k.PrintsBack) :
 Fixed d (writeValue (Parser.tokenValue w)) := by
 unfold Parser.tokenValue at h ⊢
 cases hw : Number.ofToken w with
 | none => exact fixed_literal d (by simp [writeValue])
 | some n =>
  rw [hw] at h
  have hback : n.PrintsBack := h n (by simp [Value.numbers])
  show Fixed d (writeValue (.number n))
  rw [writeValue]
  rcases jsNumberValue_cases n with hnum | hnull
  · exact fixed_number d hnum hback
  · exact hnull ▸ fixed_literal d (by simp)

/-- What is written for the parts of a meaning is written again as it is. -/
def Meaning.Rewrites (d : Nat) : Meaning → Prop
 | .value v n => (∀ k ∈ v.numbers, k.PrintsBack) → Fixed d (writeHeld v n)
 | .elements items => ∀ item ∈ items, (∀ k ∈ item.1.numbers, k.PrintsBack) →
  Fixed d (writeHeld item.1 item.2)
 | .members ms => ∀ m ∈ ms, (∀ k ∈ m.2.1.numbers, k.PrintsBack) → Fixed d (writeHeld m.2.1 m.2.2)

/-- **What is written for a value that was read is read and written again as it is.** -/
theorem rewrites_of_denotes {m : Meaning} (h : Denotes d w m) : m.Rewrites d := by
 induction h with
 | true d | false d | null d =>
  exact fun _ => writeHeld_empty _ ▸ fixed_literal d (by simp [writeValue])
 | number d h => exact fun hn => writeHeld_empty _ ▸ fixed_tokenValue d hn
 | string d hb =>
  exact fun _ => writeHeld_string _ ▸ fixed_string d (unitsOk_of_stringUnits (hb []))
 | @deep d k s hd hv =>
  intro _
  rw [writeHeld_leaf (by simp) (by simp)]
  exact fixed_deep hd hv
 | emptyArray hd hs =>
  intro _
  exact writeHeld_array [] ▸ fixed_array hd (by simp)
 | @emptyObject d s hd hs =>
  intro _
  rw [writeHeld_empty, writeValue, writeObject]
  exact @fixed_writeMembers d hd [] nodup_nil (by simp)
 | @array d w items hd _ ih =>
  intro hn
  rw [writeHeld_array]
  refine fixed_array hd fun t ht => ?_
  obtain ⟨item, hitem, rfl⟩ := mem_map.mp ht
  refine ih item hitem fun k hk => hn k ?_
  rw [Value.numbers, Value.itemsNumbers_eq]
  exact mem_flatMap.mpr ⟨item.1, mem_map_of_mem hitem, hk⟩
 | @object d w members hd hden ih =>
  intro hn
  cases hlossy : lossyKeys members with
  | true =>
   have hall := Denotes.object hd hden
   exact ⟨_, _, (writeHeld_lossyKeys hlossy hall).symm ▸ hall, rfl⟩
  | false =>
   rw [writeHeld_object members hlossy]
   have hd' : (((memberHeld members).map fun b => (b.1, writeHeld b.2.1 b.2.2)).map
    Prod.fst).Nodup := by
    rw [map_map]
    exact nodup_ofList _
   have := fixed_writeMembers hd hd' fun b hb => ?_
   · rw [map_map] at this
     exact this
   · obtain ⟨c, hc, rfl⟩ := mem_map.mp hb
     obtain ⟨m, hm, hcm⟩ := mem_memberHeld hc
     subst hcm
     refine ih m hm fun k hk => hn k ?_
     rw [Value.numbers, Value.membersNumbers_eq, memberMap_eq]
     exact mem_flatMap.mpr ⟨_, mem_map_of_mem hc, hk⟩
 | element _ _ _ ih =>
  intro item hitem
  rw [mem_singleton.mp hitem]
  exact ih
 | elements _ _ _ _ ihw ihv =>
  intro item hitem
  rcases mem_append.mp hitem with hitem | hitem
  · exact ihw item hitem
  · rw [mem_singleton.mp hitem]
    exact ihv
 | member _ _ _ _ ih =>
  intro m hm
  rw [mem_singleton.mp hm]
  exact ih
 | members _ _ _ _ _ ihw ihv =>
  intro m hm
  rcases mem_append.mp hm with hm | hm
  · exact ihw m hm
  · rw [mem_singleton.mp hm]
    exact ihv

/-! ## The texts `JSON.stringify` writes -/

/-- The texts `JSON.stringify` writes: canonical escapes, array-index keys first, no key
twice, and numbers as they are printed. -/
inductive Stringified : List Char → Prop where
 | literal {w : List Char} : w ∈ ["true".toList, "false".toList, "null".toList] → Stringified w
 | number {w : List Char} : IsNumber w → writeValue (Parser.tokenValue w) = w → Stringified w
 | string {units : List StrUnit} : UnitsOk units → Stringified (canonicalString units)
 | array {ts : List (List Char)} : (∀ t ∈ ts, Stringified t) → Stringified (arrayText ts)
 | object {ms : List (List StrUnit × List Char)} : (∀ m ∈ ms, UnitsOk m.1) →
  (∀ m ∈ ms, Stringified m.2) → (ms.map Prod.fst).Nodup →
  InOrder (ms.map fun m => unitsValue m.1) →
  Stringified ('{' :: (commaSeparated (ms.map canonicalMember) ++ ['}']))

/-- **A text `JSON.stringify` writes is written back as it is,** at any depth. -/
theorem Stringified.fixed {t : List Char} (h : Stringified t) (d : Nat) : Fixed d t := by
 induction h generalizing d with
 | literal h => exact fixed_literal d h
 | number h hw => exact fixed_number d h hw
 | string h => exact fixed_string d h
 | @array ts _ ih =>
  have hheld : Fixed 0 (arrayText ts) := fixed_array (by decide) fun t ht => ih t ht 1
  by_cases hd : d < maxHeldDepth
  · exact fixed_array hd fun t ht => ih t ht (d + 1)
  · exact fixed_deep (k := .array) (Nat.le_of_not_lt hd) hheld.isValue
 | @object ms hok _ hnodup ho ih =>
  -- without lone surrogates, different units are different keys
  have hkeys : (∀ m ∈ ms, unitsLossy m.1 = false) → (ms.map fun m => unitsValue m.1).Nodup := by
   intro hall
   have hmap : (ms.map fun m => unitsValue m.1) = (ms.map Prod.fst).map unitsValue := by
    rw [map_map]
    rfl
   rw [hmap]
   refine hnodup.map_on fun a ha b hb heq => ?_
   obtain ⟨m, hm, rfl⟩ := mem_map.mp ha
   obtain ⟨c, hc, rfl⟩ := mem_map.mp hb
   rw [units_of_not_lossy (hall m hm), heq, ← units_of_not_lossy (hall c hc)]
  have hms : ∀ e, ∀ m ∈ ms, UnitsOk m.1 ∧ Fixed e m.2 := fun e m hm => ⟨hok m hm, ih m hm e⟩
  by_cases hd : d < maxHeldDepth
  · exact fixed_object hd (hms (d + 1)) hkeys ho
  · have hheld := fixed_object (d := 0) (by decide) (hms 1) hkeys ho
    exact fixed_deep (k := .object) (Nat.le_of_not_lt hd) hheld.isValue

/-! ## Lines -/

theorem parseJsonLine_cases {text : List Char} {line : ParsedJson}
 (h : parseJsonLine text = some line) : ∃ v n, parseAtDepthWithNode text 0 = some (v, n)
  ∧ line.value = v ∧ jsStringifyHeld line.value line.verbatim = writeHeld v n := by
 rw [parseJsonLine] at h
 cases hp : parseAtDepthWithNode text 0 with
 | none => simp [hp] at h
 | some r =>
  obtain ⟨v, n⟩ := r
  rw [hp] at h
  cases h
  exact ⟨v, n, rfl, rfl, jsStringifyHeld_eq v n⟩

theorem Fixed.line {u : List Char} (h : Fixed 0 u) :
 ∃ line, parseJsonLine u = some line ∧ jsStringifyHeld line.value line.verbatim = u := by
 obtain ⟨v, n, hden, hu⟩ := h
 have hp := parse_of_denotes .nil hden .nil
 rw [nil_append, append_nil] at hp
 refine ⟨_, by rw [parseJsonLine, hp]; rfl, ?_⟩
 exact (jsStringifyHeld_eq v n).trans hu

/--
**A session line survives a rewrite.** What is written for a line's value and its kept text
is a line again, written again byte for byte; and a line `JSON.stringify` wrote is written
back byte for byte. Numbers are atoms here: each prints as a token that prints the same.
-/
theorem jsStringifyHeld_rewrite {text : List Char} {line : ParsedJson}
 (h : parseJsonLine text = some line) (hn : ∀ k ∈ line.value.numbers, k.PrintsBack) :
 (∃ again, parseJsonLine (jsStringifyHeld line.value line.verbatim) = some again
  ∧ jsStringifyHeld again.value again.verbatim = jsStringifyHeld line.value line.verbatim)
  ∧ (Stringified text → jsStringifyHeld line.value line.verbatim = text) := by
 obtain ⟨v, n, hp, hv, hu⟩ := parseJsonLine_cases h
 refine ⟨?_, fun hs => ?_⟩
 · obtain ⟨a, w, b, -, -, -, hden⟩ := denotes_of_parse hp
   rw [hu]
   exact Fixed.line (rewrites_of_denotes hden (hv ▸ hn))
 · obtain ⟨again, hagain, htext⟩ := (hs.fixed 0).line
   rw [h] at hagain
   injection hagain with hagain
   exact hagain ▸ htext

/-- A line whose members are rewritten, with a lone surrogate in a string and a key twice. -/
def surrogateLine : List Char :=
 "\x7b\"b\":\"\\uD800\",\"10\":[1,0.5], \"b\":\"\\udc01\"\x7d".toList

theorem isSome_surrogateLine : (parseJsonLine surrogateLine).isSome = true := by decide +kernel

theorem numbers_surrogateLine : ((parseJsonLine surrogateLine).all fun line =>
 line.value.numbers.all fun k => decide k.PrintsBack) = true := by decide +kernel

/-- That line is rewritten to a line that is rewritten as it is. -/
theorem surrogateLine_rewrite : ∃ line, parseJsonLine surrogateLine = some line
 ∧ ∃ again, parseJsonLine (jsStringifyHeld line.value line.verbatim) = some again
  ∧ jsStringifyHeld again.value again.verbatim = jsStringifyHeld line.value line.verbatim := by
 obtain ⟨line, hline⟩ := Option.isSome_iff_exists.mp isSome_surrogateLine
 have hn := numbers_surrogateLine
 rw [hline] at hn
 exact ⟨line, hline, (jsStringifyHeld_rewrite hline (by simpa using hn)).1⟩

end Bake.Json
