import Bake.Json.Balance

/-!
# Writing a value as `JSON.stringify` writes it

Members come in JavaScript's enumeration order, numbers as
`Number.prototype.toString` prints them, and text kept when the line was read
stands in for a value as long as that value is unchanged.

Whatever a value and the text kept for it are, what is written is a JSON value
again, and it has a line break only where the kept text has one.
-/

open List
open OrdMap (get?)

namespace Bake.Json

/-! ## The writer -/

def arrayIndex (key : String) : Option Nat :=
 let text := key.toList
 if text = [] ∨ 10 < text.length ∨ text.all Char.isDigit = false then none
 else if 1 < text.length ∧ text.head? = some '0' then none
 else
  let value := Nat.ofDigitChars 10 text 0
  if value < 2 ^ 32 - 1 then some value else none

/-- Texts with commas between them. -/
def commaSeparated : List (List Char) → List Char
 | [] => []
 | t :: ts => t ++ ts.flatMap fun u => ',' :: u

def arrayText (items : List (List Char)) : List Char := '[' :: (commaSeparated items ++ [']'])

/-- An object from its members' texts, by key: array-index keys first, ascending,
then the rest in insertion order. -/
def writeMembers (members : List (String × List Char)) : List Char :=
 let indexed := members.filter fun m => (arrayIndex m.1).isSome
 let rest := members.filter fun m => (arrayIndex m.1).isNone
 let order := indexed.mergeSort fun a b => (arrayIndex a.1).getD 0 ≤ (arrayIndex b.1).getD 0
 '{' :: (commaSeparated ((order ++ rest).map Prod.snd) ++ ['}'])

def memberText (key value : List Char) : List Char := key ++ ':' :: value

mutual
/-- `js_stringify`. -/
def writeValue : Value → List Char
 | .null => "null".toList
 | .bool true => "true".toList
 | .bool false => "false".toList
 | .number n => jsNumberValue n
 | .string text => writeString text
 | .array items => arrayText (writeItems items)
 | .object object => writeMembers (writeObject object)

def writeItems : List Value → List (List Char)
 | [] => []
 | v :: vs => writeValue v :: writeItems vs

/-- The members' texts, by key. -/
def writeObject : List (String × Value) → List (String × List Char)
 | [] => []
 | (key, v) :: ms => (key, memberText (writeString key) (writeValue v)) :: writeObject ms
end

def Kept.textFor (value : Value) : Kept → Option (List Char)
 | .string read text => if value.asStr = some read then some text else none
 | .deep text => if value.isNull then some text else none
 | .lossyKeys text depth => match parseAtDepth text depth with
  | some read => if read.beq value then some text else none
  | none => none

/-- `Kept.textFor` for an object value. -/
def Kept.textForObject (object : JsonObject) : Kept → Option (List Char)
 | .lossyKeys text depth => match parseAtDepth text depth with
  | some (.object read) => if (Value.object read).beq (.object object) then some text else none
  | _ => none
 | .string .. | .deep _ => none

def Node.textOr (node : Node) (value : Value) (text : List Char) : List Char :=
 (node.kept.bind (Kept.textFor value)).getD text

mutual
/-- A value with the text kept for it and below it. -/
def writeHeld : Value → Node → List Char
 | .array items, node =>
  node.textOr (.array items) (arrayText (writeHeldItems 0 items node.items))
 | .object object, node =>
  node.textOr (.object object) (writeMembers (writeHeldObject object node))
 | value, node => node.textOr value (writeValue value)

/-- The items from `index` on; `held` are the nodes of the rest of them. -/
def writeHeldItems : Nat → List Value → List (Nat × Node) → List (List Char)
 | _, [], _ => []
 | index, item :: items, [] => writeValue item :: writeHeldItems (index + 1) items []
 | index, item :: items, (i, child) :: held =>
  if i = index then writeHeld item child :: writeHeldItems (index + 1) items held
  else writeValue item :: writeHeldItems (index + 1) items ((i, child) :: held)

/-- The members' texts, by key. -/
def writeHeldObject : List (String × Value) → Node → List (String × List Char)
 | [], _ => []
 | (key, v) :: ms, node =>
  let keyText := (get? node.keyTexts key).getD (writeString key)
  let text := match get? node.members key with
   | some child => writeHeld v child
   | none => writeValue v
  (key, memberText keyText text) :: writeHeldObject ms node
end

def jsStringifyHeld (value : Value) : Verbatim → List Char
 | none => writeValue value
 | some root => writeHeld value root

def jsStringifyObject (object : JsonObject) : List Char := writeMembers (writeObject object)

def jsStringifyObjectHeld (object : JsonObject) : Verbatim → List Char
 | none => jsStringifyObject object
 | some root => match root.kept.bind (Kept.textForObject object) with
  | some text => text
  | none => writeMembers (writeHeldObject object root)

/-! ## Numbers -/

/-- Digits that do not begin with a zero. -/
def Lead (w : List Char) : Prop := ∃ c ds, w = c :: ds ∧ '1' ≤ c ∧ c ≤ '9' ∧ Digits ds

variable {w T t : List Char} {ts : List (List Char)}

theorem Lead.isInt (h : Lead w) : IsInt w := by
 obtain ⟨c, ds, rfl, h1, h9, hd⟩ := h
 exact .pos h1 h9 hd

theorem Digits.append {a b : List Char} (ha : Digits a) (hb : Digits b) : Digits (a ++ b) := by
 intro c hc
 rcases mem_append.mp hc with h | h
 · exact ha c h
 · exact hb c h

theorem Digits.replicate (n : Nat) : Digits (List.replicate n '0') := by
 intro c hc
 rw [eq_of_mem_replicate hc]
 rfl

theorem Lead.append {ds : List Char} (h : Lead w) (hd : Digits ds) : Lead (w ++ ds) := by
 obtain ⟨c, t, rfl, h1, h9, ht⟩ := h
 exact ⟨c, t ++ ds, rfl, h1, h9, ht.append hd⟩

theorem Lead.digits (h : Lead w) : Digits w := by
 obtain ⟨c, t, rfl, h1, h9, ht⟩ := h
 intro x hx
 rcases mem_cons.mp hx with rfl | hx
 · have h0 : '0' ≤ x := Char.le_trans (by decide) h1
   simp only [Char.isDigit, Bool.and_eq_true, decide_eq_true_eq]
   exact ⟨h0, h9⟩
 · exact ht x hx

theorem lead_toDigits {n : Nat} (h : 0 < n) : Lead (Nat.toDigits 10 n) := by
 induction n using Nat.strongRecOn with
 | ind n ih =>
  by_cases hn : n < 10
  · rw [Nat.toDigits_of_lt_base hn]
    have : ∀ k : Fin 10, 0 < k.val → '1' ≤ k.val.digitChar ∧ k.val.digitChar ≤ '9' := by decide
    obtain ⟨h1, h9⟩ := this ⟨n, hn⟩ h
    exact ⟨_, [], rfl, h1, h9, fun c hc => absurd hc (by simp)⟩
  · have hn : 10 ≤ n := Nat.le_of_not_lt hn
    rw [Nat.toDigits_of_base_le (by decide) hn]
    refine (ih (n / 10) (by omega) (by omega)).append ?_
    intro c hc
    rw [mem_singleton.mp hc, Nat.isDigit_digitChar]
    exact decide_eq_true (Nat.mod_lt _ (by decide))

theorem isInt_toDigits (n : Nat) : IsInt (Nat.toDigits 10 n) := by
 rcases Nat.eq_zero_or_pos n with rfl | h
 · rw [Nat.toDigits_zero]
   exact .zero
 · exact (lead_toDigits h).isInt

theorem digits_toDigits (n : Nat) : Digits (Nat.toDigits 10 n) :=
 fun _ hc => Nat.isDigit_of_mem_toDigits (by decide) (by decide) hc

theorem lead_sciDigits (v : F64) : Lead (sciDigits v).1 := by
 obtain ⟨c, ds, hw, h1, h9, hd⟩ := lead_toDigits v.shortest_pos
 have hc : c ≠ '0' := by
  rintro rfl
  exact absurd h1 (by decide)
 -- the zeros dropped at the end leave the first digit
 have hkeep : ∃ t, (sciDigits v).1 = c :: t ∧ t <+: ds := by
  simp only [sciDigits, hw, reverse_cons]
  rw [dropWhile_append]
  split
  next h =>
   refine ⟨[], ?_, nil_prefix⟩
   rw [dropWhile_cons_of_neg (by simpa using hc)]
   rfl
  · refine ⟨(ds.reverse.dropWhile (· = '0')).reverse, by simp, ?_⟩
    have := (dropWhile_suffix (· = '0') (l := ds.reverse))
    have := reverse_prefix.mpr this
    rwa [reverse_reverse] at this
 obtain ⟨t, ht, hpre⟩ := hkeep
 exact ⟨c, t, ht, h1, h9, fun x hx => hd x (hpre.subset hx)⟩

theorem isNumber_jsNumberToString (v : F64) : IsNumber (jsNumberToString v) := by
 have hlead := lead_sciDigits v
 have hnum : ∀ {int frac exp : List Char}, IsInt int → IsFrac frac → IsExp exp →
  IsNumber ((if v.neg then ['-'] else []) ++ (int ++ (frac ++ exp))) := by
  intro int frac exp hi hf he
  refine .mk ?_ hi hf he
  split
  · exact .inr rfl
  · exact .inl rfl
 unfold jsNumberToString
 split
 · exact .mk (.inl rfl) .zero .none .none
 generalize hds : (sciDigits v).1 = ds at hlead
 obtain ⟨c, t, hct, h1, h9, ht⟩ := hlead
 have hlead : Lead ds := ⟨c, t, hct, h1, h9, ht⟩
 simp only [hds]
 split
 · have := hnum (hlead.append (.replicate ((sciDigits v).2 + 1 - ds.length).toNat)).isInt
    .none .none
   simpa only [append_nil, append_assoc] using this
 split
 next hle hn =>
  -- the first digits stand before the point
  obtain ⟨m, hm⟩ : ∃ m, ((sciDigits v).2 + 1).toNat = m + 1 :=
   ⟨((sciDigits v).2 + 1).toNat - 1, by omega⟩
  have htake : Lead (ds.take (m + 1)) := by
   rw [hct, take_succ_cons]
   exact ⟨c, _, rfl, h1, h9, fun x hx => ht x (mem_of_mem_take hx)⟩
  have hdrop : ds.drop (m + 1) ≠ [] := by
   intro h
   have := drop_eq_nil_iff.mp h
   omega
  have := hnum htake.isInt (.some hdrop fun x hx => hlead.digits x (mem_of_mem_drop hx)) .none
  rw [hm]
  simpa only [append_nil, append_assoc] using this
 split
 · have := hnum .zero (.some (by simp [hct]) 
    ((Digits.replicate (-((sciDigits v).2 + 1)).toNat).append hlead.digits)) .none
   simpa only [append_nil, append_assoc, cons_append, nil_append] using this
 have hone : IsInt (ds.take 1) := by
  rw [hct]
  exact .pos h1 h9 fun x hx => absurd hx (by simp)
 have hfrac : IsFrac (if (1 : Int) < ds.length then '.' :: ds.drop 1 else []) := by
  split
  next hk =>
   refine .some ?_ fun x hx => hlead.digits x (mem_of_mem_drop hx)
   intro h
   have := drop_eq_nil_iff.mp h
   omega
  · exact .none
 have hexp : ∀ n : Int, IsExp ('e' :: (if n - 1 < 0 then '-' else '+') ::
  Nat.toDigits 10 (n - 1).natAbs) := by
  intro n
  have hd := digits_toDigits (n - 1).natAbs
  split
  · exact @IsExp.some 'e' ['-'] _ (.inl rfl) (.inr (.inr rfl)) Nat.toDigits_ne_nil hd
  · exact @IsExp.some 'e' ['+'] _ (.inl rfl) (.inr (.inl rfl)) Nat.toDigits_ne_nil hd
 have := hnum hone hfrac (hexp ((sciDigits v).2 + 1))
 simpa only [append_assoc] using this

theorem jsNumberValue_cases (n : Number) :
 IsNumber (jsNumberValue n) ∨ jsNumberValue n = "null".toList := by
 have hdouble : ∀ n, IsNumber (jsNumberValue.double n) ∨ jsNumberValue.double n = "null".toList := by
  intro n
  unfold jsNumberValue.double
  split
  · exact .inl (isNumber_jsNumberToString _)
  · exact .inr rfl
 have hint : ∀ (sign : List Char) (n : Nat), sign = [] ∨ sign = ['-'] →
  IsNumber (sign ++ Nat.toDigits 10 n) := by
  intro sign n hs
  have := IsNumber.mk hs (isInt_toDigits n) .none .none
  simpa only [append_nil] using this
 cases n with
 | posInt n =>
  rw [jsNumberValue]
  split
  · exact .inl (hint [] _ (.inl rfl))
  · exact hdouble _
 | negInt n =>
  rw [jsNumberValue]
  split
  · exact .inl (hint _ _ (by split <;> simp))
  · exact hdouble _
 | float v =>
  rw [jsNumberValue]
  exact hdouble _

theorem newline_number (h : IsNumber w) : '\n' ∉ w := by
 have hd : ∀ {ds : List Char}, Digits ds → '\n' ∉ ds := fun h hn => absurd (h _ hn) (by decide)
 obtain @⟨sign, int, frac, exp, hs, hi, hf, he⟩ := h
 simp only [mem_append, not_or]
 refine ⟨?_, ?_, ?_, ?_⟩
 · rcases hs with rfl | rfl <;> simp
 · cases hi with
   | zero => simp
   | pos h1 h9 hds =>
    rw [mem_cons, not_or]
    refine ⟨?_, hd hds⟩
    rintro rfl
    exact absurd h1 (by decide)
 · cases hf with
   | none => simp
   | some _ hds => simpa using hd hds
 · cases he with
   | none => simp
   | some he hs _ hds =>
    rcases he with rfl | rfl <;> rcases hs with rfl | rfl | rfl <;> simpa using hd hds

/-! ## What is written is a value -/

/-- `t` can stand where a value does, in a line that has no more breaks than `T`. -/
def Written (T t : List Char) : Prop := IsValue t ∧ LineText T t

def WrittenMember (T : List Char) (t : List Char) : Prop :=
 ∃ k v, IsString k ∧ LineText T k ∧ Written T v ∧ t = memberText k v

theorem LineText.of_not_mem (h : '\n' ∉ t) : LineText T t := fun hn => absurd hn h

theorem LineText.append {a b : List Char} (ha : LineText T a) (hb : LineText T b) :
 LineText T (a ++ b) := fun h => (mem_append.mp h).elim ha hb

theorem LineText.cons {T a : List Char} {c : Char} (hc : c ≠ '\n') (ha : LineText T a) :
 LineText T (c :: a) := fun h => (mem_cons.mp h).elim (fun h => absurd h.symm hc) ha

theorem commaSeparated_line (h : ∀ t ∈ ts, LineText T t) : LineText T (commaSeparated ts) := by
 cases ts with
 | nil => exact .of_not_mem (by simp [commaSeparated])
 | cons t ts =>
  refine (h t (mem_cons_self ..)).append fun hn => ?_
  obtain ⟨u, hu, hn⟩ := mem_flatMap.mp hn
  exact (LineText.cons (by decide) (h u (mem_cons_of_mem _ hu))) hn

theorem derives_commas {n : Nonterminal} {Q : List Char → Prop}
 (hstep : ∀ {w t}, Derives n w → Q t → Derives n (w ++ ',' :: t)) (hw : Derives n w)
 (h : ∀ t ∈ ts, Q t) : Derives n (w ++ ts.flatMap fun u => ',' :: u) := by
 induction ts generalizing w with
 | nil => simpa using hw
 | cons t ts ih =>
  have := ih (hstep hw (h t (mem_cons_self ..))) fun u hu => h u (mem_cons_of_mem _ hu)
  simpa using this

theorem arrayText_written (h : ∀ t ∈ ts, Written T t) : Written T (arrayText ts) := by
 refine ⟨?_, ?_⟩
 · cases ts with
   | nil => exact .empty .array .nil
   | cons t ts =>
    refine .array (derives_commas (Q := IsValue) ?_ ?_ fun u hu =>
     (h u (mem_cons_of_mem _ hu)).1)
    · intro w t hw ht
      simpa using Derives.elements hw .nil ht .nil
    · simpa using Derives.element .nil (h t (mem_cons_self ..)).1 .nil
 · exact .cons (by decide) ((commaSeparated_line fun t ht => (h t ht).2).append
    (.of_not_mem (by simp)))

theorem writeMembers_written {ms : List (String × List Char)} (h : ∀ m ∈ ms, WrittenMember T m.2) :
 Written T (writeMembers ms) := by
 -- reordering keeps the members
 have hmem : ∀ t ∈ ((ms.filter fun m => (arrayIndex m.1).isSome).mergeSort (fun a b =>
  (arrayIndex a.1).getD 0 ≤ (arrayIndex b.1).getD 0) ++
  ms.filter fun m => (arrayIndex m.1).isNone).map Prod.snd, WrittenMember T t := by
  intro t ht
  obtain ⟨m, hm, rfl⟩ := mem_map.mp ht
  rcases mem_append.mp hm with hm | hm
  · exact h m (mem_of_mem_filter (mem_mergeSort.mp hm))
  · exact h m (mem_of_mem_filter hm)
 have hkey : ∀ {k : List Char}, IsString k → IsKey (k ++ [':']) :=
  fun hk => ⟨[], _, [], .nil, hk, .nil, by simp⟩
 unfold writeMembers
 dsimp only
 generalize List.map Prod.snd _ = ts at hmem
 refine ⟨?_, ?_⟩
 · cases ts with
   | nil => exact .empty .object .nil
   | cons t ts =>
    refine .object (derives_commas (Q := WrittenMember T) ?_ ?_ fun u hu =>
     hmem u (mem_cons_of_mem _ hu))
    · rintro w t hw ⟨k, v, hk, -, hv, rfl⟩
      simpa [memberText] using Derives.members hw (hkey hk) .nil hv.1 .nil
    · obtain ⟨k, v, hk, -, hv, rfl⟩ := hmem t (mem_cons_self ..)
      simpa [memberText] using Derives.member (hkey hk) .nil hv.1 .nil
 · refine .cons (by decide) ((commaSeparated_line fun t ht => ?_).append (.of_not_mem (by simp)))
   obtain ⟨k, v, -, hk, hv, rfl⟩ := hmem t ht
   exact hk.append (.cons (by decide) hv.2)

mutual
theorem writeValue_written (T : List Char) : ∀ v, Written T (writeValue v)
 | .null | .bool true | .bool false =>
  ⟨.literal (by simp [writeValue]), .of_not_mem (by simp [writeValue])⟩
 | .number n => by
  rw [writeValue]
  rcases jsNumberValue_cases n with h | h
  · exact ⟨.number h, .of_not_mem (newline_number h)⟩
  · rw [h]
    exact ⟨.literal (by simp), .of_not_mem (by decide)⟩
 | .string text => by
  rw [writeValue]
  exact ⟨.string (isString_writeString text), .of_not_mem (newline_writeString text)⟩
 | .array items => by
  rw [writeValue]
  exact arrayText_written (writeItems_written T items)
 | .object object => by
  rw [writeValue]
  exact writeMembers_written (writeObject_written T object)

theorem writeItems_written (T : List Char) : ∀ vs, ∀ t ∈ writeItems vs, Written T t
 | [] => by simp [writeItems]
 | v :: vs => by
  rw [writeItems]
  intro t ht
  rcases mem_cons.mp ht with rfl | ht
  · exact writeValue_written T v
  · exact writeItems_written T vs t ht

theorem writeObject_written (T : List Char) : ∀ ms, ∀ m ∈ writeObject ms, WrittenMember T m.2
 | [] => by simp [writeObject]
 | (key, v) :: ms => by
  rw [writeObject]
  intro m hm
  rcases mem_cons.mp hm with rfl | hm
  · exact ⟨_, _, isString_writeString key, .of_not_mem (newline_writeString key),
     writeValue_written T v, rfl⟩
  · exact writeObject_written T ms m hm
end

theorem Kept.textFor_written {k : Kept} {v : Value} (hk : KeptOk T k) (h : k.textFor v = some t) :
 Written T t := by
 cases k with
 | string read text =>
  rw [textFor] at h
  split at h
  · injection h with h
    exact h ▸ ⟨.string hk.1, hk.2⟩
  · simp at h
 | deep text =>
  rw [textFor] at h
  split at h
  · injection h with h
    exact h ▸ hk
  · simp at h
 | lossyKeys text depth =>
  rw [textFor] at h
  split at h
  · split at h
    · injection h with h
      exact h ▸ ⟨hk.1, hk.2.2⟩
    · simp at h
  · simp at h

theorem NodeOk.textOr_written {node : Node} {v : Value} (hn : NodeOk T node) (ht : Written T t) :
 Written T (node.textOr v t) := by
 obtain ⟨hk, -, -, -⟩ := hn
 unfold Node.textOr
 cases h : (Node.kept _).bind (Kept.textFor v) with
 | none => exact ht
 | some text =>
  obtain ⟨k, hkept, htext⟩ := Option.bind_eq_some_iff.mp h
  exact Kept.textFor_written (hk k hkept) htext

mutual
variable {T : List Char}

theorem writeHeld_written : ∀ v {node}, NodeOk T node → Written T (writeHeld v node)
 | .array items, node, hn => by
  rw [writeHeld]
  refine hn.textOr_written (arrayText_written (writeHeldItems_written 0 items ?_))
  obtain ⟨-, -, -, hi⟩ := hn
  exact hi
 | .object object, node, hn => by
  rw [writeHeld]
  exact hn.textOr_written (writeMembers_written (writeHeldObject_written object hn))
 | .null, _, hn | .bool _, _, hn | .number _, _, hn | .string _, _, hn => by
  rw [writeHeld]
  · exact hn.textOr_written (writeValue_written T _)
  · simp
  · simp

theorem writeHeldItems_written : ∀ index vs {held : List (Nat × Node)},
 (∀ b ∈ held, NodeOk T b.2) → ∀ t ∈ writeHeldItems index vs held, Written T t
 | _, [], _, _ => by simp [writeHeldItems]
 | index, v :: vs, [], hh => by
  rw [writeHeldItems]
  intro t ht
  rcases mem_cons.mp ht with rfl | ht
  · exact writeValue_written T v
  · exact writeHeldItems_written _ vs hh t ht
 | index, v :: vs, (i, child) :: held, hh => by
  rw [writeHeldItems]
  intro t ht
  split at ht
  · rcases mem_cons.mp ht with rfl | ht
    · exact writeHeld_written v (hh _ (mem_cons_self ..))
    · exact writeHeldItems_written _ vs (fun b hb => hh b (mem_cons_of_mem _ hb)) t ht
  · rcases mem_cons.mp ht with rfl | ht
    · exact writeValue_written T v
    · exact writeHeldItems_written _ vs hh t ht

theorem writeHeldObject_written : ∀ ms {node}, NodeOk T node →
 ∀ m ∈ writeHeldObject ms node, WrittenMember T m.2
 | [], _, _ => by simp [writeHeldObject]
 | (key, v) :: ms, node, hn => by
  rw [writeHeldObject]
  intro m hm
  rcases mem_cons.mp hm with rfl | hm
  · have hkey : IsString ((get? node.keyTexts key).getD (writeString key))
     ∧ LineText T ((get? node.keyTexts key).getD (writeString key)) := by
     cases hk : get? node.keyTexts key with
     | none => exact ⟨isString_writeString key, .of_not_mem (newline_writeString key)⟩
     | some text =>
      obtain ⟨-, ht, -, -⟩ := hn
      exact ht _ (OrdMap.mem_of_get? hk)
    refine ⟨_, _, hkey.1, hkey.2, ?_, rfl⟩
    split
    next child hchild =>
     refine writeHeld_written v ?_
     obtain ⟨-, -, hms, -⟩ := hn
     exact hms _ (OrdMap.mem_of_get? hchild)
    · exact writeValue_written T v
  · exact writeHeldObject_written ms hn m hm
end

/-- What is kept when a line is read, if anything, can be written back. -/
def VerbatimOk (T : List Char) (verbatim : Verbatim) : Prop :=
 ∀ node, verbatim = some node → NodeOk T node

/--
**Whatever an object holds and whatever was kept for it, its line is one JSON
object** and has a line break only where the kept text has one.
-/
theorem jsStringifyObjectHeld_written {verbatim : Verbatim} (hv : VerbatimOk T verbatim)
 (object : JsonObject) :
 Written T (jsStringifyObjectHeld object verbatim)
  ∧ (jsStringifyObjectHeld object verbatim).head? = some '{' := by
 cases verbatim with
 | none => exact ⟨writeMembers_written (writeObject_written T object), rfl⟩
 | some root =>
  rw [jsStringifyObjectHeld]
  split
  next text h =>
   obtain ⟨k, hk, htext⟩ := Option.bind_eq_some_iff.mp h
   obtain ⟨hkept, -, -, -⟩ := hv root rfl
   have hkept := hkept k hk
   cases k with
   | string | deep => simp [Kept.textForObject] at htext
   | lossyKeys text' depth =>
    rw [Kept.textForObject] at htext
    split at htext
    · split at htext
      · injection htext with htext
        exact htext ▸ ⟨⟨hkept.1, hkept.2.2⟩, hkept.2.1⟩
      · simp at htext
    · simp at htext
  · exact ⟨writeMembers_written (writeHeldObject_written object (hv root rfl)), rfl⟩

end Bake.Json
