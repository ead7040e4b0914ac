import Bake.Json.Stringify
import Bake.Json.Units

/-!
# The compact text of a value

What `serde_json` prints of a value: its members in the order they are in, nothing between
the tokens. How a double prints is a parameter, a number with a fraction or an exponent that
is another one for another double. Then different values have different texts, whatever
follows them.
-/

open List

namespace Bake.Json

/-- What the printing of doubles is relied on for. -/
structure FloatText (floatText : F64 → List Char) : Prop where
 number : ∀ v, IsNumber (floatText v)
 /-- It is no integer's text. -/
 notInt : ∀ v, ∃ c ∈ floatText v, c = '.' ∨ c = 'e'
 injective : ∀ v w, floatText v = floatText w → v = w

/-- A number's text; a negative integer is its sign and its magnitude. -/
def Number.compact (floatText : F64 → List Char) : Number → List Char
 | .posInt n => Nat.toDigits 10 n.toNat
 | .negInt n => '-' :: Nat.toDigits 10 (2 ^ 64 - n.toUInt64.toNat)
 | .float v => floatText v

mutual
/-- `Value::to_string`. -/
def Value.compact (floatText : F64 → List Char) : Value → List Char
 | .null => "null".toList
 | .bool true => "true".toList
 | .bool false => "false".toList
 | .number n => n.compact floatText
 | .string text => writeString text
 | .array items => '[' :: compactItems floatText [] items
 | .object members => '{' :: compactMembers floatText [] members

def compactItems (floatText : F64 → List Char) (separator : List Char) : List Value → List Char
 | [] => [']']
 | v :: vs => separator ++ (Value.compact floatText v ++ compactItems floatText [','] vs)

/-- The rest of an object, with a separator before its next member. -/
def compactMembers (floatText : F64 → List Char) (separator : List Char) :
 List (String × Value) → List Char
 | [] => ['}']
 | (key, v) :: ms =>
  separator ++ (writeString key ++ ':' :: (Value.compact floatText v
   ++ compactMembers floatText [','] ms))
end

def Value.compactBytes (floatText : F64 → List Char) (v : Value) : Nat :=
 ((v.compact floatText).map Char.utf8Size).sum

/-! ## One reading -/

theorem writeString_inj {a b : String} {r s : List Char}
 (h : writeString a ++ r = writeString b ++ s) : a = b ∧ r = s := by
 have hread : ∀ (text : String) (t : List Char),
  stringUnits ((writeString text ++ t).tail) = some (text.toList.map StrUnit.text, t) := by
  intro text t
  have hw := stringUnits_write (unitsOk_text text.toList) t
  rw [flatMap_map] at hw
  rw [writeString, append_assoc]
  exact hw
 have ha := hread a r
 rw [h, hread b s] at ha
 injection ha with ha
 obtain ⟨htext, hrest⟩ := Prod.mk.inj ha
 refine ⟨String.toList_inj.mp (map_injective_iff.mpr ?_ htext).symm, hrest.symm⟩
 intro x y hxy
 injection hxy

theorem isNumber_inj {a b r s : List Char} (ha : IsNumber a) (hb : IsNumber b) (hr : NumberEnds r)
 (hs : NumberEnds s) (h : a ++ r = b ++ s) : a = b ∧ r = s := by
 have hread := numberEnd_complete ha hr
 rw [h, numberEnd_complete hb hs] at hread
 cases hread
 exact ⟨append_cancel_right h, rfl⟩

theorem toDigits_inj {m n : Nat} (h : Nat.toDigits 10 m = Nat.toDigits 10 n) : m = n := by
 rw [← @Nat.ofDigitChars_ten_toDigits m, h, Nat.ofDigitChars_ten_toDigits]

section

variable {floatText : F64 → List Char}

theorem Number.isNumber_compact (hf : FloatText floatText) (n : Number) :
 IsNumber (n.compact floatText) := by
 have hint : ∀ (sign : List Char) (n : Nat), sign = [] ∨ sign = ['-'] →
  IsNumber (sign ++ Nat.toDigits 10 n) := by
  intro sign n hs
  have := IsNumber.mk hs (isInt_toDigits n) .none .none
  simpa only [append_nil] using this
 cases n with
 | posInt n => exact hint [] _ (.inl rfl)
 | negInt n => exact hint ['-'] _ (.inr rfl)
 | float v => exact hf.number v

theorem Number.compact_inj (hf : FloatText floatText) {m n : Number}
 (h : m.compact floatText = n.compact floatText) : m = n := by
 have hdigit : ∀ n, '-' ∉ Nat.toDigits 10 n ∧ '.' ∉ Nat.toDigits 10 n
  ∧ 'e' ∉ Nat.toDigits 10 n := fun n =>
  ⟨fun h => absurd (digits_toDigits n _ h) (by decide),
   fun h => absurd (digits_toDigits n _ h) (by decide),
   fun h => absurd (digits_toDigits n _ h) (by decide)⟩
 have hfloat : ∀ (sign : List Char) (n : Nat) (v : F64), sign = [] ∨ sign = ['-'] →
  sign ++ Nat.toDigits 10 n ≠ floatText v := by
  intro sign n v hs he
  obtain ⟨c, hc, hcase⟩ := hf.notInt v
  rw [← he, mem_append] at hc
  rcases hc with hc | hc
  · rcases hs with rfl | rfl
    · simp at hc
    · rw [mem_singleton] at hc
      rcases hcase with h | h <;> exact absurd (hc.symm.trans h) (by decide)
  · rcases hcase with rfl | rfl
    · exact (hdigit n).2.1 hc
    · exact (hdigit n).2.2 hc
 have hsign : ∀ a b : Nat, Nat.toDigits 10 a ≠ '-' :: Nat.toDigits 10 b := by
  intro a b he
  exact (hdigit a).1 (by rw [he]; exact mem_cons_self ..)
 cases m with
 | posInt a =>
  cases n with
  | posInt b => rw [UInt64.toNat_inj.mp (toDigits_inj h)]
  | negInt b => exact absurd h (hsign _ _)
  | float v => exact absurd h (hfloat [] _ v (.inl rfl))
 | negInt a =>
  cases n with
  | posInt b => exact absurd h.symm (hsign _ _)
  | negInt b =>
   have hm := toDigits_inj (List.cons.inj h).2
   have ha := a.toUInt64.toNat_lt
   have hb := b.toUInt64.toNat_lt
   have hbits : a.toUInt64 = b.toUInt64 := UInt64.toNat_inj.mp (by omega)
   cases a
   cases b
   exact congrArg _ (congrArg _ hbits)
  | float v => exact absurd h (hfloat ['-'] _ v (.inr rfl))
 | float v =>
  cases n with
  | posInt b => exact absurd h.symm (hfloat [] _ v (.inl rfl))
  | negInt b => exact absurd h.symm (hfloat ['-'] _ v (.inr rfl))
  | float w => rw [hf.injective v w h]

/-- What stands behind a value: nothing, a comma or a closing bracket. -/
def ValueEnds (t : List Char) : Prop := ∀ c, t.head? = some c → c = ',' ∨ c = ']' ∨ c = '}'

theorem ValueEnds.nil : ValueEnds [] := fun c h => absurd h (by simp)

theorem ValueEnds.number {t : List Char} (h : ValueEnds t) : NumberEnds t := by
 intro c hc
 rcases h c hc with rfl | rfl | rfl <;> decide

theorem valueEnds_items (vs : List Value) (r : List Char) :
 ValueEnds (compactItems floatText [','] vs ++ r) := by
 intro c hc
 cases vs <;> simp [compactItems] at hc <;> simp [← hc]

theorem valueEnds_members (ms : List (String × Value)) (r : List Char) :
 ValueEnds (compactMembers floatText [','] ms ++ r) := by
 intro c hc
 cases ms <;> simp [compactMembers] at hc <;> simp [← hc]

def Value.begins : Value → Char → Prop
 | .null, c => c = 'n'
 | .bool true, c => c = 't'
 | .bool false, c => c = 'f'
 | .number _, c => c = '-' ∨ c.isDigit = true
 | .string _, c => c = '"'
 | .array _, c => c = '['
 | .object _, c => c = '{'

theorem Value.compact_begins (hf : FloatText floatText) (v : Value) :
 ∃ c rest, v.compact floatText = c :: rest ∧ v.begins c := by
 cases v with
 | null => exact ⟨'n', "ull".toList, by rw [compact]; rfl, rfl⟩
 | bool flag =>
  cases flag
  · exact ⟨'f', "alse".toList, by rw [compact]; rfl, rfl⟩
  · exact ⟨'t', "rue".toList, by rw [compact]; rfl, rfl⟩
 | number n =>
  rw [compact]
  exact isNumber_head (Number.isNumber_compact hf n)
 | string text => exact ⟨'"', _, by rw [compact]; rfl, rfl⟩
 | array items => exact ⟨'[', _, by rw [compact], rfl⟩
 | object members => exact ⟨'{', _, by rw [compact], rfl⟩

theorem Value.not_begins {v : Value} (h : v.begins ']') : False := by
 cases v with
 | bool flag => cases flag <;> simp [begins] at h
 | number n => exact absurd h (by simp only [begins]; decide)
 | _ => simp [begins] at h

/-- Values of one kind; the two flags are kinds of their own. -/
def Value.Like : Value → Value → Prop
 | .null, .null | .number _, .number _ | .string _, .string _ => True
 | .array _, .array _ | .object _, .object _ => True
 | .bool a, .bool b => a = b
 | _, _ => False

theorem Value.like_of_begins {v w : Value} {c : Char} (hv : v.begins c) (hw : w.begins c) :
 v.Like w := by
 have hdigit : ∀ d : Char, d ∈ ['n', 't', 'f', '"', '[', '{'] →
  ¬ (d = '-' ∨ d.isDigit = true) := by
  intro d hd
  simp only [mem_cons, not_mem_nil, or_false] at hd
  rcases hd with rfl | rfl | rfl | rfl | rfl | rfl <;> decide
 cases v with
 | bool a =>
  cases w with
  | bool b => cases a <;> cases b <;> simp_all [begins, Like]
  | number n => cases a <;> exact absurd hw (by rw [show c = _ from hv]; exact hdigit _ (by simp))
  | _ => cases a <;> simp_all [begins]
 | number n =>
  cases w with
  | number n => trivial
  | bool b => cases b <;> exact absurd hv (by rw [show c = _ from hw]; exact hdigit _ (by simp))
  | _ => exact absurd hv (by rw [show c = _ from hw]; exact hdigit _ (by simp))
 | _ =>
  cases w with
  | number n => exact absurd hw (by rw [show c = _ from hv]; exact hdigit _ (by simp))
  | bool b => cases b <;> simp_all [begins]
  | _ => simp_all [begins, Like]

theorem Value.like_of_compact (hf : FloatText floatText) {v w : Value} {r s : List Char}
 (h : v.compact floatText ++ r = w.compact floatText ++ s) : v.Like w := by
 obtain ⟨c, a, hc, hv⟩ := v.compact_begins hf
 obtain ⟨d, b, hd, hw⟩ := w.compact_begins hf
 rw [hc, hd] at h
 obtain ⟨rfl, -⟩ := List.cons.inj h
 exact Value.like_of_begins hv hw

/-- What a separator before an item or a member is. -/
def Separates (separator : List Char) : Prop := separator = [] ∨ separator = [',']

variable {separator : List Char}

theorem items_open (hf : FloatText floatText) (hsep : Separates separator)
 (v : Value) (vs : List Value) (r s : List Char) :
 compactItems floatText separator (v :: vs) ++ r ≠ ']' :: s := by
 intro h
 obtain ⟨c, rest, hc, hv⟩ := v.compact_begins hf
 rw [compactItems, hc] at h
 rcases hsep with rfl | rfl
 · obtain ⟨rfl, -⟩ := List.cons.inj h
   exact Value.not_begins hv
 · exact absurd (List.cons.inj h).1 (by decide)
theorem members_open (hsep : Separates separator)
 (m : String × Value) (ms : List (String × Value)) (r s : List Char) :
 compactMembers floatText separator (m :: ms) ++ r ≠ '}' :: s := by
 intro h
 rw [compactMembers] at h
 rcases hsep with rfl | rfl <;> exact absurd (List.cons.inj h).1 (by decide)
mutual
theorem Value.compact_split (hf : FloatText floatText) : ∀ (v w : Value) (r s : List Char),
 ValueEnds r → ValueEnds s → v.compact floatText ++ r = w.compact floatText ++ s → v = w ∧ r = s
 | .null, w, r, s, _, _, h => by
  have hlike := Value.like_of_compact hf h
  cases w <;> simp only [Value.Like] at hlike
  exact ⟨rfl, append_cancel_left h⟩
 | .bool a, w, r, s, _, _, h => by
  have hlike := Value.like_of_compact hf h
  cases w <;> simp only [Value.Like] at hlike
  subst hlike
  exact ⟨rfl, append_cancel_left h⟩
 | .number m, w, r, s, hr, hs, h => by
  have hlike := Value.like_of_compact hf h
  cases w <;> simp only [Value.Like] at hlike
  rename_i n
  rw [Value.compact, Value.compact] at h
  obtain ⟨htext, hrest⟩ := isNumber_inj (m.isNumber_compact hf) (n.isNumber_compact hf)
   hr.number hs.number h
  exact ⟨by rw [Number.compact_inj hf htext], hrest⟩
 | .string a, w, r, s, _, _, h => by
  have hlike := Value.like_of_compact hf h
  cases w <;> simp only [Value.Like] at hlike
  rw [Value.compact, Value.compact] at h
  obtain ⟨htext, hrest⟩ := writeString_inj h
  exact ⟨by rw [htext], hrest⟩
 | .array vs, w, r, s, _, _, h => by
  have hlike := Value.like_of_compact hf h
  cases w <;> simp only [Value.Like] at hlike
  rw [Value.compact, Value.compact] at h
  obtain ⟨hitems, hrest⟩ := compactItems_split hf [] (.inl rfl) vs _ r s (List.cons.inj h).2
  exact ⟨by rw [hitems], hrest⟩
 | .object ms, w, r, s, _, _, h => by
  have hlike := Value.like_of_compact hf h
  cases w <;> simp only [Value.Like] at hlike
  rw [Value.compact, Value.compact] at h
  obtain ⟨hmembers, hrest⟩ := compactMembers_split hf [] (.inl rfl) ms _ r s (List.cons.inj h).2
  exact ⟨by rw [hmembers], hrest⟩

theorem compactItems_split (hf : FloatText floatText) (separator : List Char)
 (hsep : Separates separator) : ∀ (vs ws : List Value) (r s : List Char),
  compactItems floatText separator vs ++ r = compactItems floatText separator ws ++ s →
  vs = ws ∧ r = s
 | [], ws, r, s, h => by
  cases ws with
  | nil => exact ⟨rfl, append_cancel_left h⟩
  | cons w ws => exact absurd h.symm (items_open hf hsep w ws s r)
 | v :: vs, ws, r, s, h => by
  cases ws with
  | nil => exact absurd h (items_open hf hsep v vs r s)
  | cons w ws =>
   simp only [compactItems, append_assoc] at h
   obtain ⟨hv, htail⟩ := Value.compact_split hf v w _ _ (valueEnds_items vs r)
    (valueEnds_items ws s) (append_cancel_left h)
   obtain ⟨hvs, hrest⟩ := compactItems_split hf [','] (.inr rfl) vs ws r s htail
   exact ⟨by rw [hv, hvs], hrest⟩

theorem compactMembers_split (hf : FloatText floatText) (separator : List Char)
 (hsep : Separates separator) : ∀ (ms ns : List (String × Value)) (r s : List Char),
  compactMembers floatText separator ms ++ r = compactMembers floatText separator ns ++ s →
  ms = ns ∧ r = s
 | [], ns, r, s, h => by
  cases ns with
  | nil => exact ⟨rfl, append_cancel_left h⟩
  | cons n ns => exact absurd h.symm (members_open hsep n ns s r)
 | m :: ms, ns, r, s, h => by
  cases ns with
  | nil => exact absurd h (members_open hsep m ms r s)
  | cons n ns =>
   obtain ⟨key, v⟩ := m
   obtain ⟨key', w⟩ := n
   simp only [compactMembers, append_assoc, cons_append] at h
   obtain ⟨hkey, hafter⟩ := writeString_inj (append_cancel_left h)
   obtain ⟨hv, htail⟩ := Value.compact_split hf v w _ _ (valueEnds_members ms r)
    (valueEnds_members ns s) (List.cons.inj hafter).2
   obtain ⟨hms, hrest⟩ := compactMembers_split hf [','] (.inr rfl) ms ns r s htail
   exact ⟨by rw [hkey, hv, hms], hrest⟩
end

/-- **Different values have different texts.** -/
theorem Value.compact_inj (hf : FloatText floatText) {v w : Value}
 (h : v.compact floatText = w.compact floatText) : v = w :=
 (Value.compact_split hf v w [] [] .nil .nil (by rw [h])).1

end

end Bake.Json
