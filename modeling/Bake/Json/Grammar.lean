import Bake.Json.Line

/-!
# The grammar of JSON texts

RFC 8259 as the reader reads it: any nesting depth, any `\u` escape, surrogates
paired or not. Lists of elements and members grow at their right end, which is
how a reader that goes left to right meets them.

`Opened` is the same grammar cut short: what has been read of a container that
is not closed yet. It is what a frame of the reader's stack stands for.
-/

open List

namespace Bake.Json

def Ws (w : List Char) : Prop := ∀ c ∈ w, isJsonWs c = true

/-- Decimal digits, possibly none. -/
def Digits (w : List Char) : Prop := ∀ c ∈ w, c.isDigit = true

/-- `int`: no leading zero. -/
inductive IsInt : List Char → Prop where
 | zero : IsInt ['0']
 | pos {c : Char} {ds : List Char} : '1' ≤ c → c ≤ '9' → Digits ds → IsInt (c :: ds)

/-- An optional `frac`. -/
inductive IsFrac : List Char → Prop where
 | none : IsFrac []
 | some {ds : List Char} : ds ≠ [] → Digits ds → IsFrac ('.' :: ds)

/-- An optional `exp`. -/
inductive IsExp : List Char → Prop where
 | none : IsExp []
 | some {e : Char} {sign ds : List Char} : e = 'e' ∨ e = 'E' →
  sign = [] ∨ sign = ['+'] ∨ sign = ['-'] → ds ≠ [] → Digits ds → IsExp (e :: (sign ++ ds))

/-- `number`. -/
inductive IsNumber : List Char → Prop where
 | mk {sign int frac exp : List Char} : sign = [] ∨ sign = ['-'] →
  IsInt int → IsFrac frac → IsExp exp → IsNumber (sign ++ (int ++ (frac ++ exp)))

theorem isNumber_head {w : List Char} (h : IsNumber w) :
 ∃ c t, w = c :: t ∧ (c = '-' ∨ c.isDigit) := by
 obtain @⟨sign, int, frac, exp, hs, hi, -, -⟩ := h
 rcases hs with rfl | rfl
 · cases hi with
   | zero => exact ⟨_, _, rfl, .inr (by decide)⟩
   | @pos c ds h1 h9 _ => exact ⟨c, _, rfl, .inr (by
    have h0 : '0' ≤ c := Char.le_trans (by decide) h1
    simp only [Char.isDigit, Bool.and_eq_true, decide_eq_true_eq]
    exact ⟨h0, h9⟩)⟩
 · exact ⟨_, _, rfl, .inl rfl⟩

/-- The characters between a string's quotes. -/
inductive IsChars : List Char → Prop where
 | nil : IsChars []
 | plain {c : Char} {w : List Char} : c ≠ '"' → c ≠ '\\' → 0x20 ≤ c.toNat → IsChars w →
  IsChars (c :: w)
 | simple {c : Char} {w : List Char} : c ∈ ['"', '\\', '/', 'b', 'f', 'n', 'r', 't'] →
  IsChars w → IsChars ('\\' :: c :: w)
 | unicode {a b c d : Char} {w : List Char} : isHexDigit a → isHexDigit b → isHexDigit c →
  isHexDigit d → IsChars w → IsChars ('\\' :: 'u' :: a :: b :: c :: d :: w)

/-- `string`. -/
def IsString (w : List Char) : Prop := ∃ body, IsChars body ∧ w = '"' :: (body ++ ['"'])

/-- A member's key and its colon, with the whitespace around the key. -/
def IsKey (w : List Char) : Prop := ∃ a k b, Ws a ∧ IsString k ∧ Ws b ∧ w = a ++ (k ++ (b ++ [':']))

/-- What a text can be derived from. -/
inductive Nonterminal where
 | value
 | elements
 | members

def opening : Kind → Char
 | .array => '['
 | .object => '{'

inductive Derives : Nonterminal → List Char → Prop where
 | literal {w : List Char} : w ∈ ["true".toList, "false".toList, "null".toList] →
  Derives .value w
 | number {w : List Char} : IsNumber w → Derives .value w
 | string {w : List Char} : IsString w → Derives .value w
 | empty (k : Kind) {s : List Char} : Ws s →
  Derives .value (opening k :: (s ++ [Parser.closing k]))
 | array {w : List Char} : Derives .elements w → Derives .value ('[' :: (w ++ [']']))
 | object {w : List Char} : Derives .members w → Derives .value ('{' :: (w ++ ['}']))
 | element {a v b : List Char} : Ws a → Derives .value v → Ws b →
  Derives .elements (a ++ (v ++ b))
 | elements {w a v b : List Char} : Derives .elements w → Ws a → Derives .value v → Ws b →
  Derives .elements (w ++ ',' :: (a ++ (v ++ b)))
 | member {k a v b : List Char} : IsKey k → Ws a → Derives .value v → Ws b →
  Derives .members (k ++ (a ++ (v ++ b)))
 | members {w k a v b : List Char} : Derives .members w → IsKey k → Ws a → Derives .value v →
  Ws b → Derives .members (w ++ ',' :: (k ++ (a ++ (v ++ b))))

abbrev IsValue (w : List Char) : Prop := Derives .value w

theorem Ws.nil : Ws [] := by
 intro c hc
 simp at hc

theorem Ws.append {a b : List Char} (ha : Ws a) (hb : Ws b) : Ws (a ++ b) := by
 intro c hc
 rcases mem_append.mp hc with h | h
 · exact ha c h
 · exact hb c h

theorem Derives.ws {t : Nonterminal} {w s : List Char} (h : Derives t w) (ht : t ≠ .value)
 (hs : Ws s) : Derives t (w ++ s) := by
 cases h with
 | element ha hv hb =>
  have := Derives.element ha hv (hb.append hs)
  simpa only [append_assoc] using this
 | elements hw ha hv hb =>
  have := Derives.elements hw ha hv (hb.append hs)
  simpa only [append_assoc, cons_append] using this
 | member hk ha hv hb =>
  have := Derives.member hk ha hv (hb.append hs)
  simpa only [append_assoc] using this
 | members hw hk ha hv hb =>
  have := Derives.members hw hk ha hv (hb.append hs)
  simpa only [append_assoc, cons_append] using this
 | _ => exact absurd rfl ht

/-! ## Containers not closed yet -/

/-- What has been read of an open container, by whether a value comes next. -/
inductive Opened : Kind → Bool → List Char → Prop where
 | array {s : List Char} : Ws s → Opened .array true ('[' :: s)
 | arrayComma {w s : List Char} : Derives .elements w → Ws s →
  Opened .array true ('[' :: (w ++ ',' :: s))
 | arrayValue {w : List Char} : Derives .elements w → Opened .array false ('[' :: w)
 | object {k s : List Char} : IsKey k → Ws s → Opened .object true ('{' :: (k ++ s))
 | objectComma {w k s : List Char} : Derives .members w → IsKey k → Ws s →
  Opened .object true ('{' :: (w ++ ',' :: (k ++ s)))
 | objectValue {w : List Char} : Derives .members w → Opened .object false ('{' :: w)

namespace Opened

variable {w : List Char}

variable {k : Kind}

theorem ws {e : Bool} {s : List Char} (h : Opened k e w) (hs : Ws s) : Opened k e (w ++ s) := by
 cases h with
 | array h => exact .array (h.append hs)
 | arrayComma hw h =>
  have := Opened.arrayComma hw (h.append hs)
  simpa only [append_assoc, cons_append] using this
 | arrayValue hw => exact .arrayValue (hw.ws (by simp) hs)
 | object hk h =>
  have := Opened.object hk (h.append hs)
  simpa only [append_assoc, cons_append] using this
 | objectComma hw hk h =>
  have := Opened.objectComma hw hk (h.append hs)
  simpa only [append_assoc, cons_append] using this
 | objectValue hw => exact .objectValue (hw.ws (by simp) hs)

theorem value {v : List Char} (h : Opened k true w) (hv : IsValue v) : Opened k false (w ++ v) := by
 have hnil : v ++ [] = v := append_nil v
 cases h with
 | array hs =>
  have := Opened.arrayValue (.element hs hv .nil)
  simpa only [hnil, cons_append] using this
 | arrayComma hw hs =>
  have := Opened.arrayValue (.elements hw hs hv .nil)
  simpa only [hnil, cons_append, append_assoc] using this
 | object hk hs =>
  have := Opened.objectValue (.member hk hs hv .nil)
  simpa only [hnil, cons_append, append_assoc] using this
 | objectComma hw hk hs =>
  have := Opened.objectValue (.members hw hk hs hv .nil)
  simpa only [hnil, cons_append, append_assoc] using this

theorem close (h : Opened k false w) : IsValue (w ++ [Parser.closing k]) := by
 cases h with
 | arrayValue hw => exact .array hw
 | objectValue hw => exact .object hw

theorem comma (h : Opened .array false w) : Opened .array true (w ++ [',']) := by
 cases h with
 | arrayValue hw => exact .arrayComma hw .nil

theorem commaKey {k : List Char} (h : Opened .object false w) (hk : IsKey k) :
 Opened .object true (w ++ ',' :: k) := by
 cases h with
 | objectValue hw =>
  have := Opened.objectComma hw hk .nil
  simpa only [append_nil, cons_append] using this

end Opened

end Bake.Json
