import Bake.Json.Complete
import Bake.Json.Units

/-!
# What a text is read as

The value of a text and what is kept below it, by its derivation: the depth at which a
text stands decides whether a container is built or only kept. The reader leaves exactly
this, whatever stands around the text.
-/

open List

namespace Bake.Json

/-! ## Strings -/

/-- The characters `body` are read as `units`, whatever follows the closing quote. -/
def BodyReads (body : List Char) (units : List StrUnit) : Prop :=
 ∀ rest, stringUnits (body ++ '"' :: rest) = some (units, rest)

variable {w : List Char}

/-- The escape of a unit takes the low half behind it, or nothing, whatever follows the
string. -/
theorem codePoint_uniform (hw : IsChars w) (n : Nat) : ∃ v w', IsChars w' ∧ w'.length ≤ w.length
  ∧ ∀ t, codePoint n (w ++ '"' :: t) = (v, w' ++ '"' :: t) := by
 have hkeep : (∀ t low, w ++ '"' :: t = '\\' :: 'u' :: low → False) →
  ∃ v w', IsChars w' ∧ w'.length ≤ w.length
   ∧ ∀ t, codePoint n (w ++ '"' :: t) = (v, w' ++ '"' :: t) := by
  intro hno
  refine ⟨loneUnit n, w, hw, Nat.le_refl _, fun t => ?_⟩
  unfold codePoint
  split
  · split
    next low hlow =>
     exact absurd hlow (hno t low)
    · rfl
  · rfl
 cases hw with
 | nil => exact hkeep fun t low h => absurd h (by simp)
 | plain _ hb _ _ => exact hkeep fun t low h => hb (List.cons.inj h).1
 | simple hc _ =>
  refine hkeep fun t low h => ?_
  obtain ⟨-, h⟩ := List.cons.inj h
  obtain ⟨rfl, -⟩ := List.cons.inj h
  exact absurd hc (by decide)
 | @unicode a b c d w' ha hb hc hd hw' =>
  obtain ⟨m, hm⟩ : ∃ m, ∀ t, hex4 (a :: b :: c :: d :: t) = some (m, t) :=
   ⟨_, fun t => by rw [hex4, if_pos (by rw [ha, hb, hc, hd]; rfl)]⟩
  by_cases hlow : (0xD800 ≤ n ∧ n < 0xDC00) ∧ 0xDC00 ≤ m ∧ m < 0xE000
  · refine ⟨.text (Char.ofNat (0x10000 + (n - 0xD800) * 1024 + (m - 0xDC00))), w', hw',
     by simp only [length_cons]; omega, fun t => ?_⟩
    simp only [codePoint, cons_append, if_pos hlow.1, hm, if_pos hlow.2]
  · refine ⟨loneUnit n, _, .unicode ha hb hc hd hw', Nat.le_refl _, fun t => ?_⟩
    by_cases hhigh : 0xD800 ≤ n ∧ n < 0xDC00
    · have hl : ¬(0xDC00 ≤ m ∧ m < 0xE000) := fun h => hlow ⟨hhigh, h⟩
      simp only [codePoint, cons_append, if_pos hhigh, hm, if_neg hl]
    · simp only [codePoint, cons_append, if_neg hhigh]

/-- **Every string body is read as some units.** -/
theorem IsChars.reads {body : List Char} (hb : IsChars body) : ∃ units, BodyReads body units := by
 induction hlen : body.length using Nat.strongRecOn generalizing body with
 | ind n ih =>
  cases hb with
  | nil => exact ⟨[], fun rest => by rw [nil_append, stringUnits]⟩
  | @plain c w hq hs hge hw =>
   obtain ⟨us, hus⟩ := ih w.length (by rw [← hlen]; simp) hw rfl
   refine ⟨.text c :: us, fun rest => ?_⟩
   rw [cons_append, stringUnits_plain hq hs hge, hus]
   rfl
  | @simple c w hc hw =>
   obtain ⟨us, hus⟩ := ih w.length (by rw [← hlen]; simp only [length_cons]; omega) hw rfl
   obtain ⟨u, hu⟩ : ∃ u, ∀ t, escape (c :: t) = some (u, t) := by
    simp only [mem_cons, not_mem_nil, or_false] at hc
    rcases hc with rfl | rfl | rfl | rfl | rfl | rfl | rfl | rfl <;> exact ⟨_, fun t => rfl⟩
   refine ⟨u :: us, fun rest => ?_⟩
   rw [cons_append, cons_append, stringUnits_escape (hu _), hus]
   rfl
  | @unicode a b c d w ha hb hc hd hw =>
   obtain ⟨m, hm⟩ : ∃ m, ∀ t, hex4 (a :: b :: c :: d :: t) = some (m, t) :=
    ⟨_, fun t => by rw [hex4, if_pos (by rw [ha, hb, hc, hd]; rfl)]⟩
   obtain ⟨v, w', hw', hle, hcode⟩ := codePoint_uniform hw m
   obtain ⟨us, hus⟩ := ih w'.length (by rw [← hlen]; simp only [length_cons]; omega) hw' rfl
   refine ⟨v :: us, fun rest => ?_⟩
   have hesc : escape ('u' :: a :: b :: c :: d :: (w ++ '"' :: rest))
    = some (v, w' ++ '"' :: rest) := by
    rw [escape, hm, Option.map_some]
    exact congrArg some (hcode rest)
   simp only [cons_append]
   rw [stringUnits_escape hesc, hus]
   rfl

/-! ## The meaning of a text -/

/-- What a text is read as. -/
inductive Meaning where
 | value (value : Value) (below : Node)
 | elements (items : List (Value × Node))
 | members (members : List (List StrUnit × Value × Node))

def unitsNode (units : List StrUnit) : Node :=
 if unitsLossy units then .mk (some (.string (unitsValue units) (canonicalString units))) [] [] []
 else .empty

def heldItems (items : List (Value × Node)) : List (Nat × Node) :=
 (items.zipIdx.filter fun b => !b.1.2.isEmpty).map fun b => (b.2, b.1.2)

def arrayNode (items : List (Value × Node)) : Node := .mk none [] [] (heldItems items)

section Members

variable (members : List (List StrUnit × Value × Node))

def memberMap : JsonObject :=
 members.foldl (fun map m => OrdMap.insert map (unitsValue m.1) m.2.1) []

def memberKeyTexts : List (String × List Char) := members.foldl (fun texts m =>
  if unitsLossy m.1 then OrdMap.insert texts (unitsValue m.1) (canonicalString m.1)
  else OrdMap.erase texts (unitsValue m.1)) []

/-- What is kept below the members. -/
def memberNodes : List (String × Node) := members.foldl (fun nodes m =>
  if m.2.2.isEmpty then OrdMap.erase nodes (unitsValue m.1)
  else OrdMap.insert nodes (unitsValue m.1) m.2.2) []

/-- A key holds a lone surrogate. -/
def lossyKeys : Bool := members.any fun m => unitsLossy m.1

/-- What is kept for an object whose text is `text`. -/
def objectNode (text : List Char) (depth : Nat) : Node :=
 .mk (if lossyKeys members then some (.lossyKeys text depth) else none) (memberKeyTexts members)
  (memberNodes members) []

end Members

def KeyReads (w : List Char) (units : List StrUnit) : Prop :=
 ∃ a body b, Ws a ∧ BodyReads body units ∧ Ws b ∧ w = a ++ ('"' :: (body ++ ['"']) ++ (b ++ [':']))

/-- What a text inside `depth` containers is read as. -/
inductive Denotes : Nat → List Char → Meaning → Prop where
 | true (d : Nat) : Denotes d "true".toList (.value (.bool true) .empty)
 | false (d : Nat) : Denotes d "false".toList (.value (.bool false) .empty)
 | null (d : Nat) : Denotes d "null".toList (.value .null .empty)
 | number (d : Nat) {w : List Char} : IsNumber w →
  Denotes d w (.value (Parser.tokenValue w) .empty)
 | string (d : Nat) {body : List Char} {units : List StrUnit} : BodyReads body units →
  Denotes d ('"' :: (body ++ ['"'])) (.value (.string (unitsValue units)) (unitsNode units))
 /-- A container past the depth held. -/
 | deep {d : Nat} {k : Kind} {s : List Char} : maxHeldDepth ≤ d → IsValue (opening k :: s) →
  Denotes d (opening k :: s) (.value .null (.mk (some (.deep (opening k :: s))) [] [] []))
 | emptyArray {d : Nat} {s : List Char} : d < maxHeldDepth → Ws s →
  Denotes d ('[' :: (s ++ [']'])) (.value (.array []) .empty)
 | emptyObject {d : Nat} {s : List Char} : d < maxHeldDepth → Ws s →
  Denotes d ('{' :: (s ++ ['}'])) (.value (.object []) .empty)
 | array {d : Nat} {w : List Char} {items : List (Value × Node)} : d < maxHeldDepth →
  Denotes (d + 1) w (.elements items) →
  Denotes d ('[' :: (w ++ [']'])) (.value (.array (items.map Prod.fst)) (arrayNode items))
 | object {d : Nat} {w : List Char} {members : List (List StrUnit × Value × Node)} :
  d < maxHeldDepth → Denotes (d + 1) w (.members members) →
  Denotes d ('{' :: (w ++ ['}']))
   (.value (.object (memberMap members)) (objectNode members ('{' :: (w ++ ['}'])) d))
 | element {d : Nat} {a w b : List Char} {v : Value} {n : Node} : Ws a →
  Denotes d w (.value v n) → Ws b → Denotes d (a ++ (w ++ b)) (.elements [(v, n)])
 | elements {d : Nat} {ws a w b : List Char} {items : List (Value × Node)} {v : Value} {n : Node} :
  Denotes d ws (.elements items) → Ws a → Denotes d w (.value v n) → Ws b →
  Denotes d (ws ++ ',' :: (a ++ (w ++ b))) (.elements (items ++ [(v, n)]))
 | member {d : Nat} {k a w b : List Char} {units : List StrUnit} {v : Value} {n : Node} :
  KeyReads k units → Ws a → Denotes d w (.value v n) → Ws b →
  Denotes d (k ++ (a ++ (w ++ b))) (.members [(units, v, n)])
 | members {d : Nat} {ws k a w b : List Char} {members : List (List StrUnit × Value × Node)}
  {units : List StrUnit} {v : Value} {n : Node} :
  Denotes d ws (.members members) → KeyReads k units → Ws a → Denotes d w (.value v n) → Ws b →
  Denotes d (ws ++ ',' :: (k ++ (a ++ (w ++ b)))) (.members (members ++ [(units, v, n)]))

theorem IsKey.reads {k : List Char} (h : IsKey k) : ∃ units, KeyReads k units := by
 obtain ⟨a, w, b, ha, ⟨body, hbody, rfl⟩, hb, rfl⟩ := h
 obtain ⟨units, hunits⟩ := hbody.reads
 exact ⟨units, a, body, b, ha, hunits, hb, rfl⟩

theorem BodyReads.isString {body : List Char} {units : List StrUnit} (h : BodyReads body units) :
 IsString ('"' :: (body ++ ['"'])) := by
 obtain ⟨w, hw, hbody⟩ := stringUnits_sound (h [])
 exact ⟨body, (append_cancel_right hbody) ▸ hw, rfl⟩

theorem KeyReads.isKey {k : List Char} {units : List StrUnit} (h : KeyReads k units) : IsKey k := by
 obtain ⟨a, body, b, ha, hbody, hb, rfl⟩ := h
 exact ⟨a, _, b, ha, hbody.isString, hb, rfl⟩

/-- What kind of text means this. -/
def Meaning.nonterminal : Meaning → Nonterminal
 | .value .. => .value
 | .elements _ => .elements
 | .members _ => .members

theorem Denotes.derives {d : Nat} {m : Meaning} (h : Denotes d w m) : Derives m.nonterminal w := by
 induction h with
 | number d h => exact .number h
 | string d h => exact .string h.isString
 | deep _ h => exact h
 | emptyArray _ hs => exact .empty .array hs
 | emptyObject _ hs => exact .empty .object hs
 | array _ _ ih => exact .array ih
 | object _ _ ih => exact .object ih
 | element ha _ hb ih => exact .element ha ih hb
 | elements _ ha _ hb ihw ihv => exact .elements ihw ha ihv hb
 | member hk ha _ hb ih => exact .member hk.isKey ha ih hb
 | members _ hk ha _ hb ihw ihv => exact .members ihw hk.isKey ha ihv hb
 | _ => exact .literal (by simp)

/-- A derivable text has a meaning of its kind. -/
def Means (d : Nat) (w : List Char) : Nonterminal → Prop
 | .value => ∃ v n, Denotes d w (.value v n)
 | .elements => ∃ items, Denotes d w (.elements items)
 | .members => ∃ members, Denotes d w (.members members)

/-- **Every derivable text means something,** at any depth. -/
theorem Derives.means {n : Nonterminal} (h : Derives n w) (d : Nat) : Means d w n := by
 have hdeep : ∀ {k : Kind} {s : List Char} {d : Nat}, IsValue (opening k :: s) →
  maxHeldDepth ≤ d → Means d (opening k :: s) .value :=
  fun hv hd => ⟨_, _, .deep hd hv⟩
 induction h generalizing d with
 | literal h =>
  simp only [mem_cons, not_mem_nil, or_false] at h
  rcases h with rfl | rfl | rfl
  · exact ⟨_, _, .true d⟩
  · exact ⟨_, _, .false d⟩
  · exact ⟨_, _, .null d⟩
 | number h => exact ⟨_, _, .number d h⟩
 | string h =>
  obtain ⟨body, hb, rfl⟩ := h
  obtain ⟨units, hunits⟩ := hb.reads
  exact ⟨_, _, .string d hunits⟩
 | @empty k s hs =>
  by_cases hd : d < maxHeldDepth
  · cases k with
    | array => exact ⟨_, _, .emptyArray hd hs⟩
    | object => exact ⟨_, _, .emptyObject hd hs⟩
  · exact hdeep (.empty k hs) (Nat.le_of_not_lt hd)
 | @array w hw ih =>
  by_cases hd : d < maxHeldDepth
  · obtain ⟨items, hitems⟩ := ih (d + 1)
    exact ⟨_, _, .array hd hitems⟩
  · exact @hdeep .array _ d (.array hw) (Nat.le_of_not_lt hd)
 | @object w hw ih =>
  by_cases hd : d < maxHeldDepth
  · obtain ⟨members, hmembers⟩ := ih (d + 1)
    exact ⟨_, _, .object hd hmembers⟩
  · exact @hdeep .object _ d (.object hw) (Nat.le_of_not_lt hd)
 | element ha _ hb ih =>
  obtain ⟨v, n, hv⟩ := ih d
  exact ⟨_, .element ha hv hb⟩
 | elements _ ha _ hb ihw ihv =>
  obtain ⟨items, hitems⟩ := ihw d
  obtain ⟨v, n, hv⟩ := ihv d
  exact ⟨_, .elements hitems ha hv hb⟩
 | member hk ha _ hb ih =>
  obtain ⟨units, hunits⟩ := hk.reads
  obtain ⟨v, n, hv⟩ := ih d
  exact ⟨_, .member hunits ha hv hb⟩
 | members _ hk ha _ hb ihw ihv =>
  obtain ⟨units, hunits⟩ := hk.reads
  obtain ⟨members, hmembers⟩ := ihw d
  obtain ⟨v, n, hv⟩ := ihv d
  exact ⟨_, .members hmembers hunits ha hv hb⟩

end Bake.Json
