import Bake.Session.File

/-!
# Migration to the current version

Version 1 has no ids, version 2 calls the `custom` role `hookMessage`. The
version is the first header's, read as JavaScript's `Number` reads a member.
-/

namespace Bake.Session

open Bake.Json OrdMap
open OrdMap (get?)

/-! ## Session and entry ids

The random source is outside the model: a call is given what the source draws for it.
-/

/-- What the random source gives one call of `generateEntryId`. -/
structure Draws where
 /-- Eight hex digits each. -/
 candidates : List String
 uuid : String

/-- `generate_entry_id`: the first of 100 candidates not in use, else a whole UUID,
which is not checked. -/
def generateEntryId (draws : Draws) (inUse : String → Bool) : String :=
 ((draws.candidates.take 100).find? fun id => !inUse id).getD draws.uuid

theorem generateEntryId_fresh (draws : Draws) (inUse : String → Bool)
 (h : inUse draws.uuid = false) : inUse (generateEntryId draws inUse) = false := by
 unfold generateEntryId
 cases hf : (draws.candidates.take 100).find? fun id => !inUse id with
 | none => exact h
 | some id => simpa using List.find?_some hf

def isAsciiAlphanumeric (c : Char) : Bool :=
 c.isDigit || ('a' ≤ c && c ≤ 'z') || ('A' ≤ c && c ≤ 'Z')

/-- `assert_valid_session_id`: letters, digits, `-`, `_` and `.`, between letters
or digits. -/
def isValidSessionId (id : String) : Bool :=
 id.toList.head?.any isAsciiAlphanumeric && id.toList.getLast?.any isAsciiAlphanumeric
  && id.toList.all fun c => isAsciiAlphanumeric c || c = '.' || c = '_' || c = '-'

/-! ## `Number(value)` -/

inductive JsNumber where
 | nan
 | infinite (neg : Bool)
 | finite (v : F64)

namespace JsNumber

/-- A double, infinite past the largest one. -/
def ofDouble (neg : Bool) : Option F64 → JsNumber
 | some v => .finite v
 | none => .infinite neg

/-- Whether the number is at least `n`; NaN is not. -/
def ge (n : Nat) : JsNumber → Bool
 | .nan => false
 | .infinite neg => !neg
 | .finite v => (!v.neg || v.isZero) && n * v.ratio.2 ≤ v.ratio.1

/-- Whether the number is below `n`; NaN is not. -/
def lt (n : Nat) : JsNumber → Bool
 | .nan => false
 | .infinite neg => neg
 | .finite v => v.neg && !v.isZero || v.ratio.1 < n * v.ratio.2

end JsNumber

/-- The number nearest to a natural number, as an integer; nothing past the largest
double. -/
def roundNat (n : Nat) : Option Nat := (F64.ofRatio false n 1).map fun v => v.ratio.1 / v.ratio.2

def radixDigit (radix : Nat) (c : Char) : Option Nat :=
 if isHexDigit c ∧ hexValue c < radix then some (hexValue c) else none

/-- The digits of a radix literal, each step rounded as double arithmetic does. -/
def radixValue (radix : Nat) (digits : List Char) : Option Nat :=
 digits.foldl (fun total c => total.bind fun total =>
  (roundNat (total * radix)).bind fun total => roundNat (total + (radixDigit radix c).getD 0))
  (some 0)

/-- `is_decimal_literal`: digits with an optional fraction and exponent. -/
def isDecimalLiteral (text : List Char) : Bool :=
 let rest := digits text
 let after := if rest.head? = some '.' then digits rest.tail else rest
 let count := (text.length - rest.length)
  + (if rest.head? = some '.' then rest.tail.length - after.length else 0)
 if count = 0 then false
 else if after.head? = some 'e' ∨ after.head? = some 'E' then
  match digits1 (skipSign after.tail) with
  | some rest => rest.isEmpty
  | none => false
 else after.isEmpty

/-- A decimal literal as a double; an empty part before or behind the point is `0`. -/
def decimalValue (neg : Bool) (text : List Char) : JsNumber :=
 let whole := text.takeWhile Char.isDigit
 let rest := digits text
 let frac := if rest.head? = some '.' then rest.tail.takeWhile Char.isDigit else []
 let after := if rest.head? = some '.' then digits rest.tail else rest
 let exp : Int :=
  if after = [] then 0
  else if after.tail.head? = some '-' then -(Nat.ofDigitChars 10 after.tail.tail 0 : Int)
  else Nat.ofDigitChars 10 (skipSign after.tail) 0
 .ofDouble neg (F64.ofDecimal neg (Nat.ofDigitChars 10 (whole ++ frac) 0) (exp - frac.length))

/-- ECMAScript `StringToNumber`. -/
def jsStringToNumber (text : List Char) : JsNumber :=
 let text := jsTrim text
 if text = [] then .ofDouble false (F64.ofRatio false 0 1)
 else
  let neg := text.head? = some '-'
  let unsigned := if text.head? = some '-' ∨ text.head? = some '+' then text.tail else text
  if unsigned = "Infinity".toList then .infinite neg
  else
   let radix := match text with
    | '0' :: c :: _ =>
     if c = 'x' ∨ c = 'X' then some 16
     else if c = 'o' ∨ c = 'O' then some 8
     else if c = 'b' ∨ c = 'B' then some 2
     else none
    | _ => none
   match radix with
   | some radix =>
    let digits := text.drop 2
    if digits = [] ∨ digits.any fun c => (radixDigit radix c).isNone then .nan
    else match radixValue radix digits with
     | some n => .ofDouble false (F64.ofRatio false n 1)
     | none => .infinite false
   | none => if isDecimalLiteral unsigned then decimalValue neg unsigned else .nan

/-- JavaScript `Number(value)` for a stored member; a missing one is `NaN`. -/
def jsToNumber : Option Value → JsNumber
 | none => .nan
 | some .null => .ofDouble false (F64.ofRatio false 0 1)
 | some (.bool flag) => .ofDouble false (F64.ofRatio false (if flag then 1 else 0) 1)
 | some (.number n) => match n.asF64 with
  | some v => .finite v
  | none => .nan
 | some (.string text) => jsStringToNumber text.toList
 | some (.array items) => jsStringToNumber (jsToString (.array items)).toList
 | some (.object _) => .nan

/-! ## Migration -/

/-- A header's version; a missing or `null` one is version 1. -/
def headerVersion (object : JsonObject) : JsNumber :=
 match get? object "version" with
 | none | some .null => .ofDouble false (F64.ofRatio false 1 1)
 | some version => jsToNumber (some version)

def isSessionLine (object : JsonObject) : Bool := strMember object "type" = some "session"

/-- The integer a kept index names, when it names one. -/
def indexValue (kept : Number) : Option Nat := kept.asF64.bind fun v =>
  if v.ratio.1 % v.ratio.2 = 0 ∧ (v.neg = false ∨ v.isZero) then
   some (min (v.ratio.1 / v.ratio.2) (2 ^ 64 - 1))
  else none

/-- A compaction's `firstKeptEntryIndex` becomes `firstKeptEntryId`; `entries` are
all the lines, those before the compaction and itself with their new ids. -/
def migrateKept (entries : List JsonObject) (entry : JsonObject) : JsonObject :=
 if strMember entry "type" ≠ some "compaction" then entry
 else match get? entry "firstKeptEntryIndex" with
  | some (.number kept) =>
   let target := ((indexValue kept).bind fun i => entries[i]?).filter
    fun target => !isSessionLine target
   let entry := match target with
    | some target => match get? target "id" with
     | some id => insert entry "firstKeptEntryId" id
     | none => erase entry "firstKeptEntryId"
    | none => entry
   erase entry "firstKeptEntryIndex"
  | _ => entry

def withId (entry : JsonObject) (id : String) (previous : Option String) : JsonObject :=
 insert (insert entry "id" (.string id)) "parentId"
  (match previous with
   | some parent => .string parent
   | none => .null)

/-- Version 1 to 2 from one line on: `done` are the lines before it, migrated. The
ids drawn are one call's draws for each entry. -/
def migrateV1ToV2From (draws : Nat → Draws) (done : List JsonObject) (ids : List String)
 (previous : Option String) : List JsonObject → List JsonObject
 | [] => done
 | entry :: rest =>
  if isSessionLine entry then
   migrateV1ToV2From draws (done ++ [insert entry "version" (.number (.ofNat 2))])
    ids previous rest
  else
   let id := generateEntryId (draws done.length) fun candidate => candidate ∈ ids
   let entry := withId entry id previous
   migrateV1ToV2From draws (done ++ [migrateKept (done ++ entry :: rest) entry])
    (ids ++ [id]) (some id) rest

/-- Version 1 to 2: give every entry an id and a parent forming one chain. -/
def migrateV1ToV2 (draws : Nat → Draws) (entries : List JsonObject) : List JsonObject :=
 migrateV1ToV2From draws [] [] none entries

/-- Version 2 to 3 for one line: the `hookMessage` role became `custom`. -/
def migrateV2Line (entry : JsonObject) : JsonObject :=
 if isSessionLine entry then insert entry "version" (.number (.ofNat 3))
 else if strMember entry "type" ≠ some "message" then entry
 else match get? entry "message" with
  | some (.object message) =>
   if strMember message "role" = some "hookMessage" then
    insert entry "message" (.object (insert message "role" (.string "custom")))
   else entry
  | _ => entry

/-- Version 2 to 3. -/
def migrateV2ToV3 (entries : List JsonObject) : List JsonObject := entries.map migrateV2Line

/-- `migrate_objects`: the lines at the current version, and whether a migration ran. -/
def migrateObjects (draws : Nat → Draws) (entries : List JsonObject) : List JsonObject × Bool :=
 let version := match entries.find? isSessionLine with
  | some header => headerVersion header
  | none => .ofDouble false (F64.ofRatio false 1 1)
 if version.ge SessionHeader.currentVersion then (entries, false)
 else
  let entries := if version.lt 2 then migrateV1ToV2 draws entries else entries
  let entries := if version.lt 3 then migrateV2ToV3 entries else entries
  (entries, true)

/-- `migrate_lines`: the kept text stays with its line. -/
def migrateLines (draws : Nat → Draws) (lines : List Line) : List Line × Bool :=
 let (objects, migrated) := migrateObjects draws (lines.map Prod.fst)
 (objects.zip (lines.map Prod.snd), migrated)

/-! ## One migration is enough -/

/-- Nothing is left to migrate: the first header's version is the current one or a later one,
and no opening changes or rewrites anything. -/
def Settled (entries : List JsonObject) : Prop :=
 (∃ header, entries.find? isSessionLine = some header
  ∧ (headerVersion header).ge SessionHeader.currentVersion = true)
 ∧ (∀ draws, migrateObjects draws entries = (entries, false))
 ∧ ∀ draws (lines : List Line), lines.map Prod.fst = entries → (migrateLines draws lines).2 = false

variable {entries : List JsonObject} {header : JsonObject}

theorem JsNumber.lt_eq_not_ge {number : JsNumber} (h : number ≠ .nan) (n : Nat) :
 number.lt n = !number.ge n := by
 cases number with
 | nan => exact absurd rfl h
 | infinite neg => simp [JsNumber.lt, JsNumber.ge]
 | finite v =>
  have hlt : decide (v.ratio.1 < n * v.ratio.2) = !decide (n * v.ratio.2 ≤ v.ratio.1) := by
   rw [← decide_not]
   exact decide_eq_decide.mpr Nat.not_le.symm
  cases hn : v.neg <;> cases hz : v.isZero <;> simp [JsNumber.lt, JsNumber.ge, hn, hz, hlt]

theorem Settled.of_current (hfind : entries.find? isSessionLine = some header)
 (h : (headerVersion header).ge SessionHeader.currentVersion = true) : Settled entries := by
 have hmigrate : ∀ draws, migrateObjects draws entries = (entries, false) := fun draws => by
  rw [migrateObjects, hfind]
  exact if_pos h
 refine ⟨⟨header, hfind, h⟩, hmigrate, fun draws lines hlines => ?_⟩
 show (migrateObjects draws (lines.map Prod.fst)).2 = false
 rw [hlines, hmigrate]

theorem isSessionLine_insert {object : JsonObject} {key : String} (hk : key ≠ "type")
 (value : Value) : isSessionLine (OrdMap.insert object key value) = isSessionLine object := by
 unfold isSessionLine strMember
 rw [OrdMap.get?_insert_ne _ _ hk]

theorem isSessionLine_erase {object : JsonObject} {key : String} (hk : key ≠ "type") :
 isSessionLine (OrdMap.erase object key) = isSessionLine object := by
 unfold isSessionLine strMember
 rw [OrdMap.get?_erase, if_neg hk]

theorem isSessionLine_migrateKept (all : List JsonObject) (entry : JsonObject) :
 isSessionLine (migrateKept all entry) = isSessionLine entry := by
 unfold migrateKept
 split
 · rfl
 · split
   · rw [isSessionLine_erase (by decide)]
     split
     · split
       · exact isSessionLine_insert (by decide) _
       · exact isSessionLine_erase (by decide)
     · rfl
   · rfl

theorem isSessionLine_withId (entry : JsonObject) (id : String) (previous : Option String) :
 isSessionLine (withId entry id previous) = isSessionLine entry := by
 unfold withId
 rw [isSessionLine_insert (by decide), isSessionLine_insert (by decide)]

theorem isSessionLine_migrateV2Line (entry : JsonObject) :
 isSessionLine (migrateV2Line entry) = isSessionLine entry := by
 unfold migrateV2Line
 split
 · exact isSessionLine_insert (by decide) _
 · split
   · rfl
   · split
     · split
       · exact isSessionLine_insert (by decide) _
       · rfl
     · rfl

theorem find?_migrateV1ToV2From (draws : Nat → Draws) (entries : List JsonObject) :
 ∀ (done : List JsonObject) (ids : List String) (previous : Option String),
  (migrateV1ToV2From draws done ids previous entries).find? isSessionLine
   = (done.find? isSessionLine).or ((entries.find? isSessionLine).map fun header =>
    OrdMap.insert header "version" (.number (.ofNat 2))) := by
 induction entries with
 | nil => simp [migrateV1ToV2From]
 | cons entry entries ih =>
  intro done ids previous
  rw [migrateV1ToV2From]
  split
  next hs =>
   rw [ih, List.find?_append, List.find?_cons_of_pos hs,
    List.find?_cons_of_pos (by rw [isSessionLine_insert (by decide)]; exact hs),
    Option.or_assoc]
   simp
  next hs =>
   rw [ih, List.find?_append, List.find?_cons_of_neg hs, List.find?_cons_of_neg
    (by rw [isSessionLine_migrateKept, isSessionLine_withId]; exact hs)]
   simp

theorem find?_migrateV2ToV3 (entries : List JsonObject) :
 (migrateV2ToV3 entries).find? isSessionLine = (entries.find? isSessionLine).map migrateV2Line := by
 rw [migrateV2ToV3, List.find?_map]
 congr 2
 exact funext isSessionLine_migrateV2Line

/-- The version a migration writes is the current one. -/
theorem Settled.of_v2ToV3 (hfind : entries.find? isSessionLine = some header) :
 Settled (migrateV2ToV3 entries) := by
 have hs : isSessionLine header = true := List.find?_some hfind
 have hv : (migrateV2ToV3 entries).find? isSessionLine = some (migrateV2Line header) := by
  rw [find?_migrateV2ToV3, hfind, Option.map_some]
 refine Settled.of_current hv ?_
 rw [migrateV2Line, if_pos hs]
 simp only [headerVersion, OrdMap.get?_insert_self]
 decide

/-- **Migration reaches a fixed point:** where it leaves the lines of a session, another
opening finds nothing to migrate and rewrites nothing, unless the header's version reads as
no number. -/
theorem migrateObjects_settled_iff (draws : Nat → Draws)
 (hfind : entries.find? isSessionLine = some header) :
 Settled (migrateObjects draws entries).1 ↔ headerVersion header ≠ .nan := by
 constructor
 · intro hsettled hnan
   have hsame : migrateObjects draws entries = (entries, true) := by
    rw [migrateObjects, hfind]
    simp only [hnan]
    rfl
   rw [hsame] at hsettled
   have hagain := hsettled.2.1 draws
   rw [hsame] at hagain
   simp at hagain
 intro hnan
 cases hge : (headerVersion header).ge SessionHeader.currentVersion with
 | true =>
  rw [show migrateObjects draws entries = (entries, false) by
   rw [migrateObjects, hfind]; exact if_pos hge]
  exact .of_current hfind hge
 | false =>
  have hlt : (headerVersion header).lt 3 = true := by
   rw [JsNumber.lt_eq_not_ge hnan]
   exact congrArg not hge
  rw [migrateObjects, hfind]
  simp only [hge, hlt, Bool.false_eq_true, if_false, if_true]
  split
  · exact .of_v2ToV3 (by
     rw [migrateV1ToV2, find?_migrateV1ToV2From, hfind]
     rfl)
  · exact .of_v2ToV3 hfind

/-- A header whose version is a text. -/
def namedVersion : JsonObject := [("type", .string "session"), ("version", .string "v3")]

theorem migrateObjects_settled_iff_named :
 Settled (migrateObjects (fun _ => ⟨[], ""⟩) [namedVersion]).1
  ↔ headerVersion namedVersion ≠ .nan :=
 migrateObjects_settled_iff _ (by rfl)

/-- Such a session is never settled: every opening rewrites it. -/
theorem migrateObjects_named_unsettled :
 ¬ ∀ (draws : Nat → Draws) (entries : List JsonObject) (header : JsonObject),
  entries.find? isSessionLine = some header → Settled (migrateObjects draws entries).1 := by
 intro h
 have hmigrates : ∀ draws, migrateObjects draws [namedVersion] = ([namedVersion], true) :=
  fun _ => rfl
 have hsettled := h (fun _ => ⟨[], ""⟩) [namedVersion] namedVersion rfl
 rw [hmigrates] at hsettled
 have hagain := hsettled.2.1 fun _ => ⟨[], ""⟩
 rw [hmigrates] at hagain
 simp at hagain

end Bake.Session
