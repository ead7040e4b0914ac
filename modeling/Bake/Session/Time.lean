import Mathlib.Algebra.Ring.Int.Defs
import Bake.Json.Value

/-!
# JavaScript `Date` as the session format uses it

Entry timestamps are `toISOString` strings, read back into milliseconds with
`Date.parse` on the ISO 8601 forms. Milliseconds are integers; every intermediate
value stays far inside 64 bits.
-/

namespace Bake.Session

open Bake.Json List

/-- ECMAScript's time-value limit. -/
def maxTimeMs : Int := 8640000000000000

/-- Days since 1970-01-01 of a proleptic Gregorian date. -/
def daysFromCivil (year month day : Int) : Int :=
 let year := if month ≤ 2 then year - 1 else year
 let era := year / 400
 let yearOfEra := year - era * 400
 let monthIndex := (month + 9) % 12
 let dayOfYear := (153 * monthIndex + 2) / 5 + day - 1
 let dayOfEra := yearOfEra * 365 + yearOfEra / 4 - yearOfEra / 100 + dayOfYear
 era * 146097 + dayOfEra - 719468

/-- The proleptic Gregorian date of a day count. -/
def civilFromDays (days : Int) : Int × Int × Int :=
 let z := days + 719468
 let era := z / 146097
 let dayOfEra := z - era * 146097
 let yearOfEra := (dayOfEra - dayOfEra / 1460 + dayOfEra / 36524 - dayOfEra / 146096) / 365
 let dayOfYear := dayOfEra - (365 * yearOfEra + yearOfEra / 4 - yearOfEra / 100)
 let monthIndex := (5 * dayOfYear + 2) / 153
 let day := dayOfYear - (153 * monthIndex + 2) / 5 + 1
 let month := if monthIndex < 10 then monthIndex + 3 else monthIndex - 9
 (yearOfEra + era * 400 + (if month ≤ 2 then 1 else 0), month, day)

/-- A number's digits, with zeros in front up to `width`. -/
def padded (width n : Nat) : List Char :=
 let digits := Nat.toDigits 10 n
 replicate (width - digits.length) '0' ++ digits

/-- `new Date(ms).toISOString()`. -/
def formatIso (ms : Int) : String :=
 let days := ms / 86400000
 let inDay := (ms % 86400000).toNat
 let (year, month, day) := civilFromDays days
 let year :=
  if 0 ≤ year ∧ year ≤ 9999 then padded 4 year.toNat
  else if year < 0 then '-' :: padded 6 year.natAbs
  else '+' :: padded 6 year.toNat
 String.ofList (year ++ '-' :: padded 2 month.toNat ++ '-' :: padded 2 day.toNat
  ++ 'T' :: padded 2 (inDay / 3600000) ++ ':' :: padded 2 (inDay / 60000 % 60)
  ++ ':' :: padded 2 (inDay / 1000 % 60) ++ '.' :: padded 3 (inDay % 1000) ++ ['Z'])

/-- Exactly `count` ASCII digits at the cursor. -/
def takeDigits (count : Nat) (text : List Char) : Option (Nat × List Char) :=
 let digits := text.take count
 if digits.length = count ∧ digits.all Char.isDigit then
  some (Nat.ofDigitChars 10 digits 0, text.drop count)
 else none

/-- The cursor past a character, when it is there. -/
def eat (c : Char) (text : List Char) : Option (List Char) :=
 if text.head? = some c then some text.tail else none

/-- The year: six digits behind a sign, else four. There is no year `-000000`. -/
def parseYear (text : List Char) : Option (Int × List Char) :=
 if text.head? = some '+' then
  (takeDigits 6 text.tail).map fun (year, text) => (year, text)
 else if text.head? = some '-' then
  (takeDigits 6 text.tail).bind fun (year, text) =>
   if year = 0 then none else some (-year, text)
 else (takeDigits 4 text).map fun (year, text) => (year, text)

/-- The month and day, each `1` when missing. -/
def parseMonthDay (text : List Char) : Option (Nat × Nat × List Char) :=
 match eat '-' text with
 | none => some (1, 1, text)
 | some text => (takeDigits 2 text).bind fun (month, text) =>
  match eat '-' text with
  | none => some (month, 1, text)
  | some text => (takeDigits 2 text).map fun (day, text) => (month, day, text)

/-- The seconds and milliseconds, each `0` when missing. -/
def parseSeconds (text : List Char) : Option (Nat × Nat × List Char) :=
 match eat ':' text with
 | none => some (0, 0, text)
 | some text => (takeDigits 2 text).bind fun (second, text) =>
  match eat '.' text with
  | none => some (second, 0, text)
  | some text =>
   let fraction := text.takeWhile Char.isDigit
   if fraction = [] then none
   else
    let three := fraction.take 3
    let milli := Nat.ofDigitChars 10 (three ++ replicate (3 - three.length) '0') 0
    some (second, milli, text.dropWhile Char.isDigit)

/-- The offset in milliseconds; a missing one is UTC. -/
def parseOffset (text : List Char) : Option (Int × List Char) :=
 match text with
 | 'Z' :: text | 'z' :: text => some (0, text)
 | sign :: rest =>
  if sign = '+' ∨ sign = '-' then
   (takeDigits 2 rest).bind fun (hours, rest) =>
    (takeDigits 2 ((eat ':' rest).getD rest)).bind fun (minutes, rest) =>
     if 23 < hours ∨ 59 < minutes then none
     else
      let offset : Int := (hours * 60 + minutes) * 60000
      some (if sign = '+' then offset else -offset, rest)
  else some (0, text)
 | [] => some (0, [])

/-- The time of day and the offset in milliseconds, both `0` when missing. -/
def parseTime (text : List Char) : Option (Int × Int × List Char) :=
 if text.head? = some 'T' ∨ text.head? = some 't' ∨ text.head? = some ' ' then
  (takeDigits 2 text.tail).bind fun (hour, text) => (eat ':' text).bind fun text =>
   (takeDigits 2 text).bind fun (minute, text) =>
    (parseSeconds text).bind fun (second, milli, text) =>
     if 24 < hour ∨ 59 < minute ∨ 59 < second then none
     else if hour = 24 ∧ (minute ≠ 0 ∨ second ≠ 0 ∨ milli ≠ 0) then none
     else (parseOffset text).map fun (offset, text) =>
      ((((hour * 60 + minute) * 60 + second) * 1000 + milli : Nat), offset, text)
 else some (0, 0, text)

/-- `Date.parse` for ISO 8601 date and date-time strings. -/
def parseDateMs (text : String) : Option Int := (parseYear text.toList).bind fun (year, text) =>
  (parseMonthDay text).bind fun (month, day, text) =>
   if month < 1 ∨ 12 < month ∨ day < 1 ∨ 31 < day then none
   else (parseTime text).bind fun (timeMs, offsetMs, text) =>
    if text ≠ [] then none
    else
     let days := daysFromCivil year month 1 + (day - 1)
     let ms := days * 86400000 + timeMs - offsetMs
     if ms.natAbs ≤ maxTimeMs then some ms else none

/-- ECMAScript `TimeClip`: truncation toward zero, inside the limit. -/
def timeClip (ms : F64) : Option Int :=
 if maxTimeMs * ms.ratio.2 < ms.ratio.1 then none
 else
  let whole : Int := (ms.ratio.1 / ms.ratio.2 : Nat)
  some (if ms.neg then -whole else whole)

/-- `new Date(value).getTime()` for a member read without validation; nothing for
`NaN`. -/
def jsDateMs : Option Value → Option Int
 | none => none
 | some .null => some 0
 | some (.bool flag) => some (if flag then 1 else 0)
 | some (.number n) => n.asF64.bind timeClip
 | some (.string text) => parseDateMs text
 | some (.array _) | some (.object _) => none

example : parseDateMs "2025-01-01T00:00:00.123Z" = some 1735689600123 := by decide

/-! ## The computations in 64 bits -/

/-- Why a checked computation gives no value. -/
inductive TimeStop where
 | overflow
 | invalid

/-- The result of an `i64` operation. -/
def i64 (n : Int) : Except TimeStop Int :=
 if -2 ^ 63 ≤ n ∧ n < 2 ^ 63 then .ok n else .error .overflow

/-- `checked_mul` and its like: an overflow is a text that is no date. -/
def checked (n : Int) : Except TimeStop Int :=
 if -2 ^ 63 ≤ n ∧ n < 2 ^ 63 then .ok n else .error .invalid

/-- `civil_from_days`, every operation checked; a quotient by a positive constant fits. -/
def civilFromDays64 (days : Int) : Except TimeStop (Int × Int × Int) := do
 let z ← i64 (days + 719468)
 let era := z / 146097
 let dayOfEra ← i64 (z - (← i64 (era * 146097)))
 let leaps ← i64 (dayOfEra - dayOfEra / 1460)
 let leaps ← i64 (leaps + dayOfEra / 36524)
 let yearOfEra := (← i64 (leaps - dayOfEra / 146096)) / 365
 let before ← i64 ((← i64 (365 * yearOfEra)) + yearOfEra / 4)
 let dayOfYear ← i64 (dayOfEra - (← i64 (before - yearOfEra / 100)))
 let monthIndex := (← i64 ((← i64 (5 * dayOfYear)) + 2)) / 153
 let before ← i64 ((← i64 (153 * monthIndex)) + 2)
 let day ← i64 ((← i64 (dayOfYear - before / 5)) + 1)
 let month ← i64 (if monthIndex < 10 then monthIndex + 3 else monthIndex - 9)
 let year ← i64 (yearOfEra + (← i64 (era * 400)))
 let year ← i64 (year + if month ≤ 2 then 1 else 0)
 return (year, month, day)

/-- `format_iso`; past the date it only divides. -/
def formatIso64 (ms : Int) : Except TimeStop String :=
 (civilFromDays64 (ms / 86400000)).map fun _ => formatIso ms

/-- `days_from_civil`, every operation checked. -/
def daysFromCivil64 (year month day : Int) : Except TimeStop Int := do
 let year ← i64 (if month ≤ 2 then year - 1 else year)
 let era := year / 400
 let yearOfEra ← i64 (year - (← i64 (era * 400)))
 let monthIndex := (← i64 (month + 9)) % 12
 let before ← i64 ((← i64 (153 * monthIndex)) + 2)
 let dayOfYear ← i64 ((← i64 (before / 5 + day)) - 1)
 let inEra ← i64 ((← i64 (yearOfEra * 365)) + yearOfEra / 4)
 let dayOfEra ← i64 ((← i64 (inEra - yearOfEra / 100)) + dayOfYear)
 i64 ((← i64 ((← i64 (era * 146097)) + dayOfEra)) - 719468)

def takeDigits64 (count : Nat) (text : List Char) : Except TimeStop (Int × List Char) :=
 let digits := text.take count
 if digits.length = count ∧ digits.all Char.isDigit then do
  let total ← digits.foldlM (fun total c => do
   i64 ((← i64 (total * 10)) + (c.toNat - '0'.toNat : Nat))) (0 : Int)
  return (total, text.drop count)
 else throw .invalid

def parseYear64 (text : List Char) : Except TimeStop (Int × List Char) :=
 if text.head? = some '+' then takeDigits64 6 text.tail
 else if text.head? = some '-' then do
  let (year, text) ← takeDigits64 6 text.tail
  if year = 0 then throw .invalid
  else return (← i64 (-year), text)
 else takeDigits64 4 text

def parseMonthDay64 (text : List Char) : Except TimeStop (Int × Int × List Char) :=
 match eat '-' text with
 | none => pure (1, 1, text)
 | some text => do
  let (month, text) ← takeDigits64 2 text
  match eat '-' text with
  | none => pure (month, 1, text)
  | some text => do
   let (day, text) ← takeDigits64 2 text
   return (month, day, text)

def parseSeconds64 (text : List Char) : Except TimeStop (Int × Int × List Char) :=
 match eat ':' text with
 | none => pure (0, 0, text)
 | some text => do
  let (second, text) ← takeDigits64 2 text
  match eat '.' text with
  | none => pure (second, 0, text)
  | some text =>
   let fraction := text.takeWhile Char.isDigit
   if fraction = [] then throw .invalid
   else do
    let three := fraction.take 3
    let (milli, _) ← takeDigits64 3 (three ++ replicate (3 - three.length) '0')
    return (second, milli, text.dropWhile Char.isDigit)

def parseOffset64 (text : List Char) : Except TimeStop (Int × List Char) :=
 match text with
 | 'Z' :: text | 'z' :: text => pure (0, text)
 | sign :: rest =>
  if sign = '+' ∨ sign = '-' then do
   let (hours, rest) ← takeDigits64 2 rest
   let (minutes, rest) ← takeDigits64 2 ((eat ':' rest).getD rest)
   if 23 < hours ∨ 59 < minutes then throw .invalid
   else
    let offset ← i64 ((← i64 ((← i64 (hours * 60)) + minutes)) * 60000)
    if sign = '+' then return (offset, rest) else return (← i64 (-offset), rest)
  else pure (0, text)
 | [] => pure (0, [])

def parseTime64 (text : List Char) : Except TimeStop (Int × Int × List Char) :=
 if text.head? = some 'T' ∨ text.head? = some 't' ∨ text.head? = some ' ' then do
  let (hour, text) ← takeDigits64 2 text.tail
  match eat ':' text with
  | none => throw .invalid
  | some text =>
   let (minute, text) ← takeDigits64 2 text
   let (second, milli, text) ← parseSeconds64 text
   if 24 < hour ∨ 59 < minute ∨ 59 < second then throw .invalid
   else if hour = 24 ∧ (minute ≠ 0 ∨ second ≠ 0 ∨ milli ≠ 0) then throw .invalid
   else
    let minutes ← i64 ((← i64 (hour * 60)) + minute)
    let seconds ← i64 ((← i64 (minutes * 60)) + second)
    let timeMs ← i64 ((← i64 (seconds * 1000)) + milli)
    let (offset, text) ← parseOffset64 text
    return (timeMs, offset, text)
 else pure (0, 0, text)

/-- `parse_date_ms`, every operation checked. -/
def parseDateMs64 (text : String) : Except TimeStop Int := do
 let (year, text) ← parseYear64 text.toList
 let (month, day, text) ← parseMonthDay64 text
 if month < 1 ∨ 12 < month ∨ day < 1 ∨ 31 < day then throw .invalid
 else
  let (timeMs, offsetMs, text) ← parseTime64 text
  if text ≠ [] then throw .invalid
  else
   let days ← i64 ((← daysFromCivil64 year month 1) + (← i64 (day - 1)))
   let ms ← checked ((← checked ((← checked (days * 86400000)) + timeMs)) - offsetMs)
   if (← i64 ms.natAbs) ≤ maxTimeMs then return ms else throw .invalid
/-! ## Reading a formatted date back -/

theorem i64_ok {n : Int} (h : -2 ^ 63 ≤ n ∧ n < 2 ^ 63) : i64 n = .ok n := if_pos h

theorem ok_bind {α β : Type} (a : α) (k : α → Except TimeStop β) : (Except.ok a >>= k) = k a := rfl

theorem padded_spec {width n : Nat} (hw : 0 < width) (h : n < 10 ^ width) :
 (padded width n).length = width ∧ (padded width n).all Char.isDigit
  ∧ Nat.ofDigitChars 10 (padded width n) 0 = n := by
 have hlen : (Nat.toDigits 10 n).length ≤ width := (Nat.length_toDigits_le_iff (by decide) hw).mpr h
 refine ⟨?_, all_eq_true.mpr fun c hc => ?_, ?_⟩
 · simp [padded]
   omega
 · rcases mem_append.mp hc with hc | hc
   · rw [eq_of_mem_replicate hc]
     rfl
   · exact Nat.isDigit_of_mem_toDigits (by decide) (by decide) hc
 · rw [padded, Nat.ofDigitChars_append, Nat.ofDigitChars_replicate_zero, Nat.mul_zero,
    Nat.ofDigitChars_ten_toDigits]

theorem takeDigits_padded {width n : Nat} (hw : 0 < width) (h : n < 10 ^ width) (rest : List Char) :
 takeDigits width (padded width n ++ rest) = some (n, rest) := by
 obtain ⟨hlen, hall, hval⟩ := padded_spec hw h
 rw [takeDigits, take_left' hlen, drop_left' hlen]
 rw [if_pos ⟨hlen, hall⟩, hval]

/-- Reading digits stays inside 64 bits as long as the number they make does. -/
theorem digits64 (digits : List Char) : ∀ (total : Nat), Nat.ofDigitChars 10 digits total < 2 ^ 63 →
 digits.foldlM (fun total c => do
  i64 ((← i64 (total * 10)) + (c.toNat - '0'.toNat : Nat))) (total : Int)
  = .ok (Nat.ofDigitChars 10 digits total : Int) := by
 induction digits with
 | nil => exact fun _ _ => rfl
 | cons c digits ih =>
  intro total h
  rw [Nat.ofDigitChars_cons] at h ⊢
  have hle : 10 * total + (c.toNat - '0'.toNat) < 2 ^ 63 := by
   rw [Nat.ofDigitChars_eq_ofDigitChars_zero] at h
   have hpos : 0 < 10 ^ digits.length := Nat.pow_pos (by decide)
   have := Nat.le_mul_of_pos_left (10 * total + (c.toNat - '0'.toNat)) hpos
   omega
  rw [foldlM_cons, i64_ok (by omega), ok_bind, i64_ok (by omega), ok_bind, ← ih _ h]
  congr 1
  push_cast
  omega

theorem takeDigits64_padded {width n : Nat} (hw : 0 < width) (h : n < 10 ^ width)
 (hn : n < 2 ^ 63) (rest : List Char) :
 takeDigits64 width (padded width n ++ rest) = .ok ((n : Int), rest) := by
 obtain ⟨hlen, hall, hval⟩ := padded_spec hw h
 rw [takeDigits64, take_left' hlen, drop_left' hlen]
 rw [if_pos ⟨hlen, hall⟩]
 have hfold := digits64 (padded width n) 0 (by rw [hval]; exact hn)
 rw [hval] at hfold
 exact congrArg (· >>= fun total => pure (total, rest)) hfold

theorem eat_cons (c : Char) (text : List Char) : eat c (c :: text) = some text := by
 simp [eat]

/-- The year of a formatted date reads back. -/
theorem parseYear_text {year : Int} (h : -999999 ≤ year ∧ year ≤ 999999) (rest : List Char) :
 let text := (if 0 ≤ year ∧ year ≤ 9999 then padded 4 year.toNat
  else if year < 0 then '-' :: padded 6 year.natAbs
  else '+' :: padded 6 year.toNat) ++ rest
 parseYear text = some (year, rest) ∧ parseYear64 text = .ok (year, rest) := by
 intro text
 by_cases hfour : 0 ≤ year ∧ year ≤ 9999
 · have htext : text = padded 4 year.toNat ++ rest := congrArg (· ++ rest) (if_pos hfour)
   have hlt : year.toNat < 10 ^ 4 := by omega
   obtain ⟨hlen, hall, -⟩ := padded_spec (by decide) hlt
   have hhead : ∀ c, c.isDigit = false → text.head? ≠ some c := by
    intro c hc hin
    rw [htext, head?_append_of_ne_nil _ (ne_nil_of_length_pos (by omega))] at hin
    rw [all_eq_true.mp hall c (mem_of_mem_head? hin)] at hc
    exact absurd hc (by simp)
   constructor
   · rw [parseYear, if_neg (hhead '+' rfl), if_neg (hhead '-' rfl), htext,
      takeDigits_padded (by decide) hlt]
     simp
     omega
   · rw [parseYear64, if_neg (hhead '+' rfl), if_neg (hhead '-' rfl), htext,
      takeDigits64_padded (by decide) hlt (by omega), Int.toNat_of_nonneg hfour.1]
 by_cases hneg : year < 0
 · have htext : text = '-' :: (padded 6 year.natAbs ++ rest) :=
    congrArg (· ++ rest) ((if_neg hfour).trans (if_pos hneg))
   have hlt : year.natAbs < 10 ^ 6 := by omega
   have hne : ¬ (year.natAbs : Int) = 0 := by omega
   rw [htext]
   constructor
   · rw [parseYear, if_neg (by simp), if_pos head?_cons, tail_cons,
      takeDigits_padded (by decide) hlt, Option.bind_some]
     dsimp only
     rw [if_neg (by omega), show -(year.natAbs : Int) = year by omega]
   · rw [parseYear64, if_neg (by simp), if_pos head?_cons, tail_cons,
      takeDigits64_padded (by decide) hlt (by omega), ok_bind]
     dsimp only
     rw [if_neg hne, i64_ok (by omega), ok_bind, show -(year.natAbs : Int) = year by omega]
     rfl
 · have htext : text = '+' :: (padded 6 year.toNat ++ rest) :=
    congrArg (· ++ rest) ((if_neg hfour).trans (if_neg hneg))
   have hlt : year.toNat < 10 ^ 6 := by omega
   rw [htext]
   constructor
   · rw [parseYear, if_pos head?_cons, tail_cons, takeDigits_padded (by decide) hlt]
     simp
     omega
   · rw [parseYear64, if_pos head?_cons, tail_cons,
      takeDigits64_padded (by decide) hlt (by omega), Int.toNat_of_nonneg (by omega)]

theorem parseMonthDay_text {month day : Nat} (hm : month < 100) (hd : day < 100)
 (rest : List Char) :
 let text := '-' :: (padded 2 month ++ '-' :: (padded 2 day ++ rest))
 parseMonthDay text = some (month, day, rest)
  ∧ parseMonthDay64 text = .ok ((month : Int), (day : Int), rest) := by
 intro text
 constructor
 · simp only [text, parseMonthDay, eat_cons, takeDigits_padded (by decide : 0 < 2) hm]
   rw [Option.bind_some]
   simp only [eat_cons, takeDigits_padded (by decide : 0 < 2) hd, Option.map_some]
 · simp only [text, parseMonthDay64, eat_cons,
    takeDigits64_padded (by decide : 0 < 2) hm (by omega),
    takeDigits64_padded (by decide : 0 < 2) hd (by omega), ok_bind]
   rfl

theorem parseSeconds_text {second milli : Nat} (hs : second < 60) (hm : milli < 1000)
 (rest : List Char) :
 let text := ':' :: (padded 2 second ++ '.' :: (padded 3 milli ++ 'Z' :: rest))
 parseSeconds text = some (second, milli, 'Z' :: rest)
  ∧ parseSeconds64 text = .ok ((second : Int), (milli : Int), 'Z' :: rest) := by
 intro text
 obtain ⟨hlen, hall, hval⟩ := padded_spec (by decide : 0 < 3) (show milli < 10 ^ 3 from hm)
 have hall := all_eq_true.mp hall
 have htake : (padded 3 milli ++ 'Z' :: rest).takeWhile Char.isDigit = padded 3 milli := by
  rw [takeWhile_append_of_pos hall, takeWhile_cons_of_neg (by decide),
   append_nil]
 have hdrop : (padded 3 milli ++ 'Z' :: rest).dropWhile Char.isDigit = 'Z' :: rest := by
  rw [dropWhile_append_of_pos hall, dropWhile_cons_of_neg (by decide)]
 have hne : padded 3 milli ≠ [] := ne_nil_of_length_pos (by omega)
 have hthree : (padded 3 milli).take 3
  ++ replicate (3 - ((padded 3 milli).take 3).length) '0' = padded 3 milli ++ [] := by
  rw [take_of_length_le (by omega), hlen]
  rfl
 have hsecond : second < 10 ^ 2 := by omega
 constructor
 · simp only [text, parseSeconds, eat_cons, takeDigits_padded (by decide : 0 < 2) hsecond]
   rw [Option.bind_some]
   simp only [eat_cons, htake, hdrop, if_neg hne]
   rw [hthree, append_nil, hval]
 · simp only [text, parseSeconds64, eat_cons,
    takeDigits64_padded (by decide : 0 < 2) hsecond (by omega), ok_bind, htake, hdrop,
    if_neg hne]
   rw [hthree, takeDigits64_padded (by decide) hm (by omega)]
   rfl

/-! ## Days and dates -/

/-- **Where a day of an era falls:** leap days thinned out by centuries leave a year of the
era, and a day of it. -/
theorem dayOfYear_bounds {dayOfEra yearOfEra dayOfYear : Int} (h : 0 ≤ dayOfEra ∧ dayOfEra ≤ 146096)
 (hyear : yearOfEra = (dayOfEra - dayOfEra / 1460 + dayOfEra / 36524 - dayOfEra / 146096) / 365)
 (hday : dayOfYear = dayOfEra - (365 * yearOfEra + yearOfEra / 4 - yearOfEra / 100)) :
 (0 ≤ yearOfEra ∧ yearOfEra ≤ 399) ∧ 0 ≤ dayOfYear ∧ dayOfYear ≤ 366 := by
 obtain ⟨c, hc⟩ : ∃ c, dayOfEra / 36524 - dayOfEra / 146096 = c := ⟨_, rfl⟩
 have hcentury : 0 ≤ c ∧ c ≤ 3 ∧ 36524 * c ≤ dayOfEra ∧ dayOfEra ≤ 36524 * c + 36524 := by
  omega
 obtain ⟨d, hd⟩ : ∃ d, dayOfEra - dayOfEra / 1460 + c = d := ⟨_, rfl⟩
 have hd365 : yearOfEra = d / 365 := by
  rw [hyear]
  congr 1
  omega
 have h4 : yearOfEra / 4 = d / 1460 := by
  rw [hd365, Int.ediv_ediv_of_nonneg (by decide)]
  rfl
 have h100 : yearOfEra / 100 = d / 36500 := by
  rw [hd365, Int.ediv_ediv_of_nonneg (by decide)]
  rfl
 -- the leap days of four years and of a century are off by at most one
 have hfour : dayOfEra / 1460 - 1 ≤ d / 1460 ∧ d / 1460 ≤ dayOfEra / 1460 := by omega
 have hhundred : c ≤ d / 36500 ∧ d / 36500 ≤ c + 1 := by omega
 omega

/-- The parts of a day count, and that none of them leaves 64 bits on the way. -/
theorem civil_parts {days : Int} (h : -100000000 ≤ days ∧ days ≤ 100000000) :
 ∃ era yearOfEra dayOfYear monthIndex month : Int,
  (-680 ≤ era ∧ era ≤ 690) ∧ (0 ≤ yearOfEra ∧ yearOfEra ≤ 399)
  ∧ (0 ≤ dayOfYear ∧ dayOfYear ≤ 366) ∧ monthIndex = (5 * dayOfYear + 2) / 153
  ∧ month = (if monthIndex < 10 then monthIndex + 3 else monthIndex - 9)
  ∧ days + 719468 = era * 146097 + (365 * yearOfEra + yearOfEra / 4 - yearOfEra / 100 + dayOfYear)
  ∧ civilFromDays days = (yearOfEra + era * 400 + (if month ≤ 2 then 1 else 0), month,
   dayOfYear - (153 * monthIndex + 2) / 5 + 1)
  ∧ civilFromDays64 days = .ok (civilFromDays days) := by
 obtain ⟨z, hz⟩ : ∃ z, days + 719468 = z := ⟨_, rfl⟩
 obtain ⟨era, hera⟩ : ∃ era, z / 146097 = era := ⟨_, rfl⟩
 obtain ⟨dayOfEra, hdoe⟩ : ∃ dayOfEra, z - era * 146097 = dayOfEra := ⟨_, rfl⟩
 have hin : 0 ≤ dayOfEra ∧ dayOfEra ≤ 146096 := by omega
 obtain ⟨yearOfEra, hyoe⟩ : ∃ yearOfEra, (dayOfEra - dayOfEra / 1460 + dayOfEra / 36524
  - dayOfEra / 146096) / 365 = yearOfEra := ⟨_, rfl⟩
 obtain ⟨dayOfYear, hdoy⟩ : ∃ dayOfYear,
  dayOfEra - (365 * yearOfEra + yearOfEra / 4 - yearOfEra / 100) = dayOfYear := ⟨_, rfl⟩
 obtain ⟨hyear, hday⟩ := dayOfYear_bounds hin hyoe.symm hdoy.symm
 obtain ⟨monthIndex, hmi⟩ : ∃ monthIndex, (5 * dayOfYear + 2) / 153 = monthIndex := ⟨_, rfl⟩
 obtain ⟨month, hmonth⟩ : ∃ month,
  (if monthIndex < 10 then monthIndex + 3 else monthIndex - 9) = month := ⟨_, rfl⟩
 refine ⟨era, yearOfEra, dayOfYear, monthIndex, month, by omega, hyear, hday, hmi.symm,
  hmonth.symm, by omega, ?_, ?_⟩
 · simp only [civilFromDays, hz, hera, hdoe, hyoe, hdoy, hmi, hmonth]
 have hsmall : -20 ≤ month ∧ month ≤ 20 := by omega
 simp only [civilFromDays, hz, hera, hdoe, hyoe, hdoy, hmi, hmonth]
 rw [civilFromDays64, hz, i64_ok (by omega), ok_bind]
 simp only [hera]
 rw [i64_ok (by omega), ok_bind, hdoe, i64_ok (by omega), ok_bind, i64_ok (by omega), ok_bind,
  i64_ok (by omega), ok_bind, i64_ok (by omega), ok_bind]
 simp only [hyoe]
 rw [i64_ok (by omega), ok_bind, i64_ok (by omega), ok_bind, i64_ok (by omega), ok_bind,
  hdoy, i64_ok (by omega), ok_bind, i64_ok (by omega), ok_bind, i64_ok (by omega), ok_bind]
 simp only [hmi]
 rw [i64_ok (by omega), ok_bind, i64_ok (by omega), ok_bind, i64_ok (by omega), ok_bind,
  i64_ok (by omega), ok_bind, hmonth, i64_ok (by omega), ok_bind, i64_ok (by omega), ok_bind,
  i64_ok (by omega), ok_bind, i64_ok (by split <;> omega), ok_bind]
 rfl

/-- A date's days: the calendar's date of a day count leads back to it. -/
theorem civil_spec {days : Int} (h : -100000000 ≤ days ∧ days ≤ 100000000) :
 ∃ (year : Int) (month day : Nat), civilFromDays days = (year, (month : Int), (day : Int))
  ∧ civilFromDays64 days = .ok (civilFromDays days)
  ∧ (-999999 ≤ year ∧ year ≤ 999999) ∧ (1 ≤ month ∧ month ≤ 12) ∧ (1 ≤ day ∧ day ≤ 31)
  ∧ daysFromCivil year month 1 + ((day : Int) - 1) = days
  ∧ daysFromCivil64 year month 1 = .ok (daysFromCivil year month 1) := by
 obtain ⟨era, yearOfEra, dayOfYear, monthIndex, month, hera, hyear, hday, hmi, hmonth, hsum,
  hcivil, hcivil64⟩ := civil_parts h
 have hmirange : 0 ≤ monthIndex ∧ monthIndex ≤ 11 := by omega
 have hmonths : 1 ≤ month ∧ month ≤ 12 := by omega
 have hdays : 1 ≤ dayOfYear - (153 * monthIndex + 2) / 5 + 1
  ∧ dayOfYear - (153 * monthIndex + 2) / 5 + 1 ≤ 31 := by omega
 obtain ⟨m, rfl⟩ := Int.eq_ofNat_of_zero_le (show 0 ≤ month by omega)
 obtain ⟨d, hd⟩ := Int.eq_ofNat_of_zero_le
  (show 0 ≤ dayOfYear - (153 * monthIndex + 2) / 5 + 1 by omega)
 obtain ⟨year, hy⟩ : ∃ year, yearOfEra + era * 400 + (if (m : Int) ≤ 2 then 1 else 0) = year :=
  ⟨_, rfl⟩
 have hyears : -999999 ≤ year ∧ year ≤ 999999 := by
  rw [← hy]
  split <;> omega
 rw [hd, hy] at hcivil
 have hback : (if (m : Int) ≤ 2 then year - 1 else year) = yearOfEra + era * 400 := by
  rw [← hy]
  split <;> omega
 have hera' : (yearOfEra + era * 400) / 400 = era := by omega
 have hyoe : yearOfEra + era * 400 - era * 400 = yearOfEra := by omega
 have hmonth' : ((m : Int) + 9) % 12 = monthIndex := by omega
 have hvalue : daysFromCivil year m 1 = era * 146097
  + (yearOfEra * 365 + yearOfEra / 4 - yearOfEra / 100 + ((153 * monthIndex + 2) / 5 + 1 - 1))
  - 719468 := by
  simp only [daysFromCivil, hback, hera', hyoe, hmonth']
 refine ⟨year, m, d, hcivil, hcivil64, hyears, by omega, by omega, by rw [hvalue]; omega, ?_⟩
 rw [daysFromCivil64, hback, i64_ok (by omega), ok_bind]
 simp only [hera']
 rw [i64_ok (by omega), ok_bind, hyoe, i64_ok (by omega), ok_bind, i64_ok (by omega), ok_bind]
 simp only [hmonth']
 rw [i64_ok (by omega), ok_bind, i64_ok (by omega), ok_bind, i64_ok (by omega), ok_bind,
  i64_ok (by omega), ok_bind, i64_ok (by omega), ok_bind, i64_ok (by omega), ok_bind,
  i64_ok (by omega), ok_bind, i64_ok (by omega), ok_bind, i64_ok (by omega), ok_bind,
  i64_ok (by omega), ok_bind, i64_ok (by omega), hvalue]

theorem parseTime_text {hour minute second milli : Nat} (hh : hour < 24) (hm : minute < 60)
 (hs : second < 60) (hl : milli < 1000) :
 let text := 'T' :: (padded 2 hour ++ ':' :: (padded 2 minute ++ ':' :: (padded 2 second
  ++ '.' :: (padded 3 milli ++ ['Z']))))
 let ms : Nat := ((hour * 60 + minute) * 60 + second) * 1000 + milli
 parseTime text = some ((ms : Int), 0, []) ∧ parseTime64 text = .ok ((ms : Int), 0, []) := by
 intro text ms
 have hhour : hour < 10 ^ 2 := by omega
 have hminute : minute < 10 ^ 2 := by omega
 obtain ⟨hseconds, hseconds64⟩ := parseSeconds_text hs hl []
 constructor
 · rw [parseTime, if_pos (.inl head?_cons), tail_cons,
    takeDigits_padded (by decide) hhour]
   simp only [Option.bind_some, eat_cons, takeDigits_padded (by decide : 0 < 2) hminute, hseconds]
   rw [if_neg (by omega), if_neg (by omega)]
   rfl
 · rw [parseTime64, if_pos (.inl head?_cons), tail_cons,
    takeDigits64_padded (by decide) hhour (by omega), ok_bind]
   simp only [eat_cons, takeDigits64_padded (by decide : 0 < 2) hminute (by omega), hseconds64,
    ok_bind]
   rw [if_neg (by omega), if_neg (by omega), i64_ok (by omega), ok_bind, i64_ok (by omega),
    ok_bind, i64_ok (by omega), ok_bind, i64_ok (by omega), ok_bind, i64_ok (by omega), ok_bind,
    i64_ok (by omega), ok_bind]
   have hms : (ms : Int) = (((hour : Int) * 60 + minute) * 60 + second) * 1000 + milli := by
    omega
   rw [hms]
   rfl

/-- **Timestamps read back:** a formatted time inside ECMAScript's limit is parsed as itself, and
neither direction leaves 64 bits. -/
theorem parseDateMs_formatIso (ms : Int) (h : ms.natAbs ≤ 8640000000000000) :
 parseDateMs (formatIso ms) = some ms ∧ formatIso64 ms = .ok (formatIso ms)
  ∧ parseDateMs64 (formatIso ms) = .ok ms := by
 obtain ⟨year, month, day, hcivil, hcivil64, hyear, hmonth, hday, hdays, hdays64⟩ :=
  civil_spec (show -100000000 ≤ ms / 86400000 ∧ ms / 86400000 ≤ 100000000 by omega)
 obtain ⟨inDay, hin⟩ : ∃ inDay : Nat, (ms % 86400000).toNat = inDay := ⟨_, rfl⟩
 have hms : ms = ms / 86400000 * 86400000 + inDay := by omega
 have hinDay : inDay < 86400000 := by omega
 have hsum : ((inDay / 3600000 * 60 + inDay / 60000 % 60) * 60 + inDay / 1000 % 60) * 1000
  + inDay % 1000 = inDay := by omega
 obtain ⟨htime, htime64⟩ := parseTime_text (show inDay / 3600000 < 24 by omega)
  (show inDay / 60000 % 60 < 60 by omega) (show inDay / 1000 % 60 < 60 by omega)
  (show inDay % 1000 < 1000 by omega)
 rw [hsum] at htime htime64
 have htext : (formatIso ms).toList = (if 0 ≤ year ∧ year ≤ 9999 then padded 4 year.toNat
   else if year < 0 then '-' :: padded 6 year.natAbs
   else '+' :: padded 6 year.toNat) ++ '-' :: (padded 2 month ++ '-' :: (padded 2 day
   ++ 'T' :: (padded 2 (inDay / 3600000) ++ ':' :: (padded 2 (inDay / 60000 % 60)
   ++ ':' :: (padded 2 (inDay / 1000 % 60) ++ '.' :: (padded 3 (inDay % 1000)
   ++ ['Z'])))))) := by
  rw [formatIso, hcivil, hin, String.toList_ofList]
  simp only [Int.toNat_natCast, append_assoc, cons_append]
 generalize 'T' :: (padded 2 (inDay / 3600000) ++ ':' :: (padded 2 (inDay / 60000 % 60)
  ++ ':' :: (padded 2 (inDay / 1000 % 60) ++ '.' :: (padded 3 (inDay % 1000) ++ ['Z'])))) = time
  at htime htime64 htext
 obtain ⟨hmd, hmd64⟩ := parseMonthDay_text (show month < 100 by omega) (show day < 100 by omega)
  time
 obtain ⟨hy, hy64⟩ := parseYear_text hyear ('-' :: (padded 2 month ++ '-' :: (padded 2 day
  ++ time)))
 refine ⟨?_, by rw [formatIso64, hcivil64]; rfl, ?_⟩
 · rw [parseDateMs, htext, hy, Option.bind_some]
   dsimp only
   rw [hmd, Option.bind_some]
   dsimp only
   rw [if_neg (by omega), htime, Option.bind_some]
   dsimp only
   rw [if_neg (by simp), hdays, Int.sub_zero, ← hms]
   exact if_pos (show (ms.natAbs : Int) ≤ 8640000000000000 by omega)
 · rw [parseDateMs64, htext, hy64, ok_bind]
   dsimp only
   rw [hmd64, ok_bind]
   dsimp only
   rw [if_neg (by omega), htime64, ok_bind]
   dsimp only
   rw [if_neg (by simp), hdays64, ok_bind, i64_ok (by omega), ok_bind, hdays, i64_ok (by omega),
    ok_bind, show checked (ms / 86400000 * 86400000) = .ok _ from if_pos (by omega), ok_bind,
    show checked (_ + (inDay : Int)) = .ok _ from if_pos (by omega), ok_bind, Int.sub_zero,
    ← hms, show checked ms = .ok _ from if_pos (by omega), ok_bind, i64_ok (by omega), ok_bind]
   exact if_pos (show (ms.natAbs : Int) ≤ 8640000000000000 by omega)

theorem parseDateMs_formatIso_first :
 parseDateMs (formatIso (-8640000000000000)) = some (-8640000000000000)
  ∧ formatIso64 (-8640000000000000) = .ok (formatIso (-8640000000000000))
  ∧ parseDateMs64 (formatIso (-8640000000000000)) = .ok (-8640000000000000) :=
 parseDateMs_formatIso _ (by decide)

end Bake.Session
