import Bake.Lib.Double
import Bake.Lib.OrdMap

/-!
# JSON values as a session line holds them

The value a line is read as, and the JavaScript conversions the session code
applies to members it does not validate. An object keeps its members in input
order, so it is an insertion-ordered map.

A number is what `serde_json` holds: an unsigned or a signed 64-bit integer, or a
finite double. There is no NaN and no infinity; a token out of the double range
has no number.
-/

namespace Bake.Json

inductive Number where
 /-- A non-negative integer. -/
 | posInt (n : UInt64)
 /-- A negative integer. -/
 | negInt (n : Int64)
 /-- Any other number. -/
 | float (v : F64)
deriving DecidableEq

inductive Value where
 | null
 | bool (flag : Bool)
 | number (number : Number)
 | string (text : String)
 | array (items : List Value)
 | object (members : List (String × Value))

/-- A JSON object; members keep their input order. -/
abbrev JsonObject := List (String × Value)

namespace Number

def asF64 : Number → Option F64
 | .posInt n => F64.ofRatio false n.toNat 1
 | .negInt n => F64.ofRatio true n.toInt.natAbs 1
 | .float v => some v

def asU64 : Number → Option UInt64
 | .posInt n => some n
 | _ => none

/-- Number equality; the two float zeros are equal. -/
def beq : Number → Number → Bool
 | .posInt a, .posInt b => a = b
 | .negInt a, .negInt b => a = b
 | .float a, .float b => a.beq b
 | _, _ => false

/-- `n` as a number. -/
def ofNat (n : Nat) : Number := .posInt (UInt64.ofNat n)

/-- `serde_json` reading a number token: an integer when it fits 64 bits, else the
nearest double, which is missing past the double range. -/
def ofToken (token : List Char) : Option Number :=
 let neg := token.head? = some '-'
 let body := if neg then token.tail else token
 let whole := body.takeWhile Char.isDigit
 let rest := body.dropWhile Char.isDigit
 if rest = [] then
  let n := Nat.ofDigitChars 10 whole 0
  if neg = false ∧ n < 2 ^ 64 then some (.posInt (UInt64.ofNat n))
  else if neg = true ∧ 0 < n ∧ n ≤ 2 ^ 63 then some (.negInt (Int64.ofInt (-n)))
  else (F64.ofDecimal neg n 0).map .float
 else
  let frac := if rest.head? = some '.' then rest.tail.takeWhile Char.isDigit else []
  let tail := if rest.head? = some '.' then rest.tail.dropWhile Char.isDigit else rest
  let sign := tail.drop 1
  let exp : Int :=
   if sign.head? = some '-' then -(Nat.ofDigitChars 10 sign.tail 0 : Int)
   else if sign.head? = some '+' then Nat.ofDigitChars 10 sign.tail 0
   else Nat.ofDigitChars 10 sign 0
  (F64.ofDecimal neg (Nat.ofDigitChars 10 (whole ++ frac) 0) (exp - frac.length)).map .float

end Number

/-! ## Members -/

def strMember (object : JsonObject) (key : String) : Option String :=
 match OrdMap.get? object key with
 | some (.string text) => some text
 | _ => none

namespace Value

def asStr : Value → Option String
 | .string text => some text
 | _ => none

def asObject : Value → Option JsonObject
 | .object members => some members
 | _ => none

def isNull : Value → Bool
 | .null => true
 | _ => false

mutual
/-- Value equality; the order of members does not matter. -/
def beq : Value → Value → Bool
 | .null, .null => true
 | .bool a, .bool b => a = b
 | .number a, .number b => a.beq b
 | .string a, .string b => a = b
 | .array a, .array b => beqItems a b
 | .object a, .object b => a.length = b.length && beqMembers a b
 | _, _ => false

def beqItems : List Value → List Value → Bool
 | [], [] => true
 | a :: as, b :: bs => beq a b && beqItems as bs
 | _, _ => false

/-- Every member of the first object is bound to an equal value in the second. -/
def beqMembers : List (String × Value) → JsonObject → Bool
 | [], _ => true
 | (k, v) :: m, b => (match OrdMap.get? b k with
  | some w => beq v w
  | none => false) && beqMembers m b
end

end Value

/-! ## JavaScript conversions -/

/-- JavaScript truthiness of a member; a missing member is `undefined`. -/
def jsTruthy : Option Value → Bool
 | none | some .null => false
 | some (.bool flag) => flag
 | some (.number n) => match n.asF64 with
  | some v => !v.isZero
  | none => false
 | some (.string text) => text ≠ ""
 | some (.array _) | some (.object _) => true

/-- JavaScript whitespace for `String.prototype.trim`: Unicode `White_Space`
without U+0085, plus U+FEFF. -/
def isJsWhitespace (c : Char) : Bool :=
 let n := c.val.toNat
 (9 ≤ n && n ≤ 13) || n = 0x20 || n = 0xA0 || n = 0x1680 || (0x2000 ≤ n && n ≤ 0x200A)
  || n = 0x2028 || n = 0x2029 || n = 0x202F || n = 0x205F || n = 0x3000 || n = 0xFEFF

/-- `String.prototype.trim`. -/
def jsTrim (text : List Char) : List Char :=
 ((text.dropWhile isJsWhitespace).reverse.dropWhile isJsWhitespace).reverse

/-- 2^53. -/
def maxSafeInteger : Nat := 2 ^ 53

/-- The digits a shortest decimal prints, without trailing zeros, and the power of
ten of the first one. -/
def sciDigits (v : F64) : List Char × Int :=
 let digits := Nat.toDigits 10 v.shortest.1
 let kept := (digits.reverse.dropWhile (· = '0')).reverse
 (kept, v.shortest.2 + (digits.length - 1 : Nat))

/-- `Number.prototype.toString`: the shortest digits, laid out as ECMAScript lays
them out. -/
def jsNumberToString (v : F64) : List Char :=
 if v.isZero then ['0']
 else
  let (digits, exponent) := sciDigits v
  let k : Int := digits.length
  let n := exponent + 1
  let sign := if v.neg then ['-'] else []
  if k ≤ n ∧ n ≤ 21 then
   sign ++ digits ++ List.replicate (n - k).toNat '0'
  else if 0 < n ∧ n ≤ 21 then
   sign ++ digits.take n.toNat ++ '.' :: digits.drop n.toNat
  else if -6 < n ∧ n ≤ 0 then
   sign ++ '0' :: '.' :: List.replicate (-n).toNat '0' ++ digits
  else
   sign ++ digits.take 1 ++ (if 1 < k then '.' :: digits.drop 1 else [])
    ++ 'e' :: (if n - 1 < 0 then '-' else '+') :: Nat.toDigits 10 (n - 1).natAbs

/-- `JSON.stringify` of a number: small integers as they are, everything else as
the double it is in JavaScript. -/
def jsNumberValue : Number → List Char
 | .posInt n =>
  if n.toNat ≤ maxSafeInteger then Nat.toDigits 10 n.toNat else double (.posInt n)
 | .negInt n =>
  if n.toInt.natAbs ≤ maxSafeInteger then
   (if n.toInt < 0 then ['-'] else []) ++ Nat.toDigits 10 n.toInt.natAbs
  else double (.negInt n)
 | .float v => double (.float v)
where
 /-- A number as a double; NaN prints `null`. -/
 double (number : Number) : List Char :=
  match number.asF64 with
  | some v => jsNumberToString v
  | none => "null".toList

mutual
/-- JavaScript `String(value)` as `Array.prototype.join` applies it to a member. -/
def jsToString : Value → String
 | .null => ""
 | .bool flag => if flag then "true" else "false"
 | .number n => String.ofList (jsNumberValue n)
 | .string text => text
 | .array items => String.intercalate "," (jsToStrings items)
 | .object _ => "[object Object]"

def jsToStrings : List Value → List String
 | [] => []
 | v :: vs => jsToString v :: jsToStrings vs
end

/-- `jsToString` of a member; a missing one is `undefined`. -/
def jsToStringMember : Option Value → String
 | none => ""
 | some v => jsToString v

end Bake.Json
