/-
  PLAIN SCALARS — what an unquoted word means.

  Problem: `5`, `0x1F`, `true`, `~` and `1e3` are no strings when they stand without quotes, but `007`,
  `1_000`, `0X10` and `yes` are.

  1. **Program** — `Plain.value` tries, in this order: null, a truth value, an integer, a
     floating-point number; whatever is none of these is the string itself.

  2. **Integers** — decimal digits, or `0x`, `0o`, `0b` in lower case with digits of that radix, with
     one optional sign.  Several decimal digits that start with a zero are a STRING.  An integer of 64
     bits is a value; one that needs up to 128 bits makes the document unreadable (`none`), because no
     field of a tree can hold it; a larger one is no integer any more.

  3. **Floating-point numbers** — digits with a point or an exponent, and the names of infinity and
     not-a-number.  A numeral beyond the range of double precision is a string.
-/
import Minicore.Text.Numeral
import Minicore.Yaml.Value

namespace Minicore

namespace Plain

/-! ## Words with a meaning -/

/-- Nothing at all, and the spellings of null. -/
def isNull (t : Text) : Bool :=
  t.isEmpty || ["~", "null", "Null", "NULL"].any fun s => s.toList == t

/-- The spellings of the truth values. -/
def truth? (t : Text) : Option Bool :=
  if ["true", "True", "TRUE"].any fun s => s.toList == t then some true
  else if ["false", "False", "FALSE"].any fun s => s.toList == t then some false
  else none

/-! ## Integers -/

/-- The text without one leading sign. -/
def dropSign : Text → Text
  | '+' :: rest => rest
  | '-' :: rest => rest
  | t => t

/-- Several decimal digits of which the first is a zero. -/
def hasLeadingZero (t : Text) : Bool :=
  match dropSign t with
  | '0' :: c :: rest => (c :: rest).all Char.isDigit
  | _ => false

/-- The value of one or more digits of that radix. -/
def digitsValue? (radix : Nat) (t : Text) : Option Nat :=
  if t.isEmpty then none
  else t.foldlM (fun n c => (Numeral.digit? radix c).map fun d => n * radix + d) 0

/-- The value of an unsigned integer: a radix mark and digits, or decimal digits. -/
def magnitude? : Text → Option Nat
  | '0' :: 'x' :: rest => digitsValue? 16 rest
  | '0' :: 'o' :: rest => digitsValue? 8 rest
  | '0' :: 'b' :: rest => digitsValue? 2 rest
  | t => if hasLeadingZero t then none else digitsValue? 10 t

/-- What an integer numeral comes to. -/
inductive Reading where
  /-- The text is no integer. -/
  | other
  /-- The integer has a value. -/
  | is (v : Value)
  /-- The integer is wider than any field. -/
  | tooWide

/-- An integer without a minus sign. -/
def unsignedReading (n : Nat) : Reading :=
  if n < Nat.pow 2 64 then .is (.unsigned n) else if n < Nat.pow 2 128 then .tooWide else .other

/-- The integer below zero by `n`. -/
def signedReading (n : Nat) : Reading :=
  if n ≤ Nat.pow 2 63 then .is (.signed (-n)) else if n ≤ Nat.pow 2 127 then .tooWide else .other

/-- The text as an integer. -/
def integer (t : Text) : Reading :=
  match t with
  | '-' :: rest => (magnitude? rest).elim .other signedReading
  | '+' :: rest => (magnitude? rest).elim .other unsignedReading
  | _ => (magnitude? t).elim .other unsignedReading

/-! ## Floating-point numbers -/

/-- The names of infinity and of not-a-number. -/
def isSpecialFloat (t : Text) : Bool :=
  [".inf", ".Inf", ".INF", "+.inf", "+.Inf", "+.INF", "-.inf", "-.Inf", "-.INF",
   ".nan", ".NaN", ".NAN"].any fun s => s.toList == t

/-- The exponent behind the mark `e` or `E`: a sign and at least one digit. -/
def exponent? : Text → Option Int
  | '-' :: rest => (digitsValue? 10 rest).map fun n => -(n : Int)
  | '+' :: rest => (digitsValue? 10 rest).map Int.ofNat
  | t => (digitsValue? 10 t).map Int.ofNat

/-- The number `mantissa * 10 ^ exponent` lies in the range of double precision: it is below the
    midpoint between the greatest finite number and the next power of two. -/
def inRange (mantissa : Nat) (exponent : Int) : Bool :=
  let bound := Nat.pow 2 1024 - Nat.pow 2 970
  if mantissa == 0 then true
  else if exponent > 400 then false
  else if exponent ≥ 0 then mantissa * Nat.pow 10 exponent.toNat < bound
  else if (-exponent).toNat > (Nat.toDigits 10 mantissa).length then true
  else mantissa < bound * Nat.pow 10 (-exponent).toNat

/-- A decimal numeral, perhaps with a point and an exponent, within the range of double precision. -/
def isDecimalFloat (t : Text) : Bool :=
  let t := dropSign t
  let whole := t.takeWhile Char.isDigit
  let afterWhole := t.dropWhile Char.isDigit
  let afterPoint := match afterWhole with
    | '.' :: rest => rest
    | rest => rest
  let hasPoint := afterWhole.head? == some '.'
  let fraction := if hasPoint then afterPoint.takeWhile Char.isDigit else []
  let tail := if hasPoint then afterPoint.dropWhile Char.isDigit else afterWhole
  let exponent := match tail with
    | [] => some 0
    | c :: rest => if c == 'e' || c == 'E' then exponent? rest else none
  match digitsValue? 10 (whole ++ fraction), exponent with
  | some mantissa, some e => inRange mantissa (e - fraction.length)
  | _, _ => false

/-- A floating-point number. -/
def isFloat (t : Text) : Bool :=
  isSpecialFloat t || (!hasLeadingZero t && isDecimalFloat t)

/-! ## The value of a plain scalar -/

/-- What an unquoted word denotes; `none` for an integer that no field can hold. -/
def value (t : Text) : Option Value :=
  if isNull t then some .null
  else match truth? t with
    | some b => some (.bool b)
    | none =>
      match integer t with
      | .is v => some v
      | .tooWide => none
      | .other => some (if isFloat t then .float else .string t)

end Plain

/-! ## Running the program -/

example : Plain.value "0x1F".toList = some (.unsigned 31) := rfl
example : Plain.value "-0".toList = some (.signed 0) := rfl
example : Plain.value "007".toList = some (.string "007".toList) := rfl
example : Plain.value "++5".toList = some (.string "++5".toList) := rfl
example : Plain.value "yes".toList = some (.string "yes".toList) := rfl
example : Plain.value "18446744073709551616".toList = none := rfl

end Minicore
