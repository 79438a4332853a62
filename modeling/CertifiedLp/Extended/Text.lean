import CertifiedLp.Extended.Basic
import CertifiedLp.Text.Blank

/-!
# Reading and printing values

A value is written as an infinity (`inf`, `-inf`), an integer, or a fraction in lowest terms. More
can be read than is written: the infinities also in full and in any case, fractions that are not
reduced, and decimals such as `1.25e-3`. Digits may be grouped by underscores, as in `1_000`.

Reading works on the characters of the text, in three layers: integers, decimals and fractions, and
the whole value with the blanks around it.
-/

namespace CertifiedLp

namespace Extended

/-! ## Integers -/

/-- The number that a digit stands for. -/
def digitValue (c : Char) : Nat := c.toNat - '0'.toNat

/-- Continue a number by digits and underscores. An underscore separates digits and has no value. -/
def readGroupedDigits? (value : Nat) : List Char → Option Nat
  | [] => some value
  | c :: rest =>
    if c = '_' then readGroupedDigits? value rest
    else if c.isDigit then readGroupedDigits? (10 * value + digitValue c) rest
    else none

/-- A natural number: at least one character, the first of them no underscore. -/
def readNat? : List Char → Option Nat
  | [] => none
  | '_' :: _ => none
  | cs => readGroupedDigits? 0 cs

/-- An integer: a natural number with at most one sign in front. -/
def readInt? : List Char → Option Int
  | '-' :: rest => (readNat? rest).map fun n => -(n : Int)
  | '+' :: rest => (readNat? rest).map Int.ofNat
  | cs => (readNat? cs).map Int.ofNat

/-! ## Fractions and decimals -/

/-- Cut a list at the first element that satisfies a test: what comes before it, and what comes
after it if there is one. -/
def cutAt (test : Char → Bool) : List Char → List Char × Option (List Char)
  | [] => ([], none)
  | c :: rest =>
    if test c then ([], some rest)
    else
      let (before, after) := cutAt test rest
      (c :: before, after)

/-- A fraction of two integers, the second of which is not zero. -/
def readFraction? (numerator denominator : List Char) : Option Rat := do
  let n ← readInt? numerator
  let d ← readInt? denominator
  if d = 0 then none else some (Rat.divInt n d)

/-- Plain decimal digits, without separators. -/
def readDigits? (cs : List Char) : Option Nat :=
  if cs ≠ [] ∧ cs.all Char.isDigit then readGroupedDigits? 0 cs else none

/-- An integer without separators: an optional sign and digits. -/
def readPlainInt? : List Char → Option Int
  | '-' :: rest => (readDigits? rest).map fun n => -(n : Int)
  | '+' :: rest => (readDigits? rest).map Int.ofNat
  | cs => (readDigits? cs).map Int.ofNat

/-- Whether an integer is a signed 32-bit word, the range of an exponent. -/
def isWord (n : Int) : Bool := -2147483648 ≤ n && n < 2147483648

/-- The exponent of a decimal: an integer within the range of a 32-bit word. -/
def readExponent? (cs : List Char) : Option Int := do
  let exponent ← readPlainInt? cs
  if isWord exponent then some exponent else none

/-- An integer times a power of ten. -/
def scaleByTen (n : Int) (scale : Int) : Rat :=
  if 0 ≤ scale then ((n * Nat.pow 10 scale.toNat : Int) : Rat)
  else mkRat n (Nat.pow 10 (-scale).toNat)

/-- A mantissa with an exponent. The digits after the point continue those before it, and each of
them lowers the power of ten by one; the power is computed in 32-bit words. -/
def readDecimal? (mantissa : List Char) (exponent : Int) : Option Rat := do
  let (integral, after) := cutAt (· = '.') mantissa
  let fraction := after.getD []
  if !fraction.all Char.isDigit then none
  else
    let n ← readInt? (integral ++ fraction)
    if isWord fraction.length then
      some (scaleByTen n (Int.bmod (exponent - fraction.length) 4294967296))
    else none

/-! ## Values -/

/-- The names of the infinities, in lower case. -/
def readInfinity? (cs : List Char) : Option Extended :=
  let name := String.ofList (cs.map Char.toLower)
  if name ∈ ["inf", "+inf", "infinity", "+infinity"] then some posInf
  else if name ∈ ["-inf", "-infinity"] then some negInf
  else none

/-- A rational number: a fraction if there is a slash, a decimal otherwise. -/
def readRat? (cs : List Char) : Option Rat :=
  match cutAt (· = '/') cs with
  | (numerator, some denominator) => readFraction? numerator denominator
  | (_, none) =>
    match cutAt (fun c => c = 'e' || c = 'E') cs with
    | (mantissa, some exponent) => do readDecimal? mantissa (← readExponent? exponent)
    | (mantissa, none) => readDecimal? mantissa 0

/-- A value, without blanks around it. -/
def readTrimmed? (cs : List Char) : Option Extended :=
  match readInfinity? cs with
  | some x => some x
  | none => (readRat? cs).map finite

/-- A text is no value. -/
structure ReadError where
  /-- The text, without the blanks around it. -/
  text : String
  deriving DecidableEq

/-- The wording of the error. -/
def ReadError.message (e : ReadError) : String :=
  "can't read \"" ++ e.text ++ "\" as an exact value"

/-- Read a value. -/
def read (text : String) : Except ReadError Extended :=
  let cs := Text.trim text.toList
  match readTrimmed? cs with
  | some x => .ok x
  | none => .error ⟨String.ofList cs⟩

/-- A rational number in lowest terms, without the denominator if that is one. -/
def renderRat (q : Rat) : String :=
  if q.den = 1 then toString q.num else toString q.num ++ "/" ++ toString q.den

/-- The text of a value. -/
def render : Extended → String
  | negInf => "-inf"
  | finite q => renderRat q
  | posInf => "inf"

instance : ToString Extended := ⟨render⟩

end Extended

end CertifiedLp
