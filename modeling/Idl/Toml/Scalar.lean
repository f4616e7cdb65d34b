import Idl.Text.Numeral
import Idl.Toml

/-!
# Plain scalars

The texts that are numbers, dates and times in a configuration document.
-/

namespace Idl.Toml

def isDigitRun (digit : Char → Bool) (cs : List Char) : Bool :=
  (cs.splitOnP (· == '_')).all fun part => !part.isEmpty && part.all digit

def unsigned : List Char → List Char
  | '+' :: cs => cs
  | '-' :: cs => cs
  | cs => cs

def isDecimal (cs : List Char) : Bool :=
  let cs := unsigned cs
  isDigitRun Text.isDigit cs && (cs.length == 1 || cs.head? != some '0')

def digitsValue (radix : Nat) (cs : List Char) : Nat :=
  Text.ofDigits radix (cs.filter (· != '_'))

def integer? : List Char → Option Int
  | '0' :: 'x' :: cs => radixed 16 Text.isHexDigit cs
  | '0' :: 'o' :: cs => radixed 8 (fun c => '0' ≤ c && c ≤ '7') cs
  | '0' :: 'b' :: cs => radixed 2 (fun c => c == '0' || c == '1') cs
  | cs =>
    if isDecimal cs then some (Text.signed (cs.head? == some '-') (digitsValue 10 (unsigned cs)))
    else none
where
  radixed (radix : Nat) (digit : Char → Bool) (cs : List Char) : Option Int :=
    if isDigitRun digit cs then some (digitsValue radix cs) else none

def cutAt (p : Char → Bool) (cs : List Char) : List Char × Option (List Char) :=
  match cs.dropWhile (!p ·) with
  | [] => (cs, none)
  | _ :: rest => (cs.takeWhile (!p ·), some rest)

/-- The least number that is nearer to the first power of two beyond all doubles than to the
largest double, or as near. -/
def doubleBound : Nat := Nat.pow 2 1024 - Nat.pow 2 970

/-- Whether the number with the given digits and power of ten is too large for a double.  A number
with 309 digits before the point is compared; fewer are never too many, and more always are. -/
def exceedsDouble (digits : List Char) (scale : Int) : Bool :=
  let digits := digits.dropWhile (· == '0')
  let n := Text.ofDigits 10 digits
  let size : Int := digits.length + scale
  if digits.isEmpty || size < 309 then false
  else if size > 309 then true
  else if scale ≥ 0 then doubleBound ≤ n * Nat.pow 10 scale.toNat
  else doubleBound * Nat.pow 10 (-scale).toNat ≤ n

/-- A decimal number with a fraction, an exponent or both, or one of the words for numbers that
are not finite. -/
def float? (cs : List Char) : Option Toml :=
  let word := String.ofList (unsigned cs)
  let (mantissa, exponent) := cutAt (fun c => c == 'e' || c == 'E') cs
  let (whole, fraction) := cutAt (· == '.') mantissa
  if word == "inf" || word == "nan" then some (.float false)
  else if isDecimal whole && (fraction.isSome || exponent.isSome) &&
      fraction.all (isDigitRun Text.isDigit) &&
      exponent.all (fun cs => isDigitRun Text.isDigit (unsigned cs)) then
    let decimals := (fraction.getD []).filter (· != '_')
    let power := match exponent with
      | some cs => Text.signed (cs.head? == some '-') (digitsValue 10 (unsigned cs))
      | none => 0
    some (.float (exceedsDouble ((unsigned whole).filter (· != '_') ++ decimals)
      (power - decimals.length)))
  else none

def inRange (width low high : Nat) (cs : List Char) : Bool :=
  let n := Text.ofDigits 10 cs
  cs.length == width && cs.all Text.isDigit && low ≤ n && n ≤ high

def isLeapYear (year : Nat) : Bool := year % 4 == 0 && (year % 100 != 0 || year % 400 == 0)

def daysInMonth (year month : Nat) : Nat :=
  if month = 2 then (if isLeapYear year then 29 else 28)
  else if month = 4 || month = 6 || month = 9 || month = 11 then 30
  else 31

def isDate (cs : List Char) : Bool :=
  match cs.splitOnP (· == '-') with
  | [year, month, day] =>
    inRange 4 0 9999 year && inRange 2 1 12 month &&
      inRange 2 1 (daysInMonth (Text.ofDigits 10 year) (Text.ofDigits 10 month)) day
  | _ => false

def isTime (cs : List Char) : Bool :=
  match cs.splitOnP (· == ':') with
  | [hour, minute] => inRange 2 0 23 hour && inRange 2 0 59 minute
  | [hour, minute, second] =>
    let (second, fraction) := cutAt (· == '.') second
    inRange 2 0 23 hour && inRange 2 0 59 minute && inRange 2 0 60 second &&
      fraction.all fun cs => !cs.isEmpty && cs.all Text.isDigit
  | _ => false

def isZonedTime (cs : List Char) : Bool :=
  match cs.reverse with
  | c :: rest =>
    if c == 'Z' || c == 'z' then isTime rest.reverse
    else
      match cutAt (fun c => c == '+' || c == '-') cs with
      | (_, none) => isTime cs
      | (time, some zone) =>
        isTime time &&
          match zone.splitOnP (· == ':') with
          | [hour, minute] => inRange 2 0 23 hour && inRange 2 0 59 minute
          | _ => false
  | [] => false

def isDateTime (cs : List Char) : Bool :=
  isDate cs || isTime cs ||
    match cutAt (fun c => c == 'T' || c == 't' || c == ' ') cs with
    | (date, some time) => isDate date && isZonedTime time
    | (_, none) => false

def scalar? (cs : List Char) : Option Toml :=
  if isDateTime cs then some .moment
  else match integer? cs with
    | some value => some (.integer value)
    | none => float? cs

end Idl.Toml
