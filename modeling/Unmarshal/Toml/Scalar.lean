import Unmarshal.Json.Basic
import Unmarshal.Toml.Scan

/-!
# Numbers, dates and truth values of a TOML document

An underscore may stand between two digits of a number. An integer has to fit in 64 bits and a
float must not round to positive infinity. A date or a time is a table with one entry, under a
reserved key, that holds its normal form.
-/
namespace Unmarshal.Toml

open Scan

/-- Digits with single underscores between them; the underscores are dropped. -/
def digits (p : Char → Bool) : Scan (List Char) := do
  let first ← satisfy p
  let others ← many ((do char '_'; satisfy p) <|> satisfy p)
  pure (first :: others)

/-- Decimal digits of which only a lone one is zero in front. -/
def wholeDigits : Scan (List Char) := (do char '0'; pure ['0']) <|> digits Char.isDigit

/-- An optional sign: whether it is a minus. -/
def sign : Scan Bool := (do char '-'; pure true) <|> (do char '+'; pure false) <|> pure false

/-- An integer in one of four bases. Only a decimal one has a sign. -/
def integer : Scan Json := do
  let n ← (do chars ['0', 'x']; return (numeral 16 (← digits isHexDigit) : Int)) <|>
    (do chars ['0', 'o']; return (numeral 8 (← digits fun c => '0' ≤ c && c ≤ '7') : Int)) <|>
    (do chars ['0', 'b']; return (numeral 2 (← digits fun c => c == '0' || c == '1') : Int)) <|>
    (do
      let negative ← sign
      let n : Int := numeral 10 (← wholeDigits)
      pure (if negative then -n else n))
  ensure (Int64.minValue.toInt ≤ n && n ≤ Int64.maxValue.toInt)
  pure (.int n)

/-- Whether `n` times ten to the power `e` rounds to infinity in double precision: the bound lies
halfway between the greatest finite value and the next power of two. -/
def overflows (n : Nat) (e : Int) : Bool :=
  let bound := Nat.pow 2 1024 - Nat.pow 2 970
  let magnitude := (Nat.toDigits 10 n).length + e
  if n = 0 || magnitude ≤ 308 then false
  else if 311 ≤ magnitude then true
  else if 0 ≤ e then bound ≤ n * Nat.pow 10 e.toNat
  else bound * Nat.pow 10 (-e).toNat ≤ n

def exponent : Scan Int := do
  let _ ← satisfy fun c => c == 'e' || c == 'E'
  let negative ← sign
  let n : Int := numeral 10 (← digits Char.isDigit)
  pure (if negative then -n else n)

/-- A float: a fraction, an exponent or both after the whole digits, or a special value. -/
def float : Scan Json := do
  let negative ← sign
  let special : Scan (List Char) :=
    (do chars ['i', 'n', 'f']; pure ['i', 'n', 'f']) <|>
    (do chars ['n', 'a', 'n']; pure ['n', 'a', 'n'])
  let numeric : Scan (List Char) := do
    let whole ← wholeDigits
    let fraction ← maybe (do char '.'; digits Char.isDigit)
    let power ← maybe exponent
    ensure (fraction.isSome || power.isSome)
    let places := fraction.getD []
    let e := power.getD 0
    ensure (negative || !overflows (numeral 10 (whole ++ places)) (e - places.length))
    pure (whole ++ '.' :: places ++ 'e' :: (toString e).toList)
  let text ← special <|> numeric
  pure (.real (String.ofList (if negative then '-' :: text else text)))

/-- A number of `width` digits between two bounds. -/
def bounded (width least most : Nat) : Scan Nat := do
  let n := numeral 10 (← count Char.isDigit width)
  ensure (least ≤ n && n ≤ most)
  pure n

/-- A number in at least `width` digits. -/
def padded (width n : Nat) : List Char :=
  let ds := Nat.toDigits 10 n
  List.replicate (width - ds.length) '0' ++ ds

def daysIn (year month : Nat) : Nat :=
  if month = 2 then
    if year % 4 = 0 && (year % 100 != 0 || year % 400 = 0) then 29 else 28
  else if month = 4 || month = 6 || month = 9 || month = 11 then 30 else 31

def date : Scan (List Char) := do
  let year ← bounded 4 0 9999
  char '-'
  let month ← bounded 2 1 12
  char '-'
  let day ← bounded 2 1 (daysIn year month)
  pure (padded 4 year ++ '-' :: padded 2 month ++ '-' :: padded 2 day)

/-- A time of day. Of a fraction of a second nine digits count, without zeros at the end. -/
def time : Scan (List Char) := do
  let hour ← bounded 2 0 23
  char ':'
  let minute ← bounded 2 0 59
  char ':'
  let second ← bounded 2 0 60
  let places ← maybe (do char '.'; run1 Char.isDigit)
  let kept := (((places.getD []).take 9).reverse.dropWhile (· == '0')).reverse
  let fraction := if kept.isEmpty then [] else '.' :: kept
  pure (padded 2 hour ++ ':' :: padded 2 minute ++ ':' :: padded 2 second ++ fraction)

/-- The distance of a time from universal time. A distance of nothing is written with a plus. -/
def offset : Scan (List Char) :=
  (do let _ ← satisfy (fun c => c == 'Z' || c == 'z'); pure ['Z']) <|> do
    let side ← satisfy fun c => c == '+' || c == '-'
    let hour ← bounded 2 0 23
    char ':'
    let minute ← bounded 2 0 59
    let shown := if hour = 0 && minute = 0 then '+' else side
    pure (shown :: padded 2 hour ++ ':' :: padded 2 minute)

/-- A date, a time, or both with a distance from universal time or without. -/
def dateTime : Scan Json := do
  let onDate : Scan (List Char) := do
    let day ← date
    let moment ← maybe do
      let _ ← satisfy fun c => c == 'T' || c == 't' || c == ' '
      let clock ← time
      let zone ← maybe offset
      pure ('T' :: clock ++ zone.getD [])
    pure (day ++ moment.getD [])
  let text ← onDate <|> time
  pure (.obj [("$__toml_private_datetime", .str (String.ofList text))])

def boolean : Scan Json :=
  (do chars ['t', 'r', 'u', 'e']; pure (.bool true)) <|>
  (do chars ['f', 'a', 'l', 's', 'e']; pure (.bool false))

end Unmarshal.Toml
