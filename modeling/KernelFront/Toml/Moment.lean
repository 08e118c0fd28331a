import KernelFront.Toml.Digits

/-! # Dates and times of TOML

A moment is a date, a time of day, or a date with a time of day, which may then say how far it is
from universal time. It is read with the fraction of its second cut to nanoseconds, and `text`
writes it in one form: a `T` between date and time, and no zeros at the end of the fraction.
-/

namespace KernelFront.Toml

/-- A day of the calendar. -/
structure Date where
  year : Nat
  month : Nat
  day : Nat
  deriving DecidableEq, Repr

/-- A time of day. -/
structure Time where
  hour : Nat
  minute : Nat
  second : Nat
  nanosecond : Nat := 0
  deriving DecidableEq, Repr

/-- The distance of a local time from universal time. -/
inductive Offset where
  | universal
  | minutes (count : Int)
  deriving DecidableEq, Repr

/-- A date, a time of day, or both. -/
structure Moment where
  date : Option Date := none
  time : Option Time := none
  offset : Option Offset := none
  deriving DecidableEq, Repr, Inhabited

/-- A number with zeros in front up to a width. -/
def padded (width n : Nat) : String :=
  let digits := Nat.toDigits 10 n
  String.ofList (List.replicate (width - digits.length) '0' ++ digits)

namespace Date

/-- A date as it is written. -/
def text (date : Date) : String :=
  padded 4 date.year ++ "-" ++ padded 2 date.month ++ "-" ++ padded 2 date.day

/-- The number of days of a month. -/
def daysOf (year month : Nat) : Nat :=
  if month = 2 then
    if (year % 4 = 0 && year % 100 ≠ 0) || year % 400 = 0 then 29 else 28
  else if month = 4 || month = 6 || month = 9 || month = 11 then 30
  else 31

/-- Whether the calendar has the date. -/
def exists? (date : Date) : Bool :=
  1 ≤ date.month && date.month ≤ 12 && 1 ≤ date.day && date.day ≤ daysOf date.year date.month

end Date

namespace Time

/-- The fraction of a second as it is written. -/
def fractionText (nanosecond : Nat) : String :=
  if nanosecond = 0 then ""
  else
    let digits := (padded 9 nanosecond).toList
    String.ofList ('.' :: (digits.reverse.dropWhile (· = '0')).reverse)

/-- A time of day as it is written. -/
def text (time : Time) : String :=
  padded 2 time.hour ++ ":" ++ padded 2 time.minute ++ ":" ++ padded 2 time.second ++
    fractionText time.nanosecond

/-- The nanoseconds that the digits of a fraction stand for; digits past the ninth are cut off. -/
def nanosecondsOf (digits : List Char) : Nat :=
  valueOfDigits 10 ((digits ++ List.replicate 9 '0').take 9)

end Time

/-- A distance as it is written. -/
def Offset.text : Offset → String
  | .universal => "Z"
  | .minutes count =>
      (if count < 0 then "-" else "+") ++ padded 2 (count.natAbs / 60) ++ ":" ++
        padded 2 (count.natAbs % 60)

/-- A moment as it is written. -/
def Moment.text (moment : Moment) : String :=
  let separator := if moment.date.isSome && moment.time.isSome then "T" else ""
  (moment.date.map Date.text).getD "" ++ separator ++ (moment.time.map Time.text).getD "" ++
    (moment.offset.map Offset.text).getD ""

/-- Read a number of exactly `count` digits. -/
def fixedDigits? (count : Nat) (cs : List Char) : Option (Nat × List Char) :=
  let digits := cs.take count
  if digits.length = count && digits.all Char.isDigit then
    some (valueOfDigits 10 digits, cs.drop count)
  else none

/-- Read a date. -/
def dateTail? (cs : List Char) : Option (Date × List Char) := do
  let (year, '-' :: cs) ← fixedDigits? 4 cs | none
  let (month, '-' :: cs) ← fixedDigits? 2 cs | none
  let (day, cs) ← fixedDigits? 2 cs
  let date : Date := ⟨year, month, day⟩
  if date.exists? then some (date, cs) else none

/-- Read a time of day. A minute may have a leap second. -/
def timeTail? (cs : List Char) : Option (Time × List Char) := do
  let (hour, ':' :: cs) ← fixedDigits? 2 cs | none
  let (minute, ':' :: cs) ← fixedDigits? 2 cs | none
  let (second, cs) ← fixedDigits? 2 cs
  if 24 ≤ hour ∨ 60 ≤ minute ∨ 61 ≤ second then none
  match cs with
  | '.' :: rest =>
      let digits := rest.takeWhile Char.isDigit
      if digits.isEmpty then none
      else
        some (⟨hour, minute, second, Time.nanosecondsOf digits⟩, rest.dropWhile Char.isDigit)
  | cs => some (⟨hour, minute, second, 0⟩, cs)

/-- Read the distance of a local time from universal time, if there is one. -/
def offsetTail? (cs : List Char) : Option (Option Offset × List Char) :=
  let signed (negative : Bool) (cs : List Char) : Option (Option Offset × List Char) := do
    let (hour, ':' :: cs) ← fixedDigits? 2 cs | none
    let (minute, cs) ← fixedDigits? 2 cs
    let count : Int := hour * 60 + minute
    if hour < 24 ∧ minute < 60 then
      some (some (.minutes (if negative then -count else count)), cs)
    else none
  match cs with
  | 'Z' :: rest | 'z' :: rest => some (some .universal, rest)
  | '+' :: rest => signed false rest
  | '-' :: rest => signed true rest
  | cs => some (none, cs)

/-- Read a moment. -/
def momentTail? (cs : List Char) : Option (Moment × List Char) :=
  match dateTail? cs with
  | none => (timeTail? cs).map fun (time, rest) => (⟨none, some time, none⟩, rest)
  | some (date, rest) =>
      let time := match rest with
        | 'T' :: rest | 't' :: rest | ' ' :: rest => timeTail? rest
        | _ => none
      match time with
      | some (time, rest) =>
          (offsetTail? rest).map fun (offset, rest) => (⟨some date, some time, offset⟩, rest)
      | none => some (⟨some date, none, none⟩, rest)

end KernelFront.Toml
