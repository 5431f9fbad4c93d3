import MacroAsm.Toml.Lexeme

/-!
# Dates and times of a document

Dates and times are read to be checked, and to be written in a uniform way.
-/

namespace MacroAsm

namespace Toml

/-- A date. -/
structure Date where
  /-- The year. -/
  year : Nat
  /-- The month, counted from one. -/
  month : Nat
  /-- The day of the month, counted from one. -/
  day : Nat
deriving DecidableEq, Inhabited, Repr

/-- A time of day. -/
structure Clock where
  /-- The hour. -/
  hour : Nat
  /-- The minute. -/
  minute : Nat
  /-- The second, which may be a leap second. -/
  second : Nat
  /-- The digits of the fraction of a second. -/
  fraction : List UInt8
deriving DecidableEq, Inhabited, Repr

namespace Date

/-- Whether a year has a leap day. -/
def isLeap (year : Nat) : Bool := year % 4 == 0 && (year % 100 != 0 || year % 400 == 0)

/-- The number of days of a month. -/
def monthLength (year month : Nat) : Nat :=
  if month == 2 then if isLeap year then 29 else 28
  else if month == 4 || month == 6 || month == 9 || month == 11 then 30 else 31

/-- Whether there is such a date. -/
def isValid (d : Date) : Bool :=
  1 ≤ d.month && d.month ≤ 12 && 1 ≤ d.day && d.day ≤ monthLength d.year d.month

/-- Reads a date, `YYYY-MM-DD`. -/
def parse? (bs : List UInt8) : Option Date := do
  if bs.length == 10 && (bs.drop 4).head? == some 45 && (bs.drop 7).head? == some 45 then
    let year ← Numeral.readDigits 10 (bs.take 4) 0
    let month ← Numeral.readDigits 10 ((bs.drop 5).take 2) 0
    let day ← Numeral.readDigits 10 (bs.drop 8) 0
    let date : Date := ⟨year, month, day⟩
    if date.isValid then some date else none
  else none

/-- The text of a date. -/
def render (d : Date) : Text :=
  Text.ofNatPadded 10 4 d.year ++ "-" ++ Text.ofNatPadded 10 2 d.month ++ "-" ++
    Text.ofNatPadded 10 2 d.day

/-- The day after a date. -/
def next (d : Date) : Date :=
  if d.day < monthLength d.year d.month then { d with day := d.day + 1 }
  else if d.month < 12 then ⟨d.year, d.month + 1, 1⟩
  else ⟨d.year + 1, 1, 1⟩

end Date

namespace Clock

/-- The number of digits of a fraction that count. -/
def fractionDigits : Nat := 9

/-- Reads a time, `HH:MM:SS` with or without a fraction, and gives the input after it. -/
def parse? (bs : List UInt8) : Option (Clock × List UInt8) := do
  if bs.length < 8 || (bs.drop 2).head? != some 58 || (bs.drop 5).head? != some 58 then none
  else
    let hour ← Numeral.readDigits 10 (bs.take 2) 0
    let minute ← Numeral.readDigits 10 ((bs.drop 3).take 2) 0
    let second ← Numeral.readDigits 10 ((bs.drop 6).take 2) 0
    if 23 < hour || 59 < minute || 60 < second then none
    else
      match bs.drop 8 with
      | 46 :: rest =>
        let fraction := rest.takeWhile isDigit
        if fraction.isEmpty then none
        else return (⟨hour, minute, second, fraction.take fractionDigits⟩, rest.drop fraction.length)
      | rest => return (⟨hour, minute, second, []⟩, rest)

/-- The text of a time, given how its fraction is written. -/
def renderWith (c : Clock) (fraction : List UInt8) : Text :=
  Text.ofNatPadded 10 2 c.hour ++ ":" ++ Text.ofNatPadded 10 2 c.minute ++ ":" ++
    Text.ofNatPadded 10 2 c.second ++
    if fraction.isEmpty then Text.empty else "." ++ ⟨fraction⟩

/-- The text of a time. -/
def render (c : Clock) : Text := c.renderWith c.fraction

/-- A time in which a leap second belongs to the next minute, and whether it is on the next day. -/
def carry (c : Clock) : Clock × Bool :=
  if c.second < 60 then (c, false)
  else if c.minute < 59 then ({ c with second := 0, minute := c.minute + 1 }, false)
  else if c.hour < 23 then ({ c with second := 0, minute := 0, hour := c.hour + 1 }, false)
  else ({ c with second := 0, minute := 0, hour := 0 }, true)

end Clock

/-- The text of an offset in front of which the date and time stand, and the name of the zone. -/
def offset? (bs : List UInt8) : Option Text :=
  match bs with
  | [90] | [122] => some " +0000 UTC"
  | [sign, h1, h2, 58, m1, m2] => do
    let hours ← Numeral.readDigits 10 [h1, h2] 0
    let minutes ← Numeral.readDigits 10 [m1, m2] 0
    if 23 < hours || 59 < minutes || (sign != 43 && sign != 45) then none
    else if hours == 0 && minutes == 0 then some " +0000 UTC"
    else
      let zone : Text := ⟨[sign, h1, h2, m1, m2]⟩
      return " " ++ zone ++ " " ++ zone
  | _ => none

/-- Reads a date and a time, and gives the input after them. -/
def dateTime? (bs : List UInt8) : Option (Date × Clock × List UInt8) := do
  let date ← Date.parse? (bs.take 10)
  match bs.drop 10 with
  | [] => none
  | sep :: rest =>
    if sep == 84 || sep == 116 || sep == 32 then
      let (clock, rest) ← Clock.parse? rest
      return (date, clock, rest)
    else none

/-- The uniform text of a date or a time as it is written. -/
def momentText? (kind : MomentKind) (t : Text) : Option Text :=
  match kind with
  | .date => (Date.parse? t.bytes).map Date.render
  | .time => do
    let (clock, rest) ← Clock.parse? t.bytes
    if rest.isEmpty then some clock.render else none
  | .dateTime => do
    let (date, clock, rest) ← dateTime? t.bytes
    if rest.isEmpty then some (date.render ++ "T" ++ clock.render) else none
  | .offsetDateTime => do
    let (date, clock, rest) ← dateTime? t.bytes
    let zone ← offset? rest
    let (clock, late) := clock.carry
    let fraction := (clock.fraction.reverse.dropWhile (· == 48)).reverse
    return (if late then date.next else date).render ++ " " ++ clock.renderWith fraction ++ zone

end Toml

end MacroAsm
