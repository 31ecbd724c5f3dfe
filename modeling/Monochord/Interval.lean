import Monochord.Text.Blank
import Monochord.Text.Digit
import Monochord.Quantity

/-! # Intervals

An interval symbol is a degree of the scale with an optional accidental, as `b3`, `5` or `#11`. The
degrees from one to eight name the simple intervals. A greater degree is a simple interval and whole
octaves: seven degrees make an octave, so the ninth is a second above the octave.

- **`Symbol`**: an accidental and a degree, with **`Symbol.text`** and **`Symbol.read?`**.
- **`SimpleInterval`**: the thirteen intervals from the unison to the octave, with their exact
  Pythagorean **`SimpleInterval.ratio`** and their **`SimpleInterval.semitones`**.
- **`Interval`**: a simple interval and a number of octaves.
- **`Interval.ofSymbol`**: the interval that a symbol names, or a complaint; **`Interval.read`**
  refuses a symbol with too many digits.
- **`Interval.frequencyRatio`** and **`Interval.temperedRatio`**: its two ratios as doubles.
- **`spelling`** and **`spell`**: the symbol of a distance in semitones, and its text. -/

namespace Monochord

open Text

/-! ## Symbols -/

/-- A sign before a degree or after a letter. -/
inductive Accidental
  | none
  | sharp
  | flat
deriving Repr, DecidableEq

/-- The character of an accidental. -/
def Accidental.chars : Accidental → List Char
  | none => []
  | sharp => ['#']
  | flat => ['b']

/-- An optional accidental at the start of a text, and what follows it. -/
def Accidental.read : List Char → Accidental × List Char
  | '#' :: cs => (sharp, cs)
  | 'b' :: cs => (flat, cs)
  | cs => (none, cs)

/-- An accidental and a degree of the scale, counted from one. -/
structure Symbol where
  /-- The sign before the degree. -/
  accidental : Accidental
  /-- The degree. -/
  degree : Nat
deriving Repr, DecidableEq

namespace Symbol

/-- A symbol as text. -/
def text (s : Symbol) : String :=
  String.ofList (s.accidental.chars ++ Nat.toDigits 10 s.degree)

/-- Reads an optional accidental and at least one digit, and nothing else. The digits may belong to
any script and may start with zeros. -/
def read? (cs : List Char) : Option Symbol :=
  let (accidental, cs) := Accidental.read cs
  match takeDigits cs, dropDigits cs with
  | [], _ => none
  | ds, [] => some ⟨accidental, ofDigits ds⟩
  | _, _ => none

end Symbol

/-! ## Simple intervals -/

/-- The intervals of the scale up to the octave. -/
inductive SimpleInterval
  | unison
  | minorSecond
  | majorSecond
  | minorThird
  | majorThird
  | perfectFourth
  | tritone
  | perfectFifth
  | minorSixth
  | majorSixth
  | minorSeventh
  | majorSeventh
  | octave
deriving Repr, DecidableEq

namespace SimpleInterval

/-- The frequency ratio in Pythagorean tuning, where every interval is made of pure fifths and
octaves. The tritone is the augmented fourth, six fifths above three octaves. -/
def ratio : SimpleInterval → Rat
  | unison => 1
  | minorSecond => 256 / 243
  | majorSecond => 9 / 8
  | minorThird => 32 / 27
  | majorThird => 81 / 64
  | perfectFourth => 4 / 3
  | tritone => 729 / 512
  | perfectFifth => 3 / 2
  | minorSixth => 128 / 81
  | majorSixth => 27 / 16
  | minorSeventh => 16 / 9
  | majorSeventh => 243 / 128
  | octave => 2

/-- The size in semitones of equal temperament. -/
def semitones : SimpleInterval → Nat
  | unison => 0
  | minorSecond => 1
  | majorSecond => 2
  | minorThird => 3
  | majorThird => 4
  | perfectFourth => 5
  | tritone => 6
  | perfectFifth => 7
  | minorSixth => 8
  | majorSixth => 9
  | minorSeventh => 10
  | majorSeventh => 11
  | octave => 12

/-- The simple interval that a symbol names. The augmented fourth and the diminished fifth are the
same interval. -/
def ofSymbol? : Symbol → Option SimpleInterval
  | ⟨.none, 1⟩ => some unison
  | ⟨.flat, 2⟩ => some minorSecond
  | ⟨.none, 2⟩ => some majorSecond
  | ⟨.flat, 3⟩ => some minorThird
  | ⟨.none, 3⟩ => some majorThird
  | ⟨.none, 4⟩ => some perfectFourth
  | ⟨.sharp, 4⟩ => some tritone
  | ⟨.flat, 5⟩ => some tritone
  | ⟨.none, 5⟩ => some perfectFifth
  | ⟨.flat, 6⟩ => some minorSixth
  | ⟨.none, 6⟩ => some majorSixth
  | ⟨.flat, 7⟩ => some minorSeventh
  | ⟨.none, 7⟩ => some majorSeventh
  | ⟨.none, 8⟩ => some octave
  | _ => none

end SimpleInterval

/-! ## Intervals -/

/-- The greatest degree that is looked up as it stands. -/
def lastSimpleDegree : Nat := 8

/-- The degrees in an octave. -/
def octaveSpan : Nat := 7

/-- A simple interval above a number of octaves. -/
structure Interval where
  /-- What remains above the octaves. -/
  simple : SimpleInterval
  /-- The whole octaves. -/
  octaves : Nat
deriving Repr, DecidableEq

namespace Interval

/-- The exact frequency ratio in Pythagorean tuning. -/
def ratio (i : Interval) : Rat := i.simple.ratio * 2 ^ i.octaves

/-- The size in semitones of equal temperament. -/
def semitones (i : Interval) : Nat := i.simple.semitones + 12 * i.octaves

/-- The interval named by a text that has no blanks around it. A degree up to eight must be written
without superfluous zeros and with ASCII digits. -/
def ofTrimmed (text : String) : Except Diagnostic Interval :=
  match Symbol.read? text.toList with
  | none => complain (.intervalMalformed text)
  | some s =>
    if s.degree ≤ lastSimpleDegree then
      match (if s.text = text then SimpleInterval.ofSymbol? s else none) with
      | some i => .ok ⟨i, 0⟩
      | none => complain (.intervalUnknown text)
    else
      let simple : Symbol := ⟨s.accidental, (s.degree - 1) % octaveSpan + 1⟩
      match SimpleInterval.ofSymbol? simple with
      | some i => .ok ⟨i, (s.degree - 1) / octaveSpan⟩
      | none => complain (.compoundUnknown text simple.text)

/-- The interval that a text names; blanks around it do not matter. -/
def ofSymbol (text : String) : Except Diagnostic Interval := ofTrimmed (trimmed text)

/-- Reads the interval that a text names, by `ofSymbol`. A degree of more digits than `digitLimit`
fails with `.tooManyDigits`, whatever its value. -/
def read (text : String) : Except Failure Interval :=
  if (Symbol.read? (trimmed text).toList).isSome && exceedsDigitLimit text.toList then
    .error .tooManyDigits
  else diagnosing (ofSymbol text)

/-- The exact ratio as text, the numerator over the denominator; `.tooManyDigits` if one of them has
more digits than `digitLimit`. Beyond 20000 octaves the numerator has. -/
def ratioText (i : Interval) : Except Failure String :=
  if 20000 < i.octaves then .error .tooManyDigits
  else if isWritable i.ratio.num && isWritable i.ratio.den then
    .ok (toString i.ratio.num ++ "/" ++ toString i.ratio.den)
  else .error .tooManyDigits

/-- The Pythagorean ratio as a double, rounded once; `.overflow` beyond the largest one. It is never
below one, so more than 1100 octaves are beyond every double. -/
def frequencyRatio (i : Interval) : Except Failure Float :=
  match (if 1100 < i.octaves then none else Binary64.ofRat? i.ratio) with
  | some x => .ok x
  | none => .error .overflow

/-- The ratio in equal temperament: two to the power of a twelfth of the semitones. -/
def temperedRatio (i : Interval) : Except Failure Float := do
  power (← (Number.int i.semitones).div (.int 12))

end Interval

/-! ## Spelling -/

/-- The preferred symbol of a distance within an octave. The tritone is spelt as a fifth. -/
def spellWithin : Nat → Symbol
  | 0 => ⟨.none, 1⟩
  | 1 => ⟨.flat, 2⟩
  | 2 => ⟨.none, 2⟩
  | 3 => ⟨.flat, 3⟩
  | 4 => ⟨.none, 3⟩
  | 5 => ⟨.none, 4⟩
  | 6 => ⟨.flat, 5⟩
  | 7 => ⟨.none, 5⟩
  | 8 => ⟨.flat, 6⟩
  | 9 => ⟨.none, 6⟩
  | 10 => ⟨.flat, 7⟩
  | _ => ⟨.none, 7⟩

/-- The symbol of a distance of `n` semitones: that of `n % 12`, with seven degrees more for each of
the `n / 12` octaves. -/
def spelling (n : Nat) : Symbol :=
  ⟨(spellWithin (n % 12)).accidental, (spellWithin (n % 12)).degree + n / 12 * octaveSpan⟩

/-- The symbol of a distance in semitones above the fundamental, as text. A distance below it is
complained about. Neither the symbol nor the complaint can be written if the integer in it has more
than `digitLimit` digits. -/
def spell (semitones : Int) : Except Failure String :=
  if semitones < 0 then
    if isWritable semitones then diagnosing (complain (.belowFundamental semitones))
    else .error .tooManyDigits
  else
    let s := spelling semitones.toNat
    if isWritable s.degree then .ok s.text else .error .tooManyDigits

end Monochord
