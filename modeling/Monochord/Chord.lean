import Monochord.NoteName

/-! # Chords

A chord is written as a fundamental, interval symbols and a duration. It sounds in two tunings: the
Pythagorean one, where each frequency is the fundamental times an exact ratio, and equal
temperament, which serves as the reference.

- **`Chord`**: a chord as written.
- **`PureTone`** and **`TemperedTone`**: one interval in either tuning.
- **`Harmony`**: all tones of a chord in both tunings, in the written order.
- **`tune`**: the harmony of a fundamental and intervals. One unknown interval spoils the whole
  chord.
- **`cents`**: the signed distance between two frequencies.
- **`Harmony.compare`**: the tones side by side, with their distance.
- **`ResolvedChord`**: a written chord with its harmony; **`resolveAll`** keeps the order of
  chords. -/

namespace Monochord

/-! ## Written chords -/

/-- A chord as it is written. -/
structure Chord where
  /-- The fundamental: a note name or a frequency. -/
  fundamental : String
  /-- The interval symbols in written order, repetitions kept. -/
  intervals : List String
  /-- The duration, in units that the timing fixes. -/
  duration : Quantity

/-! ## Tones -/

/-- An interval in Pythagorean tuning. -/
structure PureTone where
  /-- The interval as written. -/
  interval : String
  /-- The frequency in Hz. -/
  frequency : Float
  /-- The frequency ratio above the fundamental. -/
  ratio : Float

/-- An interval in equal temperament. -/
structure TemperedTone where
  /-- The interval as written. -/
  interval : String
  /-- The frequency in Hz. -/
  frequency : Float

/-- The tones of a chord in both tunings. -/
structure Harmony where
  /-- The frequency of the fundamental in Hz. -/
  fundamental : Float
  /-- The Pythagorean tones in written order. -/
  pure : List PureTone
  /-- The equal-tempered tones in the same order. -/
  tempered : List TemperedTone

/-- The equal-tempered frequency of an interval, `fundamental * i.temperedRatio`. -/
def temperedFrequency (fundamental : Quantity) (interval : String) : Except Failure Float := do
  let i ← Interval.read interval
  let ratio ← i.temperedRatio
  (← fundamental.mul (.float ratio)).toFloat

/-- Both tones of one interval: the Pythagorean one is `fundamental * i.frequencyRatio`. -/
def tuneInterval (fundamental : Float) (interval : String) :
    Except Failure (PureTone × TemperedTone) := do
  let i ← Interval.read interval
  let ratio ← i.frequencyRatio
  let tempered ← temperedFrequency (.float fundamental) interval
  return (⟨interval, fundamental * ratio, ratio⟩, ⟨interval, tempered⟩)

/-- The harmony of a fundamental and intervals. `fundamentalFrequency` comes first, then
`tuneInterval` for the intervals in order. -/
def tune (fundamental : Value) (intervals : List String) : Except Failure Harmony := do
  let f ← fundamentalFrequency fundamental
  let tones ← intervals.mapM (tuneInterval f)
  return ⟨f, tones.map (·.1), tones.map (·.2)⟩

/-! ## Comparison -/

/-- The distance in cents from `b` up to `a`, `1200 * log₂ (a / b)`. -/
def cents (a b : Quantity) : Except Failure Float := do
  let l ← logarithm (← a.div b)
  return 1200.0 * l

/-- The tones of an interval in both tunings, side by side. -/
structure Comparison where
  /-- The interval as written. -/
  interval : String
  /-- The Pythagorean ratio. -/
  ratio : Float
  /-- The Pythagorean frequency in Hz. -/
  pureFrequency : Float
  /-- The equal-tempered frequency in Hz. -/
  temperedFrequency : Float
  /-- How many cents the Pythagorean tone is sharp. -/
  cents : Float

/-- Sets two tones side by side, with `cents` from the second up to the first. -/
def compareTones (p : PureTone) (t : TemperedTone) : Except Failure Comparison := do
  let c ← cents (.float p.frequency) (.float t.frequency)
  return ⟨p.interval, p.ratio, p.frequency, t.frequency, c⟩

/-- Sets the tones of a harmony side by side; `zip` pairs them by their index. -/
def Harmony.compare (h : Harmony) : Except Failure (List Comparison) :=
  (h.pure.zip h.tempered).mapM fun p => compareTones p.1 p.2

/-! ## Resolved chords -/

/-- A written chord with its harmony. -/
structure ResolvedChord where
  /-- The fundamental as written. -/
  fundamental : String
  /-- The duration. -/
  duration : Quantity
  /-- The tones. -/
  harmony : Harmony

namespace ResolvedChord

/-- The intervals as written. -/
def intervals (c : ResolvedChord) : List String := c.harmony.pure.map (·.interval)

/-- The Pythagorean frequencies. -/
def pureFrequencies (c : ResolvedChord) : List Float := c.harmony.pure.map (·.frequency)

/-- The equal-tempered frequencies. -/
def temperedFrequencies (c : ResolvedChord) : List Float := c.harmony.tempered.map (·.frequency)

end ResolvedChord

/-- Resolves a written chord: `tune` of its fundamental and its intervals. -/
def Chord.resolve (c : Chord) : Except Failure ResolvedChord := do
  return ⟨c.fundamental, c.duration, ← tune (.text c.fundamental) c.intervals⟩

/-- Resolves chords in order; the first failure of `Chord.resolve` ends it. -/
def resolveAll (cs : List Chord) : Except Failure (List ResolvedChord) := cs.mapM Chord.resolve

end Monochord
