import Monochord.Main
import Monochord.Service.Answer
import Monochord.Proofs.Outcome
import Monochord.Proofs.Smf.Container
import Monochord.Proofs.Midi.Decoding
import Monochord.Proofs.Midi.Rendering
import Monochord.Proofs.Binary64.Nearest
import Monochord.Proofs.Binary64.Bits
import Monochord.Proofs.Binary64.Shortest
import Monochord.Proofs.Numeral.Longest
import Monochord.Proofs.Text.Pieces
import Monochord.Proofs.Duration
import Monochord.Proofs.Names
import Monochord.Proofs.Sequence
import Monochord.Proofs.Keyboard
import Monochord.Proofs.Binary64.Locating
import Monochord.Proofs.Binary64.Operations
import Monochord.Proofs.Midi.Bending
import Monochord.Proofs.Midi.Receiver
import Monochord.Proofs.Interval
import Monochord.Proofs.Interval.Symbols
import Monochord.Proofs.Lines
import Monochord.Proofs.Layout
import Monochord.Proofs.Binary64.Exponential
import Monochord.Proofs.Quantity
import Monochord.Proofs.Midi.Playable
import Monochord.Proofs.Binary64.Exact
import Monochord.Proofs.Midi.Renderable
import Monochord.Proofs.Smf.Capacity
import Monochord.Proofs.Midi.Replay
import Monochord.Proofs.Midi.Unbent
import Monochord.Proofs.Timing
import Monochord.Proofs.Midi.WellFormed
import Monochord.Proofs.Range
import Monochord.Proofs.Resolution
import Monochord.Proofs.Comparison
import Monochord.Proofs.Service.Containment
import Monochord.Proofs.Midi.Moderate
import Monochord.Proofs.Interval.Spelling
import Monochord.Proofs.FileTree
import Monochord.Proofs.Export
import Monochord.Proofs.Pipeline
import Monochord.Proofs.Smf.Canonical
import Monochord.Proofs.Selection
import Monochord.Proofs.Binary64.Underflow
import Monochord.Proofs.Fundamental
import Monochord.Proofs.Distances
import Monochord.Proofs.Binary64.Unsigned
import Monochord.Proofs.PressOrder
import Monochord.Proofs.Arithmetic
import Monochord.Proofs.Midi.Clock
import Monochord.Proofs.Midi.Intonation
import Monochord.Proofs.CommandLine.Settings
import Monochord.Proofs.Table
import Monochord.Proofs.Chromatic
import Monochord.Proofs.Smf.Writing
import Monochord.Proofs.Timing.Overrides
import Monochord.Proofs.Record
import Monochord.Proofs.Journal.Hierarchy
import Monochord.Proofs.Journal
import Monochord.Proofs.Service.Reports
