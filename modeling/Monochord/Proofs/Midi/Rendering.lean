import Monochord.Proofs.Midi.Decoding
import Monochord.Proofs.Midi.Sending

/-! # What a rendered file says

The two halves meet here: `Monochord.Proofs.Midi.Sending` says which chords are sent, and
`Monochord.Proofs.Midi.Decoding` reads a file back without knowing how it was written.

* **`Message.channelData_lt`** — the data bytes of channel messages have seven bits.
* **`compose_eq_ok`** — a score is a tempo and the messages of the chords that are sent;
  **`renderVoicings_eq_ok`**: so is a file.
* **`Recording.renderVoicings_reads_back`** — a rendered file reads back as the tempo and the
  chords. -/

namespace Monochord.Midi

/-! ## Data bytes -/

/-- The data bytes of a channel message, and none of a meta message. -/
def Message.channelData : Message → Bytes
  | setTempo _ => []
  | endOfTrack => []
  | m => m.encode.tail

/-- `b.toNat < 128` for every data byte of a channel message. -/
theorem Message.channelData_lt (m : Message) : ∀ b ∈ m.channelData, b.toNat < 128 := by
  have hbyte : ∀ n < 128, (UInt8.ofNat n).toNat < 128 := by
    intro n hn
    rw [UInt8.toNat_ofNat_of_lt' (show n < 256 by omega)]
    exact hn
  intro b hb
  cases m with
  | setTempo t => exact absurd hb List.not_mem_nil
  | endOfTrack => exact absurd hb List.not_mem_nil
  | bend c p =>
    -- the lower and the upper seven bits of the position
    rcases List.mem_pair.1 hb with rfl | rfl
    · exact hbyte _ (Nat.mod_lt _ (by decide))
    · exact hbyte _ (by omega)
  | noteOn c k v =>
    rcases List.mem_pair.1 hb with rfl | rfl
    · exact hbyte _ k.isLt
    · exact hbyte _ v.isLt
  | noteOff c k v =>
    rcases List.mem_pair.1 hb with rfl | rfl
    · exact hbyte _ k.isLt
    · exact hbyte _ v.isLt

/-! ## Whole scores -/

/-- The events of a tempo track: the length of a quarter note, and the end. -/
def tempoEvents (field : Fin 16777216) : List Timed := [⟨0, .setTempo field⟩, ⟨0, .endOfTrack⟩]

/-- The events of a note track: the messages of some chords, and the end. -/
def noteEvents (chords : List SentChord) : List Timed :=
  chords.flatMap SentChord.messages ++ [⟨0, .endOfTrack⟩]

/-- `tempoField microseconds = microseconds % 2 ^ 24`. -/
theorem coe_tempoField (microseconds : Int) :
    ((tempoField microseconds : Nat) : Int) = microseconds % 2 ^ 24 :=
  Int.toNat_of_nonneg (Int.emod_nonneg _ (by decide))

/-- `compose` succeeds only with `tempoEvents` of the quarter note and `noteEvents` of chords with
`SentChord.Of`. -/
theorem compose_eq_ok {tuning : Tuning} {base tempo : Quantity} {vs : List Voicing} {s : Score}
    (h : compose tuning base tempo vs = .ok s) :
    ∃ microseconds chords, quarterLengthOf tempo = .ok microseconds ∧
      List.Forall₂ (SentChord.Of tuning base tempo) vs chords ∧
      s = ⟨tempoEvents (tempoField microseconds), noteEvents chords⟩ := by
  obtain ⟨first, hfirst, h⟩ := bind_eq_ok_iff.1 h
  obtain ⟨second, hsecond, h⟩ := bind_eq_ok_iff.1 h
  obtain ⟨microseconds, hmicroseconds, hfirst⟩ := bind_eq_ok_iff.1 hfirst
  obtain ⟨chords, hchords, rfl⟩ := noteTrack_eq_ok hsecond
  refine ⟨microseconds, chords, hmicroseconds, hchords, ?_⟩
  rw [← Except.ok.inj h, ← Except.ok.inj hfirst]
  rfl

/-- `renderVoicings` succeeds only with the file of such a score. -/
theorem renderVoicings_eq_ok {tuning : Tuning} {base tempo : Quantity} {vs : List Voicing}
    {data : Bytes} (h : renderVoicings tuning base tempo vs = .ok data) :
    ∃ microseconds chords, quarterLengthOf tempo = .ok microseconds ∧
      List.Forall₂ (SentChord.Of tuning base tempo) vs chords ∧
      Score.encode ⟨tempoEvents (tempoField microseconds), noteEvents chords⟩ = .ok data := by
  obtain ⟨s, hs, hdata⟩ := bind_eq_ok_iff.1 h
  obtain ⟨microseconds, chords, hmicroseconds, hchords, rfl⟩ := compose_eq_ok hs
  exact ⟨microseconds, chords, hmicroseconds, hchords, hdata⟩

/-- **A rendered file reads back as what was rendered.** Whenever `renderVoicings` succeeds,
whatever the frequencies and durations are, `Recording.read?` consumes all bytes and finds format 1
and 480 ticks in a quarter note. The first of the two tracks sets the length of a quarter note
modulo `2 ^ 24`; the second one has, for every chord in order, the messages of the chord that is
sent for it. The data bytes of its channel messages have seven bits. -/
theorem Recording.renderVoicings_reads_back {tuning : Tuning} {base tempo : Quantity}
    {vs : List Voicing} {data : Bytes} (h : renderVoicings tuning base tempo vs = .ok data) :
    ∃ (microseconds : Int) (field : Fin 16777216) (chords : List SentChord),
      quarterLengthOf tempo = .ok microseconds ∧
      ((field : Nat) : Int) = microseconds % 2 ^ 24 ∧
      List.Forall₂ (SentChord.Of tuning base tempo) vs chords ∧
      Recording.read? data = some
        { format := 1
          division := 480
          tracks := [tempoEvents field, noteEvents chords] } ∧
      ∀ t ∈ noteEvents chords, ∀ b ∈ t.message.channelData, b.toNat < 128 := by
  obtain ⟨s, hs, h⟩ := bind_eq_ok_iff.1 h
  obtain ⟨microseconds, chords, hmicroseconds, hchords, rfl⟩ := compose_eq_ok hs
  refine ⟨microseconds, tempoField microseconds, chords, hmicroseconds,
    coe_tempoField microseconds, hchords, Recording.read?_encode h, ?_⟩
  intro t _
  exact t.message.channelData_lt

/-- A fifth above the reference pitch, which is bent, and then the reference pitch itself. -/
theorem Recording.renderVoicings_reads_back_fifth :
    ∃ data, renderVoicings .pythagorean (.float 1.0) (.float 120.0)
        [⟨[.float 660.0], .float 1.0⟩, ⟨[.float 440.0], .float 1.0⟩] = .ok data ∧
      ∃ (microseconds : Int) (field : Fin 16777216) (chords : List SentChord),
        quarterLengthOf (.float 120.0) = .ok microseconds ∧
        ((field : Nat) : Int) = microseconds % 2 ^ 24 ∧
        List.Forall₂ (SentChord.Of .pythagorean (.float 1.0) (.float 120.0))
          [⟨[.float 660.0], .float 1.0⟩, ⟨[.float 440.0], .float 1.0⟩] chords ∧
        Recording.read? data = some
          { format := 1
            division := 480
            tracks := [tempoEvents field, noteEvents chords] } ∧
        ∀ t ∈ noteEvents chords, ∀ b ∈ t.message.channelData, b.toNat < 128 :=
  ⟨_, renderVoicings_fifth, Recording.renderVoicings_reads_back renderVoicings_fifth⟩

end Monochord.Midi
