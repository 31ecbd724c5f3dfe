import Monochord.Proofs.Midi.Rendering
import Monochord.Proofs.Resolution
import Monochord.Proofs.Smf.Capacity

/-! # The same chords in both tunings

Both tunings are rendered by one loop. In pure tuning it sends some messages more, in between the
others, and these take no time: without them the track is the one in equal temperament.

* **`withoutBends`**, **`Timed.unkeyed`** — a track without its bends, and a message without the
  number of its key.
* **`filterMap_noteEvents`** — what leaves out or changes messages note by note leads from the track
  of some chords to that of others.
* **`map_unbent_eq`**, **`map_plain_eq`** — the chords that are sent in the two tunings, without
  bends; if the frequencies differ as well, without keys.
* **`SharesOpening`** — files with the same header and tempo track.
* **`withoutBends_render`** — the two files of the same chords. -/

namespace Monochord.Midi

/-! ## Tracks without bends -/

/-- A track without its bends. -/
def withoutBends (ts : List Timed) : List Timed := ts.filter fun t => !t.message.isBend

/-- A message without the number of its key. -/
def Message.unkeyed : Message → Message
  | noteOn c _ v => noteOn c ⟨0, by decide⟩ v
  | noteOff c _ v => noteOff c ⟨0, by decide⟩ v
  | m => m

/-- A timed message without the number of its key. -/
def Timed.unkeyed (t : Timed) : Timed := ⟨t.delta, t.message.unkeyed⟩

/-- A chord with every note changed. -/
def SentChord.mapNotes (g : SentNote → SentNote) (c : SentChord) : SentChord :=
  ⟨c.notes.map g, c.length⟩

section Messages

variable {f : Timed → Option Timed} {g : SentNote → SentNote}

/-- `f` leads from `c.messages` to those of `c.mapNotes g`, if it leads from the messages of `n` to
those of `g n`. -/
theorem filterMap_messages (hstart : ∀ i n, (SentNote.start i n).filterMap f = (g n).start i)
    (hstop : ∀ d i n, f (SentNote.stop d i n) = some ((g n).stop d i)) (c : SentChord) :
    c.messages.filterMap f = (c.mapNotes g).messages := by
  have hstarts : (c.notes.mapIdx SentNote.start).map (List.filterMap f) =
      (c.notes.map g).mapIdx SentNote.start := by
    apply List.ext_getElem
    · simp
    · intro i hi hi'
      simp [hstart]
  have hstops : (c.notes.mapIdx fun i n => n.stop (if i = 0 then c.length else 0) i).filterMap f =
      (c.notes.map g).mapIdx fun i n => n.stop (if i = 0 then c.length else 0) i := by
    rw [List.mapIdx_eq_zipIdx_map, List.mapIdx_eq_zipIdx_map, List.zipIdx_map, List.filterMap_map,
      List.map_map, ← List.filterMap_eq_map]
    congr 1
    funext p
    exact hstop _ _ _
  rw [SentChord.messages, List.filterMap_append, List.filterMap_flatten, hstarts, hstops]
  rfl

/-- And then it leads from `noteEvents cs` to those of the chords with changed notes. -/
theorem filterMap_noteEvents (hstart : ∀ i n, (SentNote.start i n).filterMap f = (g n).start i)
    (hstop : ∀ d i n, f (SentNote.stop d i n) = some ((g n).stop d i))
    (hend : f ⟨0, .endOfTrack⟩ = some ⟨0, .endOfTrack⟩) (cs : List SentChord) :
    (noteEvents cs).filterMap f = noteEvents (cs.map (SentChord.mapNotes g)) := by
  rw [noteEvents, noteEvents, List.filterMap_append, List.filterMap_flatMap, List.flatMap_map]
  simp only [filterMap_messages hstart hstop, List.filterMap_cons_some hend, List.filterMap_nil]

end Messages

/-! ## Chords without bends -/

/-- A note without its bend. -/
def SentNote.unbent (n : SentNote) : SentNote := ⟨n.key, none⟩

/-- A note without its bend, on the lowest key. -/
def SentNote.plain (_ : SentNote) : SentNote := ⟨⟨0, by decide⟩, none⟩

/-- **`withoutBends (noteEvents cs)` is `noteEvents` of the chords without bends.** -/
theorem withoutBends_noteEvents (cs : List SentChord) :
    withoutBends (noteEvents cs) = noteEvents (cs.map (SentChord.mapNotes SentNote.unbent)) := by
  rw [withoutBends, ← List.filterMap_eq_filter]
  apply filterMap_noteEvents
  · rintro i ⟨key, bend⟩
    cases bend <;> rfl
  · intro d i n
    rfl
  · rfl

/-- Without bends and numbers of keys, `noteEvents cs` is that of chords with `SentNote.plain`
notes. -/
theorem unkeyed_withoutBends_noteEvents (cs : List SentChord) :
    (withoutBends (noteEvents cs)).map Timed.unkeyed =
      noteEvents (cs.map (SentChord.mapNotes SentNote.plain)) := by
  rw [withoutBends, ← List.filterMap_eq_map, List.filterMap_filter]
  apply filterMap_noteEvents
  · rintro i ⟨key, bend⟩
    cases bend <;> rfl
  · intro d i n
    rfl
  · rfl

/-- `n.unbent = n'` for the notes `n` and `n'` that are sent for `f` in any tuning and in equal
temperament. -/
theorem SentNote.Of.unbent_eq {tuning : Tuning} {f : Quantity} {n n' : SentNote}
    (h : n.Of tuning f) (h' : n'.Of .equalTemperament f) : n.unbent = n' := by
  obtain ⟨p, hp, hkey, -⟩ := h
  obtain ⟨p', hp', hkey', hbend⟩ := h'
  obtain rfl := Except.ok.inj (hp.symm.trans hp')
  rw [if_neg (by simp)] at hbend
  obtain ⟨key', bend'⟩ := n'
  obtain rfl : bend' = none := hbend
  have hkeys : n.key = key' := by
    apply Fin.ext
    exact_mod_cast hkey.trans hkey'.symm
  rw [SentNote.unbent, hkeys]

/-- **The chords that are sent in equal temperament are those that are sent in any tuning, with
`SentNote.unbent`.** -/
theorem map_unbent_eq {tuning : Tuning} {base tempo : Quantity} {vs : List Voicing}
    {cs cs' : List SentChord} (h : List.Forall₂ (SentChord.Of tuning base tempo) vs cs)
    (h' : List.Forall₂ (SentChord.Of .equalTemperament base tempo) vs cs') :
    cs.map (SentChord.mapNotes SentNote.unbent) = cs' := by
  refine map_eq_of_forall₂ (fun v c c' hc hc' => ?_) h h'
  have hnotes : c.notes.map SentNote.unbent = c'.notes :=
    map_eq_of_forall₂ (fun _ _ _ hn hn' => hn.unbent_eq hn') hc.1 hc'.1
  rw [SentChord.mapNotes, hnotes, Except.ok.inj (hc.2.symm.trans hc'.2)]

/-- Two voicings that take the same time, with the same number of notes. -/
def Voicing.SameShape (v v' : Voicing) : Prop :=
  v.frequencies.length = v'.frequencies.length ∧ v.duration = v'.duration

/-- **Voicings of the same shapes are sent as chords with the same `SentNote.plain` notes.** -/
theorem map_plain_eq {tuning tuning' : Tuning} {base tempo : Quantity} {vs vs' : List Voicing}
    {cs cs' : List SentChord} (hvs : List.Forall₂ Voicing.SameShape vs vs')
    (h : List.Forall₂ (SentChord.Of tuning base tempo) vs cs)
    (h' : List.Forall₂ (SentChord.Of tuning' base tempo) vs' cs') :
    cs.map (SentChord.mapNotes SentNote.plain) = cs'.map (SentChord.mapNotes SentNote.plain) := by
  induction hvs generalizing cs cs' with
  | nil =>
    cases h
    cases h'
    rfl
  | cons hv _ ih =>
    cases h with
    | cons hc hcs =>
      cases h' with
      | cons hc' hcs' =>
        obtain ⟨hcount, hduration⟩ := hv
        have hnotes := hc.1.length_eq.symm.trans (hcount.trans hc'.1.length_eq)
        have hlength := hc.2
        rw [hduration, hc'.2] at hlength
        have hconst (ns : List SentNote) :
            ns.map SentNote.plain = List.replicate ns.length ⟨0, none⟩ := List.map_const'
        rw [List.map_cons, List.map_cons, SentChord.mapNotes, SentChord.mapNotes, hconst, hconst,
          hnotes, Except.ok.inj hlength, ih hcs hcs']

/-! ## Files -/

/-- The chunk of a track in a file. -/
def trackBytes (ts : List Timed) : Bytes := (Smf.trackChunk (ts.map Timed.event)).bytes

/-- Two files with the same header and the same first track, and with given second tracks. -/
def SharesOpening (data data' : Bytes) (track track' : List Timed) : Prop :=
  ∃ (header : Bytes) (first : List Timed), header.length = 14 ∧
    data = header ++ (trackBytes first ++ trackBytes track) ∧
    data' = header ++ (trackBytes first ++ trackBytes track') ∧
    Recording.read? data = some ⟨1, 480, [first, track]⟩ ∧
    Recording.read? data' = some ⟨1, 480, [first, track']⟩

/-- `s.encode` is a header of 14 bytes, the same for all scores, and the `trackBytes` of both
tracks. -/
theorem exists_header_of_encode :
    ∃ header : Bytes, header.length = 14 ∧ ∀ {s : Score} {data : Bytes}, s.encode = .ok data →
      data = header ++ (trackBytes s.tempoTrack ++ trackBytes s.noteTrack) := by
  have hheader : ∃ header, Smf.encodeHeader (2 : ℕ) Smf.ticksPerQuarter Smf.simultaneousFormat =
      .ok header := Smf.exists_encodeHeader_iff.2 (by decide)
  obtain ⟨header, hheader⟩ := hheader
  refine ⟨header, Smf.length_encodeHeader hheader, fun {s data} h => ?_⟩
  obtain ⟨header', hheader', h⟩ := bind_eq_ok_iff.1 h
  obtain ⟨chunks, hchunks, h⟩ := bind_eq_ok_iff.1 h
  obtain ⟨-, rfl⟩ := Smf.mapM_encodeTrack_eq_ok hchunks
  simp only [List.length_cons, List.length_nil, Nat.zero_add, Nat.reduceAdd] at hheader'
  obtain rfl := Except.ok.inj (hheader'.symm.trans hheader)
  rw [← Except.ok.inj h]
  simp [trackBytes]

/-- **`SharesOpening data data'` holds of any two files at one tempo**, whatever chords are
rendered. -/
theorem exists_sharesOpening {tuning tuning' : Tuning} {base base' tempo : Quantity}
    {vs vs' : List Voicing} {data data' : Bytes}
    (h : renderVoicings tuning base tempo vs = .ok data)
    (h' : renderVoicings tuning' base' tempo vs' = .ok data') :
    ∃ cs cs', List.Forall₂ (SentChord.Of tuning base tempo) vs cs ∧
      List.Forall₂ (SentChord.Of tuning' base' tempo) vs' cs' ∧
      SharesOpening data data' (noteEvents cs) (noteEvents cs') := by
  obtain ⟨microseconds, cs, hmicroseconds, hcs, hdata⟩ := renderVoicings_eq_ok h
  obtain ⟨microseconds', cs', hmicroseconds', hcs', hdata'⟩ := renderVoicings_eq_ok h'
  obtain rfl := Except.ok.inj (hmicroseconds.symm.trans hmicroseconds')
  obtain ⟨header, hlength, hheader⟩ := exists_header_of_encode
  have hbytes := hheader hdata
  have hbytes' := hheader hdata'
  exact ⟨cs, cs', hcs, hcs', header, _, hlength, hbytes, hbytes', Recording.read?_encode hdata,
    Recording.read?_encode hdata'⟩

/-! ## Resolved chords -/

/-- `c.Sound` has as many tones in one tuning as in the other. -/
theorem sameShape_voicing {c : ResolvedChord} (h : c.Sound) :
    (voicing .pythagorean c).SameShape (voicing .equalTemperament c) := by
  obtain ⟨ps, -, hpure, htempered, -⟩ := h.tones
  refine ⟨?_, rfl⟩
  simp [voicing, ResolvedChord.pureFrequencies, ResolvedChord.temperedFrequencies, hpure, htempered]

/-- **The file in equal temperament is the one in pure tuning without its bends.** Whenever the same
voicings are rendered in both tunings, the two files have the same header and the same tempo track,
byte by byte, and the note track in equal temperament is `withoutBends track`.

If the chords are those of a text, whose frequencies depend on the tuning, this is still true of
everything but the numbers of the keys. -/
theorem withoutBends_render (base tempo : Quantity) :
    (∀ (vs : List Voicing) (data data' : Bytes),
      renderVoicings .pythagorean base tempo vs = .ok data →
      renderVoicings .equalTemperament base tempo vs = .ok data' →
      ∃ track track', SharesOpening data data' track track' ∧ withoutBends track = track') ∧
    ∀ (text : String) (rs : List ResolvedChord) (data data' : Bytes),
      resolveText text = .ok rs →
      render .pythagorean base tempo rs = .ok data →
      render .equalTemperament base tempo rs = .ok data' →
      ∃ track track', SharesOpening data data' track track' ∧
        (withoutBends track).map Timed.unkeyed = track'.map Timed.unkeyed := by
  constructor
  · intro vs data data' h h'
    obtain ⟨cs, cs', hcs, hcs', hopening⟩ := exists_sharesOpening h h'
    refine ⟨_, _, hopening, ?_⟩
    rw [withoutBends_noteEvents, map_unbent_eq hcs hcs']
  · intro text rs data data' hrs h h'
    obtain ⟨cs, cs', hcs, hcs', hopening⟩ := exists_sharesOpening h h'
    refine ⟨_, _, hopening, ?_⟩
    have hshape : List.Forall₂ Voicing.SameShape (rs.map (voicing .pythagorean))
        (rs.map (voicing .equalTemperament)) := by
      rw [List.forall₂_map_left_iff, List.forall₂_map_right_iff, List.forall₂_same]
      exact fun r hr => sameShape_voicing (sound_of_resolveText hrs r hr)
    -- equal temperament has no bends that could be left out
    have hnone : withoutBends (noteEvents cs') = noteEvents cs' := by
      rw [withoutBends_noteEvents, map_unbent_eq hcs' hcs']
    rw [← hnone, unkeyed_withoutBends_noteEvents, unkeyed_withoutBends_noteEvents,
      map_plain_eq hshape hcs hcs']

/-! ## A fifth in both tunings -/

/-- 660.0 and its equal-tempered neighbour 659.2551138257398 are not bent in equal temperament. -/
theorem chordMessages_temperedFifth {f : Float} (h : f = 660.0 ∨ f = 659.2551138257398) :
    chordMessages .equalTemperament (.float 1.0) (.float 120.0) ⟨[.float f], .float 1.0⟩ =
      .ok [⟨0, .noteOn 0 76 80⟩, ⟨960, .noteOff 0 76 0⟩] := by
  have hlength : ticksOf (.float 1.0) (.float 1.0) (.float 120.0) = .ok 960 := by decide +kernel
  have hnote : (Pitch.ofFrequency (.float f)).map
      (fun p => (p.key, startNote .equalTemperament 0 p)) =
        .ok (76, .ok [⟨0, .noteOn 0 76 80⟩]) := by
    rcases h with rfl | rfl
    · have hpitch : HasPitch 660.0 := ⟨by decide, by decide⟩
      exact hpitch.map_ofFrequency (by decide +kernel) (by decide +kernel)
    · have hpitch : HasPitch 659.2551138257398 := ⟨by decide, by decide⟩
      exact hpitch.map_ofFrequency (by decide +kernel) (by decide +kernel)
  exact chordMessages_single hnote hlength

/-- The chord of a fifth above the reference pitch, in both tunings. -/
def fifthChord : ResolvedChord :=
  ⟨"440", .float 1.0, ⟨440.0, [⟨"5", 660.0, 1.5⟩], [⟨"5", 659.2551138257398⟩]⟩⟩

/-- `"440: 5"` is resolved to `fifthChord`. -/
theorem resolveText_fifth : resolveText "440: 5" = .ok [fifthChord] := by
  have hread : readSequence "440: 5" = .ok [⟨"440", ["5"], .float 1.0⟩] := rfl
  have hfundamental : fundamentalOfText "440" = .ok 440.0 := by decide
  have hinterval : Interval.read "5" = .ok ⟨.perfectFifth, 0⟩ := by decide
  have hratio : (Interval.mk .perfectFifth 0).frequencyRatio = .ok 1.5 := by decide +kernel
  have htempered : (Interval.mk .perfectFifth 0).temperedRatio = .ok 1.4983070768766815 := by
    decide +kernel
  have hpure : (440.0 : Float) * 1.5 = 660.0 := by decide
  have hproduct : (440.0 : Float) * 1.4983070768766815 = 659.2551138257398 := by decide +kernel
  rw [resolveText, hread, diagnosing_ok, ok_bind, resolveAll, List.mapM_cons, List.mapM_nil,
    resolve_eq, hfundamental, ok_bind, List.mapM_cons, List.mapM_nil, tuneInterval_eq, hinterval,
    ok_bind, hratio, ok_bind, htempered, ok_bind, hpure, hproduct]
  rfl

/-- A fifth that is given by its frequency, before the reference pitch, and one that is given by a
text. In pure tuning both are bent. -/
theorem withoutBends_render_fifth :
    (∃ data data',
      renderVoicings .pythagorean (.float 1.0) (.float 120.0)
        [⟨[.float 660.0], .float 1.0⟩, ⟨[.float 440.0], .float 1.0⟩] = .ok data ∧
      renderVoicings .equalTemperament (.float 1.0) (.float 120.0)
        [⟨[.float 660.0], .float 1.0⟩, ⟨[.float 440.0], .float 1.0⟩] = .ok data' ∧
      ∃ track track', SharesOpening data data' track track' ∧ withoutBends track = track') ∧
    ∃ rs data data', resolveText "440: 5" = .ok rs ∧
      render .pythagorean (.float 1.0) (.float 120.0) rs = .ok data ∧
      render .equalTemperament (.float 1.0) (.float 120.0) rs = .ok data' ∧
      ∃ track track', SharesOpening data data' track track' ∧
        (withoutBends track).map Timed.unkeyed = track'.map Timed.unkeyed := by
  obtain ⟨hvoicings, htext⟩ := withoutBends_render (.float 1.0) (.float 120.0)
  constructor
  · have hreference : chordMessages .equalTemperament (.float 1.0) (.float 120.0)
        ⟨[.float 440.0], .float 1.0⟩ = .ok [⟨0, .noteOn 0 69 80⟩, ⟨960, .noteOff 0 69 0⟩] := by
      decide +kernel
    have hisOk : (renderVoicings .equalTemperament (.float 1.0) (.float 120.0)
        [⟨[.float 660.0], .float 1.0⟩, ⟨[.float 440.0], .float 1.0⟩]).isOk = true := by
      rw [renderVoicings, compose, noteTrack, List.mapM_cons, List.mapM_cons, List.mapM_nil,
        chordMessages_temperedFifth (.inl rfl), hreference]
      decide +kernel
    obtain ⟨data', hdata'⟩ := exists_of_isOk hisOk
    exact ⟨_, data', renderVoicings_fifth, hdata', hvoicings _ _ _ renderVoicings_fifth hdata'⟩
  · have hpure : (render .pythagorean (.float 1.0) (.float 120.0) [fifthChord]).isOk = true := by
      show (renderVoicings .pythagorean (.float 1.0) (.float 120.0)
        [⟨[.float 660.0], .float 1.0⟩]).isOk = true
      rw [renderVoicings, compose, noteTrack, List.mapM_cons, List.mapM_nil, chordMessages_fifth]
      decide +kernel
    have htempered : (render .equalTemperament (.float 1.0) (.float 120.0)
        [fifthChord]).isOk = true := by
      show (renderVoicings .equalTemperament (.float 1.0) (.float 120.0)
        [⟨[.float 659.2551138257398], .float 1.0⟩]).isOk = true
      rw [renderVoicings, compose, noteTrack, List.mapM_cons, List.mapM_nil,
        chordMessages_temperedFifth (.inr rfl)]
      decide +kernel
    obtain ⟨data, hdata⟩ := exists_of_isOk hpure
    obtain ⟨data', hdata'⟩ := exists_of_isOk htempered
    exact ⟨_, data, data', resolveText_fifth, hdata, hdata',
      htext _ _ _ _ resolveText_fifth hdata hdata'⟩

end Monochord.Midi
