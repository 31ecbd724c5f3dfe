import Monochord.Proofs.Smf.Container

/-! # What fits into a file

Four fields of a file have a fixed width: the format, the division and the number of tracks in its
header, and the length of each track. Nothing else can keep a file from being written, and nothing
is lost in one that is.

* **`Fits`** — the tracks and numbers for which no field is too narrow.
* **`exists_encodeFile_iff`**, **`eq_fieldOverflow_of_encodeFile`** — these have a file, and any
  others are refused for a field that is too narrow.
* **`length_encodeFile`** — the size of a file.
* **`readEvents?`** — the events of a body whose data have known lengths;
  `readEvents?_encodeEvents` finds the events that were written.
* **`encodeFile_lossless`** — all of this together. -/

namespace Monochord

/-! ## Fields -/

/-- `encodeField width n` succeeds exactly if `0 ≤ n < 256 ^ width`. -/
theorem exists_encodeField_iff {width : ℕ} {n : ℤ} :
    (∃ data, encodeField width n = .ok data) ↔ 0 ≤ n ∧ n < 256 ^ width := by
  simp only [encodeField_eq_ok_iff]
  exact ⟨fun ⟨_, h, _⟩ => h, fun h => ⟨_, h, rfl⟩⟩

/-- `encodeField` fails with `.fieldOverflow` only. -/
theorem eq_fieldOverflow_of_encodeField {width : ℕ} {n : ℤ} {f : Failure}
    (h : encodeField width n = .error f) : f = .fieldOverflow := by
  rw [encodeField] at h
  split at h
  · exact absurd h (by simp)
  · exact (Except.error.inj h).symm

namespace Smf

/-! ## Chunks -/

/-- `encodeHeader` succeeds exactly if the format, the tracks and the division are each in
`0 ≤ n < 256 ^ 2`. -/
theorem exists_encodeHeader_iff {tracks division format : ℤ} :
    (∃ data, encodeHeader tracks division format = .ok data) ↔
      (0 ≤ format ∧ format < 256 ^ 2) ∧ (0 ≤ tracks ∧ tracks < 256 ^ 2) ∧
        0 ≤ division ∧ division < 256 ^ 2 := by
  rw [← exists_encodeField_iff, ← exists_encodeField_iff, ← exists_encodeField_iff]
  constructor
  · rintro ⟨data, h⟩
    obtain ⟨f, t, d, hf, ht, hd, -⟩ := encodeHeader_eq_ok h
    exact ⟨⟨f, hf⟩, ⟨t, ht⟩, d, hd⟩
  · rintro ⟨⟨f, hf⟩, ⟨t, ht⟩, d, hd⟩
    rw [encodeHeader, hf, ok_bind, ht, ok_bind, hd]
    exact ⟨_, rfl⟩

/-- `encodeHeader` fails with `.fieldOverflow` only. -/
theorem eq_fieldOverflow_of_encodeHeader {tracks division format : ℤ} {f : Failure}
    (h : encodeHeader tracks division format = .error f) : f = .fieldOverflow := by
  rcases bind_eq_error_iff.1 h with h | ⟨_, -, h⟩
  · exact eq_fieldOverflow_of_encodeField h
  rcases bind_eq_error_iff.1 h with h | ⟨_, -, h⟩
  · exact eq_fieldOverflow_of_encodeField h
  rcases bind_eq_error_iff.1 h with h | ⟨_, -, h⟩
  · exact eq_fieldOverflow_of_encodeField h
  · exact absurd h (by simp)

/-- `data.length = 14` if `encodeHeader tracks division format = .ok data`. -/
theorem length_encodeHeader {tracks division format : ℤ} {data : Bytes}
    (h : encodeHeader tracks division format = .ok data) : data.length = 14 := by
  obtain ⟨f, t, d, hf, ht, hd, rfl⟩ := encodeHeader_eq_ok h
  simp [Chunk.bytes, headerName, length_of_encodeField hf, length_of_encodeField ht,
    length_of_encodeField hd]

/-- `encodeTrack events` succeeds exactly if `(encodeEvents events).length < 256 ^ 4`. -/
theorem exists_encodeTrack_iff {events : List Event} :
    (∃ data, encodeTrack events = .ok data) ↔ (encodeEvents events).length < 256 ^ 4 := by
  simp only [encodeTrack_eq_ok_iff]
  exact ⟨fun ⟨_, h, _⟩ => h, fun h => ⟨_, h, rfl⟩⟩

/-- `encodeTrack` fails with `.fieldOverflow` only. -/
theorem eq_fieldOverflow_of_encodeTrack {events : List Event} {f : Failure}
    (h : encodeTrack events = .error f) : f = .fieldOverflow := by
  rcases bind_eq_error_iff.1 h with h | ⟨_, -, h⟩
  · exact eq_fieldOverflow_of_encodeField h
  · exact absurd h (by simp)

/-- `(trackChunk events).bytes.length = 8 + (encodeEvents events).length`. -/
theorem length_bytes_trackChunk (events : List Event) :
    (trackChunk events).bytes.length = 8 + (encodeEvents events).length := by
  have hname : (trackChunk events).name.length = 4 := rfl
  rw [Chunk.bytes, List.length_append, List.length_append, length_bigEndian, hname]
  rfl

/-! ## Files -/

/-- No field of a file is too narrow for these tracks, division and format. -/
structure Fits (tracks : List (List Event)) (division format : ℤ) : Prop where
  /-- The format has two bytes. -/
  format : 0 ≤ format ∧ format ≤ 65535
  /-- So has the division. -/
  division : 0 ≤ division ∧ division ≤ 65535
  /-- So has the number of tracks. -/
  count : tracks.length ≤ 65535
  /-- The length of a track has four bytes. -/
  body : ∀ t ∈ tracks, (encodeEvents t).length < 2 ^ 32

/-- **`encodeFile tracks division format` succeeds exactly if `Fits tracks division format`.** -/
theorem exists_encodeFile_iff {tracks : List (List Event)} {division format : ℤ} :
    (∃ data, encodeFile tracks division format = .ok data) ↔ Fits tracks division format := by
  have hsteps : (∃ data, encodeFile tracks division format = .ok data) ↔
      (∃ header, encodeHeader tracks.length division format = .ok header) ∧
        ∃ chunks, tracks.mapM encodeTrack = .ok chunks := by
    constructor
    · rintro ⟨data, h⟩
      obtain ⟨header, hheader, h⟩ := bind_eq_ok_iff.1 h
      obtain ⟨chunks, hchunks, -⟩ := bind_eq_ok_iff.1 h
      exact ⟨⟨header, hheader⟩, chunks, hchunks⟩
    · rintro ⟨⟨header, hheader⟩, chunks, hchunks⟩
      rw [encodeFile, hheader, ok_bind, hchunks]
      exact ⟨_, rfl⟩
  rw [hsteps, exists_encodeHeader_iff, exists_mapM_eq_ok_iff]
  simp only [exists_encodeTrack_iff]
  constructor
  · rintro ⟨⟨hformat, hcount, hdivision⟩, hbody⟩
    exact ⟨by omega, by omega, by omega, hbody⟩
  · rintro ⟨hformat, hdivision, hcount, hbody⟩
    exact ⟨⟨by omega, by omega, by omega⟩, hbody⟩

/-- **`encodeFile` fails with `.fieldOverflow` only.** -/
theorem eq_fieldOverflow_of_encodeFile {tracks : List (List Event)} {division format : ℤ}
    {f : Failure} (h : encodeFile tracks division format = .error f) : f = .fieldOverflow := by
  rcases bind_eq_error_iff.1 h with h | ⟨_, -, h⟩
  · exact eq_fieldOverflow_of_encodeHeader h
  rcases bind_eq_error_iff.1 h with h | ⟨_, -, h⟩
  · obtain ⟨t, -, ht⟩ := exists_of_mapM_eq_error h
    exact eq_fieldOverflow_of_encodeTrack ht
  · exact absurd h (by simp)

/-- **The size of a file** is 14, and for every track 8 more than its body. -/
theorem length_encodeFile {tracks : List (List Event)} {division format : ℤ} {data : Bytes}
    (h : encodeFile tracks division format = .ok data) :
    data.length = 14 + (tracks.map fun t => 8 + (encodeEvents t).length).sum := by
  obtain ⟨header, hheader, h⟩ := bind_eq_ok_iff.1 h
  obtain ⟨chunks, hchunks, h⟩ := bind_eq_ok_iff.1 h
  obtain ⟨-, rfl⟩ := mapM_encodeTrack_eq_ok hchunks
  rw [← Except.ok.inj h, List.length_append, length_encodeHeader hheader, List.length_flatten,
    List.map_map]
  simp only [Function.comp_def, length_bytes_trackChunk]

/-! ## Events of known lengths -/

/-- Reads an event whose data has a known length. -/
def Event.read? (length : ℕ) (bs : Bytes) : Option (Event × Bytes) := do
  let (delta, bs) ← Vlq.read? bs
  let (data, bs) ← takeBytes? length bs
  return (⟨delta, data⟩, bs)

/-- Reads events whose data have known lengths, with nothing left over. -/
def readEvents? : List ℕ → Bytes → Option (List Event)
  | [], bs => if bs = [] then some [] else none
  | length :: lengths, bs =>
    match Event.read? length bs with
    | none => none
    | some (e, rest) => (readEvents? lengths rest).map (e :: ·)

/-- `Event.read? e.data.length` reads `e` back from `e.encode ++ rest`, whatever bytes `e.data`
holds. -/
theorem Event.read?_encode (e : Event) (rest : Bytes) :
    Event.read? e.data.length (e.encode ++ rest) = some (e, rest) := by
  rw [Event.read?, Event.encode, List.append_assoc, Vlq.read?_encode]
  simp only [Option.bind_eq_bind, Option.bind_some]
  rw [takeBytes?_append rfl]
  rfl

/-- **`readEvents?` finds the events of `encodeEvents events`**, given the lengths of their data. -/
theorem readEvents?_encodeEvents (events : List Event) :
    readEvents? (events.map fun e => e.data.length) (encodeEvents events) = some events := by
  induction events with
  | nil => rfl
  | cons e es ih =>
    have hbody : encodeEvents (e :: es) = e.encode ++ encodeEvents es := List.flatMap_cons
    rw [List.map_cons, hbody, readEvents?, e.read?_encode]
    dsimp only
    rw [ih, Option.map_some]

/-! ## Nothing is lost -/

/-- **A file holds all that was put into it, and is refused only for want of room.**

Either `Fits tracks division format`: then `encodeFile` makes a file, `Contents.read?` consumes all
of it and finds the format, the number of tracks, the division, and one body for every track, in
order; `readEvents?` finds all events of a track in its body, given the lengths of their data; and
the size of the file is that of its chunks. Or some field is too narrow, and `encodeFile` fails with
`.fieldOverflow`. -/
theorem encodeFile_lossless (tracks : List (List Event)) (division format : ℤ) :
    (Fits tracks division format ∧ ∃ (data : Bytes) (contents : Contents),
      encodeFile tracks division format = .ok data ∧
      Contents.read? data = some contents ∧
      (contents.format : ℤ) = format ∧ contents.announced = tracks.length ∧
      (contents.division : ℤ) = division ∧ contents.bodies = tracks.map encodeEvents ∧
      List.Forall₂ (fun t body => readEvents? (t.map fun e => e.data.length) body = some t)
        tracks contents.bodies ∧
      data.length = 14 + (contents.bodies.map fun body => 8 + body.length).sum) ∨
    (¬Fits tracks division format ∧
      encodeFile tracks division format = .error .fieldOverflow) := by
  cases h : encodeFile tracks division format with
  | error f =>
    refine .inr ⟨fun hfits => ?_, by rw [eq_fieldOverflow_of_encodeFile h]⟩
    obtain ⟨data, hdata⟩ := exists_encodeFile_iff.2 hfits
    rw [h] at hdata
    exact absurd hdata (by simp)
  | ok data =>
    have hfits := exists_encodeFile_iff.1 ⟨data, h⟩
    refine .inl ⟨hfits, data, _, rfl, Contents.read?_encodeFile h,
      Int.toNat_of_nonneg hfits.format.1, rfl, Int.toNat_of_nonneg hfits.division.1, rfl, ?_, ?_⟩
    · rw [List.forall₂_map_right_iff, List.forall₂_same]
      exact fun t _ => readEvents?_encodeEvents t
    · rw [length_encodeFile h, List.map_map]
      rfl

end Smf

end Monochord
