import Mathlib.Tactic.Ring
import Monochord.Proofs.Outcome
import Monochord.Smf.File

/-! # Reading Standard MIDI Files

A reader for the container that `Monochord.Smf` writes. It knows nothing of the writer: it takes
bytes from the front, one field after another, and says what it found and what is left.

* **`Vlq.read?`** — a variable-length quantity of any length; `Vlq.read?_encode` reads back what was
  written, whatever follows, and `Vlq.length_encode_le_iff` counts its bytes.
* **`takeBytes?`**, **`readField?`** — some bytes, and a big-endian number in some bytes.
* **`readAll?`** — items until nothing is left; `readAll?_flatMap` lifts reading one item to reading
  a sequence of them.
* **`Contents.read?`** — header and track chunks; `Contents.read?_encodeFile` finds the format, the
  number of tracks, the division and the bodies of the tracks. -/

namespace Monochord

/-! ## Variable-length quantities -/

/-- Reads groups of seven bits, after a number that the groups before have written, up to the first
byte without its high bit. -/
def Vlq.readFrom? : Nat → Bytes → Option (Nat × Bytes)
  | _, [] => none
  | n, b :: bs =>
    if b.toNat < 128 then some (128 * n + b.toNat, bs)
    else readFrom? (128 * n + (b.toNat - 128)) bs

/-- Reads a variable-length quantity, and says what follows it. -/
def Vlq.read? (bs : Bytes) : Option (Nat × Bytes) := readFrom? 0 bs

/-- `128 + d` is a byte if `d < 128`. -/
theorem Vlq.toNat_continuation {d : Nat} (hd : d < 128) :
    (UInt8.ofNat (128 + d)).toNat = 128 + d :=
  UInt8.toNat_ofNat_of_lt' (show 128 + d < 256 by omega)

/-- A byte `128 + d` with `d < 128` takes `readFrom? n` to `128 * n + d`, and it goes on. -/
theorem Vlq.readFrom?_continue (n d : Nat) (hd : d < 128) (bs : Bytes) :
    readFrom? n (UInt8.ofNat (128 + d) :: bs) = readFrom? (128 * n + d) bs := by
  rw [readFrom?, toNat_continuation hd, if_neg (by omega), Nat.add_sub_cancel_left]

/-- A byte `d < 128` ends the quantity at `128 * n + d`. -/
theorem Vlq.readFrom?_stop (n d : Nat) (hd : d < 128) (bs : Bytes) :
    readFrom? n (UInt8.ofNat d :: bs) = some (128 * n + d, bs) := by
  have hb : (UInt8.ofNat d).toNat = d := UInt8.toNat_ofNat_of_lt' (show d < 256 by omega)
  rw [readFrom?, hb, if_pos hd]

/-- `leading n` takes `readFrom? 0` to `readFrom? n`. -/
theorem Vlq.readFrom?_leading (n : Nat) (bs : Bytes) :
    readFrom? 0 (leading n ++ bs) = readFrom? n bs := by
  -- the recursion of the writer, which makes the last group first: the reader has come to `n / 128`
  -- when it meets that group
  induction n using Vlq.leading.induct generalizing bs with
  | case1 => rw [leading, if_pos rfl, List.nil_append]
  | case2 n hn ih =>
    rw [leading, if_neg hn, List.append_assoc, ih, List.singleton_append,
      readFrom?_continue _ _ (Nat.mod_lt _ (by decide)), Nat.div_add_mod]

/-- **`read? (encode n ++ rest) = some (n, rest)`.** -/
theorem Vlq.read?_encode (n : Nat) (rest : Bytes) : read? (encode n ++ rest) = some (n, rest) := by
  rw [read?, encode, List.append_assoc, readFrom?_leading, List.singleton_append,
    readFrom?_stop _ _ (Nat.mod_lt _ (by decide)), Nat.div_add_mod]

/-- `encode n ≠ []`: a quantity has its last byte at least. -/
theorem Vlq.encode_ne_nil (n : Nat) : encode n ≠ [] := by
  simp [encode]

/-- `(leading n).length` is the number of digits of `n` in base 128. -/
theorem Vlq.length_leading_le_iff {n k : Nat} : (leading n).length ≤ k ↔ n < 128 ^ k := by
  induction n using Vlq.leading.induct generalizing k with
  | case1 => simp [leading]
  | case2 n hn ih =>
    rw [leading, if_neg hn, List.length_append, List.length_singleton]
    cases k with
    | zero => exact iff_of_false (by omega) (by rw [pow_zero]; omega)
    | succ k => rw [Nat.succ_le_succ_iff, ih, Nat.div_lt_iff_lt_mul (by decide), pow_succ]

/-- **`(encode n).length ≤ k ↔ n < 128 ^ k`** for `0 < k`; zero has one byte. -/
theorem Vlq.length_encode_le_iff {n k : Nat} (hk : 0 < k) :
    (encode n).length ≤ k ↔ n < 128 ^ k := by
  obtain ⟨k, rfl⟩ := Nat.exists_eq_succ_of_ne_zero hk.ne'
  rw [encode, List.length_append, List.length_singleton, Nat.succ_le_succ_iff,
    length_leading_le_iff, Nat.div_lt_iff_lt_mul (by decide), pow_succ]

/-! ## Fields of fixed width -/

/-- The number that bytes write in base 256, the most significant byte first. -/
def ofBigEndian (bs : Bytes) : Nat := bs.foldl (fun n b => 256 * n + b.toNat) 0

/-- One byte more is `256 * ofBigEndian bs + b.toNat`. -/
theorem ofBigEndian_append_singleton (bs : Bytes) (b : UInt8) :
    ofBigEndian (bs ++ [b]) = 256 * ofBigEndian bs + b.toNat := by
  simp [ofBigEndian]

/-- `ofBigEndian (bigEndian width n) = n % 256 ^ width`. -/
theorem ofBigEndian_bigEndian (width n : Nat) :
    ofBigEndian (bigEndian width n) = n % 256 ^ width := by
  induction width generalizing n with
  | zero => simp [bigEndian, ofBigEndian, Nat.mod_one]
  | succ w ih =>
    have hb : (UInt8.ofNat (n % 256)).toNat = n % 256 :=
      UInt8.toNat_ofNat_of_lt' (show n % 256 < 256 by omega)
    rw [bigEndian, ofBigEndian_append_singleton, ih, hb, pow_succ', Nat.mod_mul, add_comm]

/-- Takes a number of bytes from the front; fails if there are fewer. -/
def takeBytes? (count : Nat) (bs : Bytes) : Option (Bytes × Bytes) :=
  if count ≤ bs.length then some (bs.take count, bs.drop count) else none

/-- `takeBytes? count (data ++ rest) = some (data, rest)` if `data.length = count`. -/
theorem takeBytes?_append {count : Nat} {data : Bytes} (h : data.length = count) (rest : Bytes) :
    takeBytes? count (data ++ rest) = some (data, rest) := by
  subst h
  simp [takeBytes?]

/-- Takes a big-endian number of a fixed width from the front. -/
def readField? (width : Nat) (bs : Bytes) : Option (Nat × Bytes) :=
  (takeBytes? width bs).map fun p => (ofBigEndian p.1, p.2)

/-- `readField? width` reads `n` back from `bigEndian width n` if `n < 256 ^ width`. -/
theorem readField?_bigEndian (width n : Nat) (h : n < 256 ^ width) (rest : Bytes) :
    readField? width (bigEndian width n ++ rest) = some (n, rest) := by
  rw [readField?, takeBytes?_append (length_bigEndian width n), Option.map_some,
    ofBigEndian_bigEndian, Nat.mod_eq_of_lt h]

/-- `encodeField width n` succeeds exactly if `0 ≤ n < 256 ^ width`, and then with
`bigEndian width n.toNat`. -/
theorem encodeField_eq_ok_iff {width : Nat} {n : Int} {data : Bytes} :
    encodeField width n = .ok data ↔
      (0 ≤ n ∧ n < 256 ^ width) ∧ data = bigEndian width n.toNat := by
  have hpow : ((Nat.pow 256 width : Nat) : Int) = 256 ^ width := by
    rw [Nat.pow_eq, Nat.cast_pow]
    rfl
  rw [encodeField, hpow]
  split
  · next h => simp [h, eq_comm]
  · next h => simp [h]

/-- `data.length = width` if `encodeField width n = .ok data`. -/
theorem length_of_encodeField {width : Nat} {n : Int} {data : Bytes}
    (h : encodeField width n = .ok data) : data.length = width := by
  rw [(encodeField_eq_ok_iff.1 h).2, length_bigEndian]

/-- **`readField? width` reads back what `encodeField width n` has written.** -/
theorem readField?_encodeField {width : Nat} {n : Int} {data : Bytes}
    (h : encodeField width n = .ok data) (rest : Bytes) :
    readField? width (data ++ rest) = some (n.toNat, rest) ∧ (n.toNat : Int) = n := by
  obtain ⟨⟨h0, hn⟩, rfl⟩ := encodeField_eq_ok_iff.1 h
  have hfit : n.toNat < 256 ^ width := (Int.toNat_lt h0).2 (by exact_mod_cast hn)
  exact ⟨readField?_bigEndian width _ hfit rest, Int.toNat_of_nonneg h0⟩

/-! ## Sequences of items -/

/-- Reads items until nothing is left. An item that takes no bytes would never come to an end, so it
counts as a failure. -/
def readAll? {α : Type} (read : Bytes → Option (α × Bytes)) (bs : Bytes) : Option (List α) :=
  if bs = [] then some []
  else
    match read bs with
    | none => none
    | some (a, rest) =>
      if rest.length < bs.length then (readAll? read rest).map (a :: ·) else none
termination_by bs.length

/-- **`readAll? read` finds the items of `as.flatMap write`**, if `read` undoes `write` in front of
anything. -/
theorem readAll?_flatMap {α : Type} (read : Bytes → Option (α × Bytes)) (write : α → Bytes)
    (as : List α) (hne : ∀ a ∈ as, write a ≠ [])
    (hread : ∀ a ∈ as, ∀ rest, read (write a ++ rest) = some (a, rest)) :
    readAll? read (as.flatMap write) = some as := by
  induction as with
  | nil => rw [List.flatMap_nil, readAll?, if_pos rfl]
  | cons a as ih =>
    -- an item takes at least one byte, so that the reader goes on with less
    have hpos : 0 < (write a).length := List.length_pos_iff.2 (hne a List.mem_cons_self)
    have hshort : (as.flatMap write).length < (write a ++ as.flatMap write).length := by
      rw [List.length_append]
      omega
    have htail := ih (fun b hb => hne b (List.mem_cons_of_mem a hb))
      (fun b hb => hread b (List.mem_cons_of_mem a hb))
    rw [List.flatMap_cons, readAll?, if_neg (by simp [hne a List.mem_cons_self]),
      hread a List.mem_cons_self]
    dsimp only
    rw [if_pos hshort, htail, Option.map_some]

namespace Smf

/-! ## Chunks -/

/-- A chunk as a reader finds it. -/
structure Chunk where
  /-- The four letters at its front. -/
  name : Bytes
  /-- What its length counts. -/
  body : Bytes
deriving Repr, DecidableEq

/-- Reads a chunk: four letters, a length in four bytes, and as many bytes as that says. -/
def Chunk.read? (bs : Bytes) : Option (Chunk × Bytes) := do
  let (name, bs) ← takeBytes? 4 bs
  let (length, bs) ← readField? 4 bs
  let (body, bs) ← takeBytes? length bs
  return (⟨name, body⟩, bs)

/-- The bytes of a chunk whose body is not too long. -/
def Chunk.bytes (c : Chunk) : Bytes := c.name ++ bigEndian 4 c.body.length ++ c.body

/-- `Chunk.read? (c.bytes ++ rest) = some (c, rest)`, if the name has four letters and the body fits
its length field. -/
theorem Chunk.read?_bytes {c : Chunk} (hname : c.name.length = 4)
    (hbody : c.body.length < 256 ^ 4) (rest : Bytes) :
    Chunk.read? (c.bytes ++ rest) = some (c, rest) := by
  rw [Chunk.read?, Chunk.bytes, List.append_assoc, List.append_assoc, takeBytes?_append hname]
  simp only [Option.bind_eq_bind, Option.bind_some]
  rw [readField?_bigEndian 4 _ hbody]
  simp only [Option.bind_some]
  rw [takeBytes?_append rfl]
  rfl

/-- `encodeTrack events` succeeds exactly if the body fits its length field, and then with the bytes
of `⟨trackName, encodeEvents events⟩`. -/
theorem encodeTrack_eq_ok_iff {events : List Event} {data : Bytes} :
    encodeTrack events = .ok data ↔
      (encodeEvents events).length < 256 ^ 4 ∧
        data = Chunk.bytes ⟨trackName, encodeEvents events⟩ := by
  rw [encodeTrack, bind_eq_ok_iff]
  simp only [encodeField_eq_ok_iff, pure_eq_ok, Except.ok.injEq, Chunk.bytes]
  constructor
  · rintro ⟨length, ⟨⟨-, hlt⟩, rfl⟩, rfl⟩
    exact ⟨by exact_mod_cast hlt, by rw [Int.toNat_natCast]⟩
  · rintro ⟨hlt, rfl⟩
    exact ⟨_, ⟨⟨Int.natCast_nonneg _, by exact_mod_cast hlt⟩, rfl⟩, by rw [Int.toNat_natCast]⟩

/-! ## Whole files -/

/-- What a reader finds in a file before it looks into the tracks. -/
structure Contents where
  /-- The format. -/
  format : Nat
  /-- The number of tracks that the header announces. -/
  announced : Nat
  /-- The ticks in a quarter note. -/
  division : Nat
  /-- The bodies of the track chunks. -/
  bodies : List Bytes
deriving Repr, DecidableEq

/-- Reads the body of a header chunk: three numbers of two bytes, and nothing else. -/
def readHeader? (body : Bytes) : Option (Nat × Nat × Nat) := do
  let (format, bs) ← readField? 2 body
  let (announced, bs) ← readField? 2 bs
  let (division, bs) ← readField? 2 bs
  if bs = [] then some (format, announced, division) else none

/-- The body of a track chunk; other chunks are refused. -/
def Chunk.track? (c : Chunk) : Option Bytes := if c.name = trackName then some c.body else none

/-- Reads a file: a header chunk first, then track chunks up to the end. -/
def Contents.read? (bs : Bytes) : Option Contents := do
  match ← readAll? Chunk.read? bs with
  | [] => none
  | header :: tracks =>
    if header.name = headerName then
      let (format, announced, division) ← readHeader? header.body
      let bodies ← tracks.mapM Chunk.track?
      some ⟨format, announced, division, bodies⟩
    else none

/-- A header that is written is a chunk named `headerName`, whose body has a field of two bytes for
the format, the number of tracks and the division each. -/
theorem encodeHeader_eq_ok {tracks division format : Int} {data : Bytes}
    (h : encodeHeader tracks division format = .ok data) :
    ∃ f t d, encodeField 2 format = .ok f ∧ encodeField 2 tracks = .ok t ∧
      encodeField 2 division = .ok d ∧ data = Chunk.bytes ⟨headerName, f ++ (t ++ d)⟩ := by
  simp only [encodeHeader, bind_eq_ok_iff, pure_eq_ok, Except.ok.injEq] at h
  obtain ⟨f, hf, t, ht, d, hd, rfl⟩ := h
  have hlength : (f ++ (t ++ d)).length = headerLength := by
    rw [List.length_append, List.length_append, length_of_encodeField hf, length_of_encodeField ht,
      length_of_encodeField hd]
    rfl
  -- the three fields are as long as the length field of the header says
  refine ⟨f, t, d, hf, ht, hd, ?_⟩
  rw [Chunk.bytes, hlength]
  simp only [List.append_assoc]

/-- `readHeader?` reads the three fields of a header back. -/
theorem readHeader?_fields {format tracks division : Int} {f t d : Bytes}
    (hf : encodeField 2 format = .ok f) (ht : encodeField 2 tracks = .ok t)
    (hd : encodeField 2 division = .ok d) :
    readHeader? (f ++ (t ++ d)) = some (format.toNat, tracks.toNat, division.toNat) := by
  rw [readHeader?, (readField?_encodeField hf _).1]
  simp only [Option.bind_eq_bind, Option.bind_some]
  rw [(readField?_encodeField ht _).1]
  simp only [Option.bind_some]
  rw [← List.append_nil d, (readField?_encodeField hd _).1]
  rfl

/-- The chunk in which a track is kept. -/
def trackChunk (events : List Event) : Chunk := ⟨trackName, encodeEvents events⟩

/-- `tracks.mapM encodeTrack` succeeds only if every body fits its length field, and then with the
bytes of `trackChunk t` for every track. -/
theorem mapM_encodeTrack_eq_ok {tracks : List (List Event)} {chunks : List Bytes}
    (h : tracks.mapM encodeTrack = .ok chunks) :
    (∀ t ∈ tracks, (encodeEvents t).length < 256 ^ 4) ∧
      chunks = tracks.map fun t => (trackChunk t).bytes := by
  rw [mapM_eq_ok_iff] at h
  induction h with
  | nil => exact ⟨by simp, rfl⟩
  | cons hchunk _ ih =>
    obtain ⟨hlt, rfl⟩ := encodeTrack_eq_ok_iff.1 hchunk
    rw [ih.2, List.forall_mem_cons]
    exact ⟨⟨hlt, ih.1⟩, rfl⟩

/-- A file that is written is `Chunk.bytes` of its chunks: the header, and `trackChunk t` for every
track. -/
theorem encodeFile_eq_ok {tracks : List (List Event)} {division format : Int} {data : Bytes}
    (h : encodeFile tracks division format = .ok data) :
    ∃ f t d, encodeField 2 format = .ok f ∧ encodeField 2 tracks.length = .ok t ∧
      encodeField 2 division = .ok d ∧ (∀ t ∈ tracks, (encodeEvents t).length < 256 ^ 4) ∧
      data = (⟨headerName, f ++ (t ++ d)⟩ :: tracks.map trackChunk).flatMap Chunk.bytes := by
  simp only [encodeFile, bind_eq_ok_iff, pure_eq_ok, Except.ok.injEq] at h
  obtain ⟨_, hheader, chunks, hchunks, rfl⟩ := h
  obtain ⟨f, t, d, hf, ht, hd, rfl⟩ := encodeHeader_eq_ok hheader
  obtain ⟨hlength, rfl⟩ := mapM_encodeTrack_eq_ok hchunks
  refine ⟨f, t, d, hf, ht, hd, hlength, ?_⟩
  rw [List.flatMap_cons, List.flatMap_map, List.flatMap_def]

/-- `Chunk.track?` finds `encodeEvents t` in every `trackChunk t`. -/
theorem mapM_track?_trackChunk (tracks : List (List Event)) :
    (tracks.map trackChunk).mapM Chunk.track? = some (tracks.map encodeEvents) := by
  rw [List.mapM_map]
  exact List.mapM_pure (f := encodeEvents)

/-- **`Contents.read?` undoes `encodeFile`**: it finds the format, the number of tracks, the
division and the body of every track, in order and with nothing left over. -/
theorem Contents.read?_encodeFile {tracks : List (List Event)} {division format : Int}
    {data : Bytes} (h : encodeFile tracks division format = .ok data) :
    Contents.read? data =
      some ⟨format.toNat, tracks.length, division.toNat, tracks.map encodeEvents⟩ := by
  obtain ⟨f, t, d, hf, ht, hd, hlength, rfl⟩ := encodeFile_eq_ok h
  have hheader : (f ++ (t ++ d)).length = 6 := by
    rw [List.length_append, List.length_append, length_of_encodeField hf, length_of_encodeField ht,
      length_of_encodeField hd]
  have hchunks := readAll?_flatMap Chunk.read? Chunk.bytes
    (⟨headerName, f ++ (t ++ d)⟩ :: tracks.map trackChunk)
    (by simp [Chunk.bytes, trackChunk, headerName, trackName])
    (by
      intro c hc rest
      -- the header has six bytes, and the tracks fit
      rcases List.mem_cons.1 hc with rfl | hc
      · exact Chunk.read?_bytes rfl (by rw [hheader]; decide) rest
      · obtain ⟨events, hevents, rfl⟩ := List.mem_map.1 hc
        exact Chunk.read?_bytes rfl (hlength events hevents) rest)
  rw [Contents.read?, hchunks]
  simp only [Option.bind_eq_bind, Option.bind_some, if_true]
  rw [readHeader?_fields hf ht hd]
  simp only [Option.bind_some]
  rw [mapM_track?_trackChunk]
  rfl

end Smf

end Monochord
