import GoSmpp.Utf8
import GoSmpp.Transform

/-!
# `charmap`: single-byte encodings

`golang.org/x/text/encoding/charmap`'s `Charmap` and its two transformers. The decoder turns
each byte into the UTF-8 its table holds; the encoder reads a rune at a time, ASCII directly and
the rest through `utf8.DecodeRune`, and finds the rune's byte by a binary search of the encode
table. Both are proved to do their whole-input work a piece at a time (`Chunks`), for every
charmap, so that `transform.Bytes` runs them to the end. The last section proves the binary
search equal to a linear scan of the table wherever the table is sorted by rune.
-/

namespace GoSmpp

open Utf8 Transform

/-- `utf8Enc`: a decode-table entry, the UTF-8 of a byte's rune in `data[:len]`. -/
structure Utf8Enc where
  /-- How many bytes of `data` are in use. -/
  len : Nat
  /-- `data [3]byte`. -/
  data : List UInt8
  /-- The array holds three bytes. -/
  data_length : data.length = 3
  /-- Only bytes of the array are in use. -/
  len_le : len ≤ 3

/-- `Charmap`, an 8-bit character set encoding. Its name and MIB are not read by the code
modelled here. -/
structure Charmap where
  /-- Whether the encoding is a superset of ASCII. -/
  asciiSuperset : Bool
  /-- The lowest encoded byte of a non-ASCII rune. -/
  low : UInt8
  /-- The encoded replacement character. -/
  replacement : UInt8
  /-- The map from encoded byte to UTF-8. -/
  decode : UInt8 → Utf8Enc
  /-- The map from runes to encoded bytes, entries 0 to 255: the high 8 bits are the encoded
  byte and the low 24 bits the rune, sorted by ascending rune. -/
  encode : Nat → UInt32

/-! ## The decoder -/

/-- The bytes `charmapDecoder` writes for `c`: `c` itself when it is ASCII and the charmap an
ASCII superset, otherwise the bytes in use of its table entry. -/
def Charmap.decodeUnit (m : Charmap) (c : UInt8) : List UInt8 :=
  if m.asciiSuperset ∧ c.toNat < runeSelf then [c] else (m.decode c).data.take (m.decode c).len

/-- `charmapDecoder.Transform`: decode byte after byte while the output fits in the `room`
left in `dst`. -/
def charmapDecoder.transform (m : Charmap) : Nat → List UInt8 → Step
  | _, [] => ⟨[], 0, none⟩
  | room, c :: src =>
    if m.asciiSuperset ∧ c.toNat < runeSelf then
      if room = 0 then ⟨[], 0, some .errShortDst⟩
      else Step.emit [c] 1 (charmapDecoder.transform m (room - 1) src)
    else
      if room < (m.decode c).len then ⟨[], 0, some .errShortDst⟩
      else Step.emit ((m.decode c).data.take (m.decode c).len) 1
        (charmapDecoder.transform m (room - (m.decode c).len) src)

/-- `charmapDecoder` as a transformer; it never looks at `atEOF`. -/
def charmapDecoder (m : Charmap) : Transformer := fun room src _ =>
  charmapDecoder.transform m room src

/-- `Charmap.NewDecoder`: an `encoding.Decoder` around `charmapDecoder`, which `transform.Bytes`
runs as it is. -/
def Charmap.newDecoder (m : Charmap) : Transformer := charmapDecoder m

/-- The whole work of the decoder: every byte's unit, all of the input, no error. -/
def Charmap.decodeAll (m : Charmap) (src : List UInt8) : Step :=
  ⟨src.flatMap m.decodeUnit, src.length, none⟩

/-- A decoded unit is one to three bytes long, three being the array's size. -/
theorem Charmap.decodeUnit_length_le (m : Charmap) (c : UInt8) : (m.decodeUnit c).length ≤ 3 := by
  unfold decodeUnit
  split_ifs
  · simp
  · simp only [List.length_take, (m.decode c).data_length]; exact Nat.min_le_right _ _

/-- One turn of the decoder's loop: stop when the unit does not fit, otherwise write it. The two
branches of the source agree on this. -/
theorem charmapDecoder.transform_cons (m : Charmap) (room : Nat) (c : UInt8) (src : List UInt8) :
    charmapDecoder.transform m room (c :: src) =
      if room < (m.decodeUnit c).length then ⟨[], 0, some .errShortDst⟩
      else Step.emit (m.decodeUnit c) 1
        (charmapDecoder.transform m (room - (m.decodeUnit c).length) src) := by
  unfold Charmap.decodeUnit
  by_cases h : m.asciiSuperset ∧ c.toNat < runeSelf
  · simp only [transform, if_pos h, List.length_singleton, Nat.lt_one_iff]
  · have hlen : ((m.decode c).data.take (m.decode c).len).length = (m.decode c).len := by
      simp only [List.length_take, (m.decode c).data_length]
      exact Nat.min_eq_left (m.decode c).len_le
    simp only [transform, if_neg h, hlen]

namespace charmapDecoder

variable (m : Charmap)

@[simp] theorem transform_nil (room : Nat) : transform m room [] = ⟨[], 0, none⟩ := rfl

/-- A decoder call that did not run out of room decoded everything. -/
theorem transform_done (room : Nat) (src : List UInt8)
    (h : (transform m room src).err ≠ some .errShortDst) :
    transform m room src = m.decodeAll src := by
  induction src generalizing room with
  | nil => rfl
  | cons c src ih =>
    rw [transform_cons] at h ⊢
    split_ifs at h ⊢ with hc
    · exact absurd rfl h
    · rw [ih _ h]; simp [Step.emit, Step.andThen, Charmap.decodeAll, Nat.add_comm]

/-- A decoder call writes within its room. -/
theorem transform_fits (room : Nat) (src : List UInt8) :
    (transform m room src).out.length ≤ room := by
  induction src generalizing room with
  | nil => simp
  | cons c src ih =>
    rw [transform_cons]
    split_ifs with hc
    · simp
    · have := ih (room - (m.decodeUnit c).length)
      simp only [Step.emit, Step.andThen_out, List.length_append]; omega

/-- A decoder call that ran out of room decoded a prefix, and decoding the rest finishes the job. -/
theorem transform_resume (room : Nat) (src : List UInt8)
    (h : (transform m room src).err = some .errShortDst) :
    (transform m room src).nSrc ≤ src.length ∧
      m.decodeAll src =
        (transform m room src).andThen (m.decodeAll (src.drop (transform m room src).nSrc)) := by
  induction src generalizing room with
  | nil => simp at h
  | cons c src ih =>
    rw [transform_cons] at h ⊢
    split_ifs at h ⊢ with hc
    · simp [Step.andThen]
    · obtain ⟨hn, hd⟩ := ih _ h
      simp only [Step.emit, Step.andThen_nSrc, List.length_cons]
      refine ⟨by omega, ?_⟩
      rw [Nat.add_comm, List.drop_succ_cons, Step.andThen_assoc, ← hd]
      simp [Step.andThen, Charmap.decodeAll, Nat.add_comm]

end charmapDecoder

/-- The decoder of every charmap does its whole work a piece at a time, in units of at most
three bytes. -/
theorem charmapDecoder_chunks (m : Charmap) : Chunks (charmapDecoder m) m.decodeAll 3 where
  done room src h := charmapDecoder.transform_done m room src h
  fits room src := charmapDecoder.transform_fits m room src
  reads room src h hout := by
    cases src with
    | nil => simp [charmapDecoder] at h
    | cons c src =>
      simp only [charmapDecoder, charmapDecoder.transform_cons] at h hout ⊢
      split_ifs at h hout ⊢
      · exact absurd rfl hout
      · simp only [Step.emit_nSrc]; omega
  progress room src h hroom := by
    cases src with
    | nil => simp [charmapDecoder] at h
    | cons c src =>
      have := m.decodeUnit_length_le c
      simp only [charmapDecoder, charmapDecoder.transform_cons] at h ⊢
      split_ifs at h ⊢
      · omega
      · simp only [Step.emit_nSrc]; omega
  resume room src h := charmapDecoder.transform_resume m room src h

/-! ## The encoder -/

/-- The binary search of `charmapEncoder.Transform` in `encode[low:high]`, for at most `fuel`
halvings: the encoded byte of the rune `r`, when the table has it. -/
def Charmap.search (m : Charmap) (r : Nat) : (fuel low high : Nat) → Option UInt8
  | 0, _, _ => none
  | fuel + 1, low, high =>
    if high ≤ low then none
    else
      let mid := (low + high) / 2
      let got := m.encode mid
      let gotRune := (got &&& ((1 : UInt32) <<< 24 - 1)).toNat
      if gotRune < r then m.search r fuel (mid + 1) high
      else if r < gotRune then m.search r fuel low mid
      else some (got >>> 24).toUInt8

/-- The table lookup of the encoder: the byte of the rune `r`, which took `size` source bytes,
or the repertoire error. The search runs over `[low, 0x100)`, which 256 halvings exhaust. -/
def Charmap.lookup (m : Charmap) (r size : Nat) : Except TransformError (UInt8 × Nat) :=
  match m.search r 0x100 m.low.toNat 0x100 with
  | some b => .ok (b, size)
  | none => .error (.repertoireError m.replacement)

/-- One turn of `charmapEncoder.Transform`'s loop, once `dst` has room, at the byte `c` followed
by `src`: the byte to write and the source bytes it stands for, or the error to stop on. An ASCII
byte is its own rune; any other byte starts a rune for `utf8.DecodeRune`, whose width 1 means an
invalid or cut-off sequence. -/
def Charmap.encodeUnit (m : Charmap) (atEOF : Bool) (c : UInt8) (src : List UInt8) :
    Except TransformError (UInt8 × Nat) :=
  if c.toNat < runeSelf then
    if m.asciiSuperset then .ok (c, 1) else m.lookup c.toNat 1
  else
    let (r, size) := decodeRune (c :: src)
    if size = 1 then
      .error
        (if !atEOF && !fullRune (c :: src) then .errShortSrc else .repertoireError m.replacement)
    else m.lookup r size

/-- `charmapEncoder.Transform` for at most `fuel` runes: encode while `dst` has room. -/
def charmapEncoder.transform (m : Charmap) (atEOF : Bool) : (fuel room : Nat) → List UInt8 → Step
  | _, _, [] => ⟨[], 0, none⟩
  | 0, _, _ :: _ => ⟨[], 0, none⟩
  | fuel + 1, room, c :: src =>
    if room = 0 then ⟨[], 0, some .errShortDst⟩
    else
      match m.encodeUnit atEOF c src with
      | .error e => ⟨[], 0, some e⟩
      | .ok (b, size) =>
        Step.emit [b] size (charmapEncoder.transform m atEOF fuel (room - 1) ((c :: src).drop size))

/-- `charmapEncoder` as a transformer. Every rune takes at least one source byte, so as many
turns as `src` has bytes are enough for Go's loop. -/
def charmapEncoder (m : Charmap) : Transformer := fun room src atEOF =>
  charmapEncoder.transform m atEOF src.length room src

/-- `Charmap.NewEncoder`: an `encoding.Encoder` around `charmapEncoder`, which `transform.Bytes`
runs as it is. -/
def Charmap.newEncoder (m : Charmap) : Transformer := charmapEncoder m

/-- The encoder's loop as if `dst` never filled up, for at most `fuel` runes, at the end of the
input. -/
def Charmap.encodeRuns (m : Charmap) : (fuel : Nat) → List UInt8 → Step
  | _, [] => ⟨[], 0, none⟩
  | 0, _ :: _ => ⟨[], 0, none⟩
  | fuel + 1, c :: src =>
    match m.encodeUnit true c src with
    | .error e => ⟨[], 0, some e⟩
    | .ok (b, size) => Step.emit [b] size (m.encodeRuns fuel ((c :: src).drop size))

/-- The whole work of the encoder: every unit, until the input ends or a unit fails. -/
def Charmap.encodeAll (m : Charmap) (src : List UInt8) : Step := m.encodeRuns src.length src

namespace Charmap

variable (m : Charmap)

/-- A found rune keeps the width it was read with. -/
theorem lookup_ok {r size : Nat} {b : UInt8} {n : Nat} (h : m.lookup r size = .ok (b, n)) :
    n = size := by
  unfold lookup at h
  split at h <;> simp_all

/-- A lookup fails only with the repertoire error. -/
theorem lookup_error {r size : Nat} {e : TransformError} (h : m.lookup r size = .error e) :
    e = .repertoireError m.replacement := by
  unfold lookup at h
  split at h <;> simp_all

/-- A unit reads at least one byte and no more than there are. -/
theorem encodeUnit_ok {atEOF : Bool} {c : UInt8} {src : List UInt8} {b : UInt8} {size : Nat}
    (h : m.encodeUnit atEOF c src = .ok (b, size)) : 1 ≤ size ∧ size ≤ src.length + 1 := by
  unfold encodeUnit at h
  by_cases hc : c.toNat < runeSelf
  · rw [if_pos hc] at h
    split at h
    · cases h; omega
    · rw [m.lookup_ok h]; omega
  · rcases hd : decodeRune (c :: src) with ⟨r, n⟩
    have h0 := decodeRune_cons_width c src
    have hl := decodeRune_width_le (c :: src)
    simp only [hd, List.length_cons, if_neg hc] at h h0 hl
    split_ifs at h with hn
    · rw [m.lookup_ok h]; omega

/-- A unit never fails for want of room. -/
theorem encodeUnit_error {atEOF : Bool} {c : UInt8} {src : List UInt8} {e : TransformError}
    (h : m.encodeUnit atEOF c src = .error e) : e ≠ .errShortDst := by
  unfold encodeUnit at h
  by_cases hc : c.toNat < runeSelf
  · rw [if_pos hc] at h
    split at h
    · cases h
    · rw [m.lookup_error h]; nofun
  · rcases hd : decodeRune (c :: src) with ⟨r, n⟩
    simp only [hd, if_neg hc] at h
    split_ifs at h <;> first | (cases h; nofun) | (rw [m.lookup_error h]; nofun)

/-- At the end of the input a unit fails only with the repertoire error: a cut-off sequence is
no longer short but invalid. -/
theorem encodeUnit_error_atEOF {c : UInt8} {src : List UInt8} {e : TransformError}
    (h : m.encodeUnit true c src = .error e) : e = .repertoireError m.replacement := by
  unfold encodeUnit at h
  by_cases hc : c.toNat < runeSelf
  · rw [if_pos hc] at h
    split at h
    · cases h
    · exact m.lookup_error h
  · rcases hd : decodeRune (c :: src) with ⟨r, n⟩
    simp only [hd, if_neg hc] at h
    split_ifs at h with hn hs
    · simp at hs
    · simpa using h.symm
    · exact m.lookup_error h

/-- The rounds given to the unbounded loop do not matter once they cover the input. -/
theorem encodeRuns_fuel (f1 f2 : Nat) (src : List UInt8) (h1 : src.length ≤ f1)
    (h2 : src.length ≤ f2) :
    m.encodeRuns f1 src = m.encodeRuns f2 src := by
  induction f1 generalizing f2 src with
  | zero => cases src with
    | nil => cases f2 <;> rfl
    | cons => simp at h1
  | succ f1 ih =>
    cases src with
    | nil => cases f2 <;> rfl
    | cons c src =>
      obtain _ | f2 := f2
      · simp at h2
      simp only [List.length_cons] at h1 h2
      rcases hu : m.encodeUnit true c src with e | ⟨b, size⟩
      · simp only [encodeRuns, hu]
      · have := m.encodeUnit_ok hu
        simp only [encodeRuns, hu]
        rw [ih f2 _ (by simp; omega) (by simp; omega)]

/-- The whole work of the encoder on a nonempty input: the first unit, then the whole work on
what follows it. -/
theorem encodeAll_cons (c : UInt8) (src : List UInt8) :
    m.encodeAll (c :: src) =
      match m.encodeUnit true c src with
      | .error e => ⟨[], 0, some e⟩
      | .ok (b, size) => Step.emit [b] size (m.encodeAll ((c :: src).drop size)) := by
  rcases hu : m.encodeUnit true c src with e | ⟨b, size⟩
  · simp only [encodeAll, List.length_cons, encodeRuns, hu]
  · have := m.encodeUnit_ok hu
    simp only [encodeAll, List.length_cons, encodeRuns, hu]
    rw [m.encodeRuns_fuel _ _ _ (by simp; omega) le_rfl]

/-- Induction along the encoder's whole work: a property of the empty input, of every input
whose first unit fails, and of every input whose first unit succeeds once it holds of what
follows that unit, holds of every input. -/
theorem encodeAll_induction {P : List UInt8 → Prop} (nil : P [])
    (error : ∀ c src e, m.encodeUnit true c src = .error e → P (c :: src))
    (ok : ∀ c src b size, m.encodeUnit true c src = .ok (b, size) →
      P ((c :: src).drop size) → P (c :: src))
    : ∀ src, P src
  | [] => nil
  | c :: src =>
    match hu : m.encodeUnit true c src with
    | .error e => error c src e hu
    | .ok (b, size) =>
      have := m.encodeUnit_ok hu
      ok c src b size hu (encodeAll_induction nil error ok ((c :: src).drop size))
termination_by src => src.length
decreasing_by simp only [List.length_drop, List.length_cons]; omega

/-- The encoder's whole work ends without an error, having read all of its input, or with the
repertoire error. -/
theorem encodeAll_err (src : List UInt8) :
    (m.encodeAll src).err = none ∧ (m.encodeAll src).nSrc = src.length ∨
      (m.encodeAll src).err = some (.repertoireError m.replacement) := by
  induction src using m.encodeAll_induction with
  | nil => exact .inl ⟨rfl, rfl⟩
  | error c src e hu =>
    rw [m.encodeAll_cons, hu]
    exact .inr (congrArg some (m.encodeUnit_error_atEOF hu))
  | ok c src b size hu ih =>
    have := m.encodeUnit_ok hu
    rw [m.encodeAll_cons, hu]
    simp only [Step.emit_err, Step.emit_nSrc, List.length_drop, List.length_cons] at ih ⊢
    exact ih.imp_left fun ⟨he, hn⟩ => ⟨he, by omega⟩

end Charmap

namespace charmapEncoder

variable (m : Charmap)

@[simp] theorem transform_nil (atEOF : Bool) (fuel room : Nat) :
    transform m atEOF fuel room [] = ⟨[], 0, none⟩ := by
  cases fuel <;> rfl

/-- An encoder call that did not run out of room did the whole work. -/
theorem transform_done (fuel room : Nat) (src : List UInt8) (hf : src.length ≤ fuel)
    (h : (transform m true fuel room src).err ≠ some .errShortDst) :
    transform m true fuel room src = m.encodeAll src := by
  induction fuel generalizing room src with
  | zero => cases src with
    | nil => rfl
    | cons => simp at hf
  | succ fuel ih =>
    cases src with
    | nil => rfl
    | cons c src =>
      rw [m.encodeAll_cons]
      simp only [List.length_cons] at hf
      by_cases hr : room = 0
      · simp [transform, hr] at h
      rcases hu : m.encodeUnit true c src with e | ⟨b, size⟩
      · simp only [transform, hr, hu, if_false]
      · have := m.encodeUnit_ok hu
        simp only [transform, hr, hu, if_false, Step.emit_err] at h ⊢
        rw [ih _ _ (by simp; omega) h]

/-- An encoder call writes within its room. -/
theorem transform_fits (atEOF : Bool) (fuel room : Nat) (src : List UInt8) :
    (transform m atEOF fuel room src).out.length ≤ room := by
  induction fuel generalizing room src with
  | zero => cases src <;> simp [transform]
  | succ fuel ih =>
    cases src with
    | nil => simp
    | cons c src =>
      by_cases hr : room = 0
      · simp [transform, hr]
      rcases hu : m.encodeUnit atEOF c src with e | ⟨b, size⟩
      · simp [transform, hr, hu]
      · have := ih (room - 1) ((c :: src).drop size)
        simp only [transform, hr, hu, if_false, Step.emit_out, List.length_append,
          List.length_singleton]
        omega

/-- An encoder call that ran out of room did a prefix of the whole work. -/
theorem transform_resume (fuel room : Nat) (src : List UInt8) (hf : src.length ≤ fuel)
    (h : (transform m true fuel room src).err = some .errShortDst) :
    (transform m true fuel room src).nSrc ≤ src.length ∧
      m.encodeAll src = (transform m true fuel room src).andThen
        (m.encodeAll (src.drop (transform m true fuel room src).nSrc)) := by
  induction fuel generalizing room src with
  | zero => cases src with
    | nil => simp at h
    | cons => simp at hf
  | succ fuel ih =>
    cases src with
    | nil => simp at h
    | cons c src =>
      simp only [List.length_cons] at hf
      by_cases hr : room = 0
      · simp [transform, hr, Step.andThen]
      rcases hu : m.encodeUnit true c src with e | ⟨b, size⟩
      · simp only [transform, hr, hu, if_false, Option.some.injEq] at h
        exact absurd h (m.encodeUnit_error hu)
      · have hs := m.encodeUnit_ok hu
        simp only [transform, hr, hu, if_false, Step.emit_err, Step.emit_nSrc] at h ⊢
        obtain ⟨hn, hw⟩ := ih _ _ (by simp; omega) h
        simp only [List.length_drop, List.length_cons] at hn ⊢
        refine ⟨by omega, ?_⟩
        rw [m.encodeAll_cons, hu]
        dsimp only
        rw [hw, List.drop_drop, Nat.add_comm]
        simp only [Step.emit, Step.andThen_assoc]

/-- An encoder call with room that stopped for want of it had first written a unit. -/
theorem transform_nSrc_pos {fuel room : Nat} {src : List UInt8} (hf : src.length ≤ fuel)
    (hr : room ≠ 0) (h : (transform m true fuel room src).err = some .errShortDst) :
    0 < (transform m true fuel room src).nSrc := by
  obtain _ | fuel := fuel
  · cases src with
    | nil => simp at h
    | cons => simp at hf
  cases src with
  | nil => simp at h
  | cons c src =>
    rcases hu : m.encodeUnit true c src with e | ⟨b, size⟩
    · simp only [transform, hr, hu, if_false, Option.some.injEq] at h
      exact absurd h (m.encodeUnit_error hu)
    · have := m.encodeUnit_ok hu
      simp only [transform, hr, hu, if_false, Step.emit_nSrc]
      omega

end charmapEncoder

/-- The encoder of every charmap does its whole work a piece at a time, one byte per unit. -/
theorem charmapEncoder_chunks (m : Charmap) : Chunks (charmapEncoder m) m.encodeAll 1 where
  done room src h := charmapEncoder.transform_done m _ room src le_rfl h
  fits room src := charmapEncoder.transform_fits m true _ room src
  reads room src h hout := by
    have := charmapEncoder.transform_fits m true src.length room src
    exact charmapEncoder.transform_nSrc_pos m le_rfl
      (fun hr => hout (List.eq_nil_of_length_eq_zero
        (by simp only [charmapEncoder] at this ⊢; omega))) h
  progress room src h hroom := charmapEncoder.transform_nSrc_pos m le_rfl (by omega) h
  resume room src h := charmapEncoder.transform_resume m _ room src le_rfl h

/-- `transform.Bytes` runs both transformers of every charmap to the end of their whole work.
The decoder's is the decoding of every byte, with no error. The encoder's ends either without an
error, having read all of the input, or with the charmap's repertoire error; never for want of
room or of input. -/
theorem charmap_bytes_total (m : Charmap) (s : List UInt8) :
    bytes m.newDecoder s = some (m.decodeAll s) ∧ bytes m.newEncoder s = some (m.encodeAll s) ∧
      ((m.encodeAll s).err = none ∧ (m.encodeAll s).nSrc = s.length ∨
        (m.encodeAll s).err = some (.repertoireError m.replacement)) :=
  ⟨bytes_of_chunks (charmapDecoder_chunks m) (by decide) s,
    bytes_of_chunks (charmapEncoder_chunks m) (by decide) s, m.encodeAll_err s⟩

/-! ## The binary search against a linear scan -/

/-- The rune an encode-table entry holds, in its low 24 bits, as the search reads it. -/
def Charmap.runeAt (m : Charmap) (i : Nat) : Nat := (m.encode i &&& ((1 : UInt32) <<< 24 - 1)).toNat

/-- The byte an encode-table entry holds, in its high 8 bits. -/
def Charmap.byteAt (m : Charmap) (i : Nat) : UInt8 := (m.encode i >>> 24).toUInt8

/-- The encode table holds strictly ascending runes over the entries `[low, high)`. -/
def Charmap.SortedOn (m : Charmap) (low high : Nat) : Prop :=
  ∀ i j, low ≤ i → i < j → j < high → m.runeAt i < m.runeAt j

/-- The plain lookup that the binary search stands for: the byte of the first entry of
`[low, high)` that holds the rune `r`. -/
def Charmap.linearSearch (m : Charmap) (r low high : Nat) : Option UInt8 :=
  ((List.range' low (high - low)).find? fun i => m.runeAt i = r).map m.byteAt

namespace Charmap

variable (m : Charmap)

/-- One halving of the search, read through the table's entries. -/
theorem search_succ (r fuel low high : Nat) :
    m.search r (fuel + 1) low high =
      if high ≤ low then none
      else if m.runeAt ((low + high) / 2) < r then m.search r fuel ((low + high) / 2 + 1) high
      else if r < m.runeAt ((low + high) / 2) then m.search r fuel low ((low + high) / 2)
      else some (m.byteAt ((low + high) / 2)) := rfl

/-- A table sorted over a range is sorted over every range inside it. -/
theorem SortedOn.mono {m : Charmap} {low high low' high' : Nat} (h : m.SortedOn low high)
    (hl : low ≤ low') (hh : high' ≤ high) : m.SortedOn low' high' :=
  fun i j hi hij hj => h i j (by omega) hij (by omega)

/-- Over a sorted range, a later entry holds a rune at least as large. -/
theorem SortedOn.le {m : Charmap} {low high i j : Nat} (h : m.SortedOn low high) (hl : low ≤ i)
    (hij : i ≤ j) (hj : j < high) : m.runeAt i ≤ m.runeAt j := by
  rcases Nat.eq_or_lt_of_le hij with rfl | hlt
  · exact le_rfl
  · exact Nat.le_of_lt (h i j hl hlt hj)

/-- An empty range holds no rune. -/
theorem linearSearch_empty {r low high : Nat} (h : high ≤ low) :
    m.linearSearch r low high = none := by
  simp [linearSearch, Nat.sub_eq_zero_of_le h]

/-- A scan of a range is the scan of its first part, then of the rest. -/
theorem linearSearch_append (r low mid high : Nat) (hl : low ≤ mid) (hh : mid ≤ high) :
    m.linearSearch r low high = (m.linearSearch r low mid).or (m.linearSearch r mid high) := by
  obtain ⟨k, rfl⟩ := Nat.exists_eq_add_of_le hl
  obtain ⟨l, rfl⟩ := Nat.exists_eq_add_of_le hh
  unfold linearSearch
  rw [show low + k + l - low = l + k by omega, show low + k - low = k by omega,
    show low + k + l - (low + k) = l by omega, ← List.range'_append_1, List.find?_append]
  cases List.find? (fun i => decide (m.runeAt i = r)) (List.range' low k) <;> rfl

/-- A scan over entries none of which holds the rune finds nothing. -/
theorem linearSearch_none (r low high : Nat) (h : ∀ i, low ≤ i → i < high → m.runeAt i ≠ r) :
    m.linearSearch r low high = none := by
  simp only [linearSearch, Option.map_eq_none', List.find?_eq_none, List.mem_range'_1,
    decide_eq_true_eq]
  exact fun i hi => h i hi.1 (by omega)

/-- A scan whose first entry holds the rune finds that entry. -/
theorem linearSearch_hit {r : Nat} (low high : Nat) (hl : low < high) (h : m.runeAt low = r) :
    m.linearSearch r low high = some (m.byteAt low) := by
  obtain ⟨k, hk⟩ := Nat.exists_eq_add_of_lt hl
  simp [linearSearch, hk, Nat.add_assoc, Nat.add_sub_cancel_left, List.range'_succ, h]

/-- Over a table sorted by rune, the binary search of `charmapEncoder.Transform` finds what a
linear scan of the same entries finds, given as many halvings as there are entries. -/
theorem search_eq_linearSearch (r fuel low high : Nat) (hs : m.SortedOn low high)
    (hf : high - low ≤ fuel) :
    m.search r fuel low high = m.linearSearch r low high := by
  induction fuel generalizing low high with
  | zero => rw [linearSearch_empty m (by omega)]; rfl
  | succ fuel ih =>
    rw [search_succ]
    by_cases h0 : high ≤ low
    · rw [if_pos h0, linearSearch_empty m h0]
    rw [if_neg h0]
    have ⟨hl, hh⟩ : low ≤ (low + high) / 2 ∧ (low + high) / 2 < high := by omega
    generalize (low + high) / 2 = mid at hl hh ⊢
    rcases Nat.lt_trichotomy (m.runeAt mid) r with hlt | heq | hgt
    · -- the rune lies above `mid`, and so does every entry holding it
      rw [if_pos hlt, ih _ _ (hs.mono (by omega) le_rfl) (by omega),
        m.linearSearch_append r low (mid + 1) high (by omega) (by omega),
        m.linearSearch_none r low (mid + 1) fun i hi hm => ?_, Option.none_or]
      have := hs.le hi (Nat.le_of_lt_succ hm) hh; omega
    · -- `mid` holds the rune, and no entry before it does
      rw [if_neg (by omega), if_neg (by omega),
        m.linearSearch_append r low mid high hl (Nat.le_of_lt hh),
        m.linearSearch_none r low mid fun i hi hm => by have := hs i mid hi hm hh; omega,
        m.linearSearch_hit mid high hh heq]
      rfl
    · -- the rune lies below `mid`
      rw [if_neg (by omega), if_pos hgt, ih _ _ (hs.mono le_rfl (Nat.le_of_lt hh)) (by omega),
        m.linearSearch_append r low mid high hl (Nat.le_of_lt hh),
        m.linearSearch_none r mid high fun i hi hm => by have := hs.le hl hi hm; omega,
        Option.or_none]

end Charmap

end GoSmpp
