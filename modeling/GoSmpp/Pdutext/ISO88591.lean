import GoSmpp.Latin1

/-!
# `pdutext.ISO88591`

The ISO 8859-1 codec of `smpp/pdu/pdutext`. `Encode` runs the ISO 8859-1 encoder over the text
with `transform.Bytes` and gives the text back unchanged when the transform reports an error;
`Decode` does the same with the decoder. The decoder never reports one, so decoding is the UTF-8
of the bytes read as code points, and the codec is a bijection between all byte strings and the
UTF-8 texts whose characters are at most U+00FF. On any other input `Encode` returns its input:
the transform stops at the first character it cannot encode, and `Encode` drops what it had
written. `Type` reports the default data coding whatever the text. Later sections state both
functions on Lean strings, the transform's partial work on any input, and how `Encode` splits
over concatenation.
-/

namespace GoSmpp

open Utf8 Transform

/-- `ISO88591`, a text codec over the bytes of a text. -/
def ISO88591 : Type := List UInt8

/-- `DataCoding`, the `data_coding` byte of a short message. Modelled from the spec: the type is
declared outside the sources, as a byte. -/
def DataCoding : Type := UInt8

/-- `DefaultType`. Modelled from the spec: the constant is declared outside the sources; the
codec's test expects it to be `0x00`, the code the spec gives GSM7, the default alphabet. -/
def defaultType : DataCoding := (0x00 : UInt8)

/-- `ISO88591.Type`: the data coding the codec reports, whatever its text. -/
def ISO88591.type (_ : ISO88591) : DataCoding := defaultType

/-- `ISO88591.Encode`: to ISO 8859-1, or the input itself when the transform fails. -/
def ISO88591.encode (s : ISO88591) : Option (List UInt8) :=
  (bytes iso8859_1.newEncoder s).map fun r => if r.err.isSome then s else r.out

/-- `ISO88591.Decode`: from ISO 8859-1, or the input itself when the transform fails. -/
def ISO88591.decode (s : ISO88591) : Option (List UInt8) :=
  (bytes iso8859_1.newDecoder s).map fun r => if r.err.isSome then s else r.out

/-- The UTF-8 of a text whose characters are all at most U+00FF, by Lean's own encoder. -/
def IsLatin1Text (s : List UInt8) : Prop :=
  ∃ t : List Char, (∀ c ∈ t, c.toNat ≤ 0xFF) ∧ s = t.flatMap String.utf8EncodeChar

/-- `transform.Bytes` runs the ISO 8859-1 decoder to the end without an error. -/
theorem bytes_iso8859_1_newDecoder (b : List UInt8) :
    bytes iso8859_1.newDecoder b = some ⟨b.flatMap iso8859_1.decodeUnit, b.length, none⟩ :=
  bytes_of_chunks (charmapDecoder_chunks iso8859_1) (by decide) b

/-- `transform.Bytes` runs the ISO 8859-1 encoder to the end of its whole work. -/
theorem bytes_iso8859_1_newEncoder (s : List UInt8) :
    bytes iso8859_1.newEncoder s = some (iso8859_1.encodeAll s) :=
  bytes_of_chunks (charmapEncoder_chunks iso8859_1) (by decide) s

/-- `Decode` is the decoded units of the bytes. -/
theorem ISO88591.decode_eq (b : List UInt8) :
    ISO88591.decode b = some (b.flatMap iso8859_1.decodeUnit) := by
  simp [ISO88591.decode, bytes_iso8859_1_newDecoder]

/-- `Encode` is the encoder's output when its whole work succeeds, and the input otherwise. -/
theorem ISO88591.encode_eq (s : List UInt8) :
    ISO88591.encode s =
      some (if (iso8859_1.encodeAll s).err.isSome then s else (iso8859_1.encodeAll s).out) := by
  simp only [ISO88591.encode, bytes_iso8859_1_newEncoder, Option.map_some']

/-- The UTF-8 of a character up to U+00FF is the decoding of its code point. -/
theorem utf8EncodeChar_latin1 {c : Char} (hc : c.toNat ≤ 0xFF) :
    String.utf8EncodeChar c = iso8859_1.decodeUnit (UInt8.ofNat c.toNat) := by
  rw [iso8859_1_decodeUnit, UInt8.toNat_ofNat_of_lt (by unfold UInt8.size; omega), Char.ofNat_toNat]

/-- The UTF-8 of a text of characters up to U+00FF is the decoding of their code points. -/
theorem flatMap_utf8EncodeChar (t : List Char) (ht : ∀ c ∈ t, c.toNat ≤ 0xFF) :
    t.flatMap String.utf8EncodeChar =
      (t.map fun c => UInt8.ofNat c.toNat).flatMap iso8859_1.decodeUnit := by
  induction t with
  | nil => rfl
  | cons c t ih =>
    rw [List.flatMap_cons, List.map_cons, List.flatMap_cons,
      utf8EncodeChar_latin1 (ht c (List.mem_cons_self _ _)),
      ih (fun c' h => ht c' (List.mem_cons_of_mem _ h))]

/-- The characters of a byte string's code points are at most U+00FF. -/
theorem char_ofNat_le (bs : List UInt8) :
    ∀ c ∈ bs.map (fun b => Char.ofNat b.toNat), c.toNat ≤ 0xFF := by
  simp only [List.mem_map]
  rintro _ ⟨b, -, rfl⟩
  have := b.toNat_lt_size
  rw [char_ofNat_byte]; unfold UInt8.size at this; omega

/-- The UTF-8 of a byte string's code points is its decoding. -/
theorem flatMap_char_ofNat (bs : List UInt8) :
    (bs.map fun b => Char.ofNat b.toNat).flatMap String.utf8EncodeChar =
      bs.flatMap iso8859_1.decodeUnit := by
  rw [List.flatMap_map]
  exact congrArg _ (funext fun b => (iso8859_1_decodeUnit b).symm)

/-- A byte string's code points, read back as bytes, are the byte string. -/
theorem map_char_ofNat_toNat (bs : List UInt8) :
    (bs.map fun b => Char.ofNat b.toNat).map (fun c => UInt8.ofNat c.toNat) = bs := by
  rw [List.map_map]
  conv => rhs; rw [← List.map_id bs]
  exact List.map_congr_left fun b _ => by
    simp only [Function.comp, char_ofNat_byte, ← byte_eq_ofNat rfl, id]

/-- The Latin-1 texts are the decodings of byte strings. -/
theorem isLatin1Text_iff (s : List UInt8) :
    IsLatin1Text s ↔ ∃ bs : List UInt8, s = bs.flatMap iso8859_1.decodeUnit := by
  constructor
  · rintro ⟨t, ht, rfl⟩
    exact ⟨_, flatMap_utf8EncodeChar t ht⟩
  · rintro ⟨bs, rfl⟩
    exact ⟨_, char_ofNat_le bs, (flatMap_char_ofNat bs).symm⟩

/-- `Encode` turns the decoding of any bytes back into them. -/
theorem ISO88591.encode_flatMap (bs : List UInt8) :
    ISO88591.encode (bs.flatMap iso8859_1.decodeUnit) = some bs := by
  rw [ISO88591.encode_eq, iso8859_1_encodeAll_flatMap]
  rfl

/-- `Encode` fails over to its input exactly off the Latin-1 texts. -/
theorem ISO88591.encode_not_latin1 {s : List UInt8} (h : ¬ IsLatin1Text s) :
    ISO88591.encode s = some s := by
  rw [ISO88591.encode_eq]
  cases he : (iso8859_1.encodeAll s).err with
  | some e => rfl
  | none => exact absurd ((isLatin1Text_iff s).2 ⟨_, iso8859_1_encodeAll_sound s he⟩) h

/-- `Decode` undoes `Encode` on every Latin-1 text. -/
theorem ISO88591.decode_encode_latin1 {s : List UInt8} (hs : IsLatin1Text s) :
    (ISO88591.encode s).bind ISO88591.decode = some s := by
  obtain ⟨bs, rfl⟩ := (isLatin1Text_iff s).1 hs
  rw [ISO88591.encode_flatMap, Option.some_bind, ISO88591.decode_eq]

/-- A text is Latin-1 exactly when the ISO 8859-1 encoder's whole work on it ends without an
error. -/
theorem isLatin1Text_iff_encodeAll (s : List UInt8) :
    IsLatin1Text s ↔ (iso8859_1.encodeAll s).err = none := by
  rw [isLatin1Text_iff]
  constructor
  · rintro ⟨bs, rfl⟩
    rw [iso8859_1_encodeAll_flatMap]
  · exact fun h => ⟨_, iso8859_1_encodeAll_sound s h⟩

/-- Whether a text is Latin-1 is decided by running the encoder over it. -/
instance : DecidablePred IsLatin1Text := fun s =>
  decidable_of_iff _ (isLatin1Text_iff_encodeAll s).symm

example : IsLatin1Text [0x61, 0xC3, 0xA9] ∧ ¬ IsLatin1Text [0xE2, 0x82, 0xAC] := by decide

/-- The ISO 8859-1 codec is a bijection between all byte strings and the UTF-8 texts whose
characters are at most U+00FF: `transform.Bytes` never fails on `Decode`, every decoding is such a
text, `Encode` undoes `Decode`, and `Decode` undoes `Encode` on such texts. -/
theorem iso88591_codec_bijection :
    (∀ b : List UInt8, ∃ es n, bytes iso8859_1.newDecoder b = some ⟨es, n, none⟩) ∧
    (∀ b : List UInt8, ∃ s, ISO88591.decode b = some s ∧ IsLatin1Text s) ∧
    (∀ b : List UInt8, (ISO88591.decode b).bind ISO88591.encode = some b) ∧
    (∀ s : List UInt8, IsLatin1Text s → (ISO88591.encode s).bind ISO88591.decode = some s) := by
  refine ⟨fun b => ⟨_, _, bytes_iso8859_1_newDecoder b⟩, fun b => ⟨_, ISO88591.decode_eq b,
    (isLatin1Text_iff _).2 ⟨b, rfl⟩⟩, fun b => ?_, fun _ => ISO88591.decode_encode_latin1⟩
  rw [ISO88591.decode_eq, Option.some_bind, ISO88591.encode_flatMap]

/-- "é" is the Latin-1 text `C3 A9`, and encoding then decoding gives it back. -/
theorem iso88591_codec_e_acute :
    IsLatin1Text [0xC3, 0xA9] ∧
      (ISO88591.encode [0xC3, 0xA9]).bind ISO88591.decode = some [0xC3, 0xA9] :=
  have h : IsLatin1Text [0xC3, 0xA9] := ⟨['é'], by decide, rfl⟩
  ⟨h, iso88591_codec_bijection.2.2.2 _ h⟩

/-- `Encode` is all or nothing: on the UTF-8 of a text of characters up to U+00FF it gives one byte
per character, that character's code point; on any other input it gives the input back; and so
`Decode` undoes `Encode` exactly on those texts. -/
theorem iso88591_encode_all_or_nothing (s : List UInt8) :
    (∀ t : List Char, (∀ c ∈ t, c.toNat ≤ 0xFF) → s = t.flatMap String.utf8EncodeChar →
      ISO88591.encode s = some (t.map fun c => UInt8.ofNat c.toNat)) ∧
    (¬ IsLatin1Text s → ISO88591.encode s = some s) ∧
    ((ISO88591.encode s).bind ISO88591.decode = some s ↔ IsLatin1Text s) := by
  refine ⟨fun t ht hs => ?_, ISO88591.encode_not_latin1,
    ⟨fun h => ?_, ISO88591.decode_encode_latin1⟩⟩
  · rw [hs, flatMap_utf8EncodeChar t ht, ISO88591.encode_flatMap]
  · rw [ISO88591.encode_eq, Option.some_bind, ISO88591.decode_eq, Option.some.injEq] at h
    exact (isLatin1Text_iff s).2 ⟨_, h.symm⟩

/-- "é" encodes to the byte `E9`; the euro sign, U+20AC, is not Latin-1 and comes back as it was. -/
theorem iso88591_encode_e_acute_euro :
    ISO88591.encode [0xC3, 0xA9] = some [0xE9] ∧
      ISO88591.encode [0xE2, 0x82, 0xAC] = some [0xE2, 0x82, 0xAC] :=
  ⟨(iso88591_encode_all_or_nothing _).1 ['é'] (by decide) rfl,
    (iso88591_encode_all_or_nothing _).2.1 fun h =>
      absurd ((iso88591_encode_all_or_nothing _).2.2.2 h) (by decide)⟩

/-! ## The error path, lengths and strings -/

/-- On valid UTF-8, the transform inside `Encode` writes the Latin-1 characters before the first
character above U+00FF and stops there with the repertoire error, having read exactly their
bytes; `Encode` then throws this partial result away and returns its input. -/
theorem bytes_newEncoder_stops_at_non_latin1 (pre : List Char) (c : Char) (post : List Char)
    (hpre : ∀ d ∈ pre, d.toNat ≤ 0xFF) (hc : 0xFF < c.toNat) :
    bytes iso8859_1.newEncoder ((pre ++ c :: post).flatMap String.utf8EncodeChar) =
      some ⟨pre.map (fun d => UInt8.ofNat d.toNat), (pre.flatMap String.utf8EncodeChar).length,
        some (.repertoireError 0x1A)⟩ ∧
    ISO88591.encode ((pre ++ c :: post).flatMap String.utf8EncodeChar) =
      some ((pre ++ c :: post).flatMap String.utf8EncodeChar) := by
  -- `Encode` reads the transform's error and keeps its input
  refine (fun hb => ⟨hb, by rw [ISO88591.encode, hb]; rfl⟩) ?_
  rw [bytes_iso8859_1_newEncoder, List.flatMap_append, List.flatMap_cons,
    flatMap_utf8EncodeChar pre hpre, iso8859_1_encodeAll_flatMap_append,
    iso8859_1_encodeAll_utf8EncodeChar c _ hc]
  simp only [Step.emit, Step.andThen, List.append_nil, Nat.add_zero]

/-- On "é€" the transform writes `E9` for "é" and stops at the euro sign, and `Encode` returns
"é€" as it was. -/
theorem bytes_newEncoder_e_acute_euro :
    bytes iso8859_1.newEncoder [0xC3, 0xA9, 0xE2, 0x82, 0xAC] =
      some ⟨[0xE9], 2, some (.repertoireError 0x1A)⟩ ∧
    ISO88591.encode [0xC3, 0xA9, 0xE2, 0x82, 0xAC] = some [0xC3, 0xA9, 0xE2, 0x82, 0xAC] :=
  bytes_newEncoder_stops_at_non_latin1 ['é'] '€' [] (by decide) (by decide)

/-- On any input, valid UTF-8 or not, the transform inside `Encode` reads the characters up to
U+00FF the input starts with and writes their code points, up to the first point where no such
character starts; it stops there with the repertoire error exactly when input is left. -/
theorem bytes_newEncoder_latin1_prefix (s : List UInt8) :
    ∃ (t : List Char) (rest : List UInt8), (∀ c ∈ t, c.toNat ≤ 0xFF) ∧
      s = t.flatMap String.utf8EncodeChar ++ rest ∧
      (∀ c : Char, c.toNat ≤ 0xFF → ¬ String.utf8EncodeChar c <+: rest) ∧
      bytes iso8859_1.newEncoder s = some ⟨t.map (fun c => UInt8.ofNat c.toNat),
        (t.flatMap String.utf8EncodeChar).length,
        if rest = [] then none else some (.repertoireError 0x1A)⟩ := by
  obtain ⟨bs, rest, hs, hr, he⟩ := iso8859_1_encodeAll_prefix s
  refine ⟨bs.map fun b => Char.ofNat b.toNat, rest, char_ofNat_le bs, ?_, fun c hc => ?_, ?_⟩
  · rw [flatMap_char_ofNat, hs]
  · rw [utf8EncodeChar_latin1 hc]
    exact hr _
  · rw [bytes_iso8859_1_newEncoder, he, flatMap_char_ofNat, map_char_ofNat_toNat]

/-- `Decode` writes one byte per input byte and one more per byte from `0x80` up. -/
theorem iso88591_decode_length (b : List UInt8) :
    (ISO88591.decode b).map List.length =
      some (b.length + b.countP (fun x => 0x80 ≤ x.toNat)) := by
  rw [ISO88591.decode_eq, Option.map_some', iso8859_1_flatMap_length]

/-- `Encode` never makes a text longer. -/
theorem iso88591_encode_length_le (s : List UInt8) :
    ∃ e, ISO88591.encode s = some e ∧ e.length ≤ s.length := by
  rw [ISO88591.encode_eq]
  cases he : (iso8859_1.encodeAll s).err with
  | some e => exact ⟨s, rfl, le_rfl⟩
  | none =>
    refine ⟨_, rfl, ?_⟩
    conv => rhs; rw [iso8859_1_encodeAll_sound s he]
    rw [iso8859_1_flatMap_length]
    exact Nat.le_add_right _ _

/-- The encoder's whole work on the UTF-8 of a text ends without an error exactly when every
character is at most U+00FF. -/
theorem iso8859_1_encodeAll_text_err (t : List Char) :
    (iso8859_1.encodeAll (t.flatMap String.utf8EncodeChar)).err = none ↔
      ∀ c ∈ t, c.toNat ≤ 0xFF := by
  induction t with
  | nil =>
    simp only [List.flatMap_nil, List.not_mem_nil, false_implies, implies_true, iff_true]
    rfl
  | cons c t ih =>
    rw [List.flatMap_cons, List.forall_mem_cons]
    by_cases hc : c.toNat ≤ 0xFF
    · rw [utf8EncodeChar_latin1 hc, iso8859_1_encodeAll_unit, Step.emit_err, ih]
      exact ⟨fun h => ⟨hc, h⟩, fun h => h.2⟩
    · rw [iso8859_1_encodeAll_utf8EncodeChar c _ (by omega)]
      exact ⟨nofun, fun h => absurd h.1 hc⟩

/-- `Encode` on the bytes of any string: one byte per character, its code point, when every
character is at most U+00FF, and the bytes unchanged otherwise. -/
theorem iso88591_encode_string (s : String) :
    ISO88591.encode s.toUTF8.data.toList =
      some (if ∀ c ∈ s.data, c.toNat ≤ 0xFF then s.data.map (fun c => UInt8.ofNat c.toNat)
        else s.toUTF8.data.toList) := by
  rw [show s.toUTF8.data.toList = s.data.flatMap String.utf8EncodeChar from rfl]
  by_cases h : ∀ c ∈ s.data, c.toNat ≤ 0xFF
  · rw [if_pos h, flatMap_utf8EncodeChar _ h, ISO88591.encode_flatMap]
  · rw [if_neg h, ISO88591.encode_eq, if_pos]
    exact Option.ne_none_iff_isSome.1 (mt (iso8859_1_encodeAll_text_err s.data).1 h)

/-- `Decode` gives the bytes of the string whose characters are the input bytes, each read as a
code point. -/
theorem iso88591_decode_string (b : List UInt8) :
    ISO88591.decode b =
      some (String.mk (b.map fun x => Char.ofNat x.toNat)).toUTF8.data.toList := by
  rw [show (String.mk _).toUTF8.data.toList =
      (b.map fun x => Char.ofNat x.toNat).flatMap String.utf8EncodeChar from rfl,
    ISO88591.decode_eq, flatMap_char_ofNat]

/-! ## Concatenation -/

/-- A Latin-1 text followed by more bytes is a Latin-1 text exactly when those bytes are one.
`Encode` then encodes the two parts apart and joins the results; otherwise it gives the whole
input back. -/
theorem iso88591_encode_append (a b : List UInt8) (ha : IsLatin1Text a) :
    (IsLatin1Text (a ++ b) ↔ IsLatin1Text b) ∧
      ISO88591.encode (a ++ b) =
        if IsLatin1Text b then (ISO88591.encode a).bind fun ea => (ISO88591.encode b).map (ea ++ ·)
        else some (a ++ b) := by
  obtain ⟨as, rfl⟩ := (isLatin1Text_iff a).1 ha
  have hiff : IsLatin1Text (as.flatMap iso8859_1.decodeUnit ++ b) ↔ IsLatin1Text b := by
    rw [isLatin1Text_iff, isLatin1Text_iff]
    constructor
    · rintro ⟨cs, h⟩
      obtain ⟨ds, -, rfl⟩ := iso8859_1_flatMap_append_cancel h
      exact ⟨ds, rfl⟩
    · rintro ⟨bs, rfl⟩
      exact ⟨as ++ bs, (List.flatMap_append as bs _).symm⟩
  refine ⟨hiff, ?_⟩
  split_ifs with hb
  · obtain ⟨bs, rfl⟩ := (isLatin1Text_iff b).1 hb
    rw [← List.flatMap_append, ISO88591.encode_flatMap, ISO88591.encode_flatMap,
      ISO88591.encode_flatMap]
    rfl
  · exact ISO88591.encode_not_latin1 (mt hiff.1 hb)

/-- "é" followed by the euro sign is not Latin-1, and `Encode` gives it back whole. -/
theorem iso88591_encode_append_e_acute_euro :
    IsLatin1Text [0xC3, 0xA9] ∧
      (IsLatin1Text ([0xC3, 0xA9] ++ [0xE2, 0x82, 0xAC]) ↔ IsLatin1Text [0xE2, 0x82, 0xAC]) ∧
      ISO88591.encode ([0xC3, 0xA9] ++ [0xE2, 0x82, 0xAC]) =
        if IsLatin1Text [0xE2, 0x82, 0xAC] then
          (ISO88591.encode [0xC3, 0xA9]).bind fun ea =>
            (ISO88591.encode [0xE2, 0x82, 0xAC]).map (ea ++ ·)
        else some ([0xC3, 0xA9] ++ [0xE2, 0x82, 0xAC]) :=
  have ha : IsLatin1Text [0xC3, 0xA9] := ⟨['é'], by decide, rfl⟩
  ⟨ha, iso88591_encode_append _ _ ha⟩

end GoSmpp
