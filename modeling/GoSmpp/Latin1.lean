import GoSmpp.Charmap

/-!
# `charmap.ISO8859_1`

The ISO 8859-1 charmap: every byte stands for the code point of the same value. Its decode
table holds the UTF-8 of U+0000 to U+00FF, which is Lean's own `String.utf8EncodeChar` of those
characters, and its encode table is the identity, so the binary search finds exactly the runes
U+0080 to U+00FF. The encoder's units are then exactly the decoder's units read back: a unit
succeeds on the UTF-8 of one byte's character and on nothing else. On any input the encoder
reads the decoded units the input starts with and stops at the first point where none starts
(`iso8859_1_encodeAll_prefix`), and the decoded units form a prefix code.
-/

namespace GoSmpp

open Utf8 Transform

/-- The ISO 8859-1 decode-table entry of `b`: the UTF-8 of U+00`b` as `utf8.EncodeRune` wrote it
when the table was generated (`t2 | r >> 6`, `tx | r & maskx` for two bytes). -/
def iso8859_1Decode (b : UInt8) : Utf8Enc :=
  if b.toNat < 0x80 then ⟨1, [b, 0, 0], rfl, by decide⟩
  else ⟨2, [(0xC0 : UInt8) ||| b >>> 6, (0x80 : UInt8) ||| b &&& maskx, 0], rfl, by decide⟩

/-- `charmap.ISO8859_1`. The encode table is sorted by rune, the identity on `0..255`; both
tables are written as the rule their 256 rows follow. -/
def iso8859_1 : Charmap where
  asciiSuperset := true
  low := 0x80
  replacement := 0x1A
  decode := iso8859_1Decode
  encode i := UInt32.ofNat i <<< 24 ||| UInt32.ofNat i

section Tables

set_option maxRecDepth 8192

/-- Each decoded unit of ISO 8859-1 is the UTF-8 of the byte's character. -/
theorem iso8859_1_decodeUnit : ∀ b : UInt8,
    iso8859_1.decodeUnit b = String.utf8EncodeChar (Char.ofNat b.toNat) :=
  byte_forall (by decide)

/-- A byte's value is a character's code point. -/
theorem char_ofNat_byte : ∀ b : UInt8, (Char.ofNat b.toNat).toNat = b.toNat :=
  byte_forall (by decide)

/-- The entry at `i` of the encode table holds the rune `i` and the byte `i`. -/
theorem iso8859_1_encode : ∀ i, i < 256 →
    ((iso8859_1.encode i) &&& ((1 : UInt32) <<< 24 - 1)).toNat = i ∧
      ((iso8859_1.encode i) >>> 24).toUInt8 = UInt8.ofNat i := by
  decide

/-- A decoded unit is one byte for ASCII and two bytes otherwise. -/
theorem iso8859_1_decodeUnit_length : ∀ b : UInt8,
    (iso8859_1.decodeUnit b).length = if b.toNat < 0x80 then 1 else 2 :=
  byte_forall (by decide)

end Tables

/-- A decoded unit is never empty. -/
theorem iso8859_1_decodeUnit_ne_nil (b : UInt8) : iso8859_1.decodeUnit b ≠ [] :=
  List.ne_nil_of_length_pos (by rw [iso8859_1_decodeUnit_length]; split_ifs <;> omega)

/-- Decoding writes one byte per input byte and one more per byte from `0x80` up. -/
theorem iso8859_1_flatMap_length (bs : List UInt8) :
    (bs.flatMap iso8859_1.decodeUnit).length = bs.length + bs.countP (fun b => 0x80 ≤ b.toNat) := by
  induction bs with
  | nil => rfl
  | cons b bs ih =>
    rw [List.flatMap_cons, List.length_append, ih, iso8859_1_decodeUnit_length, List.countP_cons,
      List.length_cons]
    by_cases hb : 0x80 ≤ b.toNat
    · simp only [if_neg (Nat.not_lt.2 hb), hb, decide_True, if_true]; omega
    · simp only [if_pos (Nat.not_le.1 hb), hb, decide_False, Bool.false_eq_true, if_false]; omega

/-- The binary search of the identity table finds a rune exactly when it lies in the range
searched, and gives its byte. -/
theorem iso8859_1_search (r : Nat) (fuel low high : Nat) (hh : high ≤ 256)
    (hf : high - low ≤ fuel) :
    iso8859_1.search r fuel low high =
      if low ≤ r ∧ r < high then some (UInt8.ofNat r) else none := by
  induction fuel generalizing low high with
  | zero => simp only [Charmap.search]; split_ifs <;> first | rfl | omega
  | succ fuel ih =>
    by_cases h0 : high ≤ low
    · simp only [Charmap.search, if_pos h0]; rw [if_neg (by omega)]
    obtain ⟨hr, hb⟩ := iso8859_1_encode ((low + high) / 2) (by omega)
    simp only [Charmap.search, if_neg h0, hr, hb]
    rcases Nat.lt_trichotomy ((low + high) / 2) r with h1 | h1 | h1
    · rw [if_pos h1, ih _ _ hh (by omega)]
      split_ifs <;> first | rfl | omega
    · rw [if_neg (by omega), if_neg (by omega), if_pos (by omega), h1]
    · rw [if_neg (by omega), if_pos h1, ih _ _ (by omega) (by omega)]
      split_ifs <;> first | rfl | omega
/-- The ISO 8859-1 encode table holds the rune `i` at its entry `i`, so it is sorted by rune. -/
theorem iso8859_1_sortedOn : iso8859_1.SortedOn 0 0x100 := fun i j _ hij hj => by
  rwa [Charmap.runeAt, (iso8859_1_encode i (by omega)).1, Charmap.runeAt, (iso8859_1_encode j hj).1]

/-- The search for "é", U+00E9, over the range the encoder searches finds what a linear scan
finds. -/
theorem iso8859_1_search_e_acute :
    iso8859_1.SortedOn 0x80 0x100 ∧ 0x100 - 0x80 ≤ 0x100 ∧
      iso8859_1.search 0xE9 0x100 0x80 0x100 = iso8859_1.linearSearch 0xE9 0x80 0x100 :=
  have hs := iso8859_1_sortedOn.mono (Nat.zero_le _) le_rfl
  ⟨hs, by decide, Charmap.search_eq_linearSearch iso8859_1 0xE9 0x100 0x80 0x100 hs (by decide)⟩

/-- The encoder's table lookup in ISO 8859-1: the runes U+0080 to U+00FF, each to its own
byte; any other rune is a repertoire error. -/
theorem iso8859_1_lookup (r size : Nat) :
    iso8859_1.lookup r size =
      if 0x80 ≤ r ∧ r < 0x100 then .ok (UInt8.ofNat r, size)
      else .error (.repertoireError 0x1A) := by
  unfold Charmap.lookup
  rw [iso8859_1_search r 0x100 _ 0x100 le_rfl (by decide), show iso8859_1.low.toNat = 0x80 from rfl]
  split_ifs <;> rfl

/-- The ISO 8859-1 encoder on the UTF-8 of a character from U+0080 up: one byte when the
character is at most U+00FF, the repertoire error otherwise. -/
theorem iso8859_1_encodeAll_multibyte (c : Char) (rest : List UInt8) (h : 0x80 ≤ c.toNat) :
    iso8859_1.encodeAll (String.utf8EncodeChar c ++ rest) =
      if c.toNat < 0x100 then
        Step.emit [UInt8.ofNat c.toNat] (String.utf8EncodeChar c).length (iso8859_1.encodeAll rest)
      else ⟨[], 0, some (.repertoireError 0x1A)⟩ := by
  have hl := leading_utf8EncodeChar c rest h
  obtain ⟨c0, t, ht, h0, hn⟩ := hl.lead
  rw [ht, iso8859_1.encodeAll_cons]
  unfold Charmap.encodeUnit
  rw [if_neg (by unfold runeSelf; omega), ← ht, decodeRune_of_leading hl]
  dsimp only
  rw [if_neg (by omega), iso8859_1_lookup]
  by_cases hc : c.toNat < 0x100
  · rw [if_pos ⟨h, hc⟩, if_pos hc]
    dsimp only
    rw [List.drop_left]
  · rw [if_neg (fun h' => hc h'.2), if_neg hc]

/-- The ISO 8859-1 encoder reads the decoded unit of any byte back as that byte. -/
theorem iso8859_1_encodeAll_unit (b : UInt8) (rest : List UInt8) :
    iso8859_1.encodeAll (iso8859_1.decodeUnit b ++ rest) =
      Step.emit [b] (iso8859_1.decodeUnit b).length (iso8859_1.encodeAll rest) := by
  by_cases hb : b.toNat < 0x80
  · have hu : iso8859_1.decodeUnit b = [b] := by
      simp only [Charmap.decodeUnit, iso8859_1, runeSelf, hb]; rfl
    have he : iso8859_1.encodeUnit true b rest = .ok (b, 1) := by
      simp only [Charmap.encodeUnit, runeSelf, hb]; rfl
    rw [hu, List.singleton_append, iso8859_1.encodeAll_cons, he]
    rfl
  · have hc := char_ofNat_byte b
    have hb' : b.toNat < 256 := b.toNat_lt_size
    rw [iso8859_1_decodeUnit, iso8859_1_encodeAll_multibyte _ _ (by omega), if_pos (by omega), hc,
      ← byte_eq_ofNat rfl]

/-- The ISO 8859-1 encoder reads the decoding of any byte string back whole, and goes on with
what follows. -/
theorem iso8859_1_encodeAll_flatMap_append (bs rest : List UInt8) :
    iso8859_1.encodeAll (bs.flatMap iso8859_1.decodeUnit ++ rest) =
      Step.emit bs (bs.flatMap iso8859_1.decodeUnit).length (iso8859_1.encodeAll rest) := by
  induction bs with
  | nil => exact (Step.nil_andThen _).symm
  | cons b bs ih =>
    rw [List.flatMap_cons, List.append_assoc, iso8859_1_encodeAll_unit, ih]
    simp [Step.emit, Step.andThen, Nat.add_assoc]

/-- The ISO 8859-1 encoder reads the decoding of any byte string back whole. -/
theorem iso8859_1_encodeAll_flatMap (bs : List UInt8) :
    iso8859_1.encodeAll (bs.flatMap iso8859_1.decodeUnit) =
      ⟨bs, (bs.flatMap iso8859_1.decodeUnit).length, none⟩ := by
  have h := iso8859_1_encodeAll_flatMap_append bs []
  rw [List.append_nil] at h
  rw [h]
  show Step.andThen ⟨bs, _, none⟩ ⟨[], 0, none⟩ = _
  simp only [Step.andThen, List.append_nil, Nat.add_zero]

/-- The ISO 8859-1 encoder stops at once, with the repertoire error, at a character above
U+00FF. -/
theorem iso8859_1_encodeAll_utf8EncodeChar (c : Char) (rest : List UInt8) (hc : 0xFF < c.toNat) :
    iso8859_1.encodeAll (String.utf8EncodeChar c ++ rest) =
      ⟨[], 0, some (.repertoireError 0x1A)⟩ := by
  rw [iso8859_1_encodeAll_multibyte c rest (by omega), if_neg (by omega)]

/-- An ISO 8859-1 encoder unit that succeeds has read the decoded unit of the byte it writes. -/
theorem iso8859_1_encodeUnit_ok {c : UInt8} {src : List UInt8} {b : UInt8} {size : Nat}
    (h : iso8859_1.encodeUnit true c src = .ok (b, size)) :
    c :: src = iso8859_1.decodeUnit b ++ (c :: src).drop size ∧
      size = (iso8859_1.decodeUnit b).length := by
  unfold Charmap.encodeUnit at h
  by_cases hc : c.toNat < runeSelf
  · rw [if_pos hc] at h
    obtain ⟨rfl, rfl⟩ : c = b ∧ 1 = size := by simpa [iso8859_1] using h
    have hu : iso8859_1.decodeUnit c = [c] := by
      simp only [Charmap.decodeUnit, iso8859_1, hc]; rfl
    simp [hu]
  rcases hd : decodeRune (c :: src) with ⟨r, n⟩
  simp only [hd, if_neg hc] at h
  split_ifs at h with hn
  rw [iso8859_1_lookup] at h
  split_ifs at h with hr
  simp only [Except.ok.injEq, Prod.mk.injEq] at h
  obtain ⟨rfl, rfl⟩ := h
  have hw := decodeRune_cons_width c src
  rw [hd] at hw
  have hl := leading_of_decodeRune hd (by simp only at hw; omega)
  have hu : iso8859_1.decodeUnit (UInt8.ofNat r) = (c :: src).take n := by
    rw [hl.take_eq, iso8859_1_decodeUnit, UInt8.toNat_ofNat_of_lt (by unfold UInt8.size; omega)]
  rw [hu, List.take_append_drop, List.length_take_of_le hl.width_le]
  exact ⟨rfl, rfl⟩

/-- When the ISO 8859-1 encoder's whole work ends without an error, its input was the decoding
of its output. -/
theorem iso8859_1_encodeAll_sound (src : List UInt8) (h : (iso8859_1.encodeAll src).err = none) :
    src = (iso8859_1.encodeAll src).out.flatMap iso8859_1.decodeUnit := by
  induction src using iso8859_1.encodeAll_induction with
  | nil => rfl
  | error c src e hu => simp [iso8859_1.encodeAll_cons, hu] at h
  | ok c src b size hu ih =>
    rw [iso8859_1.encodeAll_cons, hu] at h ⊢
    rw [Step.emit_out, List.singleton_append, List.flatMap_cons, ← ih h]
    exact (iso8859_1_encodeUnit_ok hu).1

/-- The ISO 8859-1 encoder's whole work on any input: it reads the longest prefix made of
decoded units and writes their bytes, and it ends with the repertoire error exactly when input is
left, which then starts with no decoded unit. -/
theorem iso8859_1_encodeAll_prefix (src : List UInt8) :
    ∃ bs rest, src = bs.flatMap iso8859_1.decodeUnit ++ rest ∧
      (∀ b, ¬ iso8859_1.decodeUnit b <+: rest) ∧
      iso8859_1.encodeAll src = ⟨bs, (bs.flatMap iso8859_1.decodeUnit).length,
        if rest = [] then none else some (.repertoireError 0x1A)⟩ := by
  induction src using iso8859_1.encodeAll_induction with
  | nil => exact ⟨[], [], rfl, fun b h => iso8859_1_decodeUnit_ne_nil b (List.prefix_nil.1 h), rfl⟩
  | error c src e hu =>
    refine ⟨[], c :: src, rfl, fun b ⟨t, ht⟩ => ?_, ?_⟩
    · -- the encoder reads any decoded unit, so this input does not start with one
      have hb := congrArg Step.out (iso8859_1_encodeAll_unit b t)
      rw [ht, iso8859_1.encodeAll_cons, hu] at hb
      simp at hb
    · rw [iso8859_1.encodeAll_cons, hu, iso8859_1.encodeUnit_error_atEOF hu]; rfl
  | ok c src b size hu ih =>
    obtain ⟨bs, rest, hs, hr, he⟩ := ih
    obtain ⟨hsplit, hsize⟩ := iso8859_1_encodeUnit_ok hu
    refine ⟨b :: bs, rest, ?_, hr, ?_⟩
    · rw [hsplit, hs, List.flatMap_cons, List.append_assoc]
    · rw [iso8859_1.encodeAll_cons, hu]
      dsimp only
      rw [he, hsize]
      simp [Step.emit, Step.andThen]

/-- The decoded units of ISO 8859-1 are a prefix code: what follows the decoding of a byte
string inside the decoding of another is the decoding of the rest of it. -/
theorem iso8859_1_flatMap_append_cancel {bs cs x : List UInt8}
    (h : bs.flatMap iso8859_1.decodeUnit ++ x = cs.flatMap iso8859_1.decodeUnit) :
    ∃ ds, cs = bs ++ ds ∧ x = ds.flatMap iso8859_1.decodeUnit := by
  have he := iso8859_1_encodeAll_flatMap_append bs x
  rw [h, iso8859_1_encodeAll_flatMap] at he
  simp only [Step.emit, Step.andThen, Step.mk.injEq] at he
  exact ⟨_, he.1, iso8859_1_encodeAll_sound x he.2.2.symm⟩

end GoSmpp
