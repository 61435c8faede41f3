import Mathlib.Algebra.Group.Nat.Basic
import Mathlib.Data.Nat.Defs
import Mathlib.Data.String.Basic

/-!
# Go's `unicode/utf8` decoder

The part of `unicode/utf8` that `charmap`'s encoder runs, as Go 1.18 writes it: the first-byte
table `first`, the second-byte `acceptRanges`, `DecodeRune` and `FullRune`. Bytes are `UInt8`;
runes are naturals, since `DecodeRune` never builds a negative one. `Leading` is the shape of a
multi-byte sequence that `first` and `acceptRanges` describe, written as byte ranges without the
tables, and `DecodeRune` reads two or more bytes exactly when they are one. Such a sequence is,
byte for byte, what Lean's `String.utf8EncodeChar` writes for its rune, so Go's decoder and
Lean's encoder agree on every character.
-/

namespace GoSmpp.Utf8

/-- `utf8.RuneError`, the replacement character U+FFFD. -/
def runeError : Nat := 0xFFFD

/-- `utf8.RuneSelf`: every byte below it is a rune by itself. -/
def runeSelf : Nat := 0x80

/-- `locb`, the lowest continuation byte. -/
def locb : UInt8 := 0x80

/-- `hicb`, the highest continuation byte. -/
def hicb : UInt8 := 0xBF

/-- `maskx`, the payload bits of a continuation byte. -/
def maskx : UInt8 := 0x3F

/-- `mask2`, the payload bits of a two-byte lead. -/
def mask2 : UInt8 := 0x1F

/-- `mask3`, the payload bits of a three-byte lead. -/
def mask3 : UInt8 := 0x0F

/-- `mask4`, the payload bits of a four-byte lead. -/
def mask4 : UInt8 := 0x07

/-- `xx`: a byte that cannot start a sequence, size 1. -/
def xx : UInt8 := 0xF1

/-- `as`: an ASCII byte, size 1. -/
def as : UInt8 := 0xF0

/-- `s1`: accept range 0, size 2. -/
def s1 : UInt8 := 0x02

/-- `s2`: accept range 1, size 3. -/
def s2 : UInt8 := 0x13

/-- `s3`: accept range 0, size 3. -/
def s3 : UInt8 := 0x03

/-- `s4`: accept range 2, size 3. -/
def s4 : UInt8 := 0x23

/-- `s5`: accept range 3, size 4. -/
def s5 : UInt8 := 0x34

/-- `s6`: accept range 0, size 4. -/
def s6 : UInt8 := 0x04

/-- `s7`: accept range 4, size 4. -/
def s7 : UInt8 := 0x44

/-- `first`: the class of a sequence's first byte. The 256-entry table is written as the byte
ranges its rows are made of. -/
def first (b : UInt8) : UInt8 :=
  if b.toNat < 0x80 then as
  else if b.toNat < 0xC2 then xx
  else if b.toNat < 0xE0 then s1
  else if b.toNat = 0xE0 then s2
  else if b.toNat < 0xED then s3
  else if b.toNat = 0xED then s4
  else if b.toNat < 0xF0 then s3
  else if b.toNat = 0xF0 then s5
  else if b.toNat < 0xF4 then s6
  else if b.toNat = 0xF4 then s7
  else xx

/-- `acceptRange`: the bounds of the second byte of a sequence. -/
structure AcceptRange where
  /-- Lowest value for the second byte. -/
  lo : UInt8
  /-- Highest value for the second byte. -/
  hi : UInt8

/-- `acceptRanges`, indexed by the high nibble of a class; entries 5 to 15 are zero. -/
def acceptRanges (i : UInt8) : AcceptRange :=
  match i.toNat with
  | 0 => ⟨locb, hicb⟩
  | 1 => ⟨0xA0, hicb⟩
  | 2 => ⟨locb, 0x9F⟩
  | 3 => ⟨0x90, hicb⟩
  | 4 => ⟨locb, 0x8F⟩
  | _ => ⟨0, 0⟩

/-- `utf8.DecodeRune`: the first rune of `p` and its width in bytes. An empty `p` gives
`(RuneError, 0)`, an invalid or short sequence `(RuneError, 1)`. Go picks between an ASCII byte
and `RuneError` with a mask; the comment there says it stands for the test `x == xx`. -/
def decodeRune (p : List UInt8) : Nat × Nat :=
  match p with
  | [] => (runeError, 0)
  | p0 :: _ =>
    let x := first p0
    if as ≤ x then
      if x = xx then (runeError, 1) else (p0.toNat, 1)
    else
      let sz := (x &&& 7).toNat
      let accept := acceptRanges (x >>> 4)
      if p.length < sz then (runeError, 1)
      else
        let b1 := p.getD 1 0
        if b1 < accept.lo ∨ accept.hi < b1 then (runeError, 1)
        else if sz ≤ 2 then ((p0 &&& mask2).toNat <<< 6 ||| (b1 &&& maskx).toNat, 2)
        else
          let b2 := p.getD 2 0
          if b2 < locb ∨ hicb < b2 then (runeError, 1)
          else if sz ≤ 3 then
            ((p0 &&& mask3).toNat <<< 12 ||| (b1 &&& maskx).toNat <<< 6 ||| (b2 &&& maskx).toNat, 3)
          else
            let b3 := p.getD 3 0
            if b3 < locb ∨ hicb < b3 then (runeError, 1)
            else
              ((p0 &&& mask4).toNat <<< 18 ||| (b1 &&& maskx).toNat <<< 12 |||
                (b2 &&& maskx).toNat <<< 6 ||| (b3 &&& maskx).toNat, 4)

/-- `utf8.FullRune`: whether `p` begins with a whole sequence, an invalid one counting as whole. -/
def fullRune (p : List UInt8) : Bool :=
  match p with
  | [] => false
  | p0 :: _ =>
    let x := first p0
    if (x &&& 7).toNat ≤ p.length then true
    else
      let accept := acceptRanges (x >>> 4)
      if 1 < p.length ∧ (p.getD 1 0 < accept.lo ∨ accept.hi < p.getD 1 0) then true
      else if 2 < p.length ∧ (p.getD 2 0 < locb ∨ hicb < p.getD 2 0) then true
      else false

/-! ## Bytes as numbers -/

/-- A fact about all 256 bytes follows from the bounded check `decide` runs. -/
theorem byte_forall {P : UInt8 → Prop} (h : ∀ n, n < 256 → P (UInt8.ofNat n)) (b : UInt8) :
    P b := by
  have hb : UInt8.ofNat b.toNat = b := UInt8.toNat.inj (UInt8.toNat_ofNat_of_lt b.toNat_lt_size)
  simpa only [hb] using h b.toNat b.toNat_lt_size

/-- A byte is the byte of its value. -/
theorem byte_eq_ofNat {c : UInt8} {n : Nat} (h : c.toNat = n) : c = UInt8.ofNat n :=
  UInt8.toNat.inj (by rw [UInt8.toNat_ofNat_of_lt (h ▸ c.toNat_lt_size), h])

/-- Masking a byte with `2 ^ k - 1`, as `maskx` and `mask2` to `mask4` do, keeps its value
modulo `2 ^ k`. -/
theorem mask_toNat (b : UInt8) {m : UInt8} (k : Nat) (hm : m.toNat = 2 ^ k - 1) :
    (b &&& m).toNat = b.toNat % 2 ^ k := by
  rw [UInt8.and_toNat, hm, Nat.and_pow_two_sub_one_eq_mod]

/-! ## What `first` says -/

section FirstTable

set_option maxRecDepth 8192

/-- The lead bytes of multi-byte sequences are the bytes `first` does not class as `as` or `xx`. -/
theorem first_lt_as_iff : ∀ b : UInt8, ¬ as ≤ first b ↔ 0xC2 ≤ b.toNat ∧ b.toNat ≤ 0xF4 :=
  byte_forall (by decide)

/-- What `first` tells `DecodeRune` about a lead byte, in numbers: the width, then the bounds of
the second byte. -/
theorem first_lead : ∀ b : UInt8, 0xC2 ≤ b.toNat → b.toNat ≤ 0xF4 →
    (first b &&& 7).toNat = (if b.toNat < 0xE0 then 2 else if b.toNat < 0xF0 then 3 else 4) ∧
    (acceptRanges (first b >>> 4)).lo.toNat =
      (if b.toNat = 0xE0 then 0xA0 else if b.toNat = 0xF0 then 0x90 else 0x80) ∧
    (acceptRanges (first b >>> 4)).hi.toNat =
      (if b.toNat = 0xED then 0x9F else if b.toNat = 0xF4 then 0x8F else 0xBF) :=
  byte_forall (by decide)

/-- A byte `first` classes as `as` or `xx` is a rune by itself exactly when it is ASCII. -/
theorem first_single : ∀ b : UInt8, as ≤ first b → (first b = xx ↔ runeSelf ≤ b.toNat) :=
  byte_forall (by decide)

end FirstTable

/-! ## Well-formed sequences -/

/-- A continuation byte, from `locb` to `hicb`. -/
def Tail (b : UInt8) : Prop := 0x80 ≤ b.toNat ∧ b.toNat ≤ 0xBF

/-- The continuation-byte test of `DecodeRune`. -/
theorem tail_iff (b : UInt8) : ¬(b < locb ∨ hicb < b) ↔ Tail b := by
  show ¬(b.toNat < 0x80 ∨ 0xBF < b.toNat) ↔ 0x80 ≤ b.toNat ∧ b.toNat ≤ 0xBF
  omega

/-- `p` starts with a well-formed sequence of `n` bytes, two to four, for the rune `r`: a lead
byte of the width `first` gives it, a second byte in the lead's `acceptRanges` entry, and
continuation bytes. The accept ranges rule out overlong forms, surrogates and runes past
U+10FFFF. -/
inductive Leading : List UInt8 → Nat → Nat → Prop where
  /-- A lead from `0xC2` to `0xDF` (class `s1`) and a continuation byte. -/
  | two {c0 c1 : UInt8} (rest : List UInt8) : 0xC2 ≤ c0.toNat → c0.toNat ≤ 0xDF → Tail c1 →
      Leading (c0 :: c1 :: rest) (c0.toNat % 32 * 64 + c1.toNat % 64) 2
  /-- A lead from `0xE0` to `0xEF` and two continuation bytes, the second byte at least `0xA0`
  after `0xE0` (class `s2`) and at most `0x9F` after `0xED` (class `s4`). -/
  | three {c0 c1 c2 : UInt8} (rest : List UInt8) : 0xE0 ≤ c0.toNat → c0.toNat ≤ 0xEF →
      Tail c1 → Tail c2 → (c0.toNat = 0xE0 → 0xA0 ≤ c1.toNat) →
      (c0.toNat = 0xED → c1.toNat ≤ 0x9F) →
      Leading (c0 :: c1 :: c2 :: rest) (c0.toNat % 16 * 4096 + c1.toNat % 64 * 64 + c2.toNat % 64) 3
  /-- A lead from `0xF0` to `0xF4` and three continuation bytes, the second byte at least `0x90`
  after `0xF0` (class `s5`) and at most `0x8F` after `0xF4` (class `s7`). -/
  | four {c0 c1 c2 c3 : UInt8} (rest : List UInt8) : 0xF0 ≤ c0.toNat → c0.toNat ≤ 0xF4 →
      Tail c1 → Tail c2 → Tail c3 → (c0.toNat = 0xF0 → 0x90 ≤ c1.toNat) →
      (c0.toNat = 0xF4 → c1.toNat ≤ 0x8F) →
      Leading (c0 :: c1 :: c2 :: c3 :: rest)
        (c0.toNat % 8 * 262144 + c1.toNat % 64 * 4096 + c2.toNat % 64 * 64 + c3.toNat % 64) 4

/-- OR of a multiple of `2 ^ k` and a value below `2 ^ k` is their sum. -/
theorem or_eq_add {x y : Nat} (k : Nat) (hx : x % 2 ^ k = 0) (hy : y < 2 ^ k) :
    x ||| y = x + y := by
  obtain ⟨q, rfl⟩ : ∃ q, x = 2 ^ k * q :=
    ⟨x / 2 ^ k, (Nat.mul_div_cancel' (Nat.dvd_of_mod_eq_zero hx)).symm⟩
  exact (Nat.mul_add_lt_is_or hy q).symm

/-- The rune `DecodeRune` assembles from two bytes' payloads. -/
theorem rune2_eq {a b : Nat} (hb : b < 64) : a <<< 6 ||| b = a * 64 + b := by
  rw [Nat.shiftLeft_eq, or_eq_add 6 (by omega) hb]

/-- The rune `DecodeRune` assembles from three bytes' payloads. -/
theorem rune3_eq {a b c : Nat} (hb : b < 64) (hc : c < 64) :
    a <<< 12 ||| b <<< 6 ||| c = a * 4096 + b * 64 + c := by
  simp only [Nat.shiftLeft_eq, Nat.reducePow]
  rw [or_eq_add (x := a * 4096) 12 (by omega) (by omega), or_eq_add 6 (by omega) (by omega)]

/-- The rune `DecodeRune` assembles from four bytes' payloads. -/
theorem rune4_eq {a b c d : Nat} (hb : b < 64) (hc : c < 64) (hd : d < 64) :
    a <<< 18 ||| b <<< 12 ||| c <<< 6 ||| d = a * 262144 + b * 4096 + c * 64 + d := by
  simp only [Nat.shiftLeft_eq, Nat.reducePow]
  rw [or_eq_add (x := a * 262144) 18 (by omega) (by omega),
    or_eq_add (x := a * 262144 + b * 4096) 12 (by omega) (by omega),
    or_eq_add 6 (by omega) (by omega)]

/-- The accept-range test of `DecodeRune` on the second byte, as byte ranges. -/
theorem accept_iff {c0 : UInt8} (c1 : UInt8) (h0 : 0xC2 ≤ c0.toNat) (h0' : c0.toNat ≤ 0xF4) :
    ¬(c1 < (acceptRanges (first c0 >>> 4)).lo ∨ (acceptRanges (first c0 >>> 4)).hi < c1) ↔
      Tail c1 ∧ (c0.toNat = 0xE0 → 0xA0 ≤ c1.toNat) ∧ (c0.toNat = 0xED → c1.toNat ≤ 0x9F) ∧
        (c0.toNat = 0xF0 → 0x90 ≤ c1.toNat) ∧ (c0.toNat = 0xF4 → c1.toNat ≤ 0x8F) := by
  obtain ⟨-, hlo, hhi⟩ := first_lead c0 h0 h0'
  generalize acceptRanges (first c0 >>> 4) = a at hlo hhi ⊢
  show ¬(c1.toNat < a.lo.toNat ∨ a.hi.toNat < c1.toNat) ↔ _
  rw [hlo, hhi]
  unfold Tail
  split_ifs <;> omega

/-- `DecodeRune` reads every well-formed sequence. -/
theorem decodeRune_of_leading {p : List UInt8} {r n : Nat} (h : Leading p r n) :
    decodeRune p = (r, n) := by
  cases h with
  | @two c0 c1 rest h0 h0' h1 =>
    obtain ⟨hsz, -, -⟩ := first_lead c0 h0 (by omega)
    rw [if_pos (by omega)] at hsz
    simp only [decodeRune, if_neg ((first_lt_as_iff c0).2 ⟨h0, by omega⟩), hsz, List.length_cons,
      List.getD_cons_succ, List.getD_cons_zero, mask_toNat _ (m := mask2) 5 rfl,
      mask_toNat _ (m := maskx) 6 rfl, Nat.reducePow,
      if_neg ((accept_iff c1 h0 (by omega)).2 ⟨h1, by omega, by omega, by omega, by omega⟩)]
    rw [if_neg (by omega), if_pos le_rfl, rune2_eq (Nat.mod_lt _ (by decide))]
  | @three c0 c1 c2 rest h0 h0' h1 h2 he0 hed =>
    obtain ⟨hsz, -, -⟩ := first_lead c0 (by omega) (by omega)
    rw [if_neg (by omega), if_pos (by omega)] at hsz
    simp only [decodeRune, if_neg ((first_lt_as_iff c0).2 ⟨by omega, by omega⟩), hsz,
      List.length_cons, List.getD_cons_succ, List.getD_cons_zero, mask_toNat _ (m := mask3) 4 rfl,
      mask_toNat _ (m := maskx) 6 rfl, Nat.reducePow, if_neg ((tail_iff c2).2 h2),
      if_neg ((accept_iff c1 (by omega) (by omega)).2 ⟨h1, he0, hed, by omega, by omega⟩)]
    rw [if_neg (by omega), if_neg (by omega), if_pos le_rfl,
      rune3_eq (Nat.mod_lt _ (by decide)) (Nat.mod_lt _ (by decide))]
  | @four c0 c1 c2 c3 rest h0 h0' h1 h2 h3 hf0 hf4 =>
    obtain ⟨hsz, -, -⟩ := first_lead c0 (by omega) h0'
    rw [if_neg (by omega), if_neg (by omega)] at hsz
    simp only [decodeRune, if_neg ((first_lt_as_iff c0).2 ⟨by omega, h0'⟩), hsz, List.length_cons,
      List.getD_cons_succ, List.getD_cons_zero, mask_toNat _ (m := mask4) 3 rfl,
      mask_toNat _ (m := maskx) 6 rfl, Nat.reducePow, if_neg ((tail_iff c2).2 h2),
      if_neg ((tail_iff c3).2 h3),
      if_neg ((accept_iff c1 (by omega) h0').2 ⟨h1, by omega, by omega, hf0, hf4⟩)]
    rw [if_neg (by omega), if_neg (by omega), if_neg (by omega),
      rune4_eq (Nat.mod_lt _ (by decide)) (Nat.mod_lt _ (by decide)) (Nat.mod_lt _ (by decide))]

/-- A `DecodeRune` that reads two or more bytes has read a well-formed sequence. -/
theorem leading_of_decodeRune {p : List UInt8} {r n : Nat} (h : decodeRune p = (r, n))
    (hn : 2 ≤ n) : Leading p r n := by
  obtain _ | ⟨c0, t⟩ := p
  · simp only [decodeRune, Prod.mk.injEq] at h; omega
  by_cases hc : as ≤ first c0
  · simp only [decodeRune, if_pos hc] at h
    split_ifs at h <;> (simp only [Prod.mk.injEq] at h; omega)
  obtain ⟨h0, h0'⟩ := (first_lt_as_iff c0).1 hc
  obtain ⟨hsz, -, -⟩ := first_lead c0 h0 h0'
  simp only [decodeRune, if_neg hc, List.length_cons] at h
  rcases Nat.lt_or_ge c0.toNat 0xE0 with hw | hw
  · rw [if_pos hw] at hsz
    simp only [hsz, if_pos (le_refl 2)] at h
    split_ifs at h with hlen hacc <;> simp only [Prod.mk.injEq] at h
    · omega
    · omega
    obtain ⟨c1, t, rfl⟩ := List.exists_cons_of_length_pos (by omega : 0 < t.length)
    obtain ⟨rfl, rfl⟩ := h
    simp only [List.getD_cons_succ, List.getD_cons_zero, mask_toNat _ (m := mask2) 5 rfl,
      mask_toNat _ (m := maskx) 6 rfl, Nat.reducePow] at hacc ⊢
    rw [rune2_eq (Nat.mod_lt _ (by decide))]
    exact .two t h0 (by omega) ((accept_iff c1 h0 h0').1 hacc).1
  rcases Nat.lt_or_ge c0.toNat 0xF0 with hw' | hw'
  · rw [if_neg (by omega), if_pos hw'] at hsz
    simp only [hsz, if_neg (show ¬ 3 ≤ 2 by decide), if_pos (le_refl 3)] at h
    split_ifs at h with hlen hacc hb2 <;> simp only [Prod.mk.injEq] at h
    · omega
    · omega
    · omega
    obtain _ | ⟨c1, _ | ⟨c2, t⟩⟩ := t <;> simp only [List.length_cons, List.length_nil] at hlen
    · omega
    · omega
    obtain ⟨rfl, rfl⟩ := h
    simp only [List.getD_cons_succ, List.getD_cons_zero, mask_toNat _ (m := mask3) 4 rfl,
      mask_toNat _ (m := maskx) 6 rfl, Nat.reducePow] at hacc hb2 ⊢
    rw [rune3_eq (Nat.mod_lt _ (by decide)) (Nat.mod_lt _ (by decide))]
    obtain ⟨h1, he0, hed, -, -⟩ := (accept_iff c1 h0 h0').1 hacc
    exact .three t (by omega) (by omega) h1 ((tail_iff c2).1 hb2) he0 hed
  · rw [if_neg (by omega), if_neg (by omega)] at hsz
    simp only [hsz, if_neg (show ¬ 4 ≤ 2 by decide), if_neg (show ¬ 4 ≤ 3 by decide)] at h
    split_ifs at h with hlen hacc hb2 hb3 <;> simp only [Prod.mk.injEq] at h
    · omega
    · omega
    · omega
    · omega
    obtain _ | ⟨c1, _ | ⟨c2, _ | ⟨c3, t⟩⟩⟩ := t <;>
      simp only [List.length_cons, List.length_nil] at hlen
    · omega
    · omega
    · omega
    obtain ⟨rfl, rfl⟩ := h
    simp only [List.getD_cons_succ, List.getD_cons_zero, mask_toNat _ (m := mask4) 3 rfl,
      mask_toNat _ (m := maskx) 6 rfl, Nat.reducePow] at hacc hb2 hb3 ⊢
    rw [rune4_eq (Nat.mod_lt _ (by decide)) (Nat.mod_lt _ (by decide)) (Nat.mod_lt _ (by decide))]
    obtain ⟨h1, -, -, hf0, hf4⟩ := (accept_iff c1 h0 h0').1 hacc
    exact .four t (by omega) h0' h1 ((tail_iff c2).1 hb2) ((tail_iff c3).1 hb3) hf0 hf4

/-- A byte below `RuneSelf` is decoded as itself. -/
theorem decodeRune_ascii {c : UInt8} (t : List UInt8) (hc : c.toNat < runeSelf) :
    decodeRune (c :: t) = (c.toNat, 1) := by
  have hf : as ≤ first c := by
    by_contra h; have := (first_lt_as_iff c).1 h; unfold runeSelf at hc; omega
  simp only [decodeRune, if_pos hf, if_neg (fun h => absurd ((first_single c hf).1 h) (by omega))]

/-- A choice between two nonzero widths is nonzero. -/
theorem ite_ne_zero_of {P : Prop} [Decidable P] {a b : Nat} (ha : a ≠ 0) (hb : b ≠ 0) :
    (if P then a else b) ≠ 0 := by
  split <;> assumption

/-- A nonempty input always advances `DecodeRune` by at least one byte. -/
theorem decodeRune_cons_width (c : UInt8) (t : List UInt8) : (decodeRune (c :: t)).2 ≠ 0 := by
  simp only [decodeRune, apply_ite Prod.snd]
  repeat (first | apply ite_ne_zero_of | nofun)

/-- A well-formed sequence fits in its input. -/
theorem Leading.width_le {p : List UInt8} {r n : Nat} (h : Leading p r n) : n ≤ p.length := by
  cases h <;> simp

/-- A well-formed sequence starts with a lead byte and is two bytes or more. -/
theorem Leading.lead {p : List UInt8} {r n : Nat} (h : Leading p r n) :
    ∃ c0 t, p = c0 :: t ∧ 0xC2 ≤ c0.toNat ∧ 2 ≤ n := by
  cases h with
  | two _ h0 => exact ⟨_, _, rfl, h0, le_rfl⟩
  | three _ h0 => exact ⟨_, _, rfl, by omega, by omega⟩
  | four _ h0 => exact ⟨_, _, rfl, by omega, by omega⟩

/-- `DecodeRune` never reads past the end of its input. -/
theorem decodeRune_width_le (p : List UInt8) : (decodeRune p).2 ≤ p.length := by
  obtain _ | ⟨c, t⟩ := p
  · simp [decodeRune]
  rcases Nat.lt_or_ge (decodeRune (c :: t)).2 2 with h | h
  · simp only [List.length_cons]; omega
  · exact Leading.width_le (leading_of_decodeRune (r := (decodeRune (c :: t)).1) rfl h)

/-! ## Lean's encoder -/

/-- OR of bytes is OR of their values. -/
theorem byte_or_toNat (a b : UInt8) : (a ||| b).toNat = a.toNat ||| b.toNat := BitVec.toNat_or ..

/-- A payload cut to its low `j` bits under a tag whose low `j` bits are clear is the tag plus
the payload: how every byte of a UTF-8 sequence is built. -/
theorem tagged_toNat (x : UInt8) {m t : UInt8} (j : Nat) (hm : m.toNat = 2 ^ j - 1)
    (ht : t.toNat % 2 ^ j = 0) : (x &&& m ||| t).toNat = t.toNat + x.toNat % 2 ^ j := by
  rw [byte_or_toNat, mask_toNat x j hm, Nat.or_comm,
    or_eq_add j ht (Nat.mod_lt _ (Nat.two_pow_pos j))]

/-- A right shift of a 32-bit value divides it, the shift taken modulo 32. -/
theorem shiftRight_toNat (v k : UInt32) : (v >>> k).toNat = v.toNat / 2 ^ (k.toNat % 32) := by
  show (v.toBitVec >>> (k.mod 32).toBitVec.toNat).toNat = _
  rw [BitVec.toNat_ushiftRight, Nat.shiftRight_eq_div_pow]
  rfl

/-- A character is a Unicode scalar value: below the surrogates, or above them and at most
U+10FFFF. -/
theorem char_toNat_valid (c : Char) :
    c.toNat < 0xD800 ∨ 0xDFFF < c.toNat ∧ c.toNat < 0x110000 := c.valid

/-- A byte of Lean's encoder: bits of a shifted code point under a tag, in numbers. -/
theorem tagged_shift_toNat (v k : UInt32) {m t : UInt8} (j : Nat) (hm : m.toNat = 2 ^ j - 1)
    (ht : t.toNat % 2 ^ j = 0) (hj : 2 ^ j ∣ 256) :
    ((v >>> k).toUInt8 &&& m ||| t).toNat = t.toNat + v.toNat / 2 ^ (k.toNat % 32) % 2 ^ j := by
  rw [tagged_toNat _ j hm ht, UInt32.toUInt8_toNat, shiftRight_toNat, Nat.mod_mod_of_dvd _ hj]

/-- The last byte of Lean's encoder: the low bits of a code point under a tag, in numbers. -/
theorem tagged_low_toNat (v : UInt32) {m t : UInt8} (j : Nat) (hm : m.toNat = 2 ^ j - 1)
    (ht : t.toNat % 2 ^ j = 0) (hj : 2 ^ j ∣ 256) :
    (v.toUInt8 &&& m ||| t).toNat = t.toNat + v.toNat % 2 ^ j := by
  rw [tagged_toNat _ j hm ht, UInt32.toUInt8_toNat, Nat.mod_mod_of_dvd _ hj]

/-- Lean's encoder on a character from U+0080 to U+07FF. -/
theorem utf8EncodeChar_two (c : Char) (hlo : 0x80 ≤ c.toNat) (hhi : c.toNat ≤ 0x7FF) :
    String.utf8EncodeChar c =
      [UInt8.ofNat (0xC0 + c.toNat / 64 % 32), UInt8.ofNat (0x80 + c.toNat % 64)] := by
  have hn : c.val.toNat = c.toNat := rfl
  unfold String.utf8EncodeChar
  rw [if_neg (fun h' => by have : c.val.toNat ≤ 0x7F := h'; omega),
    if_pos (show c.val ≤ 0x7FF from (show c.val.toNat ≤ 0x7FF by omega)),
    byte_eq_ofNat (tagged_shift_toNat c.val 6 (m := 0x1f) (t := 0xc0) 5 rfl rfl (by decide)),
    byte_eq_ofNat (tagged_low_toNat c.val (m := 0x3f) (t := 0x80) 6 rfl rfl (by decide))]
  rfl

/-- Lean's encoder on a character from U+0800 to U+FFFF. -/
theorem utf8EncodeChar_three (c : Char) (hlo : 0x800 ≤ c.toNat) (hhi : c.toNat ≤ 0xFFFF) :
    String.utf8EncodeChar c =
      [UInt8.ofNat (0xE0 + c.toNat / 4096 % 16), UInt8.ofNat (0x80 + c.toNat / 64 % 64),
        UInt8.ofNat (0x80 + c.toNat % 64)] := by
  have hn : c.val.toNat = c.toNat := rfl
  unfold String.utf8EncodeChar
  rw [if_neg (fun h' => by have : c.val.toNat ≤ 0x7F := h'; omega),
    if_neg (fun h' => by have : c.val.toNat ≤ 0x7FF := h'; omega),
    if_pos (show c.val ≤ 0xFFFF from (show c.val.toNat ≤ 0xFFFF by omega)),
    byte_eq_ofNat (tagged_shift_toNat c.val 12 (m := 0x0f) (t := 0xe0) 4 rfl rfl (by decide)),
    byte_eq_ofNat (tagged_shift_toNat c.val 6 (m := 0x3f) (t := 0x80) 6 rfl rfl (by decide)),
    byte_eq_ofNat (tagged_low_toNat c.val (m := 0x3f) (t := 0x80) 6 rfl rfl (by decide))]
  rfl

/-- Lean's encoder on a character from U+10000 up. -/
theorem utf8EncodeChar_four (c : Char) (hlo : 0x10000 ≤ c.toNat) :
    String.utf8EncodeChar c =
      [UInt8.ofNat (0xF0 + c.toNat / 262144 % 8), UInt8.ofNat (0x80 + c.toNat / 4096 % 64),
        UInt8.ofNat (0x80 + c.toNat / 64 % 64), UInt8.ofNat (0x80 + c.toNat % 64)] := by
  have hn : c.val.toNat = c.toNat := rfl
  unfold String.utf8EncodeChar
  rw [if_neg (fun h' => by have : c.val.toNat ≤ 0x7F := h'; omega),
    if_neg (fun h' => by have : c.val.toNat ≤ 0x7FF := h'; omega),
    if_neg (fun h' => by have : c.val.toNat ≤ 0xFFFF := h'; omega),
    byte_eq_ofNat (tagged_shift_toNat c.val 18 (m := 0x07) (t := 0xf0) 3 rfl rfl (by decide)),
    byte_eq_ofNat (tagged_shift_toNat c.val 12 (m := 0x3f) (t := 0x80) 6 rfl rfl (by decide)),
    byte_eq_ofNat (tagged_shift_toNat c.val 6 (m := 0x3f) (t := 0x80) 6 rfl rfl (by decide)),
    byte_eq_ofNat (tagged_low_toNat c.val (m := 0x3f) (t := 0x80) 6 rfl rfl (by decide))]
  rfl

/-- A byte that is `0x80` plus a six-bit payload is a continuation byte. -/
theorem tail_of_eq {c : UInt8} {b : Nat} (h : c.toNat = 0x80 + b) (hb : b < 64) : Tail c :=
  ⟨by omega, by omega⟩

/-- Two bytes holding the payloads of a rune from U+0080 to U+07FF are a two-byte sequence. -/
theorem leading_two {c0 c1 : UInt8} {a b n : Nat} (rest : List UInt8) (h0 : c0.toNat = 0xC0 + a)
    (h1 : c1.toNat = 0x80 + b) (hb : b < 64) (hn : n = a * 64 + b) (hlo : 0x80 ≤ n)
    (hhi : n ≤ 0x7FF) :
    Leading (c0 :: c1 :: rest) n 2 := by
  have key : c0.toNat % 32 * 64 + c1.toNat % 64 = n := by omega
  exact key ▸ .two rest (by omega) (by omega) (tail_of_eq h1 hb)

/-- Three bytes holding the payloads of a rune from U+0800 to U+FFFF, not a surrogate, are a
three-byte sequence. -/
theorem leading_three {c0 c1 c2 : UInt8} {a b c n : Nat} (rest : List UInt8)
    (h0 : c0.toNat = 0xE0 + a) (h1 : c1.toNat = 0x80 + b) (h2 : c2.toNat = 0x80 + c)
    (hb : b < 64) (hc : c < 64) (hn : n = a * 4096 + b * 64 + c) (hlo : 0x800 ≤ n)
    (hhi : n ≤ 0xFFFF) (hs : n < 0xD800 ∨ 0xDFFF < n) :
    Leading (c0 :: c1 :: c2 :: rest) n 3 := by
  have key : c0.toNat % 16 * 4096 + c1.toNat % 64 * 64 + c2.toNat % 64 = n := by omega
  exact key ▸
    .three rest (by omega) (by omega) (tail_of_eq h1 hb) (tail_of_eq h2 hc) (by omega) (by omega)

/-- Four bytes holding the payloads of a rune from U+10000 to U+10FFFF are a four-byte
sequence. -/
theorem leading_four {c0 c1 c2 c3 : UInt8} {a b c d n : Nat} (rest : List UInt8)
    (h0 : c0.toNat = 0xF0 + a) (h1 : c1.toNat = 0x80 + b) (h2 : c2.toNat = 0x80 + c)
    (h3 : c3.toNat = 0x80 + d) (hb : b < 64) (hc : c < 64) (hd : d < 64)
    (hn : n = a * 262144 + b * 4096 + c * 64 + d) (hlo : 0x10000 ≤ n) (hhi : n < 0x110000) :
    Leading (c0 :: c1 :: c2 :: c3 :: rest) n 4 := by
  have key :
      c0.toNat % 8 * 262144 + c1.toNat % 64 * 4096 + c2.toNat % 64 * 64 + c3.toNat % 64 = n := by
    omega
  exact key ▸ .four rest (by omega) (by omega) (tail_of_eq h1 hb) (tail_of_eq h2 hc)
    (tail_of_eq h3 hd) (by omega) (by omega)

/-- Lean's `String.utf8EncodeChar` writes every character from U+0080 up as a well-formed
sequence of that character. -/
theorem leading_utf8EncodeChar (c : Char) (rest : List UInt8) (h : 0x80 ≤ c.toNat) :
    Leading (String.utf8EncodeChar c ++ rest) c.toNat (String.utf8EncodeChar c).length := by
  have hv := char_toNat_valid c
  have h64 := Nat.mod_lt c.toNat (show 0 < 64 by decide)
  have h6464 := Nat.mod_lt (c.toNat / 64) (show 0 < 64 by decide)
  have h4096 := Nat.mod_lt (c.toNat / 4096) (show 0 < 64 by decide)
  have byte {n : Nat} (hn : n < 256) : (UInt8.ofNat n).toNat = n := UInt8.toNat_ofNat_of_lt hn
  by_cases h2 : c.toNat ≤ 0x7FF
  · rw [utf8EncodeChar_two c h h2]
    exact leading_two rest (byte (by omega)) (byte (by omega)) h64 (by omega) h h2
  by_cases h3 : c.toNat ≤ 0xFFFF
  · rw [utf8EncodeChar_three c (by omega) h3]
    exact leading_three rest (byte (by omega)) (byte (by omega))
      (byte (by omega)) h6464 h64 (by omega) (by omega) h3 (by omega)
  · rw [utf8EncodeChar_four c (by omega)]
    exact leading_four rest (byte (by omega)) (byte (by omega))
      (byte (by omega)) (byte (by omega)) h4096 h6464 h64 (by omega) (by omega) (by omega)

/-- `DecodeRune` reads back every character Lean's encoder writes, whatever follows it. -/
theorem decodeRune_utf8EncodeChar (c : Char) (rest : List UInt8) :
    decodeRune (String.utf8EncodeChar c ++ rest) = (c.toNat, (String.utf8EncodeChar c).length) := by
  by_cases h : c.toNat < runeSelf
  · have hn : c.val.toNat = c.toNat := rfl
    unfold runeSelf at h
    have hc : c.val.toUInt8.toNat = c.toNat := by rw [UInt32.toUInt8_toNat]; omega
    unfold String.utf8EncodeChar
    rw [if_pos (show c.val ≤ 0x7F from (show c.val.toNat ≤ 0x7F by omega)),
      List.singleton_append, decodeRune_ascii rest (hc ▸ h), hc]
    rfl
  · exact decodeRune_of_leading (leading_utf8EncodeChar c rest (by unfold runeSelf at h; omega))

/-- The rune of a well-formed sequence is a Unicode scalar value from U+0080 up, in the range its
width encodes. -/
theorem Leading.rune {p : List UInt8} {r n : Nat} (h : Leading p r n) :
    0x80 ≤ r ∧ r.isValidChar ∧ (n = 2 → r < 0x800) ∧ (n = 3 → 0x800 ≤ r ∧ r < 0x10000) ∧
      (n = 4 → 0x10000 ≤ r) := by
  cases h with
  | @two c0 c1 rest h0 h0' h1 =>
    unfold Tail at h1
    exact ⟨by omega, .inl (by omega), fun _ => by omega, nofun, nofun⟩
  | @three c0 c1 c2 rest h0 h0' h1 h2 he0 hed =>
    unfold Tail at h1 h2
    have hlo : 0x800 ≤ c0.toNat % 16 * 4096 + c1.toNat % 64 * 64 + c2.toNat % 64 := by
      by_cases hE : c0.toNat = 0xE0
      · have := he0 hE; omega
      · omega
    have hs : c0.toNat % 16 * 4096 + c1.toNat % 64 * 64 + c2.toNat % 64 < 0xD800 ∨
        0xDFFF < c0.toNat % 16 * 4096 + c1.toNat % 64 * 64 + c2.toNat % 64 := by
      by_cases hD : c0.toNat = 0xED
      · have := hed hD; omega
      · omega
    exact ⟨by omega, by unfold Nat.isValidChar; omega, nofun, fun _ => ⟨hlo, by omega⟩, nofun⟩
  | @four c0 c1 c2 c3 rest h0 h0' h1 h2 h3 hf0 hf4 =>
    unfold Tail at h1 h2 h3
    have hlo : 0x10000 ≤
        c0.toNat % 8 * 262144 + c1.toNat % 64 * 4096 + c2.toNat % 64 * 64 + c3.toNat % 64 := by
      by_cases hF : c0.toNat = 0xF0
      · have := hf0 hF; omega
      · omega
    have hhi : c0.toNat % 8 * 262144 + c1.toNat % 64 * 4096 + c2.toNat % 64 * 64 +
        c3.toNat % 64 < 0x110000 := by
      by_cases hF : c0.toNat = 0xF4
      · have := hf4 hF; omega
      · omega
    exact ⟨by omega, .inr ⟨by omega, hhi⟩, nofun, nofun, fun _ => hlo⟩

/-- A Unicode scalar value is the code point of its character. -/
theorem toNat_char_ofNat {n : Nat} (h : n.isValidChar) : (Char.ofNat n).toNat = n := by
  rw [Char.ofNat, dif_pos h]
  rfl

/-- The payloads of a two-byte rune read back from it. -/
theorem payloads_two {a b : Nat} (hb : b < 64) : (a * 64 + b) / 64 = a ∧ (a * 64 + b) % 64 = b := by
  omega

/-- The payloads of a three-byte rune read back from it. -/
theorem payloads_three {a b c : Nat} (hb : b < 64) (hc : c < 64) :
    (a * 4096 + b * 64 + c) / 4096 = a ∧ (a * 4096 + b * 64 + c) / 64 % 64 = b ∧
      (a * 4096 + b * 64 + c) % 64 = c := by
  omega

/-- The payloads of a four-byte rune read back from it. -/
theorem payloads_four {a b c d : Nat} (hb : b < 64) (hc : c < 64) (hd : d < 64) :
    (a * 262144 + b * 4096 + c * 64 + d) / 262144 = a ∧
      (a * 262144 + b * 4096 + c * 64 + d) / 4096 % 64 = b ∧
      (a * 262144 + b * 4096 + c * 64 + d) / 64 % 64 = c ∧
      (a * 262144 + b * 4096 + c * 64 + d) % 64 = d := by
  omega

/-- A continuation byte is `0x80` plus its payload. -/
theorem Tail.toNat_eq {c : UInt8} (h : Tail c) : c.toNat = 0x80 + c.toNat % 64 := by
  unfold Tail at h; omega

/-- A lead byte is its tag plus its payload. -/
theorem lead_toNat_eq {c : UInt8} {t k : Nat} (h : t ≤ c.toNat) (h' : c.toNat < t + k)
    (ht : t % k = 0) : c.toNat = t + c.toNat % k := by
  obtain ⟨q, rfl⟩ : ∃ q, t = k * q :=
    ⟨t / k, (Nat.mul_div_cancel' (Nat.dvd_of_mod_eq_zero ht)).symm⟩
  have : c.toNat = k * q + (c.toNat - k * q) := by omega
  rw [this, Nat.mul_add_mod, Nat.mod_eq_of_lt (by omega)]

/-- A well-formed sequence is Lean's encoding of its rune. -/
theorem Leading.take_eq {p : List UInt8} {r n : Nat} (h : Leading p r n) :
    p.take n = String.utf8EncodeChar (Char.ofNat r) := by
  obtain ⟨h80, hv, hw2, hw3, hw4⟩ := h.rune
  have hc := toNat_char_ofNat hv
  have h64 (x : Nat) : x % 64 < 64 := Nat.mod_lt x (by decide)
  cases h with
  | @two c0 c1 rest h0 h0' h1 =>
    obtain ⟨e0, e1⟩ := payloads_two (a := c0.toNat % 32) (h64 c1.toNat)
    rw [utf8EncodeChar_two _ (by rw [hc]; exact h80)
        (by rw [hc]; exact Nat.le_of_lt_succ (hw2 rfl)), hc, e0, e1, Nat.mod_mod,
      ← byte_eq_ofNat (lead_toNat_eq (c := c0) (t := 0xC0) (k := 32) (by omega) (by omega) rfl),
      ← byte_eq_ofNat h1.toNat_eq]
    rfl
  | @three c0 c1 c2 rest h0 h0' h1 h2 he0 hed =>
    obtain ⟨e0, e1, e2⟩ := payloads_three (a := c0.toNat % 16) (h64 c1.toNat) (h64 c2.toNat)
    obtain ⟨hlo, hhi⟩ := hw3 rfl
    rw [utf8EncodeChar_three _ (by rw [hc]; exact hlo) (by rw [hc]; exact Nat.le_of_lt_succ hhi),
      hc, e0, e1, e2, Nat.mod_mod,
      ← byte_eq_ofNat (lead_toNat_eq (c := c0) (t := 0xE0) (k := 16) h0 (by omega) rfl),
      ← byte_eq_ofNat h1.toNat_eq, ← byte_eq_ofNat h2.toNat_eq]
    rfl
  | @four c0 c1 c2 c3 rest h0 h0' h1 h2 h3 hf0 hf4 =>
    obtain ⟨e0, e1, e2, e3⟩ :=
      payloads_four (a := c0.toNat % 8) (h64 c1.toNat) (h64 c2.toNat) (h64 c3.toNat)
    rw [utf8EncodeChar_four _ (by rw [hc]; exact hw4 rfl), hc, e0, e1, e2, e3, Nat.mod_mod,
      ← byte_eq_ofNat (lead_toNat_eq (c := c0) (t := 0xF0) (k := 8) h0 (by omega) rfl),
      ← byte_eq_ofNat h1.toNat_eq, ← byte_eq_ofNat h2.toNat_eq, ← byte_eq_ofNat h3.toNat_eq]
    rfl

/-- `utf8.DecodeRune` reads two or more bytes exactly where Lean's encoder wrote a character
from U+0080 up, and then returns that character and its width: Go's table-driven decoder accepts
exactly the multi-byte UTF-8 of Lean's strings. -/
theorem decodeRune_multibyte_iff (p : List UInt8) (r n : Nat) :
    decodeRune p = (r, n) ∧ 2 ≤ n ↔
      ∃ c : Char, 0x80 ≤ c.toNat ∧ r = c.toNat ∧ n = (String.utf8EncodeChar c).length ∧
        ∃ rest, p = String.utf8EncodeChar c ++ rest := by
  constructor
  · rintro ⟨h, hn⟩
    have hl := leading_of_decodeRune h hn
    obtain ⟨hlo, hv, -⟩ := hl.rune
    have ht := hl.take_eq
    have hlen : (p.take n).length = n := List.length_take_of_le hl.width_le
    refine ⟨Char.ofNat r, by rw [toNat_char_ofNat hv]; exact hlo, (toNat_char_ofNat hv).symm,
      by rw [← ht, hlen], p.drop n, by rw [← ht, List.take_append_drop]⟩
  · rintro ⟨c, hc, rfl, rfl, rest, rfl⟩
    obtain ⟨-, -, -, -, hn⟩ := (leading_utf8EncodeChar c rest hc).lead
    exact ⟨decodeRune_utf8EncodeChar c rest, hn⟩

end GoSmpp.Utf8
