import Mathlib.Data.Nat.Defs

/-!
# `transform.Bytes`

`golang.org/x/text/transform`'s `Bytes` runs a transformer over a whole input, growing the
destination buffer each time the transformer stops for want of room without writing. The
transformers in scope are stateless (both `charmap` transformers embed `NopResetter`), so one
call of `Transform` is a function of the room left in `dst`, the unread `src` and `atEOF`.
`Chunks` says that a transformer computes a whole-input function a piece at a time; then
`Bytes` returns that function's value (`bytes_of_chunks`), and the bound Go's endless loop is
given here is never reached.
-/

namespace GoSmpp.Transform

/-- The errors the transformers in scope return. -/
inductive TransformError where
  /-- `transform.ErrShortDst`: `dst` has no room for the next output. -/
  | errShortDst
  /-- `transform.ErrShortSrc`: `src` ends inside a unit while more input may come. -/
  | errShortSrc
  /-- `internal.RepertoireError`: a rune the encoding lacks, with the encoding's replacement. -/
  | repertoireError (replacement : UInt8)
  deriving DecidableEq, Repr

/-- What a call of `Transform(dst, src, atEOF)`, or of `Bytes`, returns: the bytes written, the
number of source bytes consumed and the error (`none` is Go's `nil`). -/
structure Step where
  /-- The bytes written, `dst[:nDst]`. -/
  out : List UInt8
  /-- The source bytes consumed. -/
  nSrc : Nat
  /-- The error the call stopped on, if any. -/
  err : Option TransformError
  deriving DecidableEq, Repr

/-- `s` then `r`: the output and the consumption add up, and `r`'s error is the one left. -/
def Step.andThen (s r : Step) : Step := ⟨s.out ++ r.out, s.nSrc + r.nSrc, r.err⟩

/-- Writing `out` from `n` source bytes, then the call `r`. -/
def Step.emit (out : List UInt8) (n : Nat) (r : Step) : Step := Step.andThen ⟨out, n, none⟩ r

@[simp] theorem Step.emit_out (out : List UInt8) (n : Nat) (r : Step) :
    (Step.emit out n r).out = out ++ r.out := rfl

@[simp] theorem Step.emit_nSrc (out : List UInt8) (n : Nat) (r : Step) :
    (Step.emit out n r).nSrc = n + r.nSrc := rfl

@[simp] theorem Step.emit_err (out : List UInt8) (n : Nat) (r : Step) :
    (Step.emit out n r).err = r.err := rfl

@[simp] theorem Step.andThen_out (s r : Step) : (s.andThen r).out = s.out ++ r.out := rfl

@[simp] theorem Step.andThen_nSrc (s r : Step) : (s.andThen r).nSrc = s.nSrc + r.nSrc := rfl

@[simp] theorem Step.andThen_err (s r : Step) : (s.andThen r).err = r.err := rfl

/-- Nothing done, then `r`, is `r`. -/
@[simp] theorem Step.nil_andThen (r : Step) : Step.andThen ⟨[], 0, none⟩ r = r := by
  cases r; simp only [andThen, List.nil_append, Nat.zero_add]

/-- Running three pieces one after the other does not depend on the grouping. -/
theorem Step.andThen_assoc (s r q : Step) : (s.andThen r).andThen q = s.andThen (r.andThen q) := by
  simp only [andThen, List.append_assoc, Nat.add_assoc]

/-- A stateless `transform.Transformer`: `Transform` given the room in `dst`, `src` and `atEOF`. -/
def Transformer : Type := Nat → List UInt8 → Bool → Step

/-- `grow`: the length of the buffer that replaces a full one of length `m`. -/
def grow (m : Nat) : Nat :=
  if m ≤ 32 then 64 else if m ≤ 256 then m * 2 else m + m >>> 1

/-- A grown buffer has at least 32 more bytes. -/
theorem le_grow (m : Nat) : m + 32 ≤ grow m := by
  unfold grow
  split_ifs
  · omega
  · omega
  · rw [Nat.shiftRight_eq_div_pow]; omega

/-- The loop of `doAppend` for at most `fuel` rounds: `dst` has length `dstLen` and holds `out`
in `dst[:pDst]`, and `pSrc` bytes of `src` are consumed. `none` when the rounds run out. -/
def doAppend (t : Transformer) (src : List UInt8) :
    (fuel dstLen : Nat) → List UInt8 → Nat → Option Step
  | 0, _, _, _ => none
  | fuel + 1, dstLen, out, pSrc =>
    let s := t (dstLen - out.length) (src.drop pSrc) true
    if s.err ≠ some .errShortDst then some ⟨out ++ s.out, pSrc + s.nSrc, s.err⟩
    else doAppend t src fuel (if s.out.length = 0 then grow dstLen else dstLen) (out ++ s.out)
      (pSrc + s.nSrc)

/-- `transform.Bytes`: `dst` starts as long as `b`. Go's loop has no bound; the `2 * |b| + 2`
rounds given here are enough for every transformer `Chunks` describes (`bytes_of_chunks`). -/
def bytes (t : Transformer) (b : List UInt8) : Option Step :=
  doAppend t b (2 * b.length + 2) b.length [] 0

/-- `t` computes `whole` a piece at a time, with units of at most `w` output bytes: a call that
stops for any reason but room did all of `whole`; a call that stops for room wrote within the
room, consumed input whenever it wrote or had `w` bytes of room, and leaves `whole` of the rest
to do. -/
structure Chunks (t : Transformer) (whole : List UInt8 → Step) (w : Nat) : Prop where
  /-- A call that did not run out of room did the whole work. -/
  done : ∀ room src, (t room src true).err ≠ some .errShortDst → t room src true = whole src
  /-- A call writes within the room it is given. -/
  fits : ∀ room src, (t room src true).out.length ≤ room
  /-- A call that wrote before running out of room consumed input. -/
  reads : ∀ room src, (t room src true).err = some .errShortDst → (t room src true).out ≠ [] →
    0 < (t room src true).nSrc
  /-- With room for a unit, a call consumes input. -/
  progress : ∀ room src, (t room src true).err = some .errShortDst → w ≤ room →
    0 < (t room src true).nSrc
  /-- A call that ran out of room did a prefix of the whole work. -/
  resume : ∀ room src, (t room src true).err = some .errShortDst →
    (t room src true).nSrc ≤ src.length ∧
      whole src = (t room src true).andThen (whole (src.drop (t room src true).nSrc))

section Chunked

variable {t : Transformer} {whole : List UInt8 → Step} {w : Nat}

/-- The loop of `doAppend` finishes the whole work while it has two rounds per unread byte,
and one more when the room left is less than a unit. -/
theorem doAppend_chunks (hc : Chunks t whole w) (hw : w ≤ 32) (src : List UInt8) :
    ∀ fuel dstLen out pSrc, out.length ≤ dstLen → pSrc ≤ src.length →
      2 * (src.length - pSrc) + 1 + (if dstLen - out.length < w then 1 else 0) ≤ fuel →
      doAppend t src fuel dstLen out pSrc =
        some (Step.andThen ⟨out, pSrc, none⟩ (whole (src.drop pSrc)))
  | 0, _, _, _, _, _, hf => by omega
  | fuel + 1, dstLen, out, pSrc, hout, hp, hf => by
    have hlen : (src.drop pSrc).length = src.length - pSrc := List.length_drop _ _
    by_cases hs : (t (dstLen - out.length) (src.drop pSrc) true).err = some .errShortDst
    · obtain ⟨hn, hwhole⟩ := hc.resume _ _ hs
      have hfit := hc.fits (dstLen - out.length) (src.drop pSrc)
      have hprog := hc.progress _ _ hs
      have hreads : (t (dstLen - out.length) (src.drop pSrc) true).out.length ≠ 0 →
          0 < (t (dstLen - out.length) (src.drop pSrc) true).nSrc :=
        fun h => hc.reads _ _ hs (fun he => h (by rw [he]; rfl))
      have hgrow := le_grow dstLen
      simp only [doAppend, hs, ne_eq, not_true_eq_false, if_false]
      rw [doAppend_chunks hc hw src fuel _ _ _ ?_ ?_ ?_, hwhole, List.drop_drop,
        ← Step.andThen_assoc]
      · rfl
      · split_ifs <;> simp only [List.length_append] <;> omega
      · omega
      · simp only [List.length_append]
        split_ifs at hf ⊢ <;> omega
    · simp only [doAppend, if_pos hs]
      rw [← hc.done _ _ hs]
      rfl
/-- `Bytes` returns the whole work of a transformer that does it a piece at a time. -/
theorem bytes_of_chunks (hc : Chunks t whole w) (hw : w ≤ 32) (b : List UInt8) :
    bytes t b = some (whole b) := by
  rw [bytes, doAppend_chunks hc hw b _ _ _ _ (Nat.zero_le _) (Nat.zero_le _)
    (by split_ifs <;> omega)]
  simp only [List.drop_zero, Step.nil_andThen]

end Chunked

end GoSmpp.Transform
