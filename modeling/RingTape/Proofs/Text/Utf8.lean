import RingTape.Text.Utf8
import RingTape.Proofs.Checked

/-!
# Texts as bytes

The bytes of a text are decoded as that text.  Decoding goes by the first byte of a character, so
that the facts here go by the number of bytes: what a lead and as many tails are decoded as, when
the numbers that they carry are in range.

A file may start with a byte order mark.  The mark is a character as well, and a text without one at
its start is not mistaken for a text after a mark.
-/

namespace RingTape.Text

/-! ## Bytes of a character -/

section Bytes

variable {n : Nat} {b : UInt8}

theorem toNat_ofNat_of_lt
    (h : n < 256) :
    (UInt8.ofNat n).toNat = n := by
  rw [UInt8.toNat_ofNat', Nat.mod_eq_of_lt h]

theorem ofNat_lt_iff
    (h : n < 256) :
    UInt8.ofNat n < b ↔ n < b.toNat := by
  rw [UInt8.lt_iff_toNat_lt, toNat_ofNat_of_lt h]

theorem le_ofNat_iff
    (h : n < 256) :
    b ≤ UInt8.ofNat n ↔ b.toNat ≤ n := by
  rw [UInt8.le_iff_toNat_le, toNat_ofNat_of_lt h]

theorem ofNat_eq_iff
    (h : n < 256) :
    UInt8.ofNat n = b ↔ n = b.toNat := by
  rw [← UInt8.toNat_inj, toNat_ofNat_of_lt h]

end Bytes

/-- The byte that goes on with a character by the six low bits of a number. -/
def tailByte (n : Nat) : UInt8 :=
  UInt8.ofNat (n % 64 + 128)

theorem isTail_tailByte
    (n : Nat) :
    isTail (tailByte n) = true := by
  have hn : n % 64 + 128 < 256 := by omega
  simp only [isTail, tailByte, le_ofNat_iff hn, ofNat_lt_iff hn, UInt8.reduceToNat,
    Bool.and_eq_true, decide_eq_true_eq]
  omega

theorem pushSix_tailByte
    (m n : Nat) :
    pushSix m (tailByte n) = m * 64 + n % 64 := by
  rw [pushSix, tailByte, toNat_ofNat_of_lt (by omega)]
  omega

/-- The second byte of a character is only narrowed by four of the leads. -/
theorem isSecond_tailByte
    {lead n : Nat} (h : lead < 256) (hoverlong : lead = 0xE0 → 32 ≤ n % 64)
    (hsurrogate : lead = 0xED → n % 64 < 32) (hoverlong' : lead = 0xF0 → 16 ≤ n % 64)
    (hbeyond : lead = 0xF4 → n % 64 < 16) :
    isSecond (UInt8.ofNat lead) (tailByte n) = true := by
  have hn : n % 64 + 128 < 256 := by omega
  unfold isSecond
  simp only [ofNat_eq_iff h, UInt8.reduceToNat, isTail_tailByte]
  simp only [tailByte, le_ofNat_iff hn, ofNat_lt_iff hn, UInt8.reduceToNat]
  split
  · next hlead =>
      have hbound := hoverlong hlead
      simp only [Bool.and_eq_true, decide_eq_true_eq]
      omega
  split
  · next hlead =>
      have hbound := hsurrogate hlead
      simp only [Bool.and_eq_true, decide_eq_true_eq]
      omega
  split
  · next hlead =>
      have hbound := hoverlong' hlead
      simp only [Bool.and_eq_true, decide_eq_true_eq]
      omega
  split
  · next hlead =>
      have hbound := hbeyond hlead
      simp only [Bool.and_eq_true, decide_eq_true_eq]
      omega
  · rfl

/-! ## Decoding -/

section Decoding

variable {lead m n k position : Nat} {rest : List UInt8}

theorem decodeFrom_one
    (h : lead < 0x80) :
    decodeFrom position (UInt8.ofNat lead :: rest) =
      (Char.ofNat lead :: ·) <$> decodeFrom (position + 1) rest := by
  have hlead : lead < 256 := by omega
  rw [decodeFrom.eq_def]
  simp only [ofNat_lt_iff hlead, UInt8.reduceToNat, toNat_ofNat_of_lt hlead]
  rw [if_pos h]

theorem decodeFrom_two
    (hlow : 0xC2 ≤ lead) (hhigh : lead < 0xE0) :
    decodeFrom position (UInt8.ofNat lead :: tailByte n :: rest) =
      (Char.ofNat (lead % 32 * 64 + n % 64) :: ·) <$> decodeFrom (position + 2) rest := by
  have hlead : lead < 256 := by omega
  have hsecond : isSecond (UInt8.ofNat lead) (tailByte n) = true :=
    isSecond_tailByte hlead (by omega) (by omega) (by omega) (by omega)
  rw [decodeFrom.eq_def]
  simp only [ofNat_lt_iff hlead, le_ofNat_iff hlead, UInt8.reduceToNat, hsecond,
    toNat_ofNat_of_lt hlead, pushSix_tailByte]
  rw [if_neg (by omega), if_neg (by simp; omega), if_neg (by simp), if_pos hhigh]

theorem decodeFrom_three
    (hlow : 0xE0 ≤ lead) (hhigh : lead < 0xF0)
    (hsecond : isSecond (UInt8.ofNat lead) (tailByte m) = true) :
    decodeFrom position (UInt8.ofNat lead :: tailByte m :: tailByte n :: rest) =
      (Char.ofNat ((lead % 16 * 64 + m % 64) * 64 + n % 64) :: ·) <$>
        decodeFrom (position + 3) rest := by
  have hlead : lead < 256 := by omega
  rw [decodeFrom.eq_def]
  simp only [ofNat_lt_iff hlead, le_ofNat_iff hlead, UInt8.reduceToNat, hsecond,
    isTail_tailByte, toNat_ofNat_of_lt hlead, pushSix_tailByte]
  rw [if_neg (by omega), if_neg (by simp; omega), if_neg (by simp), if_neg (by omega),
    if_neg (by simp), if_pos hhigh]

theorem decodeFrom_four
    (hlow : 0xF0 ≤ lead) (hhigh : lead < 0xF5)
    (hsecond : isSecond (UInt8.ofNat lead) (tailByte k) = true) :
    decodeFrom position (UInt8.ofNat lead :: tailByte k :: tailByte m :: tailByte n :: rest) =
      (Char.ofNat (((lead % 8 * 64 + k % 64) * 64 + m % 64) * 64 + n % 64) :: ·) <$>
        decodeFrom (position + 4) rest := by
  have hlead : lead < 256 := by omega
  rw [decodeFrom.eq_def]
  simp only [ofNat_lt_iff hlead, le_ofNat_iff hlead, UInt8.reduceToNat, hsecond,
    isTail_tailByte, toNat_ofNat_of_lt hlead, pushSix_tailByte]
  rw [if_neg (by omega), if_neg (by simp; omega), if_neg (by simp), if_neg (by omega),
    if_neg (by simp), if_neg (by omega), if_neg (by simp)]

end Decoding

/-- The bytes of a character are decoded as that character. -/
theorem decodeFrom_utf8EncodeChar
    (position : Nat) (c : Char) (rest : List UInt8) :
    ∃ next, decodeFrom position (String.utf8EncodeChar c ++ rest) =
      (c :: ·) <$> decodeFrom next rest := by
  have hvalid : c.val.toNat < 0xD800 ∨ 0xDFFF < c.val.toNat ∧ c.val.toNat < 0x110000 := c.valid
  have hchar {n : Nat} (h : n = c.val.toNat) : Char.ofNat n = c := by
    rw [h]
    exact Char.ofNat_toNat c
  unfold String.utf8EncodeChar
  simp only [← tailByte.eq_1]
  split
  · next hone =>
      refine ⟨position + 1, ?_⟩
      rw [List.singleton_append, decodeFrom_one (by omega), hchar rfl]
  split
  · next hone htwo =>
      refine ⟨position + 2, ?_⟩
      rw [List.cons_append, List.singleton_append, decodeFrom_two (by omega) (by omega),
        hchar (by omega)]
  split
  · next hone htwo hthree =>
      refine ⟨position + 3, ?_⟩
      rw [List.cons_append, List.cons_append, List.singleton_append,
        decodeFrom_three (by omega) (by omega)
          (isSecond_tailByte (by omega) (by omega) (by omega) (by omega) (by omega)),
        hchar (by omega)]
  · next hone htwo hthree =>
      refine ⟨position + 4, ?_⟩
      rw [List.cons_append, List.cons_append, List.cons_append, List.singleton_append,
        decodeFrom_four (by omega) (by omega)
          (isSecond_tailByte (by omega) (by omega) (by omega) (by omega) (by omega)),
        hchar (by omega)]

/-- A text is decoded from its bytes. -/
theorem decodeFrom_encodeUtf8
    (position : Nat) (cs : List Char) :
    decodeFrom position (encodeUtf8 cs) = .ok cs := by
  induction cs generalizing position with
  | nil => rfl
  | cons c cs ih =>
      obtain ⟨next, hnext⟩ := decodeFrom_utf8EncodeChar position c (encodeUtf8 cs)
      rw [encodeUtf8, List.flatMap_cons, ← encodeUtf8, hnext, ih]
      rfl

/-! ## Files -/

/-- Only a text that starts with a byte order mark has its bytes start with one. -/
theorem dropByteOrderMark_encodeUtf8
    {cs : List Char} (h : cs.head? ≠ some '\uFEFF') :
    dropByteOrderMark (encodeUtf8 cs) = encodeUtf8 cs := by
  have hdecode := decodeFrom_encodeUtf8 0 cs
  unfold dropByteOrderMark
  split
  · next rest hbytes =>
      have hmark : (0xEF :: 0xBB :: 0xBF :: rest : List UInt8) =
          String.utf8EncodeChar '\uFEFF' ++ rest := rfl
      obtain ⟨next, hnext⟩ := decodeFrom_utf8EncodeChar 0 '\uFEFF' rest
      rw [hbytes, hmark, hnext, map_eq_ok_iff] at hdecode
      obtain ⟨others, -, rfl⟩ := hdecode
      exact absurd rfl h
  · next hbytes =>
      rw [hbytes] at hdecode
      cases hdecode
  · next hbytes =>
      rw [hbytes] at hdecode
      cases hdecode
  · rfl

theorem decodeFile_encodeUtf8
    {cs : List Char} (h : cs.head? ≠ some '\uFEFF') :
    decodeFile (encodeUtf8 cs) = .ok (unifyLineEnds cs) := by
  rw [decodeFile, dropByteOrderMark_encodeUtf8 h, decodeFrom_encodeUtf8]
  rfl

/-- After its mark a text may start with another one, which is kept. -/
theorem decodeFile_byteOrderMark_append
    (cs : List Char) :
    decodeFile (byteOrderMark ++ encodeUtf8 cs) = .ok (unifyLineEnds cs) := by
  change unifyLineEnds <$> decodeFrom 0 (encodeUtf8 cs) = _
  rw [decodeFrom_encodeUtf8]
  rfl

end RingTape.Text
