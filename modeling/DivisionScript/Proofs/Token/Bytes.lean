import DivisionScript.Proofs.Token.Lexeme

/-!
# Token — Bytes

A text as the bytes of its UTF-8 form. `Ahead source n cs` says that the characters `cs` are what
is left of a text from byte `n` on; byte `n` is then a boundary between characters, and a slice from
one such byte to another is the characters between them. A test of bytes that `Agrees` with a test
of characters runs over the same stretch of text.
-/

namespace DivisionScript

/-- The bytes of a list of characters. -/
def encode (cs : List Char) : List UInt8 :=
  cs.flatMap String.utf8EncodeChar

/-- The bytes of a text. -/
def bytes (source : String) : List UInt8 :=
  source.toByteArray.data.toList

/-- A byte of a text is a boundary between characters, or the end of the text. -/
def Boundary (source : String) (n : Nat) : Prop :=
  (String.Pos.Raw.mk n).IsValid source

instance (source : String) (n : Nat) : Decidable (Boundary source n) :=
  inferInstanceAs (Decidable (String.Pos.Raw.IsValid source ⟨n⟩))

/-- The text from one boundary to another that is not before it. -/
def slice? (source : String) (a b : Nat) : Option String :=
  if h : Boundary source a ∧ Boundary source b ∧ a ≤ b then
    some (source.extract ⟨⟨a⟩, h.1⟩ ⟨⟨b⟩, h.2.1⟩)
  else
    none

/-- The characters that are left of a text from a byte on. -/
def Ahead (source : String) (n : Nat) (cs : List Char) : Prop :=
  ∃ before, source.toList = before ++ cs ∧ n = (encode before).length

/-! ## The bytes of characters -/

variable {source : String} {n : Nat} {c : Char} {cs before after : List Char}

theorem encode_cons : encode (c :: cs) = String.utf8EncodeChar c ++ encode cs :=
  List.flatMap_cons

theorem encode_append : encode (before ++ after) = encode before ++ encode after :=
  List.flatMap_append

theorem bytes_eq_encode (source : String) : bytes source = encode source.toList := by
  conv_lhs => rw [← String.ofList_toList (s := source)]
  rw [bytes, String.toByteArray_ofList, List.utf8Encode, List.toList_data_toByteArray, encode]

theorem length_bytes (source : String) : (bytes source).length = source.utf8ByteSize := by
  rw [bytes, Array.length_toList]
  rfl

theorem bytes_inj {s t : String} (h : bytes s = bytes t) : s = t :=
  String.toByteArray_inj.mp (ByteArray.ext (Array.toList_inj.mp h))

/-- An ASCII character is one byte, its code. -/
theorem utf8EncodeChar_ascii (hc : c.toNat < 128) : String.utf8EncodeChar c = [c.toUInt8] := by
  have hle : c.val.toNat ≤ 0x7f := Nat.le_of_lt_succ hc
  rw [String.utf8EncodeChar]
  exact if_pos hle

theorem le_toNat_ofNat {k m : Nat} (x : Nat) (hm : 0 < m) (hk : 128 ≤ k) (hkm : m + k ≤ 256) :
    128 ≤ (UInt8.ofNat (x % m + k)).toNat := by
  have hlt : x % m < m := Nat.mod_lt x hm
  rw [UInt8.toNat_ofNat', Nat.mod_eq_of_lt (by omega)]
  omega

/-- The bytes of the other characters are no codes of ASCII characters. -/
theorem le_of_mem_utf8EncodeChar (hc : 128 ≤ c.toNat) {b : UInt8}
    (hb : b ∈ String.utf8EncodeChar c) : 128 ≤ b.toNat := by
  have hcode : ¬ c.val.toNat ≤ 0x7f := Nat.not_le.mpr hc
  simp only [String.utf8EncodeChar, if_neg hcode] at hb
  split at hb
  · simp only [List.mem_cons, List.not_mem_nil, or_false] at hb
    rcases hb with rfl | rfl <;> exact le_toNat_ofNat _ (by decide) (by decide) (by decide)
  split at hb
  · simp only [List.mem_cons, List.not_mem_nil, or_false] at hb
    rcases hb with rfl | rfl | rfl <;> exact le_toNat_ofNat _ (by decide) (by decide) (by decide)
  · simp only [List.mem_cons, List.not_mem_nil, or_false] at hb
    rcases hb with rfl | rfl | rfl | rfl <;>
      exact le_toNat_ofNat _ (by decide) (by decide) (by decide)

theorem toNat_ofUInt8 (b : UInt8) : (Char.ofUInt8 b).toNat = b.toNat :=
  UInt8.toNat_toUInt32 b

theorem ofUInt8_toUInt8 (hc : c.toNat < 128) : Char.ofUInt8 c.toUInt8 = c := by
  apply Char.toNat_inj.mp
  rw [toNat_ofUInt8, Char.toUInt8, UInt32.toNat_toUInt8]
  exact Nat.mod_eq_of_lt (Nat.lt_trans hc (by decide))

/-- A test of bytes gives each byte of a character the answer of a test of characters. -/
def Agrees (p : UInt8 → Bool) (q : Char → Bool) : Prop :=
  ∀ c, ∀ b ∈ String.utf8EncodeChar c, p b = q c

namespace Agrees

variable {p : UInt8 → Bool} {q : Char → Bool}

/-- A test that only ASCII characters pass agrees with itself on the codes. -/
theorem of_ascii (hq : ∀ c, q c → c.toNat < 128) : Agrees (fun b => q (Char.ofUInt8 b)) q := by
  intro c b hb
  -- the bytes of a longer character are as little ASCII as the character itself
  by_cases hc : c.toNat < 128
  · rw [utf8EncodeChar_ascii hc, List.mem_singleton] at hb
    subst hb
    exact congrArg q (ofUInt8_toUInt8 hc)
  · have hcode := le_of_mem_utf8EncodeChar (Nat.le_of_not_lt hc) hb
    have hfalse (d : Char) (hd : 128 ≤ d.toNat) : q d = false :=
      Bool.eq_false_iff.mpr fun h => Nat.not_lt.mpr hd (hq d h)
    show q (Char.ofUInt8 b) = q c
    rw [hfalse c (Nat.le_of_not_lt hc), hfalse _ (by rwa [toNat_ofUInt8])]

theorem not (h : Agrees p q) : Agrees (fun b => !p b) (fun c => !q c) := fun c b hb =>
  congrArg (!·) (h c b hb)

theorem takeWhile (h : Agrees p q) (cs : List Char) :
    (encode cs).takeWhile p = encode (cs.takeWhile q) := by
  induction cs with
  | nil => rfl
  | cons c cs ih =>
    rw [encode_cons]
    cases hq : q c with
    | true =>
      rw [List.takeWhile_append_of_pos fun b hb => (h c b hb).trans hq, ih,
        List.takeWhile_cons_of_pos hq, encode_cons]
    | false =>
      obtain ⟨b, bs, hbs⟩ := List.exists_cons_of_ne_nil (String.utf8EncodeChar_ne_nil (c := c))
      have hb : p b = false := (h c b (hbs ▸ List.mem_cons_self)).trans hq
      rw [hbs, List.cons_append, List.takeWhile_cons_of_neg (by simp [hb]),
        List.takeWhile_cons_of_neg (by simp [hq])]
      rfl

end Agrees

/-- Being one ASCII character is the same test for a character and for its first byte. -/
theorem agrees_ascii {d : Char} (hd : d.toNat < 128) : Agrees (· == d.toUInt8) (· == d) := by
  intro c b hb
  by_cases hc : c.toNat < 128
  · rw [utf8EncodeChar_ascii hc, List.mem_singleton] at hb
    subst hb
    refine Bool.eq_iff_iff.mpr ?_
    rw [beq_iff_eq, beq_iff_eq]
    refine ⟨fun h => ?_, fun h => h ▸ rfl⟩
    rw [← ofUInt8_toUInt8 hc, h, ofUInt8_toUInt8 hd]
  · have hcode := le_of_mem_utf8EncodeChar (Nat.le_of_not_lt hc) hb
    have hbyte : b ≠ d.toUInt8 := by
      rintro rfl
      rw [← toNat_ofUInt8, ofUInt8_toUInt8 hd] at hcode
      omega
    have hchar : c ≠ d := by
      rintro rfl
      exact hc hd
    show (b == d.toUInt8) = (c == d)
    rw [beq_eq_false_iff_ne.mpr hbyte, beq_eq_false_iff_ne.mpr hchar]

theorem count_encode {d : Char} (hd : d.toNat < 128) (cs : List Char) :
    (encode cs).count d.toUInt8 = cs.count d := by
  induction cs with
  | nil => rfl
  | cons c cs ih =>
    rw [encode_cons, List.count_append, ih, List.count_cons, Nat.add_comm]
    refine congrArg (cs.count d + ·) ?_
    split
    · next hcd =>
      rw [beq_iff_eq.mp hcd, utf8EncodeChar_ascii hd, List.count_singleton_self]
    · next hcd =>
      refine List.count_eq_zero.mpr fun hmem => hcd ?_
      exact (agrees_ascii hd c _ hmem).symm.trans (beq_self_eq_true _)

namespace Ahead

theorem start (source : String) : Ahead source 0 source.toList :=
  ⟨[], rfl, rfl⟩

theorem advance {piece rest : List Char} (h : Ahead source n (piece ++ rest)) :
    Ahead source (n + (encode piece).length) rest := by
  obtain ⟨before, htext, rfl⟩ := h
  refine ⟨before ++ piece, ?_, ?_⟩
  · rw [htext, List.append_assoc]
  · rw [encode_append, List.length_append]

/-- The bytes that are left are those of the characters that are left. -/
theorem drop_bytes (h : Ahead source n cs) : (bytes source).drop n = encode cs := by
  obtain ⟨before, htext, rfl⟩ := h
  rw [bytes_eq_encode, htext, encode_append, List.drop_left]

theorem length_bytes (h : Ahead source n cs) :
    (bytes source).length = n + (encode cs).length := by
  obtain ⟨before, htext, rfl⟩ := h
  rw [bytes_eq_encode, htext, encode_append, List.length_append]

theorem lt (h : Ahead source n (c :: cs)) : n < (bytes source).length := by
  have hpos := List.length_pos_iff.mpr (String.utf8EncodeChar_ne_nil (c := c))
  rw [h.length_bytes, encode_cons, List.length_append]
  omega

/-- What a test of the next byte says, a byte 0 standing for the end, which does not pass it. -/
theorem test {p : UInt8 → Bool} {q : Char → Bool} (h : Ahead source n cs) (hagrees : Agrees p q)
    (hzero : p 0 = false) : p ((bytes source).getD n 0) = cs.head?.any q := by
  have hget : (bytes source)[n]? = (encode cs)[0]? := by
    rw [← h.drop_bytes, List.getElem?_drop, Nat.add_zero]
  rw [List.getD_eq_getElem?_getD, hget]
  cases cs with
  | nil => exact hzero
  | cons c cs =>
    obtain ⟨b, bs, hbs⟩ := List.exists_cons_of_ne_nil (String.utf8EncodeChar_ne_nil (c := c))
    rw [encode_cons, hbs]
    exact hagrees c b (hbs ▸ List.mem_cons_self)

theorem boundary (h : Ahead source n cs) : Boundary source n := by
  obtain ⟨before, htext, rfl⟩ := h
  refine String.Pos.Raw.isValid_iff_exists_append.mpr ⟨.ofList before, .ofList cs, ?_, ?_⟩
  · rw [← String.ofList_append, ← htext, String.ofList_toList]
  · rw [String.Pos.Raw.ext_iff, String.byteIdx_rawEndPos, ← DivisionScript.length_bytes,
      bytes_eq_encode, String.toList_ofList]

theorem slice {piece rest : List Char} (h : Ahead source n (piece ++ rest)) :
    slice? source n (n + (encode piece).length) = some (String.ofList piece) := by
  have hboundary : Boundary source n ∧ Boundary source (n + (encode piece).length) ∧
      n ≤ n + (encode piece).length := ⟨h.boundary, h.advance.boundary, Nat.le_add_right ..⟩
  rw [slice?, dif_pos hboundary]
  refine congrArg some (bytes_inj ?_)
  rw [bytes, String.toByteArray_extract, ByteArray.data_extract, Array.toList_extract]
  show ((bytes source).drop n).take (n + (encode piece).length - n) = _
  rw [h.drop_bytes, encode_append, Nat.add_sub_cancel_left, List.take_left, bytes_eq_encode,
    String.toList_ofList]

end Ahead

end DivisionScript
