import Mathlib.Data.List.TakeWhile
import DivisionScript.Program.Outline
import DivisionScript.Proofs.Token.Longest

/-!
# Text — Quoted, proved

Quoted text can be read back: it ends at the first quote that is not behind a backslash, and what
stands for a character stands for no other one.
-/

namespace DivisionScript.Text

/-! ## Hexadecimal digits -/

/-- The value of a hexadecimal digit. -/
def hexValue (c : Char) : Nat :=
  if c.isDigit then c.toNat - 48 else c.toNat - 87

theorem hexValue_digitChar {n : Nat} (h : n < 16) : hexValue n.digitChar = n := by
  revert n
  decide

theorem digitChar_ne_brace {n : Nat} (h : n < 16) : n.digitChar ≠ '\x7d' := by
  revert n
  decide

/-- The digits of a number denote it, and none of them is a brace. -/
theorem hexDigits_value (n : Nat) :
    (hexDigits n).foldl (fun value c => 16 * value + hexValue c) 0 = n ∧
      '\x7d' ∉ hexDigits n := by
  induction n using Nat.strong_induction_on with
  | h n ih =>
    rw [hexDigits, Nat.toDigits_eq_if (by decide)]
    split
    · next hlt => simp [hexValue_digitChar hlt, (digitChar_ne_brace hlt).symm]
    · obtain ⟨hvalue, hbrace⟩ := ih (n / 16) (by omega)
      have hdigit : n % 16 < 16 := Nat.mod_lt n (by decide)
      rw [← hexDigits, List.foldl_append, hvalue]
      constructor
      · simp only [List.foldl_cons, List.foldl_nil, hexValue_digitChar hdigit]
        omega
      · simp [hbrace, (digitChar_ne_brace hdigit).symm]

theorem hexDigits_inj {m n : Nat} (h : hexDigits m = hexDigits n) : m = n := by
  rw [← (hexDigits_value m).1, h, (hexDigits_value n).1]

/-! ## Characters -/

/-- The character that a letter behind a backslash stands for. -/
def unescape? (c : Char) : Option Char :=
  if c = '"' then some '"'
  else if c = '\\' then some '\\'
  else if c = 't' then some '\t'
  else if c = 'n' then some '\n'
  else if c = 'r' then some '\r'
  else if c = '0' then some (Char.ofNat 0)
  else none

/-- The three ways in which a character is shown: by itself, by a letter, by its code point. -/
inductive Shown : Char → List Char → Prop
  | plain {c : Char} (hquote : c ≠ '"') (hbackslash : c ≠ '\\') : Shown c [c]
  | letter {c d : Char} (h : unescape? d = some c) : Shown c ['\\', d]
  | code (c : Char) : Shown c ('\\' :: 'u' :: '\x7b' :: hexDigits c.toNat ++ ['\x7d'])

theorem shown_messageEscape (c : Char) : Shown c ((messageEscape c).getD [c]) := by
  rw [messageEscape]
  split_ifs with hquote hbackslash htab hfeed hreturn hnull hprintable hunprintable
  · exact hquote ▸ (.letter rfl : Shown '"' ['\\', '"'])
  · exact hbackslash ▸ (.letter rfl : Shown '\\' ['\\', '\\'])
  · exact htab ▸ .letter rfl
  · exact hfeed ▸ .letter rfl
  · exact hreturn ▸ .letter rfl
  · have hzero : c = Char.ofNat 0 := Char.toNat_inj.mp hnull
    exact hzero ▸ .letter rfl
  · exact .plain hquote hbackslash
  · exact .code c
  · exact .plain hquote hbackslash

/-- What stands for a character ends where it ends, and stands for no other one. -/
theorem Shown.inj {c d : Char} {shown other s t : List Char} (hc : Shown c shown)
    (hd : Shown d other) (h : shown ++ s = other ++ t) : c = d ∧ s = t := by
  cases hc with
  | plain hquote hbackslash =>
    cases hd with
    | plain => exact List.cons_eq_cons.mp h
    | letter | code => exact absurd (List.cons_eq_cons.mp h).1 hbackslash
  | letter hletter =>
    cases hd with
    | plain _ hbackslash => exact absurd (List.cons_eq_cons.mp h).1.symm hbackslash
    | letter hletter' =>
      simp only [List.cons_append, List.nil_append, List.cons.injEq, true_and] at h
      obtain ⟨rfl, rfl⟩ := h
      exact ⟨Option.some.inj (hletter.symm.trans hletter'), rfl⟩
    | code =>
      simp only [List.cons_append, List.nil_append, List.cons.injEq, true_and] at h
      rw [h.1] at hletter
      cases hletter
  | code =>
    cases hd with
    | plain _ hbackslash => exact absurd (List.cons_eq_cons.mp h).1.symm hbackslash
    | letter hletter' =>
      simp only [List.cons_append, List.nil_append, List.cons.injEq, true_and] at h
      rw [← h.1] at hletter'
      cases hletter'
    | code =>
      simp only [List.cons_append, List.append_assoc, List.nil_append, List.cons.injEq,
        true_and] at h
      have hdigits := append_stop_inj (hexDigits_value _).2 (hexDigits_value _).2 h
      rw [hdigits] at h
      exact ⟨Char.toNat_inj.mp (hexDigits_inj hdigits),
        (List.cons_eq_cons.mp (List.append_cancel_left h)).2⟩

/-- What stands for a character starts with no quote. -/
theorem Shown.ne_quote {c : Char} {shown s t : List Char} (hc : Shown c shown) :
    shown ++ s ≠ '"' :: t := by
  cases hc with
  | plain hquote => exact fun h => hquote (List.cons_eq_cons.mp h).1
  | letter | code => exact fun h => absurd (List.cons_eq_cons.mp h).1 (by decide)

/-! ## Texts -/

theorem escaped_inj {cs ds s t : List Char}
    (h : escaped messageEscape cs ++ '"' :: s = escaped messageEscape ds ++ '"' :: t) :
    cs = ds ∧ s = t := by
  induction cs generalizing ds with
  | nil =>
    cases ds with
    | nil => exact ⟨rfl, (List.cons_eq_cons.mp h).2⟩
    | cons d ds =>
      rw [escaped, escaped, List.flatMap_cons, List.append_assoc] at h
      exact absurd h.symm (shown_messageEscape d).ne_quote
  | cons c cs ih =>
    cases ds with
    | nil =>
      rw [escaped, escaped, List.flatMap_cons, List.append_assoc] at h
      exact absurd h (shown_messageEscape c).ne_quote
    | cons d ds =>
      rw [escaped, escaped, List.flatMap_cons, List.flatMap_cons, List.append_assoc,
        List.append_assoc] at h
      obtain ⟨rfl, hrest⟩ := (shown_messageEscape c).inj (shown_messageEscape d) h
      obtain ⟨rfl, rfl⟩ := ih hrest
      exact ⟨rfl, rfl⟩

end DivisionScript.Text

namespace DivisionScript

/-- A quoted text can be read back from the text that it stands in. -/
theorem quotedOnto_inj {a b : String} {s t : List Char} (h : quotedOnto a s = quotedOnto b t) :
    a = b ∧ s = t := by
  simp only [quotedOnto, Text.quoted, List.cons_append, List.append_assoc, List.nil_append,
    List.cons.injEq, true_and] at h
  obtain ⟨htext, hrest⟩ := Text.escaped_inj h
  exact ⟨String.toList_inj.mp htext, hrest⟩

end DivisionScript
