import StackScript.Text.Bytes

/-!
# Well-formed bytes

Bytes are well formed if they are the bytes of characters one behind the other: a character is a
byte below 128, or a leading byte and one to three bytes that continue it. The bytes that would
spell a number in more bytes than it needs, a surrogate, or a number above the last character are
ruled out by what may follow four of the leading bytes. Exactly the well-formed bytes are those of a
text (`wellFormed_iff`), so decoding fails on all others (`decode?_eq_none_iff`).
-/

set_option autoImplicit false

namespace StackScript.Text

def Within (lo hi : Nat) (b : UInt8) : Prop := lo ≤ b.toNat ∧ b.toNat ≤ hi

/-- The byte goes on with a character that other bytes began. -/
def Continues (b : UInt8) : Prop := Within 0x80 0xBF b

/-- The bytes of one character. -/
inductive CharBytes : List UInt8 → Prop where
  | one {a : UInt8} : Within 0x00 0x7F a → CharBytes [a]
  /-- Smaller leading bytes would spell a number that fits into one byte. -/
  | two {a b : UInt8} : Within 0xC2 0xDF a → Continues b → CharBytes [a, b]
  /-- The conditions keep out numbers that fit into two bytes, and surrogates. -/
  | three {a b c : UInt8} : Within 0xE0 0xEF a → Continues b → Continues c →
      (a.toNat = 0xE0 → 0xA0 ≤ b.toNat) → (a.toNat = 0xED → b.toNat ≤ 0x9F) → CharBytes [a, b, c]
  /-- The conditions keep out numbers that fit into three bytes, and those above `0x10FFFF`. -/
  | four {a b c d : UInt8} : Within 0xF0 0xF4 a → Continues b → Continues c → Continues d →
      (a.toNat = 0xF0 → 0x90 ≤ b.toNat) → (a.toNat = 0xF4 → b.toNat ≤ 0x8F) → CharBytes [a, b, c, d]

inductive WellFormed : List UInt8 → Prop where
  | nil : WellFormed []
  | append {bs rest : List UInt8} : CharBytes bs → WellFormed rest → WellFormed (bs ++ rest)

variable {bs : List UInt8}

/-! ## One character -/

theorem byte_eq {n : Nat} {b : UInt8} (h : n % 256 = b.toNat) : UInt8.ofNat n = b := by
  rw [← UInt8.toNat_inj, UInt8.toNat_ofNat']
  exact h

theorem within_ofNat {lo hi n : Nat} (h : lo ≤ n % 256 ∧ n % 256 ≤ hi) :
    Within lo hi (UInt8.ofNat n) := by
  rw [Within, UInt8.toNat_ofNat']
  exact h

theorem charBytes_utf8EncodeChar (c : Char) : CharBytes (String.utf8EncodeChar c) := by
  have hv : c.val.toNat < 0xD800 ∨ 0xDFFF < c.val.toNat ∧ c.val.toNat < 0x110000 := c.valid
  unfold String.utf8EncodeChar
  simp only
  generalize c.val.toNat = v at hv
  -- as many bytes as the number of the character needs
  split
  · exact .one (within_ofNat (by omega))
  split
  · exact .two (within_ofNat (by omega)) (within_ofNat (by omega))
  split
  · refine .three (within_ofNat (by omega)) (within_ofNat (by omega)) (within_ofNat (by omega)) ?_ ?_
    all_goals
      simp only [UInt8.toNat_ofNat']
      omega
  · refine .four (within_ofNat (by omega)) (within_ofNat (by omega)) (within_ofNat (by omega))
      (within_ofNat (by omega)) ?_ ?_
    all_goals
      simp only [UInt8.toNat_ofNat']
      omega

theorem exists_char_of_charBytes (h : CharBytes bs) : ∃ c, String.utf8EncodeChar c = bs := by
  have hval {v : Nat} (hv : v.isValidChar) : (Char.ofNat v).val.toNat = v := by
    rw [Char.ofNat, dif_pos hv]
    rfl
  cases h with
  | @one a ha =>
    obtain ⟨-, ha⟩ := ha
    have hv : (Char.ofNat a.toNat).val.toNat = a.toNat := hval (by omega)
    refine ⟨Char.ofNat a.toNat, ?_⟩
    simp only [String.utf8EncodeChar, hv, if_pos ha, UInt8.ofNat_toNat]
  | @two a b ha hb =>
    obtain ⟨⟨ha, ha'⟩, ⟨hb, hb'⟩⟩ := And.intro ha hb
    let v := (a.toNat - 0xC0) * 64 + (b.toNat - 0x80)
    have hv : (Char.ofNat v).val.toNat = v := hval (by omega)
    have h1 : ¬ v ≤ 127 := by omega
    have h2 : v ≤ 2047 := by omega
    refine ⟨Char.ofNat v, ?_⟩
    simp only [String.utf8EncodeChar, hv, if_neg h1, if_pos h2]
    rw [byte_eq (b := a) (by omega), byte_eq (b := b) (by omega)]
  | @three a b c ha hb hc hlo hhi =>
    obtain ⟨⟨ha, ha'⟩, ⟨hb, hb'⟩, ⟨hc, hc'⟩⟩ := And.intro ha (And.intro hb hc)
    let v := (a.toNat - 0xE0) * 4096 + (b.toNat - 0x80) * 64 + (c.toNat - 0x80)
    have hv : (Char.ofNat v).val.toNat = v := hval (by omega)
    have h2 : ¬ v ≤ 2047 := by omega
    have h3 : v ≤ 65535 := by omega
    refine ⟨Char.ofNat v, ?_⟩
    simp only [String.utf8EncodeChar, hv, if_neg (show ¬ v ≤ 127 by omega), if_neg h2, if_pos h3]
    rw [byte_eq (b := a) (by omega), byte_eq (b := b) (by omega), byte_eq (b := c) (by omega)]
  | @four a b c d ha hb hc hd hlo hhi =>
    obtain ⟨⟨ha, ha'⟩, ⟨hb, hb'⟩, ⟨hc, hc'⟩, ⟨hd, hd'⟩⟩ :=
      And.intro ha (And.intro hb (And.intro hc hd))
    let v := (a.toNat - 0xF0) * 262144 + (b.toNat - 0x80) * 4096 + (c.toNat - 0x80) * 64
      + (d.toNat - 0x80)
    have hv : (Char.ofNat v).val.toNat = v := hval (by omega)
    have h3 : ¬ v ≤ 65535 := by omega
    refine ⟨Char.ofNat v, ?_⟩
    simp only [String.utf8EncodeChar, hv, if_neg (show ¬ v ≤ 127 by omega),
      if_neg (show ¬ v ≤ 2047 by omega), if_neg h3]
    rw [byte_eq (b := a) (by omega), byte_eq (b := b) (by omega), byte_eq (b := c) (by omega),
      byte_eq (b := d) (by omega)]

/-! ## Texts -/

theorem wellFormed_encode (s : String) : WellFormed (encode s) := by
  unfold encode
  induction s.toList with
  | nil => exact .nil
  | cons c cs ih =>
    rw [List.flatMap_cons]
    exact .append (charBytes_utf8EncodeChar c) ih

theorem exists_text_of_wellFormed (h : WellFormed bs) : ∃ s, bs = encode s := by
  induction h with
  | nil => exact ⟨"", rfl⟩
  | append hc _ ih =>
    obtain ⟨c, rfl⟩ := exists_char_of_charBytes hc
    obtain ⟨s, rfl⟩ := ih
    exact ⟨.ofList [c] ++ s, by simp [encode]⟩

theorem wellFormed_iff : WellFormed bs ↔ ∃ s, bs = encode s := by
  refine ⟨exists_text_of_wellFormed, ?_⟩
  rintro ⟨s, rfl⟩
  exact wellFormed_encode s

theorem decode?_eq_none_iff : decode? bs = none ↔ ¬ WellFormed bs := by
  rw [wellFormed_iff, Option.eq_none_iff_forall_ne_some, not_exists]
  exact forall_congr' fun s => not_congr decode?_eq_some_iff

/-- A slash in two bytes, a surrogate, a character cut off and a number above all characters. -/
example : ∀ bs ∈ [[0xC0, 0xAF], [0xED, 0xA0, 0x80], [0xF0, 0x9F, 0x98], [0xF4, 0x90, 0x80, 0x80]],
    decode? bs = none := by
  decide +kernel

end StackScript.Text
