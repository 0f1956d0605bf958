import CallAtlas.Proofs.Json.Grammar

/-! # Code points

A character is a code point that is no surrogate. In a text it stands as its UTF-8 bytes, and in
escapes as its number in hexadecimal digits. The encoder of the library agrees with UTF-8 on all
characters; what it does with surrogates is its own affair.
-/
namespace CallAtlas

theorem toNat_bounds (c : Char) :
    c.toNat < 0x110000 ∧ ¬ (0xD800 ≤ c.toNat ∧ c.toNat < 0xE000) := by
  have valid : c.toNat.isValidChar := c.valid
  unfold Nat.isValidChar at valid
  omega

theorem utf8_toNat (c : Char) : Bytes.utf8 c.toNat = String.utf8EncodeChar c := by
  have bound := (toNat_bounds c).1
  have value : c.val.toNat = c.toNat := rfl
  simp only [Bytes.utf8, String.utf8EncodeChar, Nat.shiftRight_eq_div_pow, value]
  generalize c.toNat = n at bound ⊢
  -- The two agree on the length, and then on each byte.
  split
  · rw [if_pos (by omega)]
  split
  · rw [if_neg (by omega), if_pos (by omega), Nat.mod_eq_of_lt (show n / 64 < 32 by omega)]
    simp only [Nat.add_comm, Nat.reducePow, Nat.div_one]
  split
  · rw [if_neg (by omega), if_neg (by omega), if_pos (by omega),
      Nat.mod_eq_of_lt (show n / 4096 < 16 by omega)]
    simp only [Nat.add_comm, Nat.reducePow, Nat.div_one]
  · have lead : ∀ k < 5, 0xF0 ||| k = k % 8 + 240 := by decide
    rw [if_neg (by omega), if_neg (by omega), if_neg (by omega), lead _ (by omega)]
    simp only [Nat.add_comm, Nat.reducePow, Nat.div_one]

theorem text_ofList (cs : List Char) :
    text (String.ofList cs) = cs.flatMap String.utf8EncodeChar := by
  simp [text, String.toUTF8, List.utf8Encode]

/-- The only byte of an ASCII character is its number, and other characters have no ASCII bytes. -/
theorem utf8EncodeChar_cases (c : Char) :
    c.toNat < 0x80 ∧ String.utf8EncodeChar c = [UInt8.ofNat c.toNat] ∨
      0x80 ≤ c.toNat ∧ ∀ b ∈ String.utf8EncodeChar c, 0x80 ≤ b := by
  have value : c.val.toNat = c.toNat := rfl
  have first : ∀ k < 64, (0x80 : UInt8) ≤ UInt8.ofNat (k + 192) := by decide
  have later : ∀ k < 64, (0x80 : UInt8) ≤ UInt8.ofNat (k + 128) := by decide
  simp only [String.utf8EncodeChar, value]
  generalize c.toNat = n
  have last := later (n % 64) (by omega)
  have middle := later (n / 64 % 64) (by omega)
  split
  · exact .inl ⟨by omega, rfl⟩
  refine .inr ⟨by omega, ?_⟩
  split
  · have two := first (n / 64 % 32) (by omega)
    simpa only [List.forall_mem_cons] using ⟨two, last, nofun⟩
  split
  · have three := first (n / 4096 % 16 + 32) (by omega)
    simpa only [List.forall_mem_cons] using ⟨three, middle, last, nofun⟩
  · have four := first (n / 262144 % 8 + 48) (by omega)
    have second := later (n / 4096 % 64) (by omega)
    simpa only [List.forall_mem_cons] using ⟨four, second, middle, last, nofun⟩

/-- An ASCII byte stands for its own character only. -/
theorem ne_of_mem_utf8EncodeChar {c d : Char} (ascii : d.toNat < 0x80) (ne : c ≠ d) :
    ∀ b ∈ String.utf8EncodeChar c, b ≠ d.toUInt8 := by
  have number : d.toUInt8.toNat = d.toNat := Nat.mod_eq_of_lt (show d.toNat < 256 by omega)
  rintro b hb rfl
  rcases utf8EncodeChar_cases c with ⟨single, bytes⟩ | ⟨-, beyond⟩
  · rw [bytes, List.mem_singleton] at hb
    rw [hb, UInt8.toNat_ofNat'] at number
    exact ne (Char.toNat_inj.mp (by omega))
  · have high := UInt8.le_iff_toNat_le.mp (beyond _ hb)
    rw [number] at high
    exact absurd ascii (Nat.not_lt.mpr high)

/-- Hexadecimal digits that write a number, in either case and with any zeros in front. -/
def SpellsHex (digits : Bytes) (n : Nat) : Prop :=
  digits ≠ [] ∧ digits.all (fun d => (Bytes.hexDigit? d).isSome) ∧ Json.hexValue digits = n

instance (digits : Bytes) (n : Nat) : Decidable (SpellsHex digits n) :=
  inferInstanceAs (Decidable (_ ∧ _ ∧ _))

end CallAtlas
