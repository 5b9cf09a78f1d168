import Imp32.Text.Utf8

/-!
# Decoding UTF-8

A text is read back from its bytes (`decodeLossy_utf8`). A character of several bytes is a leading
byte, which fixes the number and the first range of the bytes behind it, and six bits in each of
those; the bits come together as the character's number.
-/

namespace Imp32.Text

section Machine

variable {byte : UInt8} {rest : List UInt8} {low high bits later : Nat}

theorem decodeFrom_whole {c : Char} (h : lead byte = .whole c) :
    decodeFrom none (byte :: rest) = c :: decodeFrom none rest := by
  simp only [decodeFrom, h]

theorem decodeFrom_part {p : Partial} (h : lead byte = .part p) :
    decodeFrom none (byte :: rest) = decodeFrom (some p) rest := by
  simp only [decodeFrom, h]

/-- A byte in its range that is not the last one. -/
theorem decodeFrom_later (h : low ≤ byte.toNat ∧ byte.toNat ≤ high) :
    decodeFrom (some ⟨later + 1, low, high, bits⟩) (byte :: rest) =
      decodeFrom (some ⟨later, 0x80, 0xBF, bits * 0x40 + (byte.toNat - 0x80)⟩) rest := by
  simp only [decodeFrom, if_pos h]

/-- The last byte completes the character. -/
theorem decodeFrom_last (h : low ≤ byte.toNat ∧ byte.toNat ≤ high) :
    decodeFrom (some ⟨0, low, high, bits⟩) (byte :: rest) =
      Char.ofNat (bits * 0x40 + (byte.toNat - 0x80)) :: decodeFrom none rest := by
  simp only [decodeFrom, if_pos h]

end Machine

/-! ## The bytes of a character -/

section Bytes

variable {v : Nat}

theorem toNat_tail (v : Nat) : (UInt8.ofNat (v % 64 + 128)).toNat = v % 64 + 128 := by
  rw [UInt8.toNat_ofNat']
  omega

theorem tail_inRange (v : Nat) :
    0x80 ≤ (UInt8.ofNat (v % 64 + 128)).toNat ∧ (UInt8.ofNat (v % 64 + 128)).toNat ≤ 0xBF := by
  rw [toNat_tail]
  omega

theorem lead_one (h : v ≤ 0x7F) : lead (UInt8.ofNat v) = .whole (Char.ofNat v) := by
  have hv : (UInt8.ofNat v).toNat = v := by
    rw [UInt8.toNat_ofNat']
    omega
  simp only [lead, hv]
  rw [if_pos (by omega)]

theorem lead_two (h : 0x7F < v) (h' : v ≤ 0x7FF) :
    lead (UInt8.ofNat (v / 64 % 32 + 192)) = .part ⟨0, 0x80, 0xBF, v / 64⟩ := by
  have hv : (UInt8.ofNat (v / 64 % 32 + 192)).toNat = v / 64 + 192 := by
    rw [UInt8.toNat_ofNat']
    omega
  simp only [lead, hv]
  rw [if_neg (by omega), if_neg (by omega), if_pos (by omega), Nat.add_sub_cancel]

/-- The second of three bytes has a range of its own behind two of the leading bytes: shorter forms
and surrogates are ruled out there. -/
theorem lead_three (h : 0x7FF < v) (h' : v ≤ 0xFFFF) (hchar : v < 0xD800 ∨ 0xDFFF < v) :
    ∃ low high, lead (UInt8.ofNat (v / 4096 % 16 + 224)) = .part ⟨1, low, high, v / 4096⟩ ∧
      low ≤ v / 64 % 64 + 128 ∧ v / 64 % 64 + 128 ≤ high := by
  have hv : (UInt8.ofNat (v / 4096 % 16 + 224)).toNat = v / 4096 + 224 := by
    rw [UInt8.toNat_ofNat']
    omega
  simp only [lead, hv]
  rw [if_neg (by omega), if_neg (by omega), if_neg (by omega)]
  by_cases hE0 : v / 4096 = 0
  · exact ⟨0xA0, 0xBF, by simp [hE0], by omega, by omega⟩
  · rw [if_neg (by omega)]
    by_cases hED : v / 4096 = 13
    · exact ⟨0x80, 0x9F, by simp [hED], by omega, by omega⟩
    · rw [if_neg (by omega), if_pos (by omega)]
      exact ⟨0x80, 0xBF, by simp, by omega, by omega⟩

/-- The second of four bytes has a range of its own behind the least and the greatest leading
byte. -/
theorem lead_four (h : 0xFFFF < v) (h' : v < 0x110000) :
    ∃ low high, lead (UInt8.ofNat (v / 262144 % 8 + 240)) = .part ⟨2, low, high, v / 262144⟩ ∧
      low ≤ v / 4096 % 64 + 128 ∧ v / 4096 % 64 + 128 ≤ high := by
  have hv : (UInt8.ofNat (v / 262144 % 8 + 240)).toNat = v / 262144 + 240 := by
    rw [UInt8.toNat_ofNat']
    omega
  simp only [lead, hv]
  rw [if_neg (by omega), if_neg (by omega), if_neg (by omega), if_neg (by omega), if_neg (by omega),
    if_neg (by omega)]
  by_cases hF0 : v / 262144 = 0
  · exact ⟨0x90, 0xBF, by simp [hF0], by omega, by omega⟩
  · rw [if_neg (by omega)]
    by_cases hF4 : v / 262144 = 4
    · exact ⟨0x80, 0x8F, by simp [hF4], by omega, by omega⟩
    · rw [if_pos (by omega)]
      exact ⟨0x80, 0xBF, by simp, by omega, by omega⟩

end Bytes

/-- A byte of a character is the character itself, or no character. -/
theorem toNat_of_mem_utf8EncodeChar {c : Char} {byte : UInt8} (h : byte ∈ String.utf8EncodeChar c) :
    byte.toNat = c.toNat ∨ 0x80 ≤ byte.toNat := by
  show byte.toNat = c.val.toNat ∨ _
  rw [String.utf8EncodeChar.eq_1] at h
  generalize c.val.toNat = v at h
  split at h
  · rw [List.mem_singleton.1 h, UInt8.toNat_ofNat']
    omega
  · refine .inr ?_
    split at h
    · simp only [List.mem_cons, List.not_mem_nil, or_false] at h
      rcases h with rfl | rfl <;> rw [UInt8.toNat_ofNat'] <;> omega
    split at h
    · simp only [List.mem_cons, List.not_mem_nil, or_false] at h
      rcases h with rfl | rfl | rfl <;> rw [UInt8.toNat_ofNat'] <;> omega
    · simp only [List.mem_cons, List.not_mem_nil, or_false] at h
      rcases h with rfl | rfl | rfl | rfl <;> rw [UInt8.toNat_ofNat'] <;> omega

/-! ## Texts -/

/-- A character in front of other bytes is read back. -/
theorem decodeFrom_utf8EncodeChar (c : Char) (rest : List UInt8) :
    decodeFrom none (String.utf8EncodeChar c ++ rest) = c :: decodeFrom none rest := by
  have hchar : c.val.toNat < 0xD800 ∨ 0xDFFF < c.val.toNat ∧ c.val.toNat < 0x110000 := c.valid
  have hc : Char.ofNat c.val.toNat = c := Char.ofNat_toNat c
  rw [String.utf8EncodeChar.eq_1]
  generalize c.val.toNat = v at hchar hc
  split
  · rename_i h₁
    rw [List.singleton_append, decodeFrom_whole (lead_one h₁), hc]
  split
  · rename_i h₁ h₂
    have hv : v / 64 * 0x40 + (v % 64 + 128 - 0x80) = v := by omega
    rw [List.cons_append, List.singleton_append, decodeFrom_part (lead_two (by omega) h₂),
      decodeFrom_last (tail_inRange v), toNat_tail, hv, hc]
  split
  · rename_i h₁ h₂ h₃
    obtain ⟨low, high, hlead, hlow, hhigh⟩ := lead_three (by omega) h₃ (by omega)
    have hv : (v / 4096 * 0x40 + (v / 64 % 64 + 128 - 0x80)) * 0x40 + (v % 64 + 128 - 0x80) = v := by
      omega
    rw [List.cons_append, List.cons_append, List.singleton_append, decodeFrom_part hlead,
      decodeFrom_later (by rw [toNat_tail]; exact ⟨hlow, hhigh⟩),
      decodeFrom_last (tail_inRange v), toNat_tail, toNat_tail, hv, hc]
  · rename_i h₁ h₂ h₃
    obtain ⟨low, high, hlead, hlow, hhigh⟩ := lead_four (v := v) (by omega) (by omega)
    have hv : ((v / 262144 * 0x40 + (v / 4096 % 64 + 128 - 0x80)) * 0x40 +
        (v / 64 % 64 + 128 - 0x80)) * 0x40 + (v % 64 + 128 - 0x80) = v := by omega
    rw [List.cons_append, List.cons_append, List.cons_append, List.singleton_append,
      decodeFrom_part hlead, decodeFrom_later (by rw [toNat_tail]; exact ⟨hlow, hhigh⟩),
      decodeFrom_later (tail_inRange _), decodeFrom_last (tail_inRange v), toNat_tail, toNat_tail,
      toNat_tail, hv, hc]

/-- A text in front of other bytes is read back. -/
theorem decodeFrom_utf8_append (cs : List Char) (rest : List UInt8) :
    decodeFrom none (utf8 cs ++ rest) = cs ++ decodeFrom none rest := by
  induction cs with
  | nil => rfl
  | cons c cs ih =>
    change decodeFrom none (String.utf8EncodeChar c ++ utf8 cs ++ rest) = _
    rw [List.append_assoc, decodeFrom_utf8EncodeChar, ih, List.cons_append]

/-- A text is read back from its bytes. -/
theorem decodeLossy_utf8 (cs : List Char) : decodeLossy (utf8 cs) = cs := by
  have h := decodeFrom_utf8_append cs []
  rwa [List.append_nil, decodeFrom, List.append_nil] at h

/-- Of a character of which only the first bytes are there, one replacement character is read. -/
theorem decodeFrom_take_utf8EncodeChar (c : Char) {k : Nat} (hpos : 0 < k)
    (hk : k < (String.utf8EncodeChar c).length) :
    decodeFrom none ((String.utf8EncodeChar c).take k) = [replacementChar] := by
  have hchar : c.val.toNat < 0xD800 ∨ 0xDFFF < c.val.toNat ∧ c.val.toNat < 0x110000 := c.valid
  rw [String.utf8EncodeChar.eq_1] at hk ⊢
  generalize c.val.toNat = v at hchar hk
  split at hk
  · simp only [List.length_singleton] at hk
    omega
  split at hk
  · rename_i h₁ h₂
    obtain rfl : k = 1 := by
      simp only [List.length_cons, List.length_nil] at hk
      omega
    rw [if_neg h₁, if_pos h₂]
    exact decodeFrom_part (lead_two (by omega) h₂)
  split at hk
  · rename_i h₁ h₂ h₃
    obtain ⟨low, high, hlead, hlow, hhigh⟩ := lead_three (v := v) (by omega) h₃ (by omega)
    have hk' : k = 1 ∨ k = 2 := by
      simp only [List.length_cons, List.length_nil] at hk
      omega
    rw [if_neg h₁, if_neg h₂, if_pos h₃]
    obtain rfl | rfl := hk'
    · exact decodeFrom_part hlead
    · rw [List.take_succ_cons, decodeFrom_part hlead]
      exact decodeFrom_later (by rw [toNat_tail]; exact ⟨hlow, hhigh⟩)
  · rename_i h₁ h₂ h₃
    obtain ⟨low, high, hlead, hlow, hhigh⟩ := lead_four (v := v) (by omega) (by omega)
    have hk' : k = 1 ∨ k = 2 ∨ k = 3 := by
      simp only [List.length_cons, List.length_nil] at hk
      omega
    rw [if_neg h₁, if_neg h₂, if_neg h₃]
    obtain rfl | rfl | rfl := hk'
    · exact decodeFrom_part hlead
    · rw [List.take_succ_cons, decodeFrom_part hlead]
      exact decodeFrom_later (by rw [toNat_tail]; exact ⟨hlow, hhigh⟩)
    · rw [List.take_succ_cons, decodeFrom_part hlead, List.take_succ_cons,
        decodeFrom_later (by rw [toNat_tail]; exact ⟨hlow, hhigh⟩)]
      exact decodeFrom_later (tail_inRange _)

end Imp32.Text
