import ChatMemory.Text.Beginning

/-!
# Texts as bytes

A text is kept as its bytes in UTF-8, and the adapter compares keys byte by byte, while the rows of
a table are ordered by code points. Both orders are the same: a lower code is written lower,
whatever follows it, since the first byte where two codes differ holds their highest digits that
differ, and a code with more bytes has the higher mark in front. So codes that differ are told
before either of them ends, and a text begins with another exactly if its bytes do.

## Main statements

* `lt_iff_bytes_lt` — texts are in the order of their bytes.
* `begins_iff_bytes` — the beginnings of a text are those of its bytes.
-/

namespace ChatMemory.Text

open String (utf8EncodeChar)

/-- The bytes of a text in UTF-8. -/
def bytes (s : String) : List UInt8 := s.toUTF8.data.toList

theorem bytes_eq_flatMap (s : String) : bytes s = s.toList.flatMap utf8EncodeChar := by
  rw [bytes, String.toUTF8_eq_toByteArray, ← String.utf8Encode_toList, List.utf8Encode,
    List.toList_data_toByteArray]

/-! ## Codes -/

/--
How a code is spelled: its digits to base 64, each with a mark. The mark of the first tells how many
there are, and no code is spelled with more digits than it needs.
-/
inductive Spelled (v : Nat) : List Nat → Prop where
  | one (lt : v < 0x80) : Spelled v [v]
  | two {a b : Nat} (digits : v = a * 64 + b) (ha : a < 32) (hb : b < 64) (ge : 0x80 ≤ v) :
    Spelled v [a + 0xc0, b + 0x80]
  | three {a b c : Nat} (digits : v = (a * 64 + b) * 64 + c) (ha : a < 16) (hb : b < 64)
    (hc : c < 64) (ge : 0x800 ≤ v) : Spelled v [a + 0xe0, b + 0x80, c + 0x80]
  | four {a b c d : Nat} (digits : v = ((a * 64 + b) * 64 + c) * 64 + d) (ha : a < 8) (hb : b < 64)
    (hc : c < 64) (hd : d < 64) (ge : 0x10000 ≤ v) :
    Spelled v [a + 0xf0, b + 0x80, c + 0x80, d + 0x80]

theorem exists_spelled (c : Char) :
    ∃ codes, Spelled c.val.toNat codes ∧ utf8EncodeChar c = codes.map UInt8.ofNat := by
  have le : c.val.toNat ≤ 0x10ffff := by
    have := c.valid
    simp only [UInt32.isValidChar, Nat.isValidChar] at this
    omega
  rw [utf8EncodeChar]
  generalize c.val.toNat = v at le
  split
  · exact ⟨_, .one (by omega), rfl⟩
  split
  · exact ⟨_, .two (a := v / 64 % 32) (b := v % 64)
      (by omega) (by omega) (by omega) (by omega), rfl⟩
  split
  · exact ⟨_, .three (a := v / 4096 % 16) (b := v / 64 % 64) (c := v % 64)
      (by omega) (by omega) (by omega) (by omega) (by omega), rfl⟩
  · exact ⟨_, .four (a := v / 262144 % 8) (b := v / 4096 % 64) (c := v / 64 % 64) (d := v % 64)
      (by omega) (by omega) (by omega) (by omega) (by omega) (by omega), rfl⟩

/-- A lower code is spelled lower, whatever follows. -/
theorem Spelled.append_lt {m n : Nat} {a b : List Nat} (ha : Spelled m a) (hb : Spelled n b)
    (h : m < n) (x y : List UInt8) : a.map UInt8.ofNat ++ x < b.map UInt8.ofNat ++ y := by
  have byte (k : Nat) (hk : k < 256) : (UInt8.ofNat k).toNat = k := by
    rw [UInt8.toNat_ofNat', Nat.mod_eq_of_lt hk]
  cases ha <;> cases hb
  all_goals
    -- What is left is about the digits: the first pair that differs is in order.
    simp (disch := omega) only [List.map_cons, List.map_nil, List.cons_append, List.nil_append,
      List.cons_lt_cons_iff, UInt8.lt_iff_toNat_lt, ← UInt8.toNat_inj, byte]
    omega

theorem encode_append_lt {c d : Char} (h : c < d) (x y : List UInt8) :
    utf8EncodeChar c ++ x < utf8EncodeChar d ++ y := by
  obtain ⟨_, hc, ec⟩ := exists_spelled c
  obtain ⟨_, hd, ed⟩ := exists_spelled d
  rw [ec, ed]
  exact hc.append_lt hd h x y

theorem encode_append_ne {c d : Char} (h : c ≠ d) (x y : List UInt8) :
    utf8EncodeChar c ++ x ≠ utf8EncodeChar d ++ y := by
  intro e
  rcases Std.lt_trichotomy c d with lt | rfl | gt
  · exact List.lt_irrefl _ (e ▸ encode_append_lt lt x y)
  · exact h rfl
  · exact List.lt_irrefl _ (e ▸ encode_append_lt gt y x)

/-! ## Texts -/

theorem flatMap_lt_iff : ∀ {a b : List Char},
    a.flatMap utf8EncodeChar < b.flatMap utf8EncodeChar ↔ a < b
  | _, [] => by simp
  | [], d :: ds => by
    obtain ⟨byte, rest, e⟩ := List.exists_cons_of_ne_nil (@String.utf8EncodeChar_ne_nil d)
    simp [e]
  | c :: cs, d :: ds => by
    rw [List.flatMap_cons, List.flatMap_cons, List.cons_lt_cons_iff]
    rcases Std.lt_trichotomy c d with lt | rfl | gt
    · exact iff_of_true (encode_append_lt lt _ _) (.inl lt)
    · rw [append_lt_append_iff UInt8.lt_irrefl, flatMap_lt_iff, or_iff_right (Char.lt_irrefl c),
        and_iff_right rfl]
    · refine iff_of_false (List.lt_asymm (encode_append_lt gt _ _)) ?_
      rintro (lt | ⟨rfl, _⟩)
      · exact Char.lt_asymm gt lt
      · exact Char.lt_irrefl c gt

theorem flatMap_prefix_iff : ∀ {a b : List Char},
    a.flatMap utf8EncodeChar <+: b.flatMap utf8EncodeChar ↔ a <+: b
  | [], _ => by simp
  | c :: cs, [] => by simp [String.utf8EncodeChar_ne_nil]
  | c :: cs, d :: ds => by
    rw [List.flatMap_cons, List.flatMap_cons, List.cons_prefix_cons]
    by_cases h : c = d
    · subst h
      rw [List.prefix_append_right_inj, flatMap_prefix_iff]
      simp
    · refine iff_of_false (fun ⟨rest, e⟩ => ?_) fun both => h both.1
      rw [List.append_assoc] at e
      exact encode_append_ne h _ _ e

theorem lt_iff_bytes_lt {a b : String} : a < b ↔ bytes a < bytes b := by
  rw [bytes_eq_flatMap, bytes_eq_flatMap, flatMap_lt_iff, String.lt_iff]

theorem begins_iff_bytes {start text : String} :
    begins start text = true ↔ bytes start <+: bytes text := by
  rw [begins, List.isPrefixOf_iff_prefix, bytes_eq_flatMap, bytes_eq_flatMap, flatMap_prefix_iff]

example : bytes "é:" = [0xc3, 0xa9, 0x3a] := by rw [bytes_eq_flatMap]; decide

end ChatMemory.Text
