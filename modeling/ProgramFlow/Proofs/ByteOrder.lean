import Mathlib.Data.String.Basic

/-! Texts are compared by the numbers of their characters, and this is the order of their bytes in
UTF-8: a character with a larger number has larger bytes where the two first differ, whatever
follows. -/
namespace ProgramFlow.ByteOrder

def bytes (text : String) : List UInt8 := text.toUTF8.data.toList

theorem bytes_eq (text : String) : bytes text = text.toList.flatMap String.utf8EncodeChar := by
  rw [bytes, String.toUTF8_eq_toByteArray, ← String.utf8Encode_toList, List.utf8Encode]
  simp

theorem toNat_val_lt (c : Char) : c.val.toNat < 0x110000 := by
  have hvalid := c.valid
  simp only [UInt32.isValidChar, Nat.isValidChar] at hvalid
  omega

theorem cons_lt_cons {x y : Nat} {u v : List UInt8} (hy : y < 256) (h : x < y ∨ x = y ∧ u < v) :
    UInt8.ofNat x :: u < UInt8.ofNat y :: v := by
  rw [List.cons_lt_cons_iff]
  rcases h with h | ⟨rfl, h⟩
  · left
    rw [UInt8.lt_iff_toNat_lt, UInt8.toNat_ofNat', UInt8.toNat_ofNat']
    omega
  · exact .inr ⟨rfl, h⟩

theorem utf8EncodeChar_append_lt {c d : Char} (h : c < d) (u v : List UInt8) :
    String.utf8EncodeChar c ++ u < String.utf8EncodeChar d ++ v := by
  have hlt : c.val.toNat < d.val.toNat := h
  have hd := toNat_val_lt d
  unfold String.utf8EncodeChar
  generalize c.val.toNat = x at hlt
  generalize d.val.toNat = y at hlt hd
  dsimp only
  split_ifs
  all_goals
    simp only [List.cons_append, List.nil_append]
    refine cons_lt_cons (by omega) ?_
  -- only characters with the same number of bytes, more than one, can agree in the first byte
  all_goals try omega
  · by_cases h₁ : x / 64 < y / 64
    · left
      omega
    · exact .inr ⟨by omega, cons_lt_cons (by omega) (by omega)⟩
  · by_cases h₁ : x / 4096 < y / 4096
    · left
      omega
    · refine .inr ⟨by omega, cons_lt_cons (by omega) ?_⟩
      by_cases h₂ : x / 64 < y / 64
      · left
        omega
      · exact .inr ⟨by omega, cons_lt_cons (by omega) (by omega)⟩
  · by_cases h₁ : x / 262144 < y / 262144
    · left
      omega
    · refine .inr ⟨by omega, cons_lt_cons (by omega) ?_⟩
      by_cases h₂ : x / 4096 < y / 4096
      · left
        omega
      · refine .inr ⟨by omega, cons_lt_cons (by omega) ?_⟩
        by_cases h₃ : x / 64 < y / 64
        · left
          omega
        · exact .inr ⟨by omega, cons_lt_cons (by omega) (by omega)⟩

theorem append_lt_append {p u v : List UInt8} (h : u < v) : p ++ u < p ++ v := by
  induction p with
  | nil => exact h
  | cons x rest ih => exact List.cons_lt_cons_iff.2 (.inr ⟨rfl, ih⟩)

theorem flatMap_utf8EncodeChar_lt {a b : List Char} (h : a < b) :
    a.flatMap String.utf8EncodeChar < b.flatMap String.utf8EncodeChar := by
  induction a generalizing b with
  | nil =>
    cases b with
    | nil => exact absurd h (List.not_lt_nil _)
    | cons d rest =>
      have hpos : 0 < (String.utf8EncodeChar d).length := by
        rw [String.length_utf8EncodeChar]
        exact d.utf8Size_pos
      obtain ⟨x, more, hd⟩ := List.exists_cons_of_length_pos hpos
      rw [List.flatMap_nil, List.flatMap_cons, hd]
      exact List.nil_lt_cons _ _
  | cons c rest ih =>
    cases b with
    | nil => exact absurd h (List.not_lt_nil _)
    | cons d rest' =>
      rw [List.flatMap_cons, List.flatMap_cons]
      rcases List.cons_lt_cons_iff.1 h with hcd | ⟨rfl, hrest⟩
      · exact utf8EncodeChar_append_lt hcd _ _
      · exact append_lt_append (ih hrest)

theorem bytes_lt_iff {a b : String} : bytes a < bytes b ↔ a < b := by
  have hmono : ∀ {a b : String}, a < b → bytes a < bytes b := by
    intro a b h
    rw [bytes_eq, bytes_eq]
    exact flatMap_utf8EncodeChar_lt (String.lt_iff_toList_lt.1 h)
  constructor
  · intro h
    rcases lt_trichotomy a b with hlt | rfl | hgt
    · exact hlt
    · exact absurd h (List.lt_irrefl _)
    · exact absurd h (List.lt_asymm (hmono hgt))
  · exact hmono

end ProgramFlow.ByteOrder
