/-
The order of UTF-8 bytes.

Texts are compared character by character.  UTF-8 keeps that order: of two characters the lesser
one has the lesser bytes, and it has them at a place that both have, so whatever follows makes no
difference.

* **`bytes`** — the UTF-8 bytes of a text;
* **`utf8EncodeChar_append_lt`** — characters in order have bytes in order, whatever follows;
* **`bytes_lt_bytes`** — texts in order have bytes in order.
-/
import Mathlib.Data.String.Basic
import Mathlib.Tactic.SplitIfs

namespace FormulaSheet.Text

/-- The UTF-8 bytes of a text. -/
def bytes (text : String) : List UInt8 :=
  text.toUTF8.data.toList

theorem bytes_eq_flatMap (text : String) :
    bytes text = text.toList.flatMap String.utf8EncodeChar := by
  rw [bytes, String.toUTF8_eq_toByteArray, ← String.utf8Encode_toList, List.utf8Encode]
  simp

/-- Characters in order have bytes in order, whatever follows them. -/
theorem utf8EncodeChar_append_lt {c d : Char} (h : c < d) (xs ys : List UInt8) :
    String.utf8EncodeChar c ++ xs < String.utf8EncodeChar d ++ ys := by
  have hlt : c.val.toNat < d.val.toNat := h
  have hmax : d.val.toNat < 0x110000 := by
    have hvalid : d.val.toNat < 0xd800 ∨ 0xdfff < d.val.toNat ∧ d.val.toNat < 0x110000 := d.valid
    omega
  have htwo : ∀ k : Nat, k / 4096 = k / 64 / 64 := fun k => by omega
  have hthree : ∀ k : Nat, k / 262144 = k / 64 / 64 / 64 := fun k => by omega
  simp only [String.utf8EncodeChar, htwo, hthree]
  generalize c.val.toNat = m at hlt ⊢
  generalize d.val.toNat = n at hlt hmax ⊢
  -- one case for each pair of lengths, of which the second is not the shorter
  split_ifs <;>
    simp only [List.cons_append, List.cons_lt_cons_iff, UInt8.lt_iff_toNat_lt, ← UInt8.toNat_inj,
      UInt8.toNat_ofNat'] <;>
    omega

theorem append_lt_append_left {xs ys : List UInt8} (common : List UInt8) (h : xs < ys) :
    common ++ xs < common ++ ys := by
  induction common with
  | nil => exact h
  | cons x rest ih => exact List.cons_lt_cons_iff.2 (.inr ⟨rfl, ih⟩)

theorem flatMap_utf8EncodeChar_lt {cs ds : List Char} (h : cs < ds) :
    cs.flatMap String.utf8EncodeChar < ds.flatMap String.utf8EncodeChar := by
  induction cs generalizing ds with
  | nil =>
    cases ds with
    | nil => exact absurd h (List.lt_irrefl _)
    | cons d rest' =>
      cases hbytes : (d :: rest').flatMap String.utf8EncodeChar with
      | nil => simp at hbytes
      | cons x xs => exact List.nil_lt_cons x xs
  | cons c rest ih =>
    cases ds with
    | nil => exact absurd h (List.not_lt_nil _)
    | cons d rest' =>
      rw [List.flatMap_cons, List.flatMap_cons]
      rcases List.cons_lt_cons_iff.1 h with hlt | ⟨rfl, hrest⟩
      · exact utf8EncodeChar_append_lt hlt _ _
      · exact append_lt_append_left _ (ih hrest)

/-- Texts in order have bytes in order. -/
theorem bytes_lt_bytes {s t : String} (h : s < t) : bytes s < bytes t := by
  rw [bytes_eq_flatMap, bytes_eq_flatMap]
  exact flatMap_utf8EncodeChar_lt (String.lt_iff_toList_lt.1 h)

end FormulaSheet.Text
