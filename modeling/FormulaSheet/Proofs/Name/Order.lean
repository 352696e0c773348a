/-
The order of names is total.

References are listed before all other names, by row and then by column; names that have the same
place in this sense, such as `a1`, `A1` and `A01`, are listed in the order of their bytes.  That is
a lexicographic order of total orders, of which the last one tells all names apart.

* **`compareNames_eq_compareLex`** — the order of names, put together from those of their places and
  of their texts, and so total;
* **`compareNames_eq_lt_iff_of_parse?`** — the order of references;
* **`pairwise_sortNames`**, **`eq_sortNames_of_perm`** — different names have one list in increasing
  order, and sorting finds it however they are listed before.
-/
import FormulaSheet.Name.Order
import FormulaSheet.Proofs.Text.Bytes
import Mathlib.Data.List.Sort

namespace FormulaSheet

/-! ### Texts and bytes -/

theorem Text.bytes_lt_bytes_iff {s t : String} : bytes s < bytes t ↔ s < t := by
  refine ⟨fun h => ?_, bytes_lt_bytes⟩
  rcases lt_trichotomy s t with hlt | rfl | hgt
  · exact hlt
  · exact absurd h (List.lt_irrefl _)
  · exact absurd h (List.lt_asymm (bytes_lt_bytes hgt))

theorem compare_eq_lt_iff_bytes {s t : String} :
    compare s t = .lt ↔ Text.bytes s < Text.bytes t := by
  rw [Text.bytes_lt_bytes_iff]
  exact compareOfLessAndEq_eq_lt

/-! ### Names and their places -/

/-- The place of a name in the listing: the row and column of a reference, or the one place behind
all references. -/
def listingPlace (name : String) : Nat × Nat × Nat :=
  match Reference.parse? name with
  | some r => (0, r.row, r.column)
  | none => (1, 0, 0)

/-- Names are compared by their places, and at the same place by their texts. -/
theorem compareNames_eq_compareLex : compareNames =
    compareLex (compareOn fun name => (listingPlace name).1)
      (compareLex (compareOn fun name => (listingPlace name).2.1)
        (compareLex (compareOn fun name => (listingPlace name).2.2) compare)) := by
  funext a b
  unfold compareNames
  simp only [compareLex, compareOn, listingPlace]
  cases Reference.parse? a <;> cases Reference.parse? b <;> rfl

instance : Std.TransCmp compareNames := by
  rw [compareNames_eq_compareLex]
  infer_instance

instance : Std.LawfulEqCmp compareNames where
  eq_of_compare {a b} h := by
    rw [compareNames_eq_compareLex] at h
    simp only [compareLex_eq_eq] at h
    exact Std.LawfulEqCmp.eq_of_compare h.2.2.2

theorem compareNames_eq_eq_iff {a b : String} : compareNames a b = .eq ↔ a = b :=
  Std.LawfulEqCmp.compare_eq_iff_eq

theorem compareNames_swap (a b : String) : compareNames b a = (compareNames a b).swap :=
  Std.OrientedCmp.eq_swap

section Places

variable {a b : String} {r s : Reference}

theorem compareNames_eq_lt_of_isReferenceName (ha : isReferenceName a = true)
    (hb : isReferenceName b = false) : compareNames a b = .lt := by
  obtain ⟨r, hr⟩ := Option.isSome_iff_exists.1 ha
  rw [compareNames, hr, Option.isNone_iff_eq_none.1 (Option.isSome_eq_false_iff.1 hb)]

/-- References are in the order of their rows, then of their columns, then of their bytes. -/
theorem compareNames_eq_lt_iff_of_parse? (ha : Reference.parse? a = some r)
    (hb : Reference.parse? b = some s) : compareNames a b = .lt ↔
      r.row < s.row ∨ r.row = s.row ∧
        (r.column < s.column ∨ r.column = s.column ∧ Text.bytes a < Text.bytes b) := by
  rw [compareNames, ha, hb]
  dsimp only
  rw [Ordering.then_eq_lt, Ordering.then_eq_lt, compare_eq_lt_iff_bytes, Nat.compare_eq_lt,
    Nat.compare_eq_lt, Nat.compare_eq_eq, Nat.compare_eq_eq]

theorem compareNames_eq_lt_iff_of_not_isReferenceName (ha : isReferenceName a = false)
    (hb : isReferenceName b = false) :
    compareNames a b = .lt ↔ Text.bytes a < Text.bytes b := by
  rw [compareNames, Option.isNone_iff_eq_none.1 (Option.isSome_eq_false_iff.1 ha),
    Option.isNone_iff_eq_none.1 (Option.isSome_eq_false_iff.1 hb)]
  exact compare_eq_lt_iff_bytes

end Places

/-! ### Sorting -/

section Sorting

variable {names names' : List String}

/-- Different names are sorted into increasing order. -/
theorem pairwise_sortNames (h : names.Nodup) :
    (sortNames names).Pairwise fun a b => compareNames a b = .lt := by
  have htrans : ∀ a b c, (compareNames a b).isLE = true → (compareNames b c).isLE = true →
      (compareNames a c).isLE = true := fun a b c => Std.TransCmp.isLE_trans
  have htotal : ∀ a b, ((compareNames a b).isLE || (compareNames b a).isLE) = true := by
    intro a b
    rw [compareNames_swap a b]
    cases compareNames a b <;> rfl
  have hordered : (sortNames names).Pairwise fun a b => (compareNames a b).isLE = true :=
    List.pairwise_mergeSort htrans htotal names
  have hnodup : (sortNames names).Nodup := (List.mergeSort_perm _ _).nodup_iff.2 h
  refine (hordered.and hnodup).imp fun ⟨hle, hne⟩ => ?_
  -- names that are not in the wrong order are in order or the same
  refine (Ordering.isLE_iff_eq_lt_or_eq_eq.1 hle).resolve_right fun heq => ?_
  exact hne (Std.LawfulEqCmp.eq_of_compare heq)

/-- There is one list of given names in increasing order, and sorting finds it. -/
theorem eq_sortNames_of_perm (hperm : names'.Perm names)
    (hordered : names'.Pairwise fun a b => compareNames a b = .lt) : names' = sortNames names := by
  have hnodup : names'.Nodup := hordered.imp fun hlt heq => by
    rw [heq, compareNames_eq_eq_iff.2 rfl] at hlt
    cases hlt
  -- of two names only one can come before the other, so two such lists agree
  refine List.Perm.eq_of_pairwise (fun a b _ _ hab hba => ?_) hordered
    (pairwise_sortNames (hperm.nodup_iff.1 hnodup)) (hperm.trans (List.mergeSort_perm _ _).symm)
  rw [compareNames_swap b a, hba] at hab
  cases hab

end Sorting

end FormulaSheet
