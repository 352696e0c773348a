/-
The listing of a document.

A listing is in a total order in which no two names are equal.  So it is settled by which cells are
not empty, and does not show in which order they were filled or how the document keeps them.

* **`Document.pairwise_names`** — the names of a document are in increasing order;
* **`Document.sortNames_eq_names`** — whatever list of its cells is sorted, they come out;
* **`Document.names_inOrder`** — the order of names is total, and every document lists its cells in
  that order, each once.
-/
import FormulaSheet.Proofs.Document.Reload
import FormulaSheet.Proofs.Name.Order

namespace FormulaSheet.Document

variable {doc doc' : Document}

theorem pairwise_names (doc : Document) :
    doc.names.Pairwise fun a b => compareNames a b = .lt :=
  pairwise_sortNames Std.ExtTreeMap.nodup_keys

/-- Whatever list of the cells of a document is sorted, its names come out. -/
theorem sortNames_eq_names {keys : List String} (h : keys.Perm doc.cells.keys) :
    sortNames keys = doc.names :=
  eq_sortNames_of_perm ((List.mergeSort_perm _ _).trans h)
    (pairwise_sortNames (h.nodup_iff.2 Std.ExtTreeMap.nodup_keys))

theorem names_eq_of_mem_iff (h : ∀ name : String, name ∈ doc'.cells ↔ name ∈ doc.cells) :
    doc'.names = doc.names := by
  refine sortNames_eq_names ?_
  -- lists without duplicates are permutations of each other when they have the same members
  rw [List.perm_ext_iff_of_nodup Std.ExtTreeMap.nodup_keys Std.ExtTreeMap.nodup_keys]
  intro name
  rw [Std.ExtTreeMap.mem_keys, Std.ExtTreeMap.mem_keys, h]

/-- The order of names is total: only a name itself is equal to it, comparing the other way round
gives the opposite, and what precedes a name precedes what that name precedes.  References precede
all other names, and are in the order of their rows, then of their columns, then of their bytes; the
other names are in the order of their bytes.  Hence after every run the names of a document are
exactly those of its cells that are not empty, each once and in increasing order.  They are the same
from whatever list of the cells they are sorted, and the same after every other run that leaves the
same cells filled. -/
theorem names_inOrder :
    (∀ a b, compareNames a b = .eq ↔ a = b) ∧
    (∀ a b, compareNames b a = (compareNames a b).swap) ∧
    (∀ a b c, compareNames a b = .lt → compareNames b c = .lt → compareNames a c = .lt) ∧
    (∀ a b, isReferenceName a = true → isReferenceName b = false → compareNames a b = .lt) ∧
    (∀ a b r s, Reference.parse? a = some r → Reference.parse? b = some s →
      (compareNames a b = .lt ↔ r.row < s.row ∨ r.row = s.row ∧
        (r.column < s.column ∨ r.column = s.column ∧ Text.bytes a < Text.bytes b))) ∧
    (∀ a b, isReferenceName a = false → isReferenceName b = false →
      (compareNames a b = .lt ↔ Text.bytes a < Text.bytes b)) ∧
    ∀ config operations,
      let doc := (new config).run operations
      (∀ name, name ∈ doc.names ↔ ∃ c, doc.cells[name]? = some c) ∧ doc.names.Nodup ∧
      doc.names.Pairwise (fun a b => compareNames a b = .lt) ∧
      (∀ keys : List String, keys.Perm doc.cells.keys → sortNames keys = doc.names) ∧
      ∀ config' operations',
        let doc' := (new config').run operations'
        (∀ name : String, name ∈ doc'.cells ↔ name ∈ doc.cells) → doc'.names = doc.names := by
  refine ⟨fun a b => compareNames_eq_eq_iff, compareNames_swap,
    fun a b c => Std.TransCmp.lt_trans, fun a b => compareNames_eq_lt_of_isReferenceName,
    fun a b r s => compareNames_eq_lt_iff_of_parse?,
    fun a b => compareNames_eq_lt_iff_of_not_isReferenceName, fun config operations => ?_⟩
  refine ⟨fun name => mem_names_iff, ?_, pairwise_names _, fun keys => sortNames_eq_names,
    fun config' operations' => names_eq_of_mem_iff⟩
  exact (List.mergeSort_perm _ _).nodup_iff.2 Std.ExtTreeMap.nodup_keys

/-- Two spellings of one place of the grid and a name of another kind, entered in two orders; a name
beyond the grid is of another kind too. -/
theorem names_inOrder_spellings :
    let doc := (new {}).run [.edit "total" "x", .edit "a1" "x", .edit "A01" "=b"]
    let doc' := (new {}).run [.edit "A01" "x", .edit "a1" "=b", .edit "total" "x"]
    doc.names = ["A01", "a1", "total"] ∧ doc'.names = doc.names ∧
      compareNames "A01" "a1" = .lt ∧ compareNames "a1" "A99999999999999999999" = .lt := by
  have hkeys : ((new {}).run [.edit "total" "x", .edit "a1" "x", .edit "A01" "=b"]).cells.keys =
      ["A01", "a1", "total"] := by
    cbv
  have hkeys' : ((new {}).run [.edit "A01" "x", .edit "a1" "=b", .edit "total" "x"]).cells.keys =
      ["A01", "a1", "total"] := by
    cbv
  obtain ⟨-, -, -, hkind, hplace, -, hlisted⟩ := names_inOrder
  -- the same row and column: the bytes decide, and `A` is less than `a`
  have hspellings : compareNames "A01" "a1" = .lt := by
    refine (hplace _ _ ⟨0, 0⟩ ⟨0, 0⟩ (by decide +kernel) (by decide +kernel)).2 ?_
    exact .inr ⟨rfl, .inr ⟨rfl, Text.bytes_lt_bytes (by decide)⟩⟩
  have hbeyond : compareNames "a1" "A99999999999999999999" = .lt :=
    hkind _ _ (by decide +kernel) (by decide +kernel)
  obtain ⟨-, -, -, hsort, hcongr⟩ :=
    hlisted {} [.edit "total" "x", .edit "a1" "x", .edit "A01" "=b"]
  refine ⟨?_, hcongr {} _ fun name => ?_, hspellings, hbeyond⟩
  · rw [← hsort _ (List.Perm.of_eq hkeys.symm)]
    exact (eq_sortNames_of_perm .rfl (by decide +kernel)).symm
  · rw [← Std.ExtTreeMap.mem_keys, ← Std.ExtTreeMap.mem_keys, hkeys, hkeys']

end FormulaSheet.Document
