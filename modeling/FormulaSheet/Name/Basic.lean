/-
Cell names.

A cell may bear any name that a formula can mention: a letter or underscore, then letters,
digits and underscores, all of them ASCII.  What else a sheet asks of its names is a pair of
functions, `NameRules`: one spells a name in its normal form, the other says which normal
forms are admitted.  Both are arbitrary; a normal form that is no variable name is refused.

* **`NameRules.resolve?`** — the cell that a spelling means, if it means one.
-/
namespace FormulaSheet

/-- Characters that start a variable name. -/
def startsName (c : Char) : Bool :=
  c.isAlpha || c == '_'

/-- Characters that continue a variable name. -/
def continuesName (c : Char) : Bool :=
  c.isAlphanum || c == '_'

/-- Whether a text is a variable name: `[A-Za-z_][A-Za-z0-9_]*`. -/
def isVariableName (name : String) : Bool :=
  match name.toList with
  | [] => false
  | first :: rest => startsName first && rest.all continuesName

/-- What a sheet asks of its cell names. -/
structure NameRules where
  /-- The normal form of a spelling. -/
  normalize : String → String := id
  /-- The normal forms that are admitted, among variable names. -/
  admits : String → Bool := fun _ => true

namespace NameRules

/-- Whether a normal form is the name of a cell. -/
def accepts (rules : NameRules) (name : String) : Bool :=
  isVariableName name && rules.admits name

/-- The cell that a spelling means: its normal form, if that is accepted. -/
def resolve? (rules : NameRules) (spelling : String) : Option String :=
  let name := rules.normalize spelling
  if rules.accepts name then some name else none

/-- A resolved name is an accepted normal form. -/
theorem resolve?_eq_some_iff {rules : NameRules} {spelling name : String} :
    rules.resolve? spelling = some name ↔
      rules.normalize spelling = name ∧ rules.accepts name = true := by
  unfold resolve?
  constructor
  · intro h
    by_cases hacc : rules.accepts (rules.normalize spelling) = true
    · simp [hacc] at h
      exact ⟨h, h ▸ hacc⟩
    · simp [hacc] at h
  · rintro ⟨rfl, hacc⟩
    simp [hacc]

end NameRules

end FormulaSheet
