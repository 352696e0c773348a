/-
Names that a pattern admits.

Settings may give a pattern that whole names have to match.  The pattern is enclosed as a text, and
only what comes of this is read.  A pattern that is well formed by itself is read as it was, between
the start and the finish, so a name is accepted exactly if the pattern matches all of it.

A text that is not well formed by itself should be refused, but it need not be: in `x)|(?:.*` a
group is closed that was not opened and another is opened that is not closed, and what encloses the
text makes up for both.  What is read then are two alternatives, each of them bound to one end of
the name alone.

* **`Settings.exists_config_of_pattern`** — settings with a well-formed pattern make a
  configuration, and it accepts the names that the whole pattern matches, in addition to all else
  that is asked of them;
* **`Settings.exists_config_of_unbalanced`** — settings with that other text make one as well.
-/
import FormulaSheet.Proofs.Pattern.Enclosing
import FormulaSheet.Proofs.Pattern.Matching
import FormulaSheet.Settings.Basic

namespace FormulaSheet.Settings

theorem toList_anchored (pattern : String) : (anchored pattern).toList =
    Pattern.openingText ++ (pattern.toList ++ Pattern.closingText) := by
  rw [anchored, String.toList_append, String.toList_append, List.append_assoc]
  rfl

/-- A pattern that is well formed is well formed when it is enclosed, and is found in the names that
it matches as a whole. -/
theorem exists_read?_anchored {pattern : String} {p : Pattern}
    (h : Pattern.read? pattern.toList = some p) :
    ∃ enclosed, Pattern.read? (anchored pattern).toList = some enclosed ∧
      ∀ name, enclosed.isFound name = true ↔ p.Matches name.toList 0 name.toList.length := by
  rw [toList_anchored, Pattern.read?_enclosed h]
  exact ⟨_, rfl, fun name => Pattern.isFound_anchored_iff⟩

/-- Settings whose pattern is well formed by itself make a configuration.  It accepts a name exactly
if that is a variable name, has the style that is asked for, and is matched by the pattern from its
first to its last character.

Well formed is what `Pattern.read?` reads.  It knows no properties of characters as in `\p{..}`, no
`\<`, `\>` or `\b{start}`, no names of groups beyond ASCII, no limit of size and no flag `x`.  Under
that flag the statement would not hold: a comment that ends the pattern would take in the
parenthesis that closes what encloses it. -/
theorem exists_config_of_pattern {settings : Settings} {pattern : String} {p : Pattern}
    (hpattern : settings.pattern = some pattern) (hread : Pattern.read? pattern.toList = some p) :
    ∃ config, settings.config? = some config ∧ ∀ name, config.rules.accepts name = true ↔
      isVariableName name = true ∧ (settings.style.getD .any).admits name = true ∧
        p.Matches name.toList 0 name.toList.length := by
  obtain ⟨enclosed, henclosed, hfound⟩ := exists_read?_anchored hread
  -- the other settings are optional and cannot be refused
  unfold config? rules?
  dsimp only
  rw [hpattern]
  dsimp only
  rw [henclosed]
  refine ⟨_, rfl, fun name => ?_⟩
  rw [NameRules.accepts, Bool.and_eq_true, Bool.and_eq_true, hfound]

/-- References in columns `A` to `C`: one of them is matched as a whole, and one that a letter
stands before is not. -/
theorem exists_config_of_pattern_columns :
    let settings : Settings :=
      { letterCase := some .upper, style := some .references, pattern := some "[A-C][0-9]+" }
    ∃ p config, Pattern.read? "[A-C][0-9]+".toList = some p ∧
      settings.config? = some config ∧ config.rules.accepts "B2" = true ∧
      p.Matches "B2".toList 0 2 ∧ ¬ p.Matches "XB2".toList 0 3 := by
  intro settings
  -- the two names are decided by evaluation, and what they mean for the pattern follows
  have hread : (Pattern.read? "[A-C][0-9]+".toList).isSome = true := by
    decide +kernel
  have hB2 : (settings.config?.any fun config => config.rules.accepts "B2") = true := by
    decide +kernel
  have hXB2 : (settings.config?.any fun config => config.rules.accepts "XB2") = false := by
    decide +kernel
  obtain ⟨p, hp⟩ := Option.isSome_iff_exists.1 hread
  obtain ⟨config, hconfig, haccepts⟩ := exists_config_of_pattern
    (show settings.pattern = some "[A-C][0-9]+" from rfl) hp
  rw [hconfig, Option.any_some] at hB2 hXB2
  refine ⟨p, config, hp, hconfig, hB2, ((haccepts "B2").1 hB2).2.2, fun hmatches => ?_⟩
  have hyes := (haccepts "XB2").2 ⟨rfl, rfl, hmatches⟩
  rw [hXB2] at hyes
  cases hyes

/-- A text that is not well formed by itself makes a configuration, which accepts a name that starts
with `x` and goes on. -/
theorem exists_config_of_unbalanced :
    Pattern.read? "x)|(?:.*".toList = none ∧
      ∃ config, ({ pattern := some "x)|(?:.*" } : Settings).config? = some config ∧
        config.rules.accepts "xyz" = true := by
  have hread : (Pattern.read? "x)|(?:.*".toList).isNone = true := by
    decide +kernel
  have hxyz : (({ pattern := some "x)|(?:.*" } : Settings).config?.any
      fun config => config.rules.accepts "xyz") = true := by
    decide +kernel
  exact ⟨Option.isNone_iff_eq_none.1 hread, (Option.any_eq_true _ _).1 hxyz⟩

end FormulaSheet.Settings
