/-
What a cell is worth.

The value of a cell is defined by what the cells hold, without a cache: an empty cell is worth the
empty text, a number or a text itself, and a formula what its evaluation gives when each name it
mentions is looked up in the same way.

* **`HasValue`** — the value of a name, as a relation;
* **`HasValue.unique`** — a name has one value at most;
* **`exists_hasValue`** — and it has one, where no mentions lead from a name back to it;
* **`HasValue.of_agree`** — a value depends only on what the cells hold that the mentions lead to.

`wellFounded_mentions` is what the existence of values rests on, and every other recursion along
mentions: a mentioned name reaches fewer cells than the one that mentions it.
-/
import FormulaSheet.Proofs.Document.Mirror
import FormulaSheet.Proofs.Formula.Grammar

namespace FormulaSheet

open Relation

/-! ### The look-ups of a formula -/

namespace Formula

/-- A formula looks up no names but those it mentions. -/
theorem value_congr {f : Formula} {lookup lookup' : String → Option Float}
    (h : ∀ name ∈ f.mentions, lookup name = lookup' name) : f.value lookup = f.value lookup' := by
  have hstep : ∀ tokens : List Token, (∀ name, .var name ∈ tokens → lookup name = lookup' name) →
      ∀ s, tokens.foldlM (step (m := Id) Arithmetic.double fun name => pure (lookup name)) s =
        tokens.foldlM (step (m := Id) Arithmetic.double fun name => pure (lookup' name)) s := by
    intro tokens
    induction tokens with
    | nil => exact fun _ _ => rfl
    | cons token rest ih =>
      intro hnames s
      have hrest := ih fun name hname => hnames name (.tail _ hname)
      rw [List.foldlM_cons, List.foldlM_cons, funext hrest]
      cases token with
      | var name => simp [step, number, hnames name (.head _)]
      | _ => rfl
  simp only [value, evaluate, evaluateWith,
    hstep f.tokens fun name hname => h name (mem_mentions_iff.2 hname)]

end Formula

namespace Document

variable {cells cells' : Cells} {name : String} {value value' : CellValue}

/-! ### Recursion along mentions -/

theorem Mentions.mem_keys {a b : String} (h : Mentions cells a b) : a ∈ cells.keys := by
  obtain ⟨f, hf, -⟩ := h
  rw [Std.ExtTreeMap.mem_keys, Std.ExtTreeMap.mem_iff_isSome_getElem?, hf]
  rfl

/-- Where mentions never lead back, they cannot be followed forever. -/
theorem wellFounded_mentions (hacyclic : ∀ a, ¬ TransGen (Mentions cells) a a) :
    WellFounded fun b a => Mentions cells a b := by
  classical
  -- what a name leads to, among the finitely many cells, shrinks along every mention
  let reached (a : String) := cells.keys.toFinset.filter (ReflTransGen (Mentions cells) a)
  refine Subrelation.wf (fun {b a} hab => ?_) (measure fun a => (reached a).card).wf
  refine Finset.card_lt_card (Finset.ssubset_iff_subset_ne.2 ⟨fun x hx => ?_, fun heq => ?_⟩)
  · obtain ⟨hkey, hbx⟩ := Finset.mem_filter.1 hx
    exact Finset.mem_filter.2 ⟨hkey, .head hab hbx⟩
  · have ha : a ∈ reached a := Finset.mem_filter.2 ⟨List.mem_toFinset.2 hab.mem_keys, .refl⟩
    rw [← heq] at ha
    exact hacyclic a (.head' hab (Finset.mem_filter.1 ha).2)

/-! ### Values -/

/-- The value of a name, by what the cells hold. -/
inductive HasValue (cells : Cells) : String → CellValue → Prop
  | empty {name : String} : cells[name]? = none → HasValue cells name .empty
  | number {name : String} {x : Float} :
      cells[name]? = some (.number x) → HasValue cells name (.number x)
  | text {name s : String} : cells[name]? = some (.text s) → HasValue cells name (.text s)
  | formula {name : String} {f : Formula} (look : String → CellValue) :
      cells[name]? = some (.formula f) → (∀ v ∈ f.mentions, HasValue cells v (look v)) →
      HasValue cells name (.ofResult (f.value fun v => (look v).number?))

/-- A name has one value at most. -/
theorem HasValue.unique (h : HasValue cells name value) (h' : HasValue cells name value') :
    value = value' := by
  induction h generalizing value' with
  | empty hcell => cases h' <;> simp_all
  | number hcell => cases h' <;> simp_all
  | text hcell => cases h' <;> simp_all
  | @formula name f look hcell hlook ih =>
    cases h' with
    | @formula _ f' look' hcell' hlook' =>
      obtain rfl : f = f' := by simpa [hcell] using hcell'
      congr 1
      exact f.value_congr fun v hv => by rw [ih v hv (hlook' v hv)]
    | _ => simp_all

/-- Where mentions never lead back, every name has a value. -/
theorem exists_hasValue (hacyclic : ∀ a, ¬ TransGen (Mentions cells) a a) (name : String) :
    ∃ value, HasValue cells name value := by
  induction name using (wellFounded_mentions hacyclic).induction with
  | _ name ih =>
    cases hcell : cells[name]? with
    | none => exact ⟨_, .empty hcell⟩
    | some contents =>
      cases contents with
      | number x => exact ⟨_, .number hcell⟩
      | text s => exact ⟨_, .text hcell⟩
      | formula f =>
        -- a value is chosen for every name, though only those mentioned matter
        have hmentioned : ∀ v, ∃ value, v ∈ f.mentions → HasValue cells v value := by
          intro v
          by_cases hv : v ∈ f.mentions
          · obtain ⟨value, hvalue⟩ := ih v ⟨f, hcell, hv⟩
            exact ⟨value, fun _ => hvalue⟩
          · exact ⟨.empty, fun h => absurd h hv⟩
        choose look hlook using hmentioned
        exact ⟨_, .formula look hcell hlook⟩

/-- A value depends only on what the cells hold that mentions lead to from the name. -/
theorem HasValue.of_agree (h : HasValue cells name value)
    (hagree : ∀ x, ReflTransGen (Mentions cells) name x → cells'[x]? = cells[x]?) :
    HasValue cells' name value := by
  induction h with
  | empty hcell => exact .empty (by rw [hagree _ .refl, hcell])
  | number hcell => exact .number (by rw [hagree _ .refl, hcell])
  | text hcell => exact .text (by rw [hagree _ .refl, hcell])
  | @formula name f look hcell hlook ih =>
    refine .formula look (by rw [hagree _ .refl, hcell]) fun v hv => ih v hv fun x hx => ?_
    exact hagree x (.head ⟨f, hcell, hv⟩ hx)

end Document

end FormulaSheet
