/-
Values of cells.

The value of a cell is computed when it is asked for and kept until an edit forgets it.  A
formula finds a number in each name it mentions whose value is one; any other value, and an
empty cell, leave the name unresolved.

What has to be computed is found with an explicit stack of names: a formula is laid aside until
everything it mentions has a value.  A formula is laid aside once at most, so the work ends;
where no formula depends on itself, it is never needed a second time.

* **`Document.value`** — the value of a cell, with the document that keeps it;
* **`Document.settle`** — compute what is on the stack.
-/
import FormulaSheet.Document.Basic

namespace FormulaSheet.Document

/-- Whether a name is a cell whose value has to be computed. -/
def isUnsettled (cells : Cells) (cache : Cache) (name : String) : Bool :=
  cells.contains name && !cache.contains name

/-- The number that a formula finds in a name. -/
def settledNumber (cache : Cache) (name : String) : Option Float :=
  cache[name]?.bind CellValue.number?

/-- How many cells have not been laid aside. -/
def notLaidAside (cells : Cells) (laidAside : NameSet) : Nat :=
  cells.keys.countP (!laidAside.contains ·)

/-- Laying a cell aside leaves fewer that have not been. -/
theorem notLaidAside_insert_lt {cells : Cells} {laidAside : NameSet} {name : String}
    (hname : name ∈ cells.keys) (hnot : ¬ laidAside.contains name = true) :
    notLaidAside cells (laidAside.insert name) < notLaidAside cells laidAside :=
  NameSet.countP_insert_lt hname hnot

/-- Compute the values of the names on a stack, topmost first, and of all that they need.
The events come last first. -/
def settle (cells : Cells) (laidAside : NameSet) (cache : Cache) (events : List Event)
    (stack : List String) : Cache × List Event :=
  match stack with
  | [] => (cache, events)
  | name :: below =>
    if cache.contains name then settle cells laidAside cache events below
    else match _hname : cells[name]? with
      | none => settle cells laidAside cache events below
      | some (.number x) => settle cells laidAside (cache.insert name (.number x)) events below
      | some (.text s) => settle cells laidAside (cache.insert name (.text s)) events below
      | some (.formula f) =>
        let waiting := f.mentions.filter (isUnsettled cells cache)
        -- The second time round nothing waits, unless the formula depends on itself.
        if _haside : waiting.isEmpty ∨ laidAside.contains name then
          let value := CellValue.ofResult (f.value (settledNumber cache))
          settle cells laidAside (cache.insert name value) (.evaluating name f :: events) below
        else
          settle cells (laidAside.insert name) cache events (waiting.reverse ++ name :: below)
termination_by (notLaidAside cells laidAside, stack.length)
decreasing_by
  all_goals first
    | exact Prod.Lex.right _ (by simp)
    | exact Prod.Lex.left _ _ (notLaidAside_insert_lt
        (Std.ExtTreeMap.mem_keys.2 (Std.ExtTreeMap.mem_iff_isSome_getElem?.2 (by simp [_hname])))
        (fun h => _haside (.inr h)))

/-- The value of a cell given by its name. -/
def valueOf (doc : Document) (name : String) : Reply CellValue :=
  match doc.cache[name]? with
  | some value => { answer := value, document := doc, events := [.cacheHit name] }
  | none =>
    let (cache, events) := settle doc.cells ∅ doc.cache [] [name]
    { answer := cache[name]?.getD .empty
      document := { doc with cache }
      events := events.reverse }

/-- The value of a cell, with the document that keeps it. -/
def value (doc : Document) (spelling : String) : Reply (Except EditError CellValue) :=
  match doc.resolve spelling with
  | .error e => { answer := .error e, document := doc }
  | .ok name =>
    let reply := doc.valueOf name
    { reply with answer := .ok reply.answer }

end FormulaSheet.Document
