/-!
# Cursors

A list that is read from the front, one item at a time. What has been read is gone.
-/

namespace Fixity

/-- The items still to be read. -/
structure Cursor (α : Type) where
  remaining : List α
deriving DecidableEq, Repr

namespace Cursor

variable {α : Type}

/-- Whether an item is left. -/
def hasNext (c : Cursor α) : Bool :=
  !c.remaining.isEmpty

/-- The next item, which stays. -/
def peek? (c : Cursor α) : Option α :=
  c.remaining.head?

/-- The next item and the cursor behind it. -/
def next? (c : Cursor α) : Option (α × Cursor α) :=
  match c.remaining with
  | [] => none
  | a :: rest => some (a, ⟨rest⟩)

/-- The cursor behind the last item. -/
def drained : Cursor α :=
  ⟨[]⟩

/-- Items on one line, each after two spaces. -/
def row (items : List String) : String :=
  String.join (items.map ("  " ++ ·))

/-- The items still to be read, on one line. -/
def text (show? : α → String) (c : Cursor α) : String :=
  " ->" ++ row (c.remaining.map show?)

end Cursor

end Fixity
