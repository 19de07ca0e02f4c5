import Fixity.Tree.Traversal

/-!
# Printed trees

Ways to write a tree down and to take it apart: the printed form, the outline by the roles of
nodes, and the tree without its bracket nodes.

## Main statements

- `toText_eq_eval`: the printed form by recursion on the tree
-/

namespace Fixity.Tree

/-! ## §1 The printed form -/

/-- The printed form of a node above the printed forms of its subtrees. -/
def nodeText (t : Tree) (parts : List String) : String :=
  if parts = [] then t.token.symbol
  else "\x7b" ++ ", ".intercalate (t.token.symbol :: parts) ++ "\x7d"

/-- A leaf is printed as its symbol, any other node in braces, its symbol first. -/
def toText (t : Tree) : String :=
  t.fold nodeText

instance : ToString Tree :=
  ⟨toText⟩

theorem toText_eq_eval (t : Tree) : t.toText = t.eval nodeText :=
  fold_eq_eval nodeText t

/-! ## §2 Bracket nodes -/

/-- A node above subtrees without bracket nodes: a bracket gives way to its content. -/
def unwrap (t : Tree) (children : List Tree) : Except ArityFault Tree :=
  match t.token.kind, children with
  | .opening, content :: _ => .ok content
  | .opening, [] => .error ⟨t.token, 0⟩
  | _, [] => .ok t
  | _, _ => node? t.token children

/-- The tree with every bracket node replaced by its content. -/
def unbracketed (t : Tree) : Except ArityFault Tree :=
  t.fold? unwrap

/-! ## §3 Outlines -/

/-- A tree by the roles of its nodes. -/
inductive Outline where
  | identifier (symbol : String)
  | operation (symbol : String) (operands : List Outline)
  | group (symbol : String) (content : List Outline)

/-- A token that heads no node of a tree that was read from a text. -/
structure HeadFault where
  token : Token
deriving DecidableEq, Repr

/-- What is wrong, in words. -/
def HeadFault.message (f : HeadFault) : String :=
  s!"token <{f.token.symbol}> of kind {f.token.kind.title} cannot head an AST node"

/-- What the role of a node makes of the outlines below it. Closing brackets and sentinels
    have no role. -/
def role? (t : Token) : Except HeadFault (List Outline → Outline) :=
  match t.kind with
  | .identifier => .ok fun _ => .identifier t.symbol
  | .unary | .binary => .ok (.operation t.symbol)
  | .opening => .ok (.group t.symbol)
  | .closing | .start | .finish => .error ⟨t⟩

/-- The outline of a tree. A node is looked at before those below it. -/
def outline? : Tree → Except HeadFault Outline
  | leaf t _ => do
    let role ← role? t
    return role []
  | unary t _ a => do
    let role ← role? t
    return role [← outline? a]
  | binary t _ a b => do
    let role ← role? t
    let x ← outline? a
    let y ← outline? b
    return role [x, y]

end Fixity.Tree
