import Fixity.Tree.Basic

/-!
# Trees from postfix order

The tokens of a tree in postfix order, each after the tokens of its subtrees, determine the
tree. It is built in one pass from left to right: every token takes as many finished trees as
its arity from the stack and leaves one.
-/

namespace Fixity.Tree

/-! ## §1 Postfix order -/

/-- The tokens of a tree, each after those of its subtrees. -/
def postorder : Tree → List Token
  | leaf t _ => [t]
  | unary t _ a => a.postorder ++ [t]
  | binary t _ a b => a.postorder ++ b.postorder ++ [t]

/-! ## §2 Building -/

/-- Why a list of tokens is no tree in postfix order. -/
inductive BuildFault where
  /-- Closing brackets and sentinels head no node. -/
  | unbuildable (token : Token)
  /-- There are fewer finished trees than the token takes. -/
  | missingOperands (token : Token) (found : Nat)
  /-- There are no tokens. -/
  | empty
  /-- There are trees beside the last one; their roots are given. -/
  | leftover (roots : List Token)
  /-- A node has the wrong number of subtrees. -/
  | arity (fault : ArityFault)
deriving DecidableEq, Repr

/-- Puts the nodes of the tokens on a stack of finished trees, the last one first. -/
def assemble (finished : List Tree) : List Token → Except BuildFault (List Tree)
  | [] => .ok finished
  | t :: ts =>
    if t.kind = .closing ∨ t.kind.isSentinel = true then .error (.unbuildable t)
    else if finished.length < t.arity then .error (.missingOperands t finished.length)
    else
      match node? t (finished.take t.arity).reverse with
      | .error f => .error (.arity f)
      | .ok n => assemble (n :: finished.drop t.arity) ts

/-- The tree whose postfix order is given. -/
def ofPostfix? (ts : List Token) : Except BuildFault Tree :=
  match assemble [] ts with
  | .error f => .error f
  | .ok [] => .error .empty
  | .ok [t] => .ok t
  | .ok (_ :: before) => .error (.leftover (before.reverse.map token))

end Fixity.Tree
