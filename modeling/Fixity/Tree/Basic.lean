import Fixity.Token

/-!
# Expression trees

A node is a token with as many subtrees as the arity of its kind asks for: none below an
identifier, one below a prefix operation or an opening bracket, two below an infix operation.

## Main statements

- `node?_token_children`: a tree is the node of its token and its subtrees
- `exists_node?_eq_ok_iff`: a node is made of as many subtrees as the arity, and of no others
-/

namespace Fixity

/-! ## §1 Trees -/

/-- A token over its subtrees, which are as many as its arity. -/
inductive Tree where
  | leaf (token : Token) (arity : token.arity = 0)
  | unary (token : Token) (arity : token.arity = 1) (operand : Tree)
  | binary (token : Token) (arity : token.arity = 2) (left right : Tree)
deriving DecidableEq

namespace Tree

/-- The token at the root. -/
def token : Tree → Token
  | leaf t _ | unary t _ _ | binary t _ _ _ => t

/-- The subtrees below the root, from left to right. -/
def children : Tree → List Tree
  | leaf _ _ => []
  | unary _ _ a => [a]
  | binary _ _ a b => [a, b]

/-- The number of nodes. -/
def size : Tree → Nat
  | leaf _ _ => 1
  | unary _ _ a => a.size + 1
  | binary _ _ a b => a.size + b.size + 1

/-- The number of nodes of all trees of a list. -/
def totalSize : List Tree → Nat
  | [] => 0
  | t :: ts => t.size + totalSize ts

/-- The same tree over tokens without a place. -/
def unplaced : Tree → Tree
  | leaf t h => leaf (t.placed (-1) none) h
  | unary t h a => unary (t.placed (-1) none) h a.unplaced
  | binary t h a b => binary (t.placed (-1) none) h a.unplaced b.unplaced

@[simp] theorem length_children (t : Tree) : t.children.length = t.token.arity := by
  cases t with
  | leaf t h => exact h.symm
  | unary t h a => exact h.symm
  | binary t h a b => exact h.symm

theorem size_pos (t : Tree) : 0 < t.size := by
  cases t <;> simp [size]

theorem totalSize_append (ts us : List Tree) :
    totalSize (ts ++ us) = totalSize ts + totalSize us := by
  induction ts with
  | nil => simp [totalSize]
  | cons t ts ih =>
    rw [List.cons_append, totalSize, totalSize, ih]
    omega

theorem size_eq_totalSize_children (t : Tree) : t.size = totalSize t.children + 1 := by
  cases t <;> simp [size, children, totalSize]

/-! ## §2 Making nodes -/

/-- A token with a number of subtrees that is not its arity. -/
structure ArityFault where
  token : Token
  given : Nat
deriving DecidableEq, Repr

/-- What is wrong, in words. -/
def ArityFault.message (f : ArityFault) : String :=
  s!"token <{f.token.symbol}> of kind {f.token.kind.title} takes {f.token.arity} children, " ++
    s!"got {f.given}"

/-- The node of a token and its subtrees. -/
def node? (t : Token) (children : List Tree) : Except ArityFault Tree :=
  match children with
  | [] => if h : t.arity = 0 then .ok (leaf t h) else .error ⟨t, 0⟩
  | [a] => if h : t.arity = 1 then .ok (unary t h a) else .error ⟨t, 1⟩
  | [a, b] => if h : t.arity = 2 then .ok (binary t h a b) else .error ⟨t, 2⟩
  | _ => .error ⟨t, children.length⟩

theorem node?_token_children (t : Tree) : node? t.token t.children = .ok t := by
  cases t with
  | leaf t h => simp [node?, token, children, h]
  | unary t h a => simp [node?, token, children, h]
  | binary t h a b => simp [node?, token, children, h]

theorem node?_eq_ok_iff {t : Token} {children : List Tree} {n : Tree} :
    node? t children = .ok n ↔ n.token = t ∧ n.children = children := by
  constructor
  · intro h
    unfold node? at h
    split at h
    · split at h
      · exact Except.ok.inj h ▸ ⟨rfl, rfl⟩
      · simp at h
    · split at h
      · exact Except.ok.inj h ▸ ⟨rfl, rfl⟩
      · simp at h
    · split at h
      · exact Except.ok.inj h ▸ ⟨rfl, rfl⟩
      · simp at h
    · simp at h
  · rintro ⟨rfl, rfl⟩
    exact node?_token_children n

theorem exists_node?_eq_ok_iff {t : Token} {children : List Tree} :
    (∃ n, node? t children = .ok n) ↔ children.length = t.arity := by
  constructor
  · rintro ⟨n, h⟩
    obtain ⟨rfl, rfl⟩ := node?_eq_ok_iff.1 h
    exact n.length_children
  · intro h
    match children with
    | [] => exact ⟨leaf t h.symm, by simp [node?, ← h]⟩
    | [a] => exact ⟨unary t h.symm a, by simp [node?, ← h]⟩
    | [a, b] => exact ⟨binary t h.symm a b, by simp [node?, ← h]⟩
    | a :: b :: c :: rest =>
      -- no kind asks for three subtrees
      have : t.arity ≤ 2 := by
        unfold Lexeme.arity Kind.arity
        split <;> omega
      simp at h
      omega

end Tree

end Fixity
