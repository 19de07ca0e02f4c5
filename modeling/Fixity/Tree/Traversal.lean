import Fixity.Tree.Basic

/-!
# Walking and folding trees

Both run over a stack of pending work, so that the depth of a tree costs no depth of calls.
Beside each stands the recursion on the tree that it amounts to.

## Main statements

- `visit_enter`: folding a tree on top of pending work puts its value on the results
- `fold?_eq_foldM`, `fold_eq_eval`: folding is the recursion from the leaves up
- `walk_eq_preorder`: walking is the recursion from the root down
-/

namespace Fixity.Tree

/-! ## §1 Folding by recursion -/

/-- The value of a tree: a node is valued after its subtrees, from left to right, and from
    their values. -/
def foldM {m : Type → Type} [Monad m] {α : Type} (combine : Tree → List α → m α) : Tree → m α
  | leaf t h => combine (leaf t h) []
  | unary t h a => do
    let x ← foldM combine a
    combine (unary t h a) [x]
  | binary t h a b => do
    let x ← foldM combine a
    let y ← foldM combine b
    combine (binary t h a b) [x, y]

/-- The value of a tree under rules that never fail. -/
def eval {α : Type} (combine : Tree → List α → α) : Tree → α
  | leaf t h => combine (leaf t h) []
  | unary t h a => combine (unary t h a) [eval combine a]
  | binary t h a b => combine (binary t h a b) [eval combine a, eval combine b]

theorem foldM_ok {ε α : Type} (combine : Tree → List α → α) (t : Tree) :
    foldM (fun t xs => (.ok (combine t xs) : Except ε α)) t = .ok (eval combine t) := by
  induction t with
  | leaf t h => rfl
  | unary t h a iha => simp [foldM, eval, iha, bind, Except.bind]
  | binary t h a b iha ihb => simp [foldM, eval, iha, ihb, bind, Except.bind]

/-! ## §2 Folding over a stack -/

/-- Pending work: a tree of which nothing is valued, or one whose subtrees are. -/
inductive Pending where
  | enter (tree : Tree)
  | leave (tree : Tree)

/-- How many steps pending work can still take. -/
def Pending.weight : Pending → Nat
  | enter t => 2 * t.size
  | leave _ => 1

/-- How many steps a stack of pending work can still take. -/
def totalWeight : List Pending → Nat
  | [] => 0
  | p :: work => p.weight + totalWeight work

theorem totalWeight_enter (ts : List Tree) (work : List Pending) :
    totalWeight (ts.map .enter ++ work) = 2 * totalSize ts + totalWeight work := by
  induction ts with
  | nil => simp [totalSize]
  | cons t ts ih =>
    rw [List.map_cons, List.cons_append, totalWeight, totalSize, ih, Pending.weight]
    omega

/-- Works through pending work. The results of finished trees lie on a stack, the last one
    first; a node takes those of its subtrees from it. -/
def visit {m : Type → Type} [Monad m] {α : Type} (combine : Tree → List α → m α) :
    List Pending → List α → m (List α)
  | [], results => pure results
  -- a leaf is valued at once, any other tree after its subtrees
  | .enter t :: work, results =>
    if t.children = [] then do
      let x ← combine t []
      visit combine work (x :: results)
    else visit combine (t.children.map .enter ++ .leave t :: work) results
  | .leave t :: work, results => do
    let x ← combine t (results.take t.children.length).reverse
    visit combine work (x :: results.drop t.children.length)
termination_by work => totalWeight work
decreasing_by
  · have := t.size_pos
    simp only [totalWeight, Pending.weight]
    omega
  · have := t.size_eq_totalSize_children
    simp only [totalWeight_enter, totalWeight, Pending.weight]
    omega
  · simp [totalWeight, Pending.weight]

/-- A tree on top of the pending work adds its value to the results. -/
theorem visit_enter {m : Type → Type} [Monad m] [LawfulMonad m] {α : Type}
    (combine : Tree → List α → m α) (t : Tree) (work : List Pending) (results : List α) :
    visit combine (.enter t :: work) results =
      foldM combine t >>= fun x => visit combine work (x :: results) := by
  induction t generalizing work results with
  | leaf t h => simp [visit, children, foldM]
  | unary t h a iha =>
    rw [visit]
    simp [children, foldM, iha, visit]
  | binary t h a b iha ihb =>
    rw [visit]
    simp [children, foldM, iha, ihb, visit]

theorem visit_singleton {m : Type → Type} [Monad m] [LawfulMonad m] {α : Type}
    (combine : Tree → List α → m α) (t : Tree) :
    visit combine [.enter t] [] = foldM combine t >>= fun x => pure [x] := by
  simp [visit_enter, visit]

/-- The value of a tree, or the first failure on the way to it. -/
def fold? {ε α : Type} (combine : Tree → List α → Except ε α) (t : Tree) : Except ε α :=
  match h : visit combine [.enter t] [] with
  | .error e => .error e
  | .ok results => .ok <| results.head <| by
    rw [visit_singleton] at h
    cases hx : foldM combine t with
    | error e => simp [hx, bind, Except.bind] at h
    | ok x => simp [hx, bind, Except.bind, pure, Except.pure] at h; simp [← h]

/-- The value of a tree, where no rule fails. -/
def fold {α : Type} (combine : Tree → List α → α) (t : Tree) : α :=
  match fold? (fun t xs => (.ok (combine t xs) : Except Empty α)) t with
  | .ok x => x

theorem fold?_eq_foldM {ε α : Type} (combine : Tree → List α → Except ε α) (t : Tree) :
    t.fold? combine = t.foldM combine := by
  unfold fold?
  split
  · next e h =>
    rw [visit_singleton] at h
    cases hx : foldM combine t with
    | error e => simpa [hx, bind, Except.bind] using h.symm
    | ok x => simp [hx, bind, Except.bind, pure, Except.pure] at h
  · next results h =>
    rw [visit_singleton] at h
    cases hx : foldM combine t with
    | error e => simp [hx, bind, Except.bind] at h
    | ok x =>
      simp [hx, bind, Except.bind, pure, Except.pure] at h
      simp [← h]

theorem fold_eq_eval {α : Type} (combine : Tree → List α → α) (t : Tree) :
    t.fold combine = t.eval combine := by
  unfold fold
  simp only [fold?_eq_foldM, foldM_ok]

/-! ## §3 Walking -/

/-- All subtrees, each before those below it, from left to right. -/
def preorder : Tree → List Tree
  | leaf t h => [leaf t h]
  | unary t h a => unary t h a :: a.preorder
  | binary t h a b => binary t h a b :: (a.preorder ++ b.preorder)

/-- Works through a stack of trees, each giving way to its subtrees. -/
def walkFrom : List Tree → List Tree
  | [] => []
  | t :: rest => t :: walkFrom (t.children ++ rest)
termination_by ts => totalSize ts
decreasing_by
  have := t.size_eq_totalSize_children
  simp only [totalSize_append, totalSize]
  omega

/-- The subtrees of a tree in the order of a walk from the root. -/
def walk (t : Tree) : List Tree :=
  walkFrom [t]

theorem walkFrom_cons (t : Tree) (rest : List Tree) :
    walkFrom (t :: rest) = t.preorder ++ walkFrom rest := by
  induction t generalizing rest with
  | leaf t h => simp [walkFrom, children, preorder]
  | unary t h a iha =>
    rw [walkFrom]
    simp [children, preorder, iha]
  | binary t h a b iha ihb =>
    rw [walkFrom]
    simp [children, preorder, iha, ihb]

theorem walk_eq_preorder (t : Tree) : t.walk = t.preorder := by
  simp [walk, walkFrom_cons, walkFrom]

section Nodes

variable {p : Tree → Prop} {t : Token} {a b : Tree}

theorem forall_mem_walk_leaf {h : t.arity = 0} : (∀ n ∈ (leaf t h).walk, p n) ↔ p (leaf t h) := by
  simp [walk_eq_preorder, preorder]

theorem forall_mem_walk_unary {h : t.arity = 1} :
    (∀ n ∈ (unary t h a).walk, p n) ↔ p (unary t h a) ∧ ∀ n ∈ a.walk, p n := by
  simp [walk_eq_preorder, preorder]

theorem forall_mem_walk_binary {h : t.arity = 2} :
    (∀ n ∈ (binary t h a b).walk, p n) ↔
      p (binary t h a b) ∧ (∀ n ∈ a.walk, p n) ∧ ∀ n ∈ b.walk, p n := by
  simp [walk_eq_preorder, preorder, or_imp, forall_and]

end Nodes

end Fixity.Tree
