import Fixity.Tree.Traversal

/-!
# Folds round by round

Folding comes to every inner node twice: it puts the subtrees on the pending work first, and once
they have their values it takes these from the results. That the values are there, that they are
those of the subtrees, and that nothing else is left when the work is done, depends on all that is
still pending. So it is said of every state that the loop comes to, not of the first one only. The
calls of the rules are noted, in their order; they are those of the recursion on the tree.

## Main statements

- `foldM_eq_mapM`: a tree is valued from the values of its subtrees
- `notes_foldM`: the rules are called for the nodes from the bottom up, until one of them fails
- `Reached.suffices`: there are results for all that is pending
- `fold?_walk_recursive`: folding and walking are the recursions on the tree
-/

namespace Fixity.Tree

variable {ε α : Type} {combine : Tree → List α → Except ε α} {t : Tree}

/-! ## §1 The recursions -/

/-- All subtrees, each after those below it, from left to right. -/
def bottomUp : Tree → List Tree
  | leaf t h => [leaf t h]
  | unary t h a => a.bottomUp ++ [unary t h a]
  | binary t h a b => a.bottomUp ++ b.bottomUp ++ [binary t h a b]

/-- From the bottom up come the same nodes as on a walk, each as often. -/
theorem perm_bottomUp (t : Tree) : t.bottomUp.Perm t.walk := by
  rw [walk_eq_preorder]
  induction t with
  | leaf t h => exact .refl _
  | unary t h a ih => exact (List.perm_append_singleton _ _).trans (ih.cons _)
  | binary t h a b iha ihb =>
    exact (List.perm_append_singleton _ _).trans ((iha.append ihb).cons _)

theorem walk_eq_flatMap (t : Tree) : t.walk = t :: t.children.flatMap walk := by
  cases t <;> simp [walk_eq_preorder, preorder, children]

/-- **A tree is valued from the values of its subtrees**, which come first, from left to right. -/
theorem foldM_eq_mapM {m : Type → Type} [Monad m] [LawfulMonad m] (act : Tree → List α → m α)
    (t : Tree) : foldM act t = t.children.mapM (foldM act) >>= act t := by
  cases t <;> simp [foldM, children]

/-! ## §2 The calls -/

/-- A node for which the rules are called, and the values that they get. -/
structure Call (α : Type) where
  node : Tree
  values : List α

/-- The rules with a list of their calls, in which each call is noted before it is answered. -/
def noted (combine : Tree → List α → Except ε α) (t : Tree) (values : List α) :
    ExceptT ε (StateM (List (Call α))) α :=
  fun calls => (combine t values, calls ++ [⟨t, values⟩])

/-- The calls of the rules while a tree is folded. -/
def calls (combine : Tree → List α → Except ε α) (t : Tree) : List (Call α) :=
  (visit (noted combine) [.enter t] [] []).2

/-- The rules are called for the nodes of a list, one by one, each time with the values of the
subtrees of the node in their order. Behind the first call that fails there is none. -/
inductive Called (combine : Tree → List α → Except ε α) :
    List Tree → List (Call α) → Option ε → Prop where
  | done : Called combine [] [] none
  | answered {n : Tree} {ns : List Tree} {values : List α} {x : α} {cs : List (Call α)}
      {f : Option ε} :
      n.children.map (foldM combine) = values.map .ok → combine n values = .ok x →
      Called combine ns cs f → Called combine (n :: ns) (⟨n, values⟩ :: cs) f
  | failed {n : Tree} {ns : List Tree} {values : List α} {e : ε} :
      n.children.map (foldM combine) = values.map .ok → combine n values = .error e →
      Called combine (n :: ns) [⟨n, values⟩] (some e)

theorem Called.append {ns ms : List Tree} {cs ds : List (Call α)} {f : Option ε}
    (hns : Called combine ns cs none) (hms : Called combine ms ds f) :
    Called combine (ns ++ ms) (cs ++ ds) f := by
  generalize hnone : (none : Option ε) = g at hns
  induction hns with
  | done => exact hms
  | answered hvalues hx _ ih => exact .answered hvalues hx (ih hnone)
  | failed => simp at hnone

/-- What comes behind a failure is not looked at. -/
theorem Called.append_of_some {ns : List Tree} {cs : List (Call α)} {e : ε}
    (h : Called combine ns cs (some e)) (ms : List Tree) :
    Called combine (ns ++ ms) cs (some e) := by
  generalize hsome : some e = f at h
  induction h with
  | done => simp at hsome
  | answered hvalues hx _ ih => exact .answered hvalues hx (ih hsome)
  | failed hvalues he => exact .failed hvalues he

/-- There is one such list of calls, as a node gets the values of its subtrees and no others. -/
theorem Called.unique {ns : List Tree} {cs ds : List (Call α)} {f f' : Option ε}
    (h : Called combine ns cs f) (h' : Called combine ns ds f') : cs = ds ∧ f = f' := by
  have hsame {values values' : List α} {n : Tree}
      (hvalues : n.children.map (foldM combine) = values.map .ok)
      (hvalues' : n.children.map (foldM combine) = values'.map .ok) : values = values' :=
    (List.map_inj_right fun _ _ => Except.ok.inj).mp (hvalues.symm.trans hvalues')
  induction h generalizing ds with
  | done =>
    cases h'
    exact ⟨rfl, rfl⟩
  | answered hvalues hx _ ih =>
    cases h' with
    | answered hvalues' hx' hrest =>
      obtain rfl := hsame hvalues hvalues'
      obtain ⟨rfl, rfl⟩ := ih hrest
      exact ⟨rfl, rfl⟩
    | failed hvalues' he =>
      obtain rfl := hsame hvalues hvalues'
      simp [hx] at he
  | failed hvalues he =>
    cases h' with
    | answered hvalues' hx' _ =>
      obtain rfl := hsame hvalues hvalues'
      simp [hx'] at he
    | failed hvalues' he' =>
      obtain rfl := hsame hvalues hvalues'
      exact ⟨rfl, congrArg some (Except.error.inj (he.symm.trans he'))⟩

/-- The failure, if there is one. -/
def failure? : Except ε α → Option ε
  | .ok _ => none
  | .error e => some e

/-- An action calls the rules for the nodes of a list, and has this outcome. -/
def Notes {β : Type} (combine : Tree → List α → Except ε α) (ns : List Tree)
    (act : ExceptT ε (StateM (List (Call α))) β) (outcome : Except ε β) : Prop :=
  ∃ made, Called combine ns made (failure? outcome) ∧
    ∀ before, act before = (outcome, before ++ made)

/-- The root is called for once its subtrees have their values. -/
theorem notes_root {values : List α} (h : t.children.map (foldM combine) = values.map .ok) :
    Notes combine [t] (noted combine t values) (combine t values) := by
  refine ⟨[⟨t, values⟩], ?_, fun before => rfl⟩
  cases hx : combine t values with
  | ok x => exact .answered h hx .done
  | error e => exact .failed h hx

/-- One action after the other calls for the nodes of both, unless the first one fails. -/
theorem Notes.bind {β γ : Type} {ns ms : List Tree} {act : ExceptT ε (StateM (List (Call α))) β}
    {next : β → ExceptT ε (StateM (List (Call α))) γ} {outcome : Except ε β}
    {last : β → Except ε γ} (hact : Notes combine ns act outcome)
    (hnext : ∀ x, outcome = .ok x → Notes combine ms (next x) (last x)) :
    Notes combine (ns ++ ms) (act >>= next) (outcome >>= last) := by
  obtain ⟨made, hcalled, hmade⟩ := hact
  have hbind (before : List (Call α)) : (act >>= next) before =
      match act before with
      | (.ok x, after) => next x after
      | (.error e, after) => (.error e, after) := by
    simp only [Bind.bind, ExceptT.bind, ExceptT.mk, StateT.bind]
    cases act before with
    | mk result after => cases result <;> rfl
  cases houtcome : outcome with
  | error e =>
    refine ⟨made, ?_, fun before => ?_⟩
    · rw [houtcome] at hcalled
      exact hcalled.append_of_some ms
    · rw [hbind, hmade, houtcome]
      rfl
  | ok x =>
    obtain ⟨others, hothers, hmore⟩ := hnext x houtcome
    refine ⟨made ++ others, ?_, fun before => ?_⟩
    · rw [houtcome] at hcalled
      exact hcalled.append hothers
    · rw [hbind, hmade, houtcome, ← List.append_assoc]
      exact hmore (before ++ made)

/-- **The rules are called for the nodes from the bottom up**, until one of the calls fails. -/
theorem notes_foldM (combine : Tree → List α → Except ε α) (t : Tree) :
    Notes combine t.bottomUp (foldM (noted combine) t) (t.foldM combine) := by
  induction t with
  | leaf t h => exact notes_root rfl
  | unary t h a ih =>
    apply ih.bind
    intro x hx
    exact notes_root (by simp [children, hx])
  | binary t h a b iha ihb =>
    -- the calls for the right subtree come behind those for the left one
    rw [bottomUp, List.append_assoc]
    apply iha.bind
    intro x hx
    apply ihb.bind
    intro y hy
    exact notes_root (by simp [children, hx, hy])

theorem called_calls (combine : Tree → List α → Except ε α) (t : Tree) :
    Called combine t.bottomUp (t.calls combine) (failure? (t.fold? combine)) := by
  have hlast (x : α) : Notes combine [] (pure [x]) (.ok [x]) := by
    refine ⟨[], .done, fun before => ?_⟩
    rw [List.append_nil]
    rfl
  -- the loop does what the recursion does, and leaves the result
  obtain ⟨made, hcalled, hmade⟩ := (notes_foldM combine t).bind fun x _ => hlast x
  rw [← visit_singleton] at hmade
  have hcalls : t.calls combine = made := congrArg Prod.snd (hmade [])
  rw [List.append_nil] at hcalled
  rw [hcalls, fold?_eq_foldM]
  cases hx : t.foldM combine <;> rw [hx] at hcalled <;> exact hcalled

/-! ## §3 The states of the loop -/

/-- The pending work and the results that the loop comes to when it folds a tree. -/
inductive Reached (combine : Tree → List α → Except ε α) (t : Tree) :
    List Pending → List α → Prop where
  | start : Reached combine t [.enter t] []
  | leaf {n : Tree} {work : List Pending} {results : List α} {x : α} :
      Reached combine t (.enter n :: work) results → n.children = [] → combine n [] = .ok x →
      Reached combine t work (x :: results)
  | descend {n : Tree} {work : List Pending} {results : List α} :
      Reached combine t (.enter n :: work) results → n.children ≠ [] →
      Reached combine t (n.children.map .enter ++ .leave n :: work) results
  | node {n : Tree} {work : List Pending} {results : List α} {x : α} :
      Reached combine t (.leave n :: work) results →
      combine n (results.take n.children.length).reverse = .ok x →
      Reached combine t work (x :: results.drop n.children.length)

/-- What is left to do in a state gives what the whole loop gives. -/
theorem Reached.visit_eq {work : List Pending} {results : List α}
    (h : Reached combine t work results) :
    visit combine work results = visit combine [.enter t] [] := by
  induction h with
  | start => rfl
  | leaf _ hleaf hx ih =>
    rw [← ih, visit, if_pos hleaf, hx]
    rfl
  | descend _ hinner ih => rw [← ih, visit, if_neg hinner]
  | node _ hx ih =>
    rw [← ih, visit, hx]
    rfl

/-- With so many results there are enough for each node whose subtrees have been valued, and one
is left in the end. -/
def Suffices : List Pending → Nat → Prop
  | [], n => n = 1
  | .enter _ :: work, n => Suffices work (n + 1)
  | .leave t :: work, n => t.children.length ≤ n ∧ Suffices work (n - t.children.length + 1)

theorem suffices_enter {ts : List Tree} {work : List Pending} {n : Nat} :
    Suffices (ts.map .enter ++ work) n ↔ Suffices work (n + ts.length) := by
  induction ts generalizing n with
  | nil => rfl
  | cons t ts ih =>
    rw [List.map_cons, List.cons_append, Suffices, ih, List.length_cons]
    have hcount : n + 1 + ts.length = n + (ts.length + 1) := by omega
    rw [hcount]

/-- **There are results for all that is pending**, in every state of the loop. -/
theorem Reached.suffices {work : List Pending} {results : List α}
    (h : Reached combine t work results) : Suffices work results.length := by
  induction h with
  | start => rfl
  | leaf _ _ _ ih => exact ih
  | @descend n work results _ _ ih =>
    -- each of the subtrees is going to leave a result, and the node is going to take them
    rw [suffices_enter, Suffices]
    have hback : results.length + n.children.length - n.children.length = results.length := by
      omega
    rw [hback]
    exact ⟨by omega, ih⟩
  | node _ _ ih =>
    rw [List.length_cons, List.length_drop]
    exact ih.2

theorem exists_of_bind {β γ : Type} {r : Except ε β} {f : β → Except ε γ} {y : γ}
    (h : r >>= f = .ok y) : ∃ x, r = .ok x ∧ f x = .ok y := by
  cases r with
  | error e => simp [bind, Except.bind] at h
  | ok x => exact ⟨x, rfl, h⟩

/-- A tree that has a value gives way to it. -/
theorem Reached.value {n : Tree} {work : List Pending} {results : List α} {x : α}
    (h : Reached combine t (.enter n :: work) results) (hx : n.foldM combine = .ok x) :
    Reached combine t work (x :: results) := by
  induction n generalizing work results x with
  | leaf n harity => exact h.leaf rfl hx
  | unary n harity a ih =>
    obtain ⟨y, hy, hroot⟩ := exists_of_bind hx
    have hbelow := ih (h.descend (List.cons_ne_nil _ _)) hy
    exact hbelow.node hroot
  | binary n harity a b iha ihb =>
    obtain ⟨y, hy, hrest⟩ := exists_of_bind hx
    obtain ⟨z, hz, hroot⟩ := exists_of_bind hrest
    -- the right subtree is still pending when the left one has its value
    have hleft := iha (h.descend (List.cons_ne_nil _ _)) hy
    have hright := ihb hleft hz
    exact hright.node hroot

/-- **The loop ends with one result**, the value of the tree. -/
theorem reached_nil_iff {results : List α} :
    Reached combine t [] results ↔ ∃ x, t.fold? combine = .ok x ∧ results = [x] := by
  rw [fold?_eq_foldM]
  constructor
  · intro h
    obtain ⟨x, rfl⟩ := List.length_eq_one_iff.mp h.suffices
    have hvisit := h.visit_eq
    rw [visit_singleton, visit] at hvisit
    obtain ⟨y, hy, hlast⟩ := exists_of_bind hvisit.symm
    exact ⟨y, hy, (Except.ok.inj hlast).symm⟩
  · rintro ⟨x, hx, rfl⟩
    exact Reached.start.value hx

/-! ## §4 Folding and walking -/

/-- **Folding and walking are the recursions on the tree.** Whatever the rules do, the loop does it
in the order of the recursion, and leaves one result: a node is valued from the values of its
subtrees, which come first, from left to right. So are the rules called if they may fail, once for
each node, up to the first failure. In every state that the loop comes to it goes on with the same
value, and a node whose subtrees have been valued finds as many results as it takes. A walk comes to
the root first and then walks the subtrees, from left to right. -/
theorem fold?_walk_recursive (combine : Tree → List α → Except ε α) (t : Tree) :
    (∀ (m : Type → Type) [Monad m] [LawfulMonad m] (act : Tree → List α → m α),
      foldM act t = t.children.mapM (foldM act) >>= act t ∧
        visit act [.enter t] [] = foldM act t >>= fun x => pure [x]) ∧
    t.fold? combine = t.foldM combine ∧
    t.bottomUp.Perm t.walk ∧
    Called combine t.bottomUp (t.calls combine) (failure? (t.fold? combine)) ∧
    (∀ work results, Reached combine t work results →
      visit combine work results = visit combine [.enter t] [] ∧
        ∀ n rest, work = .leave n :: rest → n.children.length ≤ results.length) ∧
    (∀ results, Reached combine t [] results ↔ ∃ x, t.fold? combine = .ok x ∧ results = [x]) ∧
    t.walk = t :: t.children.flatMap walk := by
  refine ⟨?_, fold?_eq_foldM combine t, perm_bottomUp t, called_calls combine t, ?_,
    fun results => reached_nil_iff, walk_eq_flatMap t⟩
  · intro m _ _ act
    exact ⟨foldM_eq_mapM act t, visit_singleton act t⟩
  · intro work results h
    refine ⟨h.visit_eq, ?_⟩
    rintro n rest rfl
    exact h.suffices.1

/-- The tree of `- y`. -/
def negated : Tree :=
  unary (.ofKind .unary "-") rfl (leaf (.ofKind .identifier "y") rfl)

/-- The tree of `x + - y`. -/
def negatedSum : Tree :=
  binary (.ofKind .binary "+") rfl (leaf (.ofKind .identifier "x") rfl) negated

/-- The number of nodes, by rules that refuse every sign. -/
def countUnsigned (t : Tree) (values : List Nat) : Except Token Nat :=
  if t.token.kind = .unary then .error t.token else .ok (values.foldr (· + ·) 1)

/-- The rules are called for both identifiers and then for the sign, with the value of what stands
below it. They refuse it, and are not called for the sum. When the loop comes back to the sign, the
results of both identifiers lie there. -/
theorem fold?_walk_recursive_negatedSum :
    negatedSum.fold? countUnsigned = .error negated.token ∧
    negatedSum.calls countUnsigned = [⟨leaf (.ofKind .identifier "x") rfl, []⟩,
      ⟨leaf (.ofKind .identifier "y") rfl, []⟩, ⟨negated, [1]⟩] ∧
    Reached countUnsigned negatedSum [.leave negated, .leave negatedSum] [1, 1] ∧
    visit countUnsigned [.leave negated, .leave negatedSum] [1, 1] = .error negated.token ∧
    negated.children.length ≤ 2 := by
  obtain ⟨hrules, hfold, -, hcalled, hreached, -⟩ := fold?_walk_recursive countUnsigned negatedSum
  have hrefused : negatedSum.foldM countUnsigned = .error negated.token := rfl
  have hcalls : Called countUnsigned negatedSum.bottomUp [⟨leaf (.ofKind .identifier "x") rfl, []⟩,
      ⟨leaf (.ofKind .identifier "y") rfl, []⟩, ⟨negated, [1]⟩] (some negated.token) :=
    .answered rfl rfl (.answered rfl rfl (.failed rfl rfl))
  have hstart : Reached countUnsigned negatedSum [.enter negatedSum] [] := .start
  have hx : Reached countUnsigned negatedSum [.enter negated, .leave negatedSum] [1] :=
    (hstart.descend (List.cons_ne_nil _ _)).leaf rfl rfl
  have hy : Reached countUnsigned negatedSum [.leave negated, .leave negatedSum] [1, 1] :=
    (hx.descend (List.cons_ne_nil _ _)).leaf rfl rfl
  obtain ⟨hsame, hcount⟩ := hreached _ _ hy
  refine ⟨hfold.trans hrefused, (hcalled.unique hcalls).1, hy, ?_, hcount _ _ rfl⟩
  rw [hsame, (hrules _ countUnsigned).2, hrefused]
  rfl

end Fixity.Tree
