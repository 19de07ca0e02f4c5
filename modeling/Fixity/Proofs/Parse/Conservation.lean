import Fixity.Proofs.Engine.Visited
import Fixity.Proofs.Parse.Brackets

/-!
# No token is lost

Tokens go from the line to one of two stacks, from the operators to the output, and from there
into the tree. On this way none is lost, doubled or made up, whatever a prefix operation sends out
before its time: closing brackets aside, the stacks hold in every state the tokens read so far,
and the tree those of the line. The order changes, but not that of the identifiers, as they never
wait.

## Main statements

- `perm_of_visited`: what the stacks hold in a state of a run
- `identifiers_runFresh`: the identifiers come out of a run in their order
- `identifiers_walk`: a walk meets the identifiers in the order of the postfix order
- `parse_conserves`: no token is lost on the way to the tree
-/

namespace Fixity

open Stacks Checker

variable {g : Grammar} {tokens : List Token}

/-! ## §1 What the stacks hold -/

theorem ne_finish_of_knows {t : Token} (h : g.Knows t) : t.kind ≠ .finish := by
  intro hk
  have hno := h.isSentinel_eq_false
  simp [hk, Kind.isSentinel] at hno

/-- **In every state of a fresh run** the stacks hold the tokens of the line that were read, but
for the closing brackets, and besides them only the beginning of the line. -/
theorem perm_of_visited (hknown : ∀ t ∈ tokens, g.Knows t) (hspans : ∀ t ∈ tokens, t.Spanned) :
    ∃ finish : Token, finish.toLexeme = Token.finish.toLexeme ∧
      ∀ (i : Nat) (e : Engine), (g.runFresh tokens).visited[i]? = some e →
        e.stream.remaining = (tokens ++ [finish]).drop i ∧
          ∃ waiting, e.operators = waiting ++ [.start] ∧
            (e.output ++ waiting).Perm ((tokens.take i).filter (·.kind ≠ .closing)) := by
  obtain ⟨finish, hfinish, hvisited⟩ := exists_of_visited (g := g) hknown hspans
  refine ⟨finish, hfinish, ?_⟩
  intro i e he
  obtain ⟨hremaining, ⟨waiting, hwaiting, -⟩, s, popped, hs, hmoved⟩ := hvisited i e he
  refine ⟨hremaining, waiting, hwaiting, ?_⟩
  have hread := perm_consumeAll
    (fun t ht => ne_finish_of_knows (hknown t (List.mem_of_mem_take ht))) hs
  have hall := hmoved.perm.trans hread
  -- the beginning of the line stands on both sides
  have hstart : (waiting ++ [Token.start] ++ e.output).Perm
      (Token.start :: (waiting ++ e.output)) := by
    rw [List.append_assoc]
    exact List.perm_middle
  rw [hwaiting] at hall
  exact List.perm_append_comm.trans (hstart.symm.trans hall).cons_inv

/-! ## §2 The order of the identifiers -/

/-- The identifiers of a list. -/
def identifiers (ts : List Token) : List Token :=
  ts.filter (·.kind = .identifier)

theorem identifiers_append (ts us : List Token) :
    identifiers (ts ++ us) = identifiers ts ++ identifiers us :=
  List.filter_append ts us

theorem identifiers_eq_nil {ts : List Token} (h : ∀ t ∈ ts, t.kind ≠ .identifier) :
    identifiers ts = [] := by
  rw [identifiers, List.filter_eq_nil_iff]
  simpa using h

namespace Stacks

variable {s s' : Stacks} {t : Token} {ts : List Token}

/-- No identifier waits. -/
theorem Seated.kind_ne_identifier {operators : List Token} (h : Seated g operators) :
    ∀ p ∈ operators, p.kind ≠ .identifier := by
  obtain ⟨above, rfl, habove⟩ := h
  intro p hp
  rcases List.mem_append.mp hp with hp | hp
  · rcases (habove p hp).1.kind with hk | hk | hk
    · intro hid
      simp [hid, Kind.isOperation] at hk
    · simp [hk]
    · simp [hk]
  · rw [List.mem_singleton.mp hp]
    decide

/-- Operators that go to the output bring no identifier there. -/
theorem Seated.identifiers_of_moved {popped : List Token} (h : Seated g s.operators)
    (hmoved : Moved s s' popped) :
    identifiers s'.output.reverse = identifiers s.output.reverse := by
  have hpopped : identifiers popped = [] := by
    apply identifiers_eq_nil
    intro p hp
    exact h.kind_ne_identifier p (by simp [hmoved.1, hp])
  rw [hmoved.2, List.reverse_append, List.reverse_reverse, identifiers_append, hpopped,
    List.append_nil]

/-- An identifier goes to the end of the output, and no other token brings one there. -/
theorem Seated.identifiers_consume (h : Seated g s.operators)
    (hstep : s.consume g t = (s', none)) :
    identifiers s'.output.reverse = identifiers s.output.reverse ++ identifiers [t] := by
  have hother (hk : t.kind ≠ .identifier) : identifiers [t] = [] :=
    identifiers_eq_nil (by simpa using hk)
  cases takes_of_consume hstep with
  | identifier => rw [List.reverse_cons, identifiers_append]
  | opening hk => rw [hother (by simp [hk]), List.append_nil]
  | operation hop _ hmoved _ =>
    have hk : t.kind ≠ .identifier := by
      intro hk
      simp [hk, Kind.isOperation] at hop
    have hsent := h.identifiers_of_moved hmoved
    rw [hother hk, List.append_nil]
    exact hsent
  | closing hk hmoved _ | finish hk hmoved _ =>
    rw [hother (by simp [hk]), List.append_nil]
    exact h.identifiers_of_moved hmoved

theorem Seated.identifiers_consumeAll (h : Seated g s.operators) (hts : ∀ t ∈ ts, g.Knows t)
    (hread : s.consumeAll g ts = (s', none)) :
    identifiers s'.output.reverse = identifiers s.output.reverse ++ identifiers ts := by
  induction ts generalizing s with
  | nil =>
    rw [Stacks.consumeAll, Prod.mk.injEq] at hread
    rw [hread.1]
    exact (List.append_nil _).symm
  | cons t ts ih =>
    obtain ⟨s₁, hstep, hrest⟩ := exists_of_consumeAll_cons hread
    have hothers :=
      ih (h.consume (hts t (by simp)) hstep) (fun u hu => hts u (by simp [hu])) hrest
    rw [hothers, h.identifiers_consume hstep, List.append_assoc, ← identifiers_append,
      List.singleton_append]

end Stacks

/-- **The identifiers come out of a run in their order.** -/
theorem identifiers_runFresh {postfixed : List Token} (hknown : ∀ t ∈ tokens, g.Knows t)
    (hspans : ∀ t ∈ tokens, t.Spanned) (h : (g.runFresh tokens).result = .ok postfixed) :
    identifiers postfixed = identifiers tokens := by
  obtain ⟨-, ops, out, hread, rfl⟩ := exists_of_runFresh hknown hspans h
  have hseated : Seated g (ops ++ [.start]) :=
    Seated.consumeAll (s := {}) seated_start hknown hread
  -- what still waits is no identifier
  have hops : identifiers ops = [] :=
    identifiers_eq_nil fun p hp => hseated.kind_ne_identifier p (by simp [hp])
  have hout := Seated.identifiers_consumeAll (s := {}) seated_start hknown hread
  rw [identifiers_append, hops, List.append_nil]
  exact hout

/-! ## §3 The identifiers of a tree -/

/-- A token with operands is no identifier. -/
theorem identifiers_singleton {t : Token} (h : t.arity ≠ 0) : identifiers [t] = [] := by
  apply identifiers_eq_nil
  intro x hx hk
  rw [List.mem_singleton.mp hx] at hk
  exact h (arity_identifier hk)

/-- A node comes before its subtrees in a walk and behind them in the postfix order, but then it
is no identifier. -/
theorem identifiers_walk (t : Tree) :
    identifiers (t.walk.map Tree.token) = identifiers t.postorder := by
  rw [Tree.walk_eq_preorder]
  induction t with
  | leaf t harity => rfl
  | unary t harity a ih =>
    have hroot : identifiers [t] = [] := identifiers_singleton (by simp [harity])
    rw [Tree.preorder, List.map_cons, Tree.token, ← List.singleton_append, Tree.postorder,
      identifiers_append, identifiers_append, ih, hroot, List.nil_append, List.append_nil]
  | binary t harity a b iha ihb =>
    have hroot : identifiers [t] = [] := identifiers_singleton (by simp [harity])
    rw [Tree.preorder, List.map_cons, List.map_append, Tree.token, ← List.singleton_append,
      Tree.postorder, identifiers_append, identifiers_append, identifiers_append,
      identifiers_append, iha, ihb, hroot, List.nil_append, List.append_nil]

/-! ## §4 From the line to the tree -/

/-- The tokens of a line are numbered from left to right. -/
theorem Grammar.pairwise_indices {line : String} (h : g.tokenize line = .ok tokens) :
    tokens.Pairwise (·.index < ·.index) := by
  rw [← List.pairwise_map (f := Token.index) (R := (· < ·)), Grammar.indices_locate h,
    List.pairwise_map]
  exact List.Pairwise.imp Int.ofNat_lt.mpr List.pairwise_lt_range'

/-- **No token is lost, doubled or made up.** Every line has tokens. In each state that a fresh
run over them shows, the stacks without the beginning of the line hold the tokens that are no
longer in the stream, closing brackets and the end of the line aside. If the line has a tree, its
nodes are the tokens of the line without the closing brackets, and a walk over it meets the
identifiers from left to right. -/
theorem parse_conserves (g : Grammar) (line : String) :
    ∃ tokens finish, g.tokenize line = .ok tokens ∧ finish.toLexeme = Token.finish.toLexeme ∧
      (∀ (i : Nat) (e : Engine), (g.runFresh tokens).visited[i]? = some e →
        e.stream.remaining = (tokens ++ [finish]).drop i ∧
          ∃ waiting, e.operators = waiting ++ [.start] ∧
            (e.output ++ waiting).Perm ((tokens.take i).filter (·.kind ≠ .closing))) ∧
      ∀ t, g.parse line = .ok t →
        (t.walk.map Tree.token).Perm (tokens.filter (·.kind ≠ .closing)) ∧
          (identifiers (t.walk.map Tree.token)).Pairwise (·.index < ·.index) := by
  obtain ⟨tokens, htokens⟩ := g.exists_tokenize line
  have hknown := Grammar.tokenize_knows htokens
  have hspans := Grammar.tokenize_spans htokens
  obtain ⟨finish, hfinish, hstates⟩ := perm_of_visited hknown hspans
  refine ⟨tokens, finish, htokens, hfinish, hstates, ?_⟩
  intro t ht
  rw [Grammar.parse, htokens] at ht
  have hrun := (parseTokens_eq_ok_iff.mp ht).1
  refine ⟨t.perm_postorder.trans (perm_runFresh hknown hspans hrun), ?_⟩
  rw [identifiers_walk, identifiers_runFresh hknown hspans hrun]
  exact (Grammar.pairwise_indices htokens).filter _

/-- Nothing is lost of `x + ( y * - z )`, though the sign sends the product out of its bracket. -/
theorem parse_conserves_escape :
    (escapeTree.walk.map Tree.token).Perm (escapeTokens.filter (·.kind ≠ .closing)) ∧
      (identifiers (escapeTree.walk.map Tree.token)).Pairwise (·.index < ·.index) := by
  obtain ⟨tokens, -, htokens, -, -, htree⟩ := parse_conserves looseSign "x + ( y * - z )"
  obtain rfl : escapeTokens = tokens := Except.ok.inj (tokenize_escape.symm.trans htokens)
  exact htree _ parse_escape

end Fixity
