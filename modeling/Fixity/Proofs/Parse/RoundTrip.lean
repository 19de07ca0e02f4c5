import Fixity.Proofs.Parse.Brackets
import Fixity.Proofs.Parse.Completeness
import Fixity.Proofs.Pieces.Split
import Fixity.Proofs.Tree.Enclosed
import Fixity.Tree.Bracketed

/-!
# Printing and parsing again

A printer puts brackets around every operation, so what it prints is read back whatever the
grammar says about precedence: the tree comes back with every operation in a bracket. Every tree
that was parsed can be printed, as its tokens are those of the line.

## Main statements

- `print_eq_line`: what is printed is the line of the tree with its operations in brackets
- `spells_parse`: the tokens of a parsed tree can be printed
- `parse_print`: printing and parsing again puts brackets around the operations
-/

namespace Fixity

variable {g : Grammar} {t : Token} {a b : Tree}

/-! ## §1 Joined lines -/

/-- Joining some of the items beforehand makes no difference. -/
theorem intercalate_append_intercalate {sep : String} (xs zs : List String) {ys : List String}
    (hys : ys ≠ []) :
    sep.intercalate (xs ++ sep.intercalate ys :: zs) = sep.intercalate (xs ++ ys ++ zs) := by
  induction xs with
  | nil =>
    by_cases hzs : zs = []
    · simp [hzs]
    · rw [List.nil_append, List.nil_append, String.intercalate_cons_of_ne_nil hzs,
        String.intercalate_append_of_ne_nil hys hzs]
  | cons x xs ih =>
    rw [List.cons_append, List.cons_append, List.cons_append,
      String.intercalate_cons_of_ne_nil (by simp),
      String.intercalate_cons_of_ne_nil (by simp [hys]), ih]

namespace Tree

theorem inorder_ne_nil (g : Grammar) (t : Tree) : t.inorder g ≠ [] := by
  cases t with
  | leaf t h => simp [inorder]
  | unary t h a =>
    rw [inorder]
    split <;> simp
  | binary t h a b => simp [inorder]

/-- Among joined symbols the line of a tree stands for the symbols of the tree. -/
theorem intercalate_line (xs zs : List String) :
    " ".intercalate (xs ++ a.line g :: zs) =
      " ".intercalate (xs ++ (a.inorder g).map (·.symbol) ++ zs) :=
  intercalate_append_intercalate xs zs (by simpa using inorder_ne_nil g a)

theorem line_unary {h : t.arity = 1} (hk : t.kind = .unary) :
    (unary t h a).line g = " ".intercalate [t.symbol, a.line g] := by
  have hoperand := intercalate_line (g := g) (a := a) [t.symbol] []
  simpa [line, inorder, hk] using hoperand.symm

theorem line_opening {h : t.arity = 1} (hk : t.kind = .opening) {c : Token}
    (hc : g.closingFor? t = some c) :
    (unary t h a).line g = " ".intercalate [t.symbol, a.line g, c.symbol] := by
  have hcontent := intercalate_line (g := g) (a := a) [t.symbol] [c.symbol]
  simpa [line, inorder, hk, hc] using hcontent.symm

theorem line_binary {h : t.arity = 2} :
    (binary t h a b).line g = " ".intercalate [a.line g, t.symbol, b.line g] := by
  have hleft := intercalate_line (g := g) (a := a) [] [t.symbol, b.line g]
  have hright := intercalate_line (g := g) (a := b) ((a.inorder g).map (·.symbol) ++ [t.symbol]) []
  rw [List.nil_append] at hleft
  rw [hleft, line, inorder]
  simpa using hright.symm

end Tree

/-! ## §2 What is printed -/

open Fixity.Tree

section Brackets

variable {b : BracketPair}

/-- A bracket of the grammar is closed by its partner, wherever it stands. -/
theorem closingFor?_ofKind (hb : b ∈ g.brackets) :
    g.closingFor? (Token.ofKind .opening b.opening.symbol) = some b.closing := by
  rw [toLexeme_ofKind (Grammar.kind_opening hb), Grammar.closingFor?_eq hb]

theorem spells_ofKind (hb : b ∈ g.brackets) : g.Spells (.ofKind .opening b.opening.symbol) := by
  refine ⟨nofun, b.opening, Grammar.mem_tokens.mpr (.inr ⟨b, hb, .inl rfl⟩), ?_⟩
  exact (toLexeme_ofKind (Grammar.kind_opening hb)).symm

theorem line_inBracket (hb : b ∈ g.brackets) :
    (a.inBracket b.opening.symbol).line g =
      " ".intercalate [b.opening.symbol, a.line g, b.closing.symbol] :=
  line_opening rfl (closingFor?_ofKind hb)

theorem line_inBracket_unary (hb : b ∈ g.brackets) {h : t.arity = 1} (hk : t.kind = .unary) :
    ((unary t h a).inBracket b.opening.symbol).line g =
      " ".intercalate [b.opening.symbol, t.symbol, a.line g, b.closing.symbol] := by
  rw [line_inBracket hb, line_unary hk]
  exact intercalate_append_intercalate [b.opening.symbol] [b.closing.symbol] (by simp)

theorem line_inBracket_binary (hb : b ∈ g.brackets) {h : t.arity = 2} {x y : Tree} :
    ((binary t h x y).inBracket b.opening.symbol).line g =
      " ".intercalate [b.opening.symbol, x.line g, t.symbol, y.line g, b.closing.symbol] := by
  rw [line_inBracket hb, line_binary]
  exact intercalate_append_intercalate [b.opening.symbol] [b.closing.symbol] (by simp)

/-- **What is printed is the line of the tree with its operations in brackets.** -/
theorem print_eq_line (hb : b ∈ g.brackets) {t : Tree} (h : ∀ n ∈ t.walk, g.Spells n.token) :
    (Printer.mk g b).print t = .ok ((t.enclosed b.opening.symbol).line g) := by
  rw [Printer.print, fold?_eq_foldM]
  induction t with
  | leaf t harity =>
    have hspell : g.Spells t := forall_mem_walk_leaf.mp h
    simp [foldM, Printer.node, token, hspell.kind_of_leaf harity, enclosed, line, inorder]
  | unary t harity a ih =>
    obtain ⟨(hspell : g.Spells t), ha⟩ := forall_mem_walk_unary.mp h
    rw [foldM, ih ha]
    rcases kind_of_arity_one harity with hk | hk
    · rw [enclosed_unary hk, line_inBracket_unary hb hk]
      simp [bind, Except.bind, Printer.node, token, hk]
    · -- a bracket has its own partner
      obtain ⟨c, hc, -⟩ := hspell.exists_partner hk
      rw [enclosed_opening hk, line_opening hk hc]
      simp [bind, Except.bind, Printer.node, token, hk, hc]
  | binary t harity x y ihx ihy =>
    obtain ⟨-, hx, hy⟩ := forall_mem_walk_binary.mp h
    rw [foldM, ihx hx, ihy hy, enclosed, line_inBracket_binary hb]
    simp [bind, Except.bind, Printer.node, token, kind_of_arity_two harity]

end Brackets

/-! ## §3 Parsed trees can be printed -/

/-- A piece that is no closing bracket stands for a token that can be printed. -/
theorem spells_classify {piece : String} (h : g.IsPiece piece)
    (hk : (g.classify piece).kind ≠ .closing) : g.Spells (g.classify piece) := by
  cases hlookup : g.lookup? piece with
  | none =>
    have ht : g.classify piece = .ofKind .identifier piece := by simp [Grammar.classify, hlookup]
    have hid : (Token.ofKind .identifier piece).kind = .identifier := rfl
    rw [ht, Grammar.Spells, if_pos hid]
    refine ⟨h.1, ?_⟩
    intro s hs hpart
    -- what holds a symbol is that symbol, and would have been found
    have hsymbol : s.symbol = piece := by
      rcases h.2 s hs with heq | hno
      · exact (String.toList_injective heq).symm
      · exact absurd hpart hno
    rw [Grammar.lookup?_eq_some_iff.mpr ⟨hs, hsymbol⟩] at hlookup
    cases hlookup
  | some t =>
    have ht : g.classify piece = t := by simp [Grammar.classify, hlookup]
    have hreg : g.Registers t := ⟨t, (Grammar.lookup?_eq_some_iff.mp hlookup).1, rfl⟩
    have hid : t.kind ≠ .identifier := by
      intro hid
      rcases hreg.kind with hk | hk | hk <;> simp [hid, Kind.isOperation] at hk
    rw [ht] at hk ⊢
    rw [Grammar.Spells, if_neg hid]
    exact ⟨hk, hreg⟩

/-- Of the tokens of a line all but the closing brackets can be printed. -/
theorem spells_tokenize {line : String} {tokens : List Token}
    (htokens : g.tokenize line = .ok tokens) :
    ∀ x ∈ tokens, x.kind ≠ .closing → g.Spells x := by
  intro x hx hk
  obtain ⟨hpiece, hclassify⟩ := Grammar.legible_tokenize htokens x hx
  rw [← hclassify] at hk
  -- where the token stands does not matter
  have hspells := spells_classify hpiece hk
  unfold Grammar.Spells at hspells ⊢
  rwa [hclassify] at hspells

/-- **A tree that was parsed can be printed.** -/
theorem spells_parse {line : String} {t : Tree} (ht : g.parse line = .ok t) :
    ∀ n ∈ t.walk, g.Spells n.token := by
  obtain ⟨tokens, htokens⟩ := g.exists_tokenize line
  rw [Grammar.parse, htokens] at ht
  have hperm := perm_runFresh (Grammar.tokenize_knows htokens) (Grammar.tokenize_spans htokens)
    (parseTokens_eq_ok_iff.mp ht).1
  intro n hn
  -- the tokens of the tree are tokens of the line
  have hmem := hperm.mem_iff.mp (t.perm_postorder.mem_iff.mp (List.mem_map_of_mem hn))
  obtain ⟨hline, hk⟩ := List.mem_filter.mp hmem
  exact spells_tokenize htokens _ hline (by simpa using hk)

/-! ## §4 The round trip -/

/-- The tree is printed, and what is printed is parsed to the tree with its operations in the
brackets of the printer. Without brackets both trees are the same. -/
def Printer.RoundTrips (p : Printer) (t : Tree) : Prop :=
  ∃ text t', p.print t = .ok text ∧ p.grammar.parse text = .ok t' ∧
    t'.unplaced = (t.enclosed p.brackets.opening.symbol).unplaced ∧
      ∃ bare bare', t.unbracketed = .ok bare ∧ t'.unbracketed = .ok bare' ∧
        bare'.unplaced = bare.unplaced

theorem roundTrips_of_spells (few : g.classes.length < Grammar.bracketRank) {b : BracketPair}
    (hb : b ∈ g.brackets) {t : Tree} (h : ∀ n ∈ t.walk, g.Spells n.token) :
    (Printer.mk g b).RoundTrips t := by
  obtain ⟨t', ht', hplaces⟩ := exists_parse_line few (spells_enclosed (spells_ofKind hb) h)
    (respects_enclosed t)
  refine ⟨_, t', print_eq_line hb h, ht', hplaces, t.stripped, t'.stripped,
    unbracketed_eq_stripped t, unbracketed_eq_stripped t', ?_⟩
  rw [← stripped_unplaced, hplaces, stripped_unplaced, stripped_enclosed]

/-- **Printing and parsing again puts brackets around the operations**, and changes nothing else.
A grammar with brackets has a printer, which uses the first of them. What is said holds of every
tree of symbols of the grammar and of identifiers, whatever its precedence, and every tree that
was parsed is one. -/
theorem parse_print (few : g.classes.length < Grammar.bracketRank) {b : BracketPair}
    {bs : List BracketPair} (hbrackets : g.brackets = b :: bs) :
    g.printer? = .ok ⟨g, b⟩ ∧
      (∀ t : Tree, (∀ n ∈ t.walk, g.Spells n.token) → (Printer.mk g b).RoundTrips t) ∧
        ∀ (line : String) (t : Tree), g.parse line = .ok t →
          (∀ n ∈ t.walk, g.Spells n.token) ∧ (Printer.mk g b).RoundTrips t := by
  have hb : b ∈ g.brackets := by simp [hbrackets]
  have hround := fun (t : Tree) (h : ∀ n ∈ t.walk, g.Spells n.token) =>
    roundTrips_of_spells few hb h
  refine ⟨by rw [Grammar.printer?, hbrackets], hround, ?_⟩
  intro line t ht
  exact ⟨spells_parse ht, hround t (spells_parse ht)⟩

/-- The tree of `x + ( y * - z )`, whose product has left the bracket, is printed as
`( ( x * y ) + ( ( - z ) ) )` and comes back. -/
theorem parse_print_escape :
    ∃ t', looseSign.parse "( ( x * y ) + ( ( - z ) ) )" = .ok t' ∧
      t'.unplaced = (escapeTree.enclosed "(").unplaced := by
  obtain ⟨-, -, htrees⟩ := parse_print (g := looseSign) (by decide) rfl
  obtain ⟨-, text, t', htext, ht', hplaces, -⟩ := htrees _ _ parse_escape
  have hprint : Printer.print ⟨looseSign, ⟨.ofKind .opening "(", .ofKind .closing ")"⟩⟩ escapeTree =
      .ok "( ( x * y ) + ( ( - z ) ) )" := by
    rw [Printer.print, fold?_eq_foldM]
    decide
  obtain rfl := Except.ok.inj (hprint.symm.trans htext)
  exact ⟨t', ht', hplaces⟩

end Fixity
