import Fixity.Proofs.Parse.Soundness
import Fixity.Proofs.Pieces.Split

/-!
# Completeness of parsing

A tree is written as the line of its symbols in order, without a bracket that it does not have.
If precedence is respected at every node, parsing the line gives the tree back. So no two such
trees are written the same way.

## Main statements

- `lexemes_tokenize_line`: the tokens of a written tree are those of the tree in order
- `parse_line`: parsing undoes writing
-/

namespace Fixity

variable {g : Grammar} {t : Tree}

/-! ## §1 Symbols that are read as they are written -/

namespace Grammar

theorem Spells.legible {x : Token} (h : g.Spells x) : g.Legible x := by
  unfold Spells at h
  split at h
  · next hk =>
    obtain ⟨hsymbol, hno⟩ := h
    refine ⟨⟨hsymbol, fun r hr => .inr (hno r hr)⟩, ?_⟩
    -- a symbol of the grammar would be a part of itself
    have hlookup : g.lookup? x.symbol = none := by
      rw [Option.eq_none_iff_forall_ne_some]
      intro s hs
      obtain ⟨hmem, heq⟩ := lookup?_eq_some_iff.mp hs
      exact hno s hmem (heq ▸ List.infix_refl _)
    rw [classify, hlookup, Option.getD_none, ← hk]
    rfl
  · exact h.2.legible

end Grammar

/-- In order there are only tokens of nodes and the partners of brackets. -/
theorem legible_inorder (h : ∀ n ∈ t.walk, g.Spells n.token) :
    ∀ x ∈ t.inorder g, g.Legible x := by
  induction t with
  | leaf t harity =>
    intro x hx
    rw [Tree.inorder, List.mem_singleton] at hx
    have hspell : g.Spells t := Tree.forall_mem_walk_leaf.mp h
    rw [hx]
    exact hspell.legible
  | unary t harity a ih =>
    obtain ⟨(hspell : g.Spells t), hsa⟩ := Tree.forall_mem_walk_unary.mp h
    have ha := ih hsa
    intro x hx
    rw [Tree.inorder] at hx
    split at hx
    · next hk =>
      rcases List.mem_cons.mp hx with rfl | hx
      · exact hspell.legible
      · rcases List.mem_append.mp hx with hx | hx
        · exact ha x hx
        · -- the partner is a token of the grammar as well
          obtain ⟨c, hc, hclose⟩ := hspell.exists_partner hk
          rw [hc, Option.toList_some, List.mem_singleton] at hx
          rw [hx]
          exact hclose.registers_closing.legible
    · rcases List.mem_cons.mp hx with rfl | hx
      · exact hspell.legible
      · exact ha x hx
  | binary t harity a b iha ihb =>
    obtain ⟨(hspell : g.Spells t), hsa, hsb⟩ := Tree.forall_mem_walk_binary.mp h
    have ha := iha hsa
    have hb := ihb hsb
    intro x hx
    rw [Tree.inorder] at hx
    rcases List.mem_append.mp hx with hx | hx
    · exact ha x hx
    · rcases List.mem_cons.mp hx with rfl | hx
      · exact hspell.legible
      · exact hb x hx

/-! ## §2 The line of a tree -/

/-- The symbols of a tree in order, with single spaces between them. -/
def Tree.line (g : Grammar) (t : Tree) : String :=
  " ".intercalate ((t.inorder g).map (·.symbol))

theorem lexemes_tokenize_line (h : ∀ n ∈ t.walk, g.Spells n.token) {tokens : List Token}
    (htokens : g.tokenize (t.line g) = .ok tokens) :
    tokens.map (·.toLexeme) = (t.inorder g).map (·.toLexeme) := by
  have hlegible := legible_inorder h
  have hsplit : g.split (t.line g) = (t.inorder g).map (·.symbol) := by
    apply Grammar.split_intercalate
    intro p hp
    obtain ⟨x, hx, rfl⟩ := List.mem_map.mp hp
    exact (hlegible x hx).1
  exact Grammar.lexemes_of_legible hlegible hsplit htokens

/-! ## §3 Parsing undoes writing -/

theorem exists_parse_line (few : g.classes.length < Grammar.bracketRank)
    (h : ∀ n ∈ t.walk, g.Spells n.token) (ht : g.Respects t) :
    ∃ t', g.parse (t.line g) = .ok t' ∧ t'.unplaced = t.unplaced := by
  obtain ⟨tokens, htokens⟩ := g.exists_tokenize (t.line g)
  obtain ⟨t', hreads, hplaces⟩ := exists_reads h (lexemes_tokenize_line h htokens)
  -- precedence does not depend on places
  have hrespects : g.Respects t' := by
    rw [← respects_unplaced, hplaces, respects_unplaced]
    exact ht
  refine ⟨t', ?_, hplaces⟩
  have hknown := Grammar.tokenize_knows htokens
  rw [Grammar.parse, htokens]
  exact parseTokens_of_respects hreads hrespects (fun x hx => (hknown x hx).supports few)
    (Grammar.tokenize_spans htokens)

/-- **Parsing undoes writing.** A tree of symbols of the grammar and of identifiers that respects
precedence is what its line is parsed to, but for the places, and no other such tree has its
symbols in the same order. -/
theorem parse_line (few : g.classes.length < Grammar.bracketRank)
    (h : ∀ n ∈ t.walk, g.Spells n.token) (ht : g.Respects t) :
    (∃ t', g.parse (t.line g) = .ok t' ∧ t'.unplaced = t.unplaced) ∧
      ∀ u : Tree, (∀ n ∈ u.walk, g.Spells n.token) → g.Respects u →
        (u.inorder g).map (·.symbol) = (t.inorder g).map (·.symbol) →
          u.unplaced = t.unplaced := by
  obtain ⟨t', ht', hplaces⟩ := exists_parse_line few h ht
  refine ⟨⟨t', ht', hplaces⟩, ?_⟩
  intro u hu hru hsymbols
  obtain ⟨u', hu', huplaces⟩ := exists_parse_line few hu hru
  -- both trees are parsed from one line
  have hline : u.line g = t.line g := by rw [Tree.line, hsymbols, Tree.line]
  rw [hline, ht'] at hu'
  rw [← huplaces, ← Except.ok.inj hu', hplaces]

theorem parse_line_signedProductTree :
    ∃ t', arithmetic.parse (signedProductTree.line arithmetic) = .ok t' ∧
      t'.unplaced = signedProductTree.unplaced := by
  have hspells : ∀ n ∈ signedProductTree.walk, arithmetic.Spells n.token := by
    rw [Tree.walk_eq_preorder]
    decide
  have hrespects : arithmetic.Respects signedProductTree := by
    rw [Grammar.Respects, Tree.walk_eq_preorder]
    decide
  exact (parse_line (by decide) hspells hrespects).1

end Fixity
