import Fixity.Proofs.Grammar.Agreement
import Fixity.Proofs.Grammar.Tables
import Fixity.Proofs.Parse.Soundness

/-!
# Which lists make up a grammar

A grammar is built from three lists: the operations class by class, the associativities of the
classes, and the pairs of brackets. Each symbol is compared with those before it only, in between
the checks of classes and of pairs, and the first fault ends the building. Still the order decides
only which fault is found: lists are refused iff something is wrong with them as a whole. Where
they are not refused, the grammar answers by the places of its tokens in these lists.

## Main statements

- `exists_fault_iff_faulty`: exactly the faulty lists are refused
- `tabulates_of_ofLists?`: the grammar that is built knows what the lists say
- `ofLists?_refuses_or_tabulates`: both, and the tables filled on the way hold the same answers
-/

namespace Fixity

variable {precedences : List (List Token)} {associativities : List Associativity}
  {brackets : List BracketPair} {g : Grammar}

/-! ## §1 Faulty lists -/

/-- All tokens that are listed: the members of the classes, then both brackets of every pair. -/
def listed (precedences : List (List Token)) (brackets : List BracketPair) : List Token :=
  precedences.flatten ++ brackets.flatMap fun b => [b.opening, b.closing]

/-- What can be wrong with the lists of a grammar. -/
inductive Faulty (precedences : List (List Token)) (associativities : List Associativity)
    (brackets : List BracketPair) : Prop where
  /-- The classes are more or fewer than their associativities. -/
  | count : precedences.length ≠ associativities.length →
      Faulty precedences associativities brackets
  /-- A class lists nothing. -/
  | emptyClass : [] ∈ precedences → Faulty precedences associativities brackets
  /-- A member of a class is neither a unary nor a binary operation. -/
  | member {operations : List Token} {t : Token} : operations ∈ precedences → t ∈ operations →
      t.kind ≠ .unary → t.kind ≠ .binary → Faulty precedences associativities brackets
  /-- A pair does not consist of an opening and a closing bracket. -/
  | pair {b : BracketPair} : b ∈ brackets →
      ¬ (b.opening.kind = .opening ∧ b.closing.kind = .closing) →
      Faulty precedences associativities brackets
  /-- A symbol is empty or holds a blank. -/
  | symbol {t : Token} : t ∈ listed precedences brackets →
      (t.symbol = "" ∨ ∃ c ∈ t.symbol.toList, Text.isBlank c = true) →
      Faulty precedences associativities brackets
  /-- One of two listed symbols is a part of the other one. -/
  | overlap {i j : Nat} {s t : Token} : i ≠ j → (listed precedences brackets)[i]? = some s →
      (listed precedences brackets)[j]? = some t → s.symbol.toList <:+: t.symbol.toList →
      Faulty precedences associativities brackets

theorem isOperation_iff {k : Kind} : k.isOperation = true ↔ k = .unary ∨ k = .binary := by
  cases k <;> simp [Kind.isOperation]

theorem not_isSymbol_iff {s : String} :
    ¬ IsSymbol s ↔ s = "" ∨ ∃ c ∈ s.toList, Text.isBlank c = true := by
  simp only [IsSymbol, not_and_or, not_not, not_forall, exists_prop, Bool.not_eq_false]

/-- Comparing each token with those before it compares any two tokens. -/
theorem pairwise_apart_iff {tokens : List Token} :
    (tokens.Pairwise fun s t => ¬ Overlap s.symbol t.symbol) ↔
      ∀ (i j : Nat) (s t : Token), i ≠ j → tokens[i]? = some s → tokens[j]? = some t →
        ¬ s.symbol.toList <:+: t.symbol.toList := by
  rw [List.pairwise_iff_getElem]
  constructor
  · intro h i j s t hne hs ht hpart
    obtain ⟨hi, rfl⟩ := List.getElem?_eq_some_iff.mp hs
    obtain ⟨hj, rfl⟩ := List.getElem?_eq_some_iff.mp ht
    rcases Nat.lt_or_gt_of_ne hne with hlt | hgt
    · exact h i j hi hj hlt (.inl hpart)
    · exact h j i hj hi hgt (.inr hpart)
  · intro h i j hi hj hlt hoverlap
    have hs := List.getElem?_eq_getElem hi
    have ht := List.getElem?_eq_getElem hj
    rcases hoverlap with hpart | hpart
    · exact h i j _ _ (by omega) hs ht hpart
    · exact h j i _ _ (by omega) ht hs hpart

theorem map_operations_zipWith (h : precedences.length = associativities.length) :
    (associativities.zipWith PrecedenceClass.mk precedences).map (·.operations) = precedences := by
  rw [List.map_zipWith]
  apply List.ext_getElem
  · simp [h]
  · intro i hi hi'
    simp

theorem enrolled_zipWith (h : precedences.length = associativities.length) :
    enrolled (associativities.zipWith PrecedenceClass.mk precedences) brackets =
      listed precedences brackets := by
  rw [enrolled, listed, List.flatMap_def, map_operations_zipWith h]

theorem wellFormed_zipWith_iff (h : precedences.length = associativities.length) :
    WellFormed (associativities.zipWith PrecedenceClass.mk precedences) brackets ↔
      ¬ Faulty precedences associativities brackets := by
  have hclasses : ∀ p : List Token → Prop,
      (∀ c ∈ associativities.zipWith PrecedenceClass.mk precedences, p c.operations) ↔
        ∀ operations ∈ precedences, p operations := by
    intro p
    have hmap := map_operations_zipWith h
    conv_rhs => rw [← hmap, List.forall_mem_map]
  constructor
  · rintro ⟨hinhabited, hoperations, hpairs, hdistinct⟩ hfaulty
    rw [hclasses fun operations => operations ≠ []] at hinhabited
    rw [hclasses fun operations => ∀ t ∈ operations, t.kind.isOperation = true] at hoperations
    rw [enrolled_zipWith h] at hdistinct
    cases hfaulty with
    | count hne => exact hne h
    | emptyClass hmem => exact hinhabited [] hmem rfl
    | member hmem ht hunary hbinary =>
      exact (isOperation_iff.mp (hoperations _ hmem _ ht)).elim hunary hbinary
    | pair hb hkinds => exact hkinds (hpairs _ hb)
    | symbol ht hbad => exact not_isSymbol_iff.mpr hbad (hdistinct.symbols _ ht)
    | overlap hne hs ht hpart =>
      exact pairwise_apart_iff.mp hdistinct.apart _ _ _ _ hne hs ht hpart
  · intro hfaultless
    refine ⟨?_, ?_, ?_, ?_⟩
    · rw [hclasses fun operations => operations ≠ []]
      rintro operations hmem rfl
      exact hfaultless (.emptyClass hmem)
    · rw [hclasses fun operations => ∀ t ∈ operations, t.kind.isOperation = true]
      intro operations hmem t ht
      by_contra hk
      obtain ⟨hunary, hbinary⟩ := not_or.mp (mt isOperation_iff.mpr hk)
      exact hfaultless (.member hmem ht hunary hbinary)
    · intro b hb
      by_contra hkinds
      exact hfaultless (.pair hb hkinds)
    · rw [enrolled_zipWith h]
      constructor
      · intro t ht
        by_contra hbad
        exact hfaultless (.symbol ht (not_isSymbol_iff.mp hbad))
      · rw [pairwise_apart_iff]
        intro i j s t hne hs ht hpart
        exact hfaultless (.overlap hne hs ht hpart)

namespace Grammar

/-- **Exactly the faulty lists are refused.** -/
theorem exists_fault_iff_faulty :
    (∃ f, ofLists? precedences associativities brackets = .error f) ↔
      Faulty precedences associativities brackets := by
  unfold ofLists?
  split
  · next h =>
    rw [← not_iff_not, ← wellFormed_zipWith_iff h, ← exists_build?_eq_ok_iff]
    cases build? (associativities.zipWith PrecedenceClass.mk precedences) brackets with
    | error f => simp
    | ok g => simp
  · next h => exact ⟨fun _ => .count h, fun _ => ⟨_, rfl⟩⟩

/-! ## §2 What the grammar of faultless lists knows -/

/-- The grammar answers by the places of the tokens in the lists. -/
structure Tabulates (precedences : List (List Token)) (associativities : List Associativity)
    (brackets : List BracketPair) (g : Grammar) : Prop where
  /-- A symbol stands for the token that is listed with it. -/
  lookup : ∀ symbol t, g.lookup? symbol = some t ↔
    t ∈ listed precedences brackets ∧ t.symbol = symbol
  /-- Other texts stand for nothing. -/
  lookup_none : ∀ symbol, g.lookup? symbol = none ↔
    ∀ t ∈ listed precedences brackets, t.symbol ≠ symbol
  /-- The symbols are those of the listed tokens. -/
  symbols : ∀ symbol, symbol ∈ g.symbols ↔ ∃ t ∈ listed precedences brackets, t.symbol = symbol
  /-- No operation has the symbol of a bracket. -/
  disjoint : ∀ t ∈ precedences.flatten, ∀ b ∈ brackets,
    t.symbol ≠ b.opening.symbol ∧ t.symbol ≠ b.closing.symbol
  /-- The members of a class have its position for their rank, and its associativity. -/
  ranked : ∀ (i : Nat) (operations : List Token) (a : Associativity),
    precedences[i]? = some operations → associativities[i]? = some a →
    ∀ t ∈ operations, g.rank? t = some i ∧ g.associativity? t = some a
  /-- Exactly the opening brackets have a closing one, that of their pair. -/
  closing : ∀ o c, g.closingFor? o = some c ↔
    ∃ b ∈ brackets, b.opening.toLexeme = o ∧ b.closing = c
  /-- Exactly the closing brackets have an opening one, that of their pair. -/
  opening : ∀ c o, g.openingFor? c = some o ↔
    ∃ b ∈ brackets, b.closing.toLexeme = c ∧ b.opening = o
  /-- Between the brackets of the pairs the two are inverse to each other. -/
  inverse : ∀ a ∈ brackets, ∀ b ∈ brackets,
    g.closingFor? a.opening = some b.closing ↔ g.openingFor? b.closing = some a.opening

theorem lists_of_ofLists? (h : ofLists? precedences associativities brackets = .ok g) :
    g.classes = associativities.zipWith PrecedenceClass.mk precedences ∧ g.brackets = brackets ∧
      precedences.length = associativities.length := by
  unfold ofLists? at h
  split at h
  · next hlength =>
    obtain ⟨hclasses, hbrackets⟩ := build?_eq_ok_iff.mp h
    exact ⟨hclasses, hbrackets, hlength⟩
  · simp at h

/-- **The grammar that is built knows what the lists say.** -/
theorem tabulates_of_ofLists? (h : ofLists? precedences associativities brackets = .ok g) :
    Tabulates precedences associativities brackets g := by
  obtain ⟨hclasses, rfl, hlength⟩ := lists_of_ofLists? h
  have htokens : g.tokens = listed precedences g.brackets := by
    rw [tokens, hclasses, enrolled_zipWith hlength]
  have hlookup : ∀ symbol t, g.lookup? symbol = some t ↔
      t ∈ listed precedences g.brackets ∧ t.symbol = symbol := by
    intro symbol t
    rw [lookup?_eq_some_iff, htokens]
  constructor
  case lookup => exact hlookup
  case lookup_none =>
    intro symbol
    simp only [Option.eq_none_iff_forall_ne_some, ne_eq, hlookup, not_and]
  case symbols =>
    intro symbol
    rw [mem_symbols, htokens]
  case disjoint =>
    intro t ht b hb
    have hapart := g.wellFormed.distinct.apart
    change (g.tokens.Pairwise _) at hapart
    rw [htokens, listed, List.pairwise_append] at hapart
    have hb' : ∀ x, x = b.opening ∨ x = b.closing →
        x ∈ g.brackets.flatMap fun b => [b.opening, b.closing] := by
      intro x hx
      exact List.mem_flatMap.mpr ⟨b, hb, by simpa using hx⟩
    constructor
    · intro heq
      exact hapart.2.2 t ht b.opening (hb' _ (.inl rfl)) (heq ▸ overlap_self _)
    · intro heq
      exact hapart.2.2 t ht b.closing (hb' _ (.inr rfl)) (heq ▸ overlap_self _)
  case ranked =>
    intro i operations a hi ha t ht
    have hc : g.classes[i]? = some ⟨a, operations⟩ := by
      rw [hclasses, List.getElem?_zipWith, ha, hi]
    exact rank?_of_mem hc ht
  case closing => exact fun _ _ => closingFor?_eq_some_iff
  case opening => exact fun _ _ => openingFor?_eq_some_iff
  case inverse =>
    intro a ha b hb
    rw [closingFor?_eq ha, openingFor?_eq hb, Option.some.injEq, Option.some.injEq]
    constructor
    · intro heq
      obtain rfl := List.inj_on_of_nodup_map g.nodup_closings ha hb (congrArg (·.toLexeme) heq)
      rfl
    · intro heq
      obtain rfl := List.inj_on_of_nodup_map g.nodup_openings hb ha (congrArg (·.toLexeme) heq)
      rfl

/-- **Grammars are built from exactly the faultless lists, and know what these say.** -/
theorem ofLists?_refuses_or_tabulates (precedences : List (List Token))
    (associativities : List Associativity) (brackets : List BracketPair) :
    ((∃ f, ofLists? precedences associativities brackets = .error f) ↔
      Faulty precedences associativities brackets) ∧
    ∀ g, ofLists? precedences associativities brackets = .ok g →
      Tabulates precedences associativities brackets g ∧
      Tables.fill (associativities.zipWith PrecedenceClass.mk precedences) brackets = g.tables := by
  refine ⟨exists_fault_iff_faulty, ?_⟩
  intro g h
  refine ⟨tabulates_of_ofLists? h, ?_⟩
  obtain ⟨hclasses, rfl, -⟩ := lists_of_ofLists? h
  rw [← hclasses, Tables.fill_eq]

/-- Signs, products and sums with round brackets are told apart; two comparisons of which one begins
with the other are not. -/
theorem ofLists?_refuses_or_tabulates_arithmetic :
    (∃ f, ofLists? [[.ofKind .binary "<"], [.ofKind .binary "<="]] [.left, .left] [] = .error f) ∧
    ofLists? [[.ofKind .unary "-"], [.ofKind .binary "*"], [.ofKind .binary "+"]]
      [.right, .left, .left] [⟨.ofKind .opening "(", .ofKind .closing ")"⟩] = .ok arithmetic ∧
    Tabulates [[.ofKind .unary "-"], [.ofKind .binary "*"], [.ofKind .binary "+"]]
      [.right, .left, .left] [⟨.ofKind .opening "(", .ofKind .closing ")"⟩] arithmetic ∧
    Tables.fill arithmetic.classes arithmetic.brackets = arithmetic.tables := by
  have hbuilt : ofLists? [[.ofKind .unary "-"], [.ofKind .binary "*"], [.ofKind .binary "+"]]
      [.right, .left, .left] [⟨.ofKind .opening "(", .ofKind .closing ")"⟩] = .ok arithmetic := by
    rw [ofLists?]
    exact (if_pos (by decide)).trans (build?_eq_ok_iff.mpr ⟨rfl, rfl⟩)
  refine ⟨?_, hbuilt, (ofLists?_refuses_or_tabulates _ _ _).2 _ hbuilt⟩
  rw [(ofLists?_refuses_or_tabulates _ _ _).1]
  exact @Faulty.overlap _ _ _ 0 1 (.ofKind .binary "<") (.ofKind .binary "<=") (by decide) rfl rfl
    ⟨[], ['='], by decide⟩

end Grammar

end Fixity
