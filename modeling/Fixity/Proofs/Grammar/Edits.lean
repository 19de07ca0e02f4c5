import Fixity.Proofs.Grammar.Agreement

/-!
# Edits that a line does not see

A grammar may grow by classes, operations and bracket pairs that do not occur in a line, and the
operations of a class and the bracket pairs may be put in another order: it still agrees with what
it was before. A new class moves the later ones to other ranks, but all of them in step.

## Main statements

- `bindsTighter_shift`: ranks that are moved in step compare as before
- `Edit.agreeOn`: a grammar agrees with what is made of it by an edit
-/

namespace Fixity

namespace Grammar

variable {g g' : Grammar} {line : String}

/-! ## §1 Edits -/

/-- The second grammar is the first one with something new that does not occur in the line, or with
something in another order that does not count. -/
inductive Edit (line : String) (g g' : Grammar) : Prop where
  | insertClass (before after : List PrecedenceClass) (c : PrecedenceClass) :
      g.classes = before ++ after → g'.classes = before ++ c :: after →
      g'.brackets = g.brackets → (∀ t ∈ c.operations, ¬ t.OccursIn line) → Edit line g g'
  | insertOperation (before after : List PrecedenceClass) (a : Associativity) (xs ys : List Token)
      (t : Token) :
      g.classes = before ++ ⟨a, xs ++ ys⟩ :: after →
      g'.classes = before ++ ⟨a, xs ++ t :: ys⟩ :: after →
      g'.brackets = g.brackets → ¬ t.OccursIn line → Edit line g g'
  | insertBrackets (before after : List BracketPair) (b : BracketPair) :
      g.brackets = before ++ after → g'.brackets = before ++ b :: after →
      g'.classes = g.classes → ¬ b.opening.OccursIn line → ¬ b.closing.OccursIn line →
      Edit line g g'
  | reorderOperations (before after : List PrecedenceClass) (a : Associativity)
      (xs ys : List Token) :
      g.classes = before ++ ⟨a, xs⟩ :: after → g'.classes = before ++ ⟨a, ys⟩ :: after →
      g'.brackets = g.brackets → xs.Perm ys → Edit line g g'
  | reorderBrackets :
      g'.classes = g.classes → g.brackets.Perm g'.brackets → Edit line g g'

/-! ## §2 Ranks in step -/

/-- **Ranks that are moved in step compare as before.** -/
theorem bindsTighter_shift {x y : Lexeme} {f : Nat → Nat} (hf : ∀ i j, f i < f j ↔ i < j)
    (hx : g'.rank? x = (g.rank? x).map f) (hy : g'.rank? y = (g.rank? y).map f)
    (hassociativity : g'.associativity? x = g.associativity? x) :
    g'.bindsTighter x y = g.bindsTighter x y := by
  have hinj : ∀ i j, f i = f j ↔ i = j := by
    intro i j
    have hlt := hf i j
    have hgt := hf j i
    omega
  rw [bindsTighter, bindsTighter, hx, hy, hassociativity]
  cases g.rank? x with
  | none => rfl
  | some i =>
    cases g.rank? y with
    | none => rfl
    | some j => simp only [Option.map_some, hinj, hf]

/-- What the classes say about an operation. -/
def Ranks (g g' : Grammar) (f : Nat → Nat) (x : Lexeme) : Prop :=
  g'.classes.findIdx? (·.has x) = (g.classes.findIdx? (·.has x)).map f ∧
    g'.associativity? x = g.associativity? x

theorem bindsTighter_of_ranks {x y : Lexeme} {f : Nat → Nat} (hf : ∀ i j, f i < f j ↔ i < j)
    (hkx : x.kind.isOperation = true) (hky : y.kind.isOperation = true) (hx : Ranks g g' f x)
    (hy : Ranks g g' f y) : g.bindsTighter x y = g'.bindsTighter x y := by
  apply (bindsTighter_shift hf _ _ hx.2).symm
  · rw [rank?_eq_findIdx? hkx, rank?_eq_findIdx? hkx, hx.1]
  · rw [rank?_eq_findIdx? hky, rank?_eq_findIdx? hky, hy.1]

/-- A class that does not have an operation moves the classes behind it by one. -/
theorem ranks_insert {before after : List PrecedenceClass} {c : PrecedenceClass} {x : Lexeme}
    (h : g.classes = before ++ after) (h' : g'.classes = before ++ c :: after)
    (hx : c.has x = false) : Ranks g g' (fun i => if i < before.length then i else i + 1) x := by
  constructor
  · rw [h, h', List.findIdx?_append, List.findIdx?_append, List.findIdx?_cons, hx]
    cases hbefore : before.findIdx? (·.has x) with
    | some i =>
      have hlt : i < before.length := (List.findIdx?_eq_some_iff_findIdx_eq.mp hbefore).1
      simp [hlt]
    | none =>
      cases after.findIdx? (·.has x) with
      | none => rfl
      | some i =>
        have hge : ¬ i + before.length < before.length := by omega
        simp [hge]
        omega
  · rw [associativity?, associativity?, h, h', List.find?_append, List.find?_append,
      List.find?_cons, hx]

/-- A class is as good as another one that has the same operations and the same associativity. -/
theorem ranks_replace {before after : List PrecedenceClass} {c c' : PrecedenceClass} {x : Lexeme}
    (h : g.classes = before ++ c :: after) (h' : g'.classes = before ++ c' :: after)
    (hassociativity : c.associativity = c'.associativity) (hx : c.has x = c'.has x) :
    Ranks g g' id x := by
  constructor
  · rw [h, h', List.findIdx?_append, List.findIdx?_append, List.findIdx?_cons, List.findIdx?_cons,
      hx, Option.map_id]
    rfl
  · rw [associativity?, associativity?, h, h', List.find?_append, List.find?_append,
      List.find?_cons, List.find?_cons, hx]
    cases before.find? (·.has x) with
    | some d => rfl
    | none =>
      cases c'.has x with
      | true => exact congrArg some hassociativity.symm
      | false => rfl

theorem ranks_of_classes {x : Lexeme} (h : g'.classes = g.classes) : Ranks g g' id x := by
  constructor
  · rw [h, Option.map_id]
    rfl
  · rw [associativity?, associativity?, h]

/-! ## §3 Edits and agreement -/

theorem Registers.exists_closing {x : Lexeme} (h : g.Registers x) (hk : x.kind = .closing) :
    ∃ b ∈ g.brackets, b.closing.toLexeme = x := by
  obtain ⟨t, ht, rfl⟩ := h
  rcases mem_tokens.mp ht with ht | ⟨b, hb, rfl | rfl⟩
  · have := isOperation_of_mem_operations ht
    simp [hk, Kind.isOperation] at this
  · simp [kind_opening hb] at hk
  · exact ⟨b, hb, rfl⟩

/-- Grammars agree on a line if they have the same tokens and bracket pairs of the line, and the
ranks of its operations are moved in step. -/
theorem agreeOn_of_mem {f : Nat → Nat}
    (htokens : ∀ t : Token, t.OccursIn line → (t ∈ g.tokens ↔ t ∈ g'.tokens))
    (hbrackets : ∀ b : BracketPair, b.opening.OccursIn line ∨ b.closing.OccursIn line →
      (b ∈ g.brackets ↔ b ∈ g'.brackets))
    (hf : ∀ i j, f i < f j ↔ i < j)
    (hranks : ∀ x : Lexeme, x.OccursIn line → Ranks g g' f x) : AgreeOn line g g' where
  symbols s hs := by
    rw [mem_symbols, mem_symbols]
    constructor
    · rintro ⟨t, ht, rfl⟩
      exact ⟨t, (htokens t hs).mp ht, rfl⟩
    · rintro ⟨t, ht, rfl⟩
      exact ⟨t, (htokens t hs).mpr ht, rfl⟩
  kinds t ht t' ht' hoccurs hsymbol :=
    (AgreeOn.refl line g').kinds t ((htokens t hoccurs).mp ht) t' ht' hoccurs hsymbol
  closings o ho hk hoccurs := by
    obtain ⟨b, hb, hopening⟩ := (registers_of_mem ho).exists_opening hk
    rw [← hopening] at hoccurs ⊢
    rw [closingFor?_eq hb, closingFor?_eq ((hbrackets b (.inl hoccurs)).mp hb)]
  openings c hc hk hoccurs := by
    obtain ⟨b, hb, hclosing⟩ := (registers_of_mem hc).exists_closing hk
    rw [← hclosing] at hoccurs ⊢
    rw [openingFor?_eq hb, openingFor?_eq ((hbrackets b (.inr hoccurs)).mp hb)]
  tighter s hs t ht hoccurs hoccurs' :=
    bindsTighter_of_ranks hf (isOperation_of_mem_operations hs) (isOperation_of_mem_operations ht)
      (hranks s hoccurs) (hranks t hoccurs')

/-- A class none of whose operations occurs in the line has no operation of the line. -/
theorem has_eq_false {c : PrecedenceClass} (hc : ∀ t ∈ c.operations, ¬ t.OccursIn line)
    {x : Lexeme} (hx : x.OccursIn line) : c.has x = false := by
  rw [PrecedenceClass.has, List.any_eq_false]
  intro t ht heq
  apply hc t ht
  rw [of_decide_eq_true heq]
  exact hx

/-- Operations in another order, or with another one that is not asked for, are the same to a
class. -/
theorem has_congr {c c' : PrecedenceClass} {x : Lexeme}
    (h : ∀ t : Token, t.toLexeme = x → (t ∈ c.operations ↔ t ∈ c'.operations)) :
    c.has x = c'.has x := by
  rw [Bool.eq_iff_iff, PrecedenceClass.has, PrecedenceClass.has, List.any_eq_true,
    List.any_eq_true]
  constructor
  · rintro ⟨t, ht, heq⟩
    exact ⟨t, (h t (of_decide_eq_true heq)).mp ht, heq⟩
  · rintro ⟨t, ht, heq⟩
    exact ⟨t, (h t (of_decide_eq_true heq)).mpr ht, heq⟩

/-- **A grammar agrees with what an edit makes of it.** -/
theorem Edit.agreeOn (h : Edit line g g') : AgreeOn line g g' := by
  cases h with
  | insertClass before after c hclasses hclasses' hbrackets hc =>
    refine agreeOn_of_mem ?_ (by simp [hbrackets]) ?_ fun x hx =>
      ranks_insert hclasses hclasses' (has_eq_false hc hx)
    · intro t ht
      have hnot : t ∉ c.operations := fun hmem => hc t hmem ht
      simp [tokens, enrolled, hclasses, hclasses', hbrackets, hnot]
    · intro i j
      split <;> split <;> omega
  | insertOperation before after a xs ys t hclasses hclasses' hbrackets ht =>
    have hne : ∀ u : Token, u.OccursIn line → u ≠ t := by
      rintro u hu rfl
      exact ht hu
    refine agreeOn_of_mem ?_ (by simp [hbrackets]) (fun i j => .rfl) fun x hx =>
      ranks_replace hclasses hclasses' rfl (has_congr ?_)
    · intro u hu
      simp [tokens, enrolled, hclasses, hclasses', hbrackets, hne u hu]
    · rintro u rfl
      simp [hne u hx]
  | insertBrackets before after b hbrackets hbrackets' hclasses ho hc =>
    have hne : ∀ b' : BracketPair,
        b'.opening.OccursIn line ∨ b'.closing.OccursIn line → b' ≠ b := by
      rintro b' hb' rfl
      exact hb'.elim ho hc
    refine agreeOn_of_mem ?_ ?_ (fun i j => .rfl) fun x _ => ranks_of_classes hclasses
    · intro t ht
      have ho' : t ≠ b.opening := fun heq => ho (heq ▸ ht)
      have hc' : t ≠ b.closing := fun heq => hc (heq ▸ ht)
      simp [tokens, enrolled, hclasses, hbrackets, hbrackets', ho', hc']
    · intro b' hb'
      simp [hbrackets, hbrackets', hne b' hb']
  | reorderOperations before after a xs ys hclasses hclasses' hbrackets hperm =>
    refine agreeOn_of_mem ?_ (by simp [hbrackets]) (fun i j => .rfl) fun x _ =>
      ranks_replace hclasses hclasses' rfl (has_congr fun t _ => hperm.mem_iff)
    intro t _
    simp [tokens, enrolled, hclasses, hclasses', hbrackets, hperm.mem_iff]
  | reorderBrackets hclasses hperm =>
    refine agreeOn_of_mem ?_ (fun b _ => hperm.mem_iff) (fun i j => .rfl) fun x _ =>
      ranks_of_classes hclasses
    intro t _
    simp [tokens, enrolled, hclasses, hperm.mem_iff]

end Grammar

end Fixity
