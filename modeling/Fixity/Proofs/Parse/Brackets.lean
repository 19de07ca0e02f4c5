import Fixity.Proofs.Engine.Success
import Fixity.Proofs.Parse.Soundness

/-!
# Brackets and their content

The tree of a bracket should hold what stands between it and its partner. The stacks do keep
together what comes out of a bracket, but a prefix operation that sends away a tighter operation
sends it out before its right operand has come, and what it takes instead may stand outside the
bracket. This happens exactly if the content would not be parsed as a line of its own, and never
if it is prefix-safe.

## Main statements

- `exists_bracket`: what comes out of a bracket stands together in the postfix order
- `delimits_iff_parses`: a bracket delimits its content exactly if the content is parsed by itself
-/

namespace Fixity

open Stacks Checker

variable {g : Grammar} {line : String} {tokens : List Token}

/-! ## §1 Content -/

/-- Between an opening bracket of the list and its partner stand these tokens. -/
def Grammar.Encloses (g : Grammar) (tokens : List Token) (o : Token) (content : List Token) :
    Prop :=
  ∃ (before : List Token) (c : Token) (behind : List Token),
    tokens = before ++ o :: (content ++ c :: behind) ∧ g.Closes o c ∧ Accepts g content

theorem Grammar.Encloses.mem {o : Token} {content : List Token} (h : g.Encloses tokens o content)
    {x : Token} (hx : x ∈ content) : x ∈ tokens := by
  obtain ⟨before, c, behind, rfl, -, -⟩ := h
  simp [hx]

/-- The tree consists of the tokens of the list, without the closing brackets. -/
def Tree.Delimits (x : Tree) (content : List Token) : Prop :=
  (x.walk.map Tree.token).Perm (content.filter (·.kind ≠ .closing))

/-- In an accepted line every opening bracket has a partner. -/
theorem exists_encloses (h : Accepts g tokens) {o : Token} (ho : o ∈ tokens)
    (hk : o.kind = .opening) : ∃ content, g.Encloses tokens o content := by
  obtain ⟨before, rest, rfl⟩ := List.append_of_mem ho
  have hfeed : (feed g {} (before ++ (o :: rest ++ [.finish]))).2 = none := by
    rwa [← List.append_assoc]
  obtain ⟨c', -, hcompletes⟩ := feed_append_eq_none hfeed
  obtain ⟨c'', hpass, hrest⟩ := completes_cons.mp hcompletes
  cases hpass with
  | opening _ _ =>
    -- behind the bracket stands an expression, which the partner ends
    obtain ⟨content, rest', rfl, hcontent, hstop⟩ := exists_expression hrest (by rw [hk]; rfl)
    cases hstop with
    | @closing _ c _ behind hclose _ =>
      exact ⟨content, before, c, behind, rfl, hclose, accepts_iff_derives.mpr hcontent⟩
  | name _ hk' | signed _ hk' | chain _ hk' | finish _ _ hk' => simp [hk] at hk'
  | closing _ _ hclose => exact absurd hclose.kind_closing (by simp [hk])

/-! ## §2 The postfix order around a bracket -/

/-- **What comes out of a bracket stands together in the postfix order**, and the bracket behind
it. -/
theorem exists_bracket {postfixed content : List Token} {o : Token}
    (hknown : ∀ x ∈ tokens, g.Knows x) (hspans : ∀ x ∈ tokens, x.Spanned)
    (h : (g.runFresh tokens).result = .ok postfixed) (hcontent : g.Encloses tokens o content) :
    (∀ x ∈ content, g.Supports x) ∧
      ∃ inner before behind, (g.runFresh content).result = .ok inner ∧
        postfixed = before ++ inner ++ o :: behind := by
  obtain ⟨pre, c, post, rfl, hclose, haccepts⟩ := hcontent
  have hderives := accepts_iff_derives.mp haccepts
  obtain ⟨-, ops, out, hconsume, rfl⟩ := exists_of_runFresh hknown hspans h
  -- the run is cut before the bracket, and behind its partner
  obtain ⟨s, hpre, hrest⟩ := exists_of_consumeAll_append hconsume
  obtain ⟨s₁, hopen, hrest⟩ := exists_of_consumeAll_cons hrest
  rw [consume_opening hclose.kind_opening, Prod.mk.injEq] at hopen
  obtain ⟨rfl, -⟩ := hopen
  have hsplit : content ++ c :: post = (content ++ [c]) ++ post := by simp
  rw [hsplit] at hrest
  obtain ⟨s₂, hinside, hpost⟩ := exists_of_consumeAll_append hrest
  obtain ⟨s₃, hread, -⟩ := exists_of_consumeAll_append hinside
  -- the bracket lies above the beginning of the line, and so do all operations inside
  have hseated : Seated g s.operators :=
    Seated.consumeAll (s := {}) seated_start (fun x hx => hknown x (by simp [hx])) hpre
  have hsupports := supports_of_consumeAll hderives
    (fun x hx => hknown x (by simp [hx])) Grammar.pending_nil hclose.registers_opening
    hclose.kind_opening hseated hread
  refine ⟨hsupports, ?_⟩
  obtain ⟨inner, hinner, hout⟩ := exists_content hderives hsupports
    (fun x hx => hspans x (by simp [hx])) hclose
  rw [hout, Prod.mk.injEq] at hinside
  obtain ⟨rfl, -⟩ := hinside
  -- what comes behind the partner stays behind it
  obtain ⟨more, hmore⟩ := output_suffix_consumeAll hpost
  refine ⟨inner, s.output.reverse, more.reverse ++ ops, hinner, ?_⟩
  simp only at hmore
  rw [← hmore]
  simp

/-! ## §3 What a bracket delimits -/

/-- In a postfix order without repetitions a bracket has the same tokens before it. -/
theorem append_eq_of_nodup {o : Token} {as bs cs ds : List Token} (hnodup : (as ++ o :: bs).Nodup)
    (h : as ++ o :: bs = cs ++ o :: ds) : as = cs := by
  obtain ⟨-, hbs, hdisjoint⟩ := List.nodup_append.mp hnodup
  -- so `o` is found at its only place in both lists
  have has : o ∉ as := by
    intro ho
    exact hdisjoint o ho o (by simp) rfl
  exact ((List.append_cons_inj_of_notMem has (List.nodup_cons.mp hbs).1).mp h).1

/-- The postfix order of a tree has the tokens that come out of the bracket and those of the
subtree of the bracket at the same place. -/
theorem exists_append_postorder {t x : Tree} {o : Token} {harity : o.arity = 1}
    (hn : .unary o harity x ∈ t.walk) (hnodup : t.postorder.Nodup)
    {before inner behind : List Token} (h : t.postorder = before ++ inner ++ o :: behind) :
    ∃ us, us ++ x.postorder = before ++ inner := by
  obtain ⟨us, vs, hpost⟩ := Tree.exists_postorder_of_mem hn
  have hsub : t.postorder = (us ++ x.postorder) ++ o :: vs := by
    simp [hpost, Tree.postorder]
  exact ⟨us, append_eq_of_nodup (hsub ▸ hnodup) (hsub.symm.trans h)⟩

/-- If the subtree of a bracket ends where the tokens end that come out of the bracket, it holds
just these exactly if they are the postfix order of a tree. -/
theorem delimits_iff_of_append {x : Tree} {content inner us before : List Token}
    (hinner : (g.runFresh content).result = .ok inner)
    (hperm : inner.Perm (content.filter (·.kind ≠ .closing)))
    (hheads : ∀ y ∈ x.postorder, y.HeadsNode) (hus : us ++ x.postorder = before ++ inner) :
    (x.Delimits content ↔ ∃ u, g.parseTokens content = .ok u) ∧
      ∀ u, g.parseTokens content = .ok u → u = x := by
  have hparsed : ∀ u, g.parseTokens content = .ok u → u = x := by
    intro u hu
    have hpost := (parseTokens_eq_ok_iff.mp hu).1
    rw [hinner, Except.ok.injEq] at hpost
    rw [hpost] at hus
    -- two trees in postfix order end at the same place
    exact (Tree.postorder_append_inj hus).1.symm
  refine ⟨?_, hparsed⟩
  constructor
  · intro h
    -- no other list at this place is as long
    have hlength := ((x.perm_postorder.symm.trans h).trans hperm.symm).length_eq
    have hpost := (List.append_inj' hus hlength).2
    exact ⟨x, parseTokens_eq_ok_iff.mpr ⟨hpost ▸ hinner, hheads⟩⟩
  · intro ⟨u, hu⟩
    obtain rfl := hparsed u hu
    have hpost := (parseTokens_eq_ok_iff.mp hu).1
    rw [hinner, Except.ok.injEq] at hpost
    exact u.perm_postorder.trans (hpost ▸ hperm)

/-- **A bracket delimits its content exactly if the content is parsed by itself**, and then it is
parsed to the subtree of the bracket. In particular it does so if the content is prefix-safe. -/
theorem delimits_iff_parses {t : Tree} (ht : g.parse line = .ok t) :
    ∃ tokens, g.tokenize line = .ok tokens ∧
      ∀ (o : Token) (harity : o.arity = 1) (x : Tree), .unary o harity x ∈ t.walk →
        o.kind = .opening →
          (∃ content, g.Encloses tokens o content) ∧
          ∀ content, g.Encloses tokens o content →
            (x.Delimits content ↔ ∃ u, g.parseTokens content = .ok u) ∧
            (∀ u, g.parseTokens content = .ok u → u = x) ∧
            (g.PrefixSafe content → x.Delimits content) := by
  obtain ⟨tokens, htokens⟩ := g.exists_tokenize line
  have hknown := Grammar.tokenize_knows htokens
  have hspans := Grammar.tokenize_spans htokens
  rw [Grammar.parse, htokens] at ht
  obtain ⟨hrun, hheads⟩ := parseTokens_eq_ok_iff.mp ht
  have hperm := perm_runFresh hknown hspans hrun
  -- the tokens are numbered, so none of them is there twice
  have hnodup : t.postorder.Nodup := by
    rw [hperm.nodup_iff]
    exact (List.Nodup.of_map _ (Grammar.nodup_indices htokens)).filter _
  refine ⟨tokens, htokens, ?_⟩
  intro o harity x hn hk
  constructor
  · obtain ⟨us, vs, hpost⟩ := Tree.exists_postorder_of_mem hn
    have ho : o ∈ t.postorder := by simp [hpost, Tree.postorder]
    exact exists_encloses (exists_of_runFresh hknown hspans hrun).1
      (List.mem_of_mem_filter (hperm.mem_iff.mp ho)) hk
  · intro content hcontent
    obtain ⟨hsupports, inner, before, behind, hinner, hpost⟩ :=
      exists_bracket hknown hspans hrun hcontent
    obtain ⟨us, hus⟩ := exists_append_postorder hn hnodup hpost
    have hinside : ∀ y ∈ content, g.Knows y ∧ y.Spanned := by
      intro y hy
      exact ⟨hknown y (hcontent.mem hy), hspans y (hcontent.mem hy)⟩
    obtain ⟨-, -, -, -, -, haccepts⟩ := hcontent
    -- the subtree is made of tokens that have come out of the run
    have hheadsx : ∀ y ∈ x.postorder, y.HeadsNode := by
      intro y hy
      apply hheads
      rw [hpost, ← hus]
      simp [hy]
    obtain ⟨hparses, hparsed⟩ := delimits_iff_of_append hinner
      (perm_runFresh (fun y hy => (hinside y hy).1) (fun y hy => (hinside y hy).2) hinner)
      hheadsx hus
    refine ⟨hparses, hparsed, ?_⟩
    intro hsafe
    -- prefix-safe content has a reading that respects precedence, so it is parsed
    obtain ⟨u, hreads, hrespects, -⟩ := exists_respectful_reading
      (accepts_iff_derives.mp haccepts) hsafe fun y hy => (hinside y hy).1
    exact hparses.mpr ⟨u, parseTokens_of_respects hreads hrespects hsupports
      fun y hy => (hinside y hy).2⟩

/-- The tokens between the brackets of the line `( y + - z ) * x`. -/
def sumContent : List Token :=
  [⟨⟨.identifier, "y"⟩, 1, some ⟨2, 3, 1⟩⟩, ⟨⟨.binary, "+"⟩, 2, some ⟨4, 5, 1⟩⟩,
    ⟨⟨.unary, "-"⟩, 3, some ⟨6, 7, 1⟩⟩, ⟨⟨.identifier, "z"⟩, 4, some ⟨8, 9, 1⟩⟩]

/-- The tokens of that line. -/
def sumTokens : List Token :=
  ⟨⟨.opening, "("⟩, 0, some ⟨0, 1, 1⟩⟩ :: (sumContent ++ ⟨⟨.closing, ")"⟩, 5, some ⟨10, 11, 1⟩⟩ ::
    [⟨⟨.binary, "*"⟩, 6, some ⟨12, 13, 1⟩⟩, ⟨⟨.identifier, "x"⟩, 7, some ⟨14, 15, 1⟩⟩])

/-- The tree of the bracket in that line. -/
def sumInner : Tree :=
  .binary ⟨⟨.binary, "+"⟩, 2, some ⟨4, 5, 1⟩⟩ rfl
    (.leaf ⟨⟨.identifier, "y"⟩, 1, some ⟨2, 3, 1⟩⟩ rfl)
    (.unary ⟨⟨.unary, "-"⟩, 3, some ⟨6, 7, 1⟩⟩ rfl
      (.leaf ⟨⟨.identifier, "z"⟩, 4, some ⟨8, 9, 1⟩⟩ rfl))

/-- The tree of that line. -/
def sumTree : Tree :=
  .binary ⟨⟨.binary, "*"⟩, 6, some ⟨12, 13, 1⟩⟩ rfl
    (.unary ⟨⟨.opening, "("⟩, 0, some ⟨0, 1, 1⟩⟩ rfl sumInner)
    (.leaf ⟨⟨.identifier, "x"⟩, 7, some ⟨14, 15, 1⟩⟩ rfl)

/-- In `( y + - z ) * x` both operations and their operands stay in the bracket, and by itself its
content is parsed to the same tree. -/
theorem delimits_sumInner :
    arithmetic.parse "( y + - z ) * x" = .ok sumTree ∧ sumInner.Delimits sumContent ∧
      arithmetic.parseTokens sumContent = .ok sumInner := by
  have hline : arithmetic.tokenize "( y + - z ) * x" = .ok sumTokens := by cbv
  have hparse : arithmetic.parse "( y + - z ) * x" = .ok sumTree := by
    rw [Grammar.parse, hline]
    rfl
  obtain ⟨tokens, htokens, hbrackets⟩ := delimits_iff_parses hparse
  obtain rfl : sumTokens = tokens := Except.ok.inj (hline.symm.trans htokens)
  have hmem : .unary ⟨⟨.opening, "("⟩, 0, some ⟨0, 1, 1⟩⟩ rfl sumInner ∈ sumTree.walk := by
    rw [Tree.walk_eq_preorder]
    decide
  have hencloses : arithmetic.Encloses sumTokens ⟨⟨.opening, "("⟩, 0, some ⟨0, 1, 1⟩⟩ sumContent :=
    ⟨[], ⟨⟨.closing, ")"⟩, 5, some ⟨10, 11, 1⟩⟩, _, rfl, by decide, by decide⟩
  obtain ⟨hparses, hparsed, hsafe⟩ := (hbrackets _ rfl _ hmem rfl).2 _ hencloses
  have hdelimits := hsafe (by decide)
  obtain ⟨u, hu⟩ := hparses.mp hdelimits
  obtain rfl := hparsed u hu
  exact ⟨hparse, hdelimits, hu⟩

/-! ## §4 A bracket that lets go -/

/-- Products are tighter than signs, and signs are tighter than sums. -/
def looseSign : Grammar where
  classes := [⟨.left, [.ofKind .binary "*"]⟩, ⟨.right, [.ofKind .unary "-"]⟩,
    ⟨.left, [.ofKind .binary "+"]⟩]
  brackets := [⟨.ofKind .opening "(", .ofKind .closing ")"⟩]
  wellFormed := ⟨by decide, by decide, by decide, by decide, by decide⟩

/-- The opening bracket of the line `x + ( y * - z )`. -/
def escapeOpening : Token :=
  ⟨⟨.opening, "("⟩, 2, some ⟨4, 5, 1⟩⟩

/-- The tokens between the brackets. -/
def escapeContent : List Token :=
  [⟨⟨.identifier, "y"⟩, 3, some ⟨6, 7, 1⟩⟩, ⟨⟨.binary, "*"⟩, 4, some ⟨8, 9, 1⟩⟩,
    ⟨⟨.unary, "-"⟩, 5, some ⟨10, 11, 1⟩⟩, ⟨⟨.identifier, "z"⟩, 6, some ⟨12, 13, 1⟩⟩]

def escapeTokens : List Token :=
  [⟨⟨.identifier, "x"⟩, 0, some ⟨0, 1, 1⟩⟩, ⟨⟨.binary, "+"⟩, 1, some ⟨2, 3, 1⟩⟩] ++
    escapeOpening :: (escapeContent ++ [⟨⟨.closing, ")"⟩, 7, some ⟨14, 15, 1⟩⟩])

/-- What is left in the bracket. -/
def escapeInner : Tree :=
  .unary ⟨⟨.unary, "-"⟩, 5, some ⟨10, 11, 1⟩⟩ rfl
    (.leaf ⟨⟨.identifier, "z"⟩, 6, some ⟨12, 13, 1⟩⟩ rfl)

/-- The sign sends the product out of the bracket, and it takes `x` and `y`. -/
def escapeTree : Tree :=
  .binary ⟨⟨.binary, "+"⟩, 1, some ⟨2, 3, 1⟩⟩ rfl
    (.binary ⟨⟨.binary, "*"⟩, 4, some ⟨8, 9, 1⟩⟩ rfl
      (.leaf ⟨⟨.identifier, "x"⟩, 0, some ⟨0, 1, 1⟩⟩ rfl)
      (.leaf ⟨⟨.identifier, "y"⟩, 3, some ⟨6, 7, 1⟩⟩ rfl))
    (.unary escapeOpening rfl escapeInner)

theorem tokenize_escape : looseSign.tokenize "x + ( y * - z )" = .ok escapeTokens := by
  cbv

theorem parse_escape : looseSign.parse "x + ( y * - z )" = .ok escapeTree := by
  rw [Grammar.parse, tokenize_escape]
  rfl

theorem encloses_escape : looseSign.Encloses escapeTokens escapeOpening escapeContent :=
  ⟨_, ⟨⟨.closing, ")"⟩, 7, some ⟨14, 15, 1⟩⟩, [], rfl, by decide, by decide⟩

theorem mem_walk_escape : .unary escapeOpening rfl escapeInner ∈ escapeTree.walk := by
  rw [Tree.walk_eq_preorder]
  decide

theorem not_delimits_escape :
    ∃ (tokens content : List Token) (o : Token) (x t : Tree) (harity : o.arity = 1),
      looseSign.tokenize "x + ( y * - z )" = .ok tokens ∧
        looseSign.parse "x + ( y * - z )" = .ok t ∧ .unary o harity x ∈ t.walk ∧
          looseSign.Encloses tokens o content ∧ ¬ x.Delimits content := by
  refine ⟨_, _, _, _, _, _, tokenize_escape, parse_escape, mem_walk_escape, encloses_escape, ?_⟩
  intro h
  have hlength := h.length_eq
  rw [Tree.walk_eq_preorder] at hlength
  revert hlength
  decide

end Fixity
