import Fixity.Proofs.Engine.Congruence
import Fixity.Proofs.Parse.Brackets
import Fixity.Proofs.Pieces.Split
import Fixity.Proofs.Pieces.Tiling
import Fixity.Proofs.Tree.Enclosed
import Fixity.Proofs.Tree.Graft

/-!
# Brackets in the place of an identifier

If an identifier of a line gives way to a line in brackets, the tree of that line takes the place
of the leaf. This is so whatever the prefix operations do: the stacks are left alone below the
bracket while the line is read, what comes out of it is the postfix order of its tree, and behind
the bracket the stacks go on as they would behind the identifier.

## Main statements

- `exists_parseTokens_of_lexemes`: a tree depends on the lexemes only, but for the places
- `parseTokens_graft`: brackets in the place of an identifier, in a list of tokens
- `parse_replace`: brackets in the place of an identifier, in a line
-/

namespace Fixity

open Stacks Checker

variable {g : Grammar}

/-! ## §1 Lists with the same lexemes -/

/-- The tokens can be read as a line: the grammar supports them, and they have places. -/
structure Grammar.Readable (g : Grammar) (ts : List Token) : Prop where
  supports : ∀ t ∈ ts, g.Supports t
  spanned : ∀ t ∈ ts, t.Spanned

namespace Grammar.Readable

theorem knows {ts : List Token} (h : g.Readable ts) : ∀ t ∈ ts, g.Knows t :=
  fun t ht => (h.supports t ht).1

theorem of_subset {ts us : List Token} (h : g.Readable ts) (hsub : us ⊆ ts) : g.Readable us :=
  ⟨fun t ht => h.supports t (hsub ht), fun t ht => h.spanned t (hsub ht)⟩

theorem append {ts us : List Token} (hts : g.Readable ts) (hus : g.Readable us) :
    g.Readable (ts ++ us) :=
  ⟨List.forall_mem_append.mpr ⟨hts.supports, hus.supports⟩,
    List.forall_mem_append.mpr ⟨hts.spanned, hus.spanned⟩⟩

end Grammar.Readable

theorem Grammar.readable_tokenize (few : g.classes.length < Grammar.bracketRank) {line : String}
    {tokens : List Token} (h : g.tokenize line = .ok tokens) : g.Readable tokens :=
  ⟨fun t ht => (tokenize_knows h t ht).supports few, tokenize_spans h⟩

theorem accepts_of_lexemes {ss ts : List Token}
    (h : ss.map (·.toLexeme) = ts.map (·.toLexeme)) (haccepts : Accepts g ss) : Accepts g ts := by
  have hplaced := fun us => feed_map (g := g) relocates_unplaced {} (us ++ [.finish])
  have hboth : (feed g {} (ss ++ [.finish])).2.map (Rejection.map Token.unplaced) =
      (feed g {} (ts ++ [.finish])).2.map (Rejection.map Token.unplaced) := by
    have hss := congrArg Prod.snd (hplaced ss)
    have hts := congrArg Prod.snd (hplaced ts)
    rw [List.map_append, map_unplaced_iff.mpr h, ← List.map_append] at hss
    exact hss.symm.trans hts
  rw [Accepts, Completes] at haccepts ⊢
  simpa [haccepts] using hboth.symm

/-- **A tree depends on the lexemes only**, but for the places of its tokens. -/
theorem exists_parseTokens_of_lexemes {ss ts : List Token}
    (h : ss.map (·.toLexeme) = ts.map (·.toLexeme)) (hss : g.Readable ss) (hts : g.Readable ts)
    {t : Tree} (ht : g.parseTokens ss = .ok t) :
    ∃ t', g.parseTokens ts = .ok t' ∧ t'.unplaced = t.unplaced := by
  obtain ⟨hrun, hheads⟩ := parseTokens_eq_ok_iff.mp ht
  obtain ⟨haccepts, ops, out, hread, hpost⟩ := exists_of_runFresh hss.knows hss.spanned hrun
  have haccepts' := accepts_of_lexemes h haccepts
  obtain ⟨c, hfeed, -⟩ := feed_append_eq_none haccepts'
  obtain ⟨s', hread', ops', hops', -⟩ := lockstep_start.consumeAll (s := {}) hts.supports hfeed
  -- without their places both lists leave the same stacks
  have hstacks : Stacks.map Token.unplaced ⟨ops ++ [.start], out⟩ = s'.map Token.unplaced := by
    have hmap := consumeAll_map (g := g) relocates_unplaced {} ss
    have hmap' := consumeAll_map (g := g) relocates_unplaced {} ts
    rw [hread, map_unplaced_iff.mpr h] at hmap
    rw [hread'] at hmap'
    exact congrArg Prod.fst (hmap.symm.trans hmap')
  obtain ⟨hoperators, houtput⟩ := Stacks.mk.inj hstacks
  rw [hops', List.map_append, List.map_append] at hoperators
  have hlexemes : (s'.output.reverse ++ ops').map (·.toLexeme) =
      t.postorder.map (·.toLexeme) := by
    rw [hpost, ← map_unplaced_iff, List.map_append, List.map_append, List.map_reverse,
      List.map_reverse, houtput, List.append_cancel_right hoperators]
  obtain ⟨t', hpost', hplaces⟩ := Tree.exists_postorder_of_lexemes hlexemes
  refine ⟨t', parseTokens_eq_ok_iff.mpr ⟨?_, ?_⟩, hplaces⟩
  · rw [hpost']
    apply runFresh_accepted hts.supports hts.spanned haccepts'
    rw [hread', ← hops']
  · -- what heads a node is known by its lexeme
    rw [hpost']
    exact (forall_lexeme_iff hlexemes fun x => ¬ (x.kind = .closing ∨ x.kind.isSentinel = true)).mpr
      hheads

/-! ## §2 Brackets in a list of tokens -/

section Tokens

variable {before behind us : List Token} {x : Token}

/-- The list with these brackets around `us` in the place of the token `x` of the old one. -/
theorem readable_brackets {o c : Token} (hline : g.Readable (before ++ x :: behind))
    (hbrackets : g.Readable (o :: (us ++ [c]))) :
    g.Readable (before ++ (o :: (us ++ [c]) ++ behind)) :=
  (hline.of_subset (by simp)).append (hbrackets.append (hline.of_subset (by simp)))

/-- What comes out of the brackets takes the place of the identifier, and the bracket follows it. -/
theorem runFresh_graft {o c : Token} (hx : x.kind = .identifier) (hclose : g.Closes o c)
    (hline : g.Readable (before ++ x :: behind)) (hbrackets : g.Readable (o :: (us ++ [c])))
    {postfixed inner : List Token}
    (h : (g.runFresh (before ++ x :: behind)).result = .ok postfixed)
    (hinner : (g.runFresh us).result = .ok inner) :
    ∃ front back, postfixed = front ++ x :: back ∧
      (g.runFresh (before ++ (o :: (us ++ [c]) ++ behind))).result =
        .ok (front ++ (inner ++ o :: back)) := by
  obtain ⟨haccepts, ops, out, hread, rfl⟩ := exists_of_runFresh hline.knows hline.spanned h
  have hus : g.Readable us := hbrackets.of_subset (by simp)
  have hderives := accepts_iff_derives.mp (exists_of_runFresh hus.knows hus.spanned hinner).1
  -- the run is cut before the identifier, and behind it
  obtain ⟨s, hbefore, hrest⟩ := exists_of_consumeAll_append hread
  obtain ⟨s₁, hstep, hbehind⟩ := exists_of_consumeAll_cons hrest
  rw [consume_identifier hx, Prod.mk.injEq] at hstep
  obtain ⟨rfl, -⟩ := hstep
  -- behind the brackets the rest sends out what it sends out behind the identifier
  obtain ⟨sent, (rfl : out = _), hsent⟩ := exists_sent hbehind
  obtain ⟨content, hcontent, hread'⟩ := exists_content hderives hus.supports hus.spanned hclose
  obtain rfl : content = inner := Except.ok.inj (hcontent.symm.trans hinner)
  refine ⟨s.output.reverse, sent.reverse ++ ops, by simp, ?_⟩
  have hnow : consumeAll g {} (before ++ (o :: (us ++ [c]) ++ behind)) =
      (⟨ops ++ [.start], sent ++ o :: (content.reverse ++ s.output)⟩, none) := by
    rw [consumeAll_append hbefore, List.cons_append,
      consumeAll_cons (consume_opening hclose.kind_opening s), consumeAll_append (hread' _ _),
      hsent]
  have hnew := readable_brackets hline hbrackets
  rw [runFresh_accepted hnew.supports hnew.spanned
    (accepts_of_operand haccepts hx (.bracketed hclose hderives)) hnow]
  simp

/-- **In a list of tokens a list in brackets takes the place of an identifier.** -/
theorem parseTokens_graft {o c : Token} (hx : x.kind = .identifier) (hclose : g.Closes o c)
    (hline : g.Readable (before ++ x :: behind)) (hbrackets : g.Readable (o :: (us ++ [c])))
    (hindices : ((before ++ x :: behind).map (·.index)).Nodup) {t u : Tree}
    (ht : g.parseTokens (before ++ x :: behind) = .ok t) (hu : g.parseTokens us = .ok u) :
    g.parseTokens (before ++ (o :: (us ++ [c]) ++ behind)) =
      .ok (t.graft x.index (.unary o (arity_opening hclose.kind_opening) u)) := by
  obtain ⟨hrun, hheads⟩ := parseTokens_eq_ok_iff.mp ht
  obtain ⟨hrunu, hheadsu⟩ := parseTokens_eq_ok_iff.mp hu
  obtain ⟨front, back, hpost, hnow⟩ := runFresh_graft hx hclose hline hbrackets hrun hrunu
  -- the tokens are numbered, so the leaf of the identifier is the only one that gives way
  have hnodup : (t.postorder.map (·.index)).Nodup := by
    have hperm := perm_runFresh hline.knows hline.spanned hrun
    rw [(hperm.map _).nodup_iff]
    exact hindices.sublist (List.filter_sublist.map _)
  have hgraft : (t.graft x.index (.unary o (arity_opening hclose.kind_opening) u)).postorder =
      front ++ (u.postorder ++ o :: back) := by
    rw [Tree.postorder_graft_of_append hpost (arity_identifier hx) hnodup]
    simp [Tree.postorder]
  refine parseTokens_eq_ok_iff.mpr ⟨by rw [hgraft, hnow], ?_⟩
  -- the tokens of the new tree are those of the old ones, and the bracket
  have ho : o.HeadsNode := by simp [Token.HeadsNode, hclose.kind_opening, Kind.isSentinel]
  rw [hpost, List.forall_mem_append, List.forall_mem_cons] at hheads
  rw [hgraft, List.forall_mem_append, List.forall_mem_append, List.forall_mem_cons]
  exact ⟨hheads.1, hheadsu, ho, hheads.2.2⟩

/-- A list that reads like the one with brackets in the place of the identifier has the tree with
the bracket in the place of the leaf, but for the places. -/
theorem exists_parseTokens_graft {b : BracketPair} (hb : b ∈ g.brackets)
    (hx : x.kind = .identifier) (hline : g.Readable (before ++ x :: behind))
    (hindices : ((before ++ x :: behind).map (·.index)).Nodup) (hus : g.Readable us)
    {vs : List Token} (hvs : g.Readable vs)
    (hlexemes : vs.map (·.toLexeme) =
      (before ++ (b.opening :: (us ++ [b.closing]) ++ behind)).map (·.toLexeme)) {t u : Tree}
    (ht : g.parseTokens (before ++ x :: behind) = .ok t) (hu : g.parseTokens us = .ok u) :
    ∃ t', g.parseTokens vs = .ok t' ∧
      t'.unplaced = (t.graft x.index (u.inBracket b.opening.symbol)).unplaced := by
  -- the brackets of the new list
  obtain ⟨o, homem, ho⟩ := List.mem_map.mp
    (hlexemes ▸ by simp : b.opening.toLexeme ∈ vs.map (·.toLexeme))
  obtain ⟨c, hcmem, hc⟩ := List.mem_map.mp
    (hlexemes ▸ by simp : b.closing.toLexeme ∈ vs.map (·.toLexeme))
  have hclose : g.Closes o c := Grammar.closes_iff.mpr ⟨b, hb, ho.symm, hc.symm⟩
  have hbrackets : g.Readable (o :: (us ++ [c])) :=
    (hvs.of_subset (by simpa using homem) : g.Readable [o]).append
      (hus.append (hvs.of_subset (by simpa using hcmem)))
  -- the tree of the old tokens with these brackets is that of the new list, but for the places
  have hsame : (before ++ (o :: (us ++ [c]) ++ behind)).map (·.toLexeme) =
      vs.map (·.toLexeme) := by
    rw [hlexemes]
    simp [ho, hc]
  obtain ⟨t', ht', hplaces⟩ := exists_parseTokens_of_lexemes hsame
    (readable_brackets hline hbrackets) hvs
    (parseTokens_graft hx hclose hline hbrackets hindices ht hu)
  refine ⟨t', ht', ?_⟩
  rw [hplaces]
  apply Tree.unplaced_graft
  have hbracket : o.toLexeme = (Token.ofKind .opening b.opening.symbol).toLexeme := by
    rw [ho]
    exact (toLexeme_ofKind (Grammar.kind_opening hb)).symm
  simp only [Tree.inBracket, Tree.unplaced, placed_eq_placed hbracket]

end Tokens

/-! ## §3 Brackets in a line -/

/-- The line with another text in the place of the characters of a span. -/
def Span.replace (s : Span) (line text : String) : String :=
  String.ofList (line.toList.take s.start.toNat) ++ text ++
    String.ofList (line.toList.drop s.stop.toNat)

/-- A token cuts the line into what stands before it and what stands behind it, and these are cut
into the symbols of the other tokens. -/
theorem exists_split_token {line : String} {before behind : List Token} {x : Token}
    (htokens : g.tokenize line = .ok (before ++ x :: behind)) :
    ∃ (s : Span) (u v : String), x.span = some s ∧ (∀ text, s.replace line text = u ++ text ++ v) ∧
      g.split u = before.map (·.symbol) ∧ g.split v = behind.map (·.symbol) := by
  obtain ⟨u, v, hline, hsymbol, hspan, hink⟩ :=
    (Grammar.tiles_tokenize htokens).exists_of_append
  have hsplit := (Grammar.symbols_tokenize htokens).symm
  rw [List.map_append, List.map_cons] at hsplit
  -- no piece goes over the beginning of the token, or over its end
  obtain ⟨hu, hrest⟩ := Grammar.split_of_seam (u := String.ofList u)
    (v := String.ofList (x.symbol.toList ++ v)) (by simp [hline]) hsplit
    (by simpa [Function.comp_def] using hink)
  have hx : ([x.symbol].map String.toList).flatten = Text.ink x.symbol.toList := by
    simp [Text.ink_of_no_blank hsymbol.2]
  obtain ⟨-, hv⟩ := Grammar.split_of_seam (v := String.ofList v) (by simp) hrest hx
  refine ⟨_, String.ofList u, String.ofList v, hspan, ?_, hu, hv⟩
  intro text
  have htake : line.toList.take (0 + u.length) = u := by
    rw [Nat.zero_add, hline, List.take_left]
  have hdrop : line.toList.drop (0 + u.length + x.symbol.length) = v := by
    rw [Nat.zero_add, ← String.length_toList, ← List.length_append, hline, ← List.append_assoc,
      List.drop_left]
  rw [Span.replace, Int.toNat_natCast, Int.toNat_natCast, htake, hdrop]

theorem split_append_space (u v : String) : g.split (u ++ " " ++ v) = g.split u ++ g.split v :=
  Grammar.split_append_blank Text.isBlank_space (by simp)

/-- The tokens of the new line, but for their places. -/
theorem lexemes_tokenize_replace {line inner : String} {before behind us vs : List Token}
    {x : Token} {b : BracketPair} (hb : b ∈ g.brackets)
    (hline : g.tokenize line = .ok (before ++ x :: behind)) (hinner : g.tokenize inner = .ok us)
    {s : Span} (hs : x.span = some s)
    (hvs : g.tokenize (s.replace line s!" {b.opening.symbol} {inner} {b.closing.symbol} ") =
      .ok vs) :
    vs.map (·.toLexeme) =
      (before ++ (b.opening :: (us ++ [b.closing]) ++ behind)).map (·.toLexeme) := by
  obtain ⟨s', u, v, hs', hreplace, hu, hv⟩ := exists_split_token hline
  obtain rfl : s' = s := Option.some.inj (hs'.symm.trans hs)
  have hopening : g.Legible b.opening :=
    Grammar.Registers.legible ⟨_, Grammar.mem_tokens.mpr (.inr ⟨b, hb, .inl rfl⟩), rfl⟩
  have hclosing : g.Legible b.closing :=
    Grammar.Registers.legible ⟨_, Grammar.mem_tokens.mpr (.inr ⟨b, hb, .inr rfl⟩), rfl⟩
  -- the spaces cut the new line into five texts
  have htexts : g.split (s'.replace line s!" {b.opening.symbol} {inner} {b.closing.symbol} ") =
      g.split u ++ (g.split b.opening.symbol ++ (g.split inner ++
        (g.split b.closing.symbol ++ g.split v))) := by
    rw [hreplace, ← split_append_space, ← split_append_space, ← split_append_space,
      ← split_append_space]
    simp [toString, String.append_assoc]
  have hsymbols : g.split (s'.replace line s!" {b.opening.symbol} {inner} {b.closing.symbol} ") =
      (before ++ (b.opening :: (us ++ [b.closing]) ++ behind)).map (·.symbol) := by
    rw [htexts, hu, hv, Grammar.split_piece hopening.1, Grammar.split_piece hclosing.1,
      ← Grammar.symbols_tokenize hinner]
    simp
  -- and all its tokens have been read before, or are brackets of the grammar
  refine Grammar.lexemes_of_legible ?_ hsymbols hvs
  have holdLine := Grammar.legible_tokenize hline
  have holdInner := Grammar.legible_tokenize hinner
  intro y hy
  simp only [List.mem_append, List.mem_cons, List.not_mem_nil, or_false] at hy
  rcases hy with hy | (rfl | hy | rfl) | hy
  · exact holdLine y (by simp [hy])
  · exact hopening
  · exact holdInner y hy
  · exact hclosing
  · exact holdLine y (by simp [hy])

/-- **Brackets in the place of an identifier.** If a line and another one are parsed, and in the
first one the second one is put in brackets in the place of an identifier, then the new line is
parsed, to the tree of the first one with the tree of the second one, in a bracket node, in the
place of the leaf of the identifier. -/
theorem parse_replace (few : g.classes.length < Grammar.bracketRank) {b : BracketPair}
    (hb : b ∈ g.brackets) {line inner : String} {t u : Tree} (ht : g.parse line = .ok t)
    (hu : g.parse inner = .ok u) :
    ∃ tokens, g.tokenize line = .ok tokens ∧
      ∀ x ∈ tokens, ∀ hk : x.kind = .identifier, .leaf x (arity_identifier hk) ∈ t.walk ∧
        ∃ s t', x.span = some s ∧
          g.parse (s.replace line s!" {b.opening.symbol} {inner} {b.closing.symbol} ") = .ok t' ∧
            t'.unplaced = (t.graft x.index (u.inBracket b.opening.symbol)).unplaced := by
  obtain ⟨tokens, htokens⟩ := g.exists_tokenize line
  obtain ⟨us, hus⟩ := g.exists_tokenize inner
  rw [Grammar.parse, htokens] at ht
  rw [Grammar.parse, hus] at hu
  refine ⟨tokens, htokens, ?_⟩
  intro x hx hk
  obtain ⟨before, behind, rfl⟩ := List.append_of_mem hx
  obtain ⟨s, -, -, hs, -⟩ := exists_split_token htokens
  refine ⟨?_, s, ?_⟩
  · -- the identifier has come out of the run
    have hperm := perm_runFresh (Grammar.tokenize_knows htokens) (Grammar.tokenize_spans htokens)
      (parseTokens_eq_ok_iff.mp ht).1
    apply Tree.leaf_mem_walk
    rw [hperm.mem_iff]
    simp [hk]
  · obtain ⟨vs, hvs⟩ := g.exists_tokenize
      (s.replace line s!" {b.opening.symbol} {inner} {b.closing.symbol} ")
    obtain ⟨t', ht', hplaces⟩ := exists_parseTokens_graft hb hk
      (Grammar.readable_tokenize few htokens) (Grammar.nodup_indices htokens)
      (Grammar.readable_tokenize few hus) (Grammar.readable_tokenize few hvs)
      (lexemes_tokenize_replace hb htokens hus hs hvs) ht hu
    exact ⟨t', hs, by rw [Grammar.parse, hvs]; exact ht', hplaces⟩

/-- The tree of the line `a * b`. -/
def productTree : Tree :=
  .binary ⟨⟨.binary, "*"⟩, 1, some ⟨2, 3, 1⟩⟩ rfl
    (.leaf ⟨⟨.identifier, "a"⟩, 0, some ⟨0, 1, 1⟩⟩ rfl)
    (.leaf ⟨⟨.identifier, "b"⟩, 2, some ⟨4, 5, 1⟩⟩ rfl)

theorem parse_product : looseSign.parse "a * b" = .ok productTree := by
  have htokens : looseSign.tokenize "a * b" = .ok [⟨⟨.identifier, "a"⟩, 0, some ⟨0, 1, 1⟩⟩,
      ⟨⟨.binary, "*"⟩, 1, some ⟨2, 3, 1⟩⟩, ⟨⟨.identifier, "b"⟩, 2, some ⟨4, 5, 1⟩⟩] := by
    cbv
  rw [Grammar.parse, htokens]
  rfl

/-- In `x + ( y * - z )`, where the product leaves the bracket, `a * b` takes the place of `y`. -/
theorem parse_replace_escape :
    ∃ t', looseSign.parse "x + (  ( a * b )  * - z )" = .ok t' ∧
      t'.unplaced = (escapeTree.graft 3 (productTree.inBracket "(")).unplaced := by
  obtain ⟨tokens, htokens, hreplace⟩ :=
    parse_replace (b := ⟨.ofKind .opening "(", .ofKind .closing ")"⟩) (by decide) (by decide)
      parse_escape parse_product
  obtain rfl : escapeTokens = tokens := Except.ok.inj (tokenize_escape.symm.trans htokens)
  obtain ⟨-, s, t', hs, ht', hplaces⟩ :=
    hreplace ⟨⟨.identifier, "y"⟩, 3, some ⟨6, 7, 1⟩⟩ (by decide) rfl
  obtain rfl : ⟨6, 7, 1⟩ = s := Option.some.inj hs
  exact ⟨t', ht', hplaces⟩

end Fixity
