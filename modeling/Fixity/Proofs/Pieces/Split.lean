import Fixity.Proofs.Grammar.Agreement
import Fixity.Proofs.Pieces.Tokens
import Fixity.Proofs.Text.Seams

/-!
# How a line is cut

Every piece of a line is a symbol of the grammar or holds none: what one symbol has set apart, no
later one puts together again. And the pieces of a line do not depend on what stands beyond a
blank, or beyond the end of one of them. A symbol that went over this place would be a piece
itself, or a part of one, and the line would not be cut there.

## Main statements

- `isPiece_of_mem_split`: every piece is one that padding leaves as it is
- `split_append_blank`: a blank cuts a line into two that are cut apart
- `split_of_seam`: so does the end of a piece
- `split_complete`: what the pieces and the tokens of a line can be
-/

namespace Fixity.Grammar

variable {g : Grammar}

/-! ## §1 Padding one symbol after the other -/

theorem padded_append_blank {order : List String} (h : ∀ s ∈ order, IsSymbol s) {c : Char}
    (hc : Text.isBlank c = true) (u v : List Char) :
    padded order (u ++ c :: v) = padded order u ++ c :: padded order v := by
  induction order generalizing u v with
  | nil => rfl
  | cons s order ih =>
    obtain ⟨hs, hrest⟩ := List.forall_mem_cons.mp h
    rw [padded_cons, Text.isolate_append_blank (toList_ne_nil hs) hs.2 hc, ih hrest]
    rfl

/-- Words that are settled for a pattern stay settled. -/
theorem settled_padded {order : List String} (h : ∀ s ∈ order, IsSymbol s) {p cs : List Char}
    (hcs : ∀ w ∈ Text.words cs, Text.Settled p w) :
    ∀ w ∈ Text.words (padded order cs), Text.Settled p w := by
  induction order generalizing cs with
  | nil => exact hcs
  | cons s order ih =>
    obtain ⟨hs, hrest⟩ := List.forall_mem_cons.mp h
    exact ih hrest (Text.settled_of_respaced (Text.respaced_isolate (toList_ne_nil hs) cs) hcs)

theorem settled_of_mem_words_padded {order : List String} (h : ∀ s ∈ order, IsSymbol s)
    {cs : List Char} :
    ∀ s ∈ order, ∀ w ∈ Text.words (padded order cs), Text.Settled s.toList w := by
  induction order generalizing cs with
  | nil => simp
  | cons s order ih =>
    obtain ⟨hs, hrest⟩ := List.forall_mem_cons.mp h
    intro t ht
    rcases List.mem_cons.mp ht with rfl | ht
    · -- settled where the symbol was set apart, and so ever after
      exact settled_padded hrest fun w hw =>
        Text.settled_of_mem_words_isolate (toList_ne_nil hs) hs.2 hw
    · exact ih hrest t ht

/-! ## §2 Padding at a seam -/

/-- At a seam two texts are padded apart, or a piece goes over the seam. For this the symbols
must leave each other in one. -/
theorem words_padded_append_or {order : List String} (h : ∀ s ∈ order, IsSymbol s)
    (apart : ∀ s ∈ order, ∀ t ∈ order, Text.Settled t.toList s.toList) (u v : List Char) :
    Text.words (padded order (u ++ v)) =
        Text.words (padded order u) ++ Text.words (padded order v) ∨
      Text.Straddles (Text.words (padded order (u ++ v))) u := by
  induction order generalizing u v with
  | nil => exact Text.words_append_or u v
  | cons s order ih =>
    obtain ⟨hs, hrest⟩ := List.forall_mem_cons.mp h
    have hne := toList_ne_nil hs
    simp only [padded_cons]
    rcases Text.isolate_append_or hne u v with hsplit | ⟨u', q, r, v', hq, hr, hp, rfl, rfl, hhit⟩
    · rw [hsplit]
      rcases ih hrest (fun t ht t' ht' => apart t (by simp [ht]) t' (by simp [ht'])) _ _ with
        hwords | ⟨before, q, r, after, hq, hr, hwords, hink⟩
      · exact .inl hwords
      · -- the blanks that were put in do not count
        rw [(Text.respaced_isolate hne u).ink_eq] at hink
        exact .inr ⟨before, q, r, after, hq, hr, hwords, hink⟩
    · -- the occurrence over the seam stays in one
      have hword : Text.words (padded order s.toList) = [s.toList] := by
        have hself := Text.words_eq_singleton hne hs.2
        rw [words_padded hrest, hself]
        intro w hw t ht
        rw [hself, List.mem_singleton] at hw
        rw [hw]
        exact apart s (by simp) t (by simp [ht])
      rw [hhit, padded_append_blank hrest Text.isBlank_space,
        padded_append_blank hrest Text.isBlank_space, Text.words_append_cons Text.isBlank_space,
        Text.words_append_cons Text.isBlank_space, hword, hp]
      refine .inr (Text.straddles_of_hit hq hr ?_ ?_)
      · intro d hd
        exact hs.2 d (by simp [hp, hd])
      · rw [(cut_of_padded hrest (Text.cut_words _)).flatten_eq, ← hp,
          (Text.respaced_isolate hne u').ink_eq]

/-! ## §3 Pieces of a line -/

/-- **Every piece of a line is a symbol or holds none.** -/
theorem isPiece_of_mem_split {line piece : String} (h : piece ∈ g.split line) :
    g.IsPiece piece := by
  obtain ⟨w, hw, rfl⟩ := List.mem_map.mp h
  obtain ⟨hne, hblank⟩ := Text.mem_words hw
  refine ⟨⟨?_, by simpa using hblank⟩, ?_⟩
  · intro hnil
    exact hne (by simpa using congrArg String.toList hnil)
  · intro t ht
    rw [String.toList_ofList]
    exact settled_of_mem_words_padded (fun s => isSymbol_of_mem_isolationOrder) t.symbol
      (mem_isolationOrder.mpr ⟨t, ht, rfl⟩) w hw

/-- Written by its symbol, the token is cut out in one piece and gets its lexeme back. -/
def Legible (g : Grammar) (x : Token) : Prop :=
  g.IsPiece x.symbol ∧ (g.classify x.symbol).toLexeme = x.toLexeme

theorem Registers.legible {x : Token} (h : g.Registers x) : g.Legible x := by
  obtain ⟨s, hs, hsx⟩ := h
  have hsymbol : s.symbol = x.symbol := congrArg Lexeme.symbol hsx
  refine ⟨hsymbol ▸ isPiece_symbol hs, ?_⟩
  have hlookup : g.lookup? x.symbol = some s := lookup?_eq_some_iff.mpr ⟨hs, hsymbol⟩
  rw [classify, hlookup, Option.getD_some, hsx]

/-- The tokens of a line are legible, wherever their symbols are written again. -/
theorem legible_tokenize {line : String} {tokens : List Token}
    (h : g.tokenize line = .ok tokens) : ∀ t ∈ tokens, g.Legible t := by
  intro t ht
  refine ⟨?_, classify_tokenize h t ht⟩
  have hpiece : t.symbol ∈ g.split line := symbols_tokenize h ▸ List.mem_map_of_mem ht
  exact isPiece_of_mem_split hpiece

/-- If a line is cut into the symbols of legible tokens, these are its tokens but for the places. -/
theorem lexemes_of_legible {line : String} {tokens ts : List Token} (hts : ∀ t ∈ ts, g.Legible t)
    (hsplit : g.split line = ts.map (·.symbol)) (h : g.tokenize line = .ok tokens) :
    tokens.map (·.toLexeme) = ts.map (·.toLexeme) := by
  rw [lexemes_locate h, hsplit, List.map_map]
  apply List.map_congr_left
  intro t ht
  exact (hts t ht).2

/-- A piece is cut no further. -/
theorem split_piece {piece : String} (h : g.IsPiece piece) : g.split piece = [piece] := by
  have hpieces : ∀ p ∈ [piece], g.IsPiece p := by simpa using h
  simpa using split_intercalate hpieces

/-- **A blank cuts a line into two that are cut apart.** -/
theorem split_append_blank {line u v : String} {c : Char} (hc : Text.isBlank c = true)
    (h : line.toList = u.toList ++ c :: v.toList) : g.split line = g.split u ++ g.split v := by
  have hpadded : padded g.isolationOrder (u.toList ++ c :: v.toList) =
      padded g.isolationOrder u.toList ++ c :: padded g.isolationOrder v.toList :=
    padded_append_blank (fun s => isSymbol_of_mem_isolationOrder) hc u.toList v.toList
  rw [split, h, isolateAll_eq_padded, hpadded, Text.words_append_cons hc, List.map_append]
  rfl

/-- **Where a line is cut, what stands before and what stands behind do not matter to each
other.** -/
theorem split_of_seam {line u v : String} (hline : line.toList = u.toList ++ v.toList)
    {ps qs : List String} (h : g.split line = ps ++ qs)
    (hink : (ps.map String.toList).flatten = Text.ink u.toList) :
    g.split u = ps ∧ g.split v = qs := by
  have hpieces (s : String) : (g.split s).map String.toList =
      Text.words (padded g.isolationOrder s.toList) := by
    simp [split, isolateAll_eq_padded, Function.comp_def]
  have hsplit := congrArg (List.map String.toList) h
  rw [hpieces, hline, List.map_append] at hsplit
  -- no piece goes over the seam, so the two parts were cut apart
  have hapart : ∀ s ∈ g.isolationOrder, ∀ t ∈ g.isolationOrder,
      Text.Settled t.toList s.toList := by
    intro s hs t ht
    obtain ⟨x, hx, rfl⟩ := mem_isolationOrder.mp hs
    obtain ⟨y, hy, rfl⟩ := mem_isolationOrder.mp ht
    exact (isPiece_symbol hx).2 y hy
  rcases words_padded_append_or (fun s => isSymbol_of_mem_isolationOrder) hapart u.toList v.toList
    with hwords | hover
  · rw [hwords, ← hpieces, ← hpieces] at hsplit
    -- cut after the same characters, the pieces are the same
    have hne : ∀ (s : String), ∀ p ∈ (g.split s).map String.toList, p ≠ [] := by
      intro s p hp
      rw [hpieces] at hp
      exact (Text.mem_words hp).1
    have hflat : ((g.split u).map String.toList).flatten = (ps.map String.toList).flatten := by
      rw [hink, (g.cut_split u).flatten_eq]
    have hmem : ∀ p ∈ ps.map String.toList, p ≠ [] := by
      intro p hp
      obtain ⟨s, hs, rfl⟩ := List.mem_map.mp hp
      exact toList_ne_nil (isPiece_of_mem_split (h ▸ List.mem_append_left qs hs)).1
    obtain ⟨hu, hv⟩ := Text.split_of_flatten (hne u) hmem hsplit hflat
    have hinj : Function.Injective (List.map String.toList) :=
      List.map_injective_iff.mpr fun _ _ => String.toList_injective
    exact ⟨hinj hu, hinj hv⟩
  · rw [hsplit] at hover
    exact absurd hover (Text.not_straddles hink)

/-! ## §4 Pieces and tokens -/

/-- A piece is a symbol of the grammar, or no symbol occurs in it. -/
theorem IsPiece.mem_symbols_or {piece : String} (h : g.IsPiece piece) :
    piece ∈ g.symbols ∨ ∀ s ∈ g.symbols, ¬ s.toList <:+: piece.toList := by
  by_cases hmem : piece ∈ g.symbols
  · exact .inl hmem
  · right
    intro s hs hpart
    obtain ⟨t, ht, rfl⟩ := mem_symbols.mp hs
    rcases h.2 t ht with hpiece | habsent
    · rw [String.toList_inj.mp hpiece] at hmem
      exact hmem hs
    · exact habsent hpart

/-- A token of a line is what its symbol stands for, put in its place. -/
theorem eq_placed_classify {line : String} {tokens : List Token}
    (h : g.tokenize line = .ok tokens) :
    ∀ t ∈ tokens, t = (g.classify t.symbol).placed t.index t.span := by
  intro t ht
  have hlexeme : (g.classify t.symbol).toLexeme = t.toLexeme := classify_tokenize h t ht
  rw [Token.placed, hlexeme]

/-- **What the pieces and the tokens of a line can be.** A piece has characters, none of them
blank, and is a symbol of the grammar or holds none. There is a token for each piece: the one of the
table in its place, if the piece is a symbol, and otherwise an identifier, in which no symbol
occurs. And the pieces, joined with single spaces, are cut into the same pieces again. -/
theorem split_complete (g : Grammar) (line : String) :
    (∀ p ∈ g.split line, (p ≠ "" ∧ ∀ c ∈ p.toList, Text.isBlank c = false) ∧
      (p ∈ g.symbols ∨ ∀ s ∈ g.symbols, ¬ s.toList <:+: p.toList)) ∧
    (∃ tokens, g.tokenize line = .ok tokens ∧ tokens.map (·.symbol) = g.split line ∧
      ∀ t ∈ tokens,
        (∃ r, g.lookup? t.symbol = some r ∧ t = r.placed t.index t.span) ∨
        (t.kind = .identifier ∧ ∀ s ∈ g.symbols, ¬ s.toList <:+: t.symbol.toList)) ∧
    g.split (" ".intercalate (g.split line)) = g.split line := by
  have hpieces : ∀ p ∈ g.split line, g.IsPiece p := fun p => isPiece_of_mem_split
  refine ⟨fun p hp => ⟨(hpieces p hp).1, (hpieces p hp).mem_symbols_or⟩, ?_,
    split_intercalate hpieces⟩
  obtain ⟨tokens, htokens⟩ := g.exists_tokenize line
  have hsymbols := symbols_tokenize htokens
  refine ⟨tokens, htokens, hsymbols, ?_⟩
  intro t ht
  have hplaced := eq_placed_classify htokens t ht
  cases hlookup : g.lookup? t.symbol with
  | some r =>
    rw [classify, hlookup, Option.getD_some] at hplaced
    exact .inl ⟨r, rfl, hplaced⟩
  | none =>
    rw [classify, hlookup, Option.getD_none] at hplaced
    refine .inr ⟨congrArg (·.kind) hplaced, ?_⟩
    have hpiece : g.IsPiece t.symbol := hpieces _ (hsymbols ▸ List.mem_map_of_mem ht)
    refine hpiece.mem_symbols_or.resolve_left fun hmem => ?_
    -- a symbol of the grammar would be found in the table
    obtain ⟨r, hr, hsymbol⟩ := mem_symbols.mp hmem
    rw [lookup?_eq_some_iff.mpr ⟨hr, hsymbol⟩] at hlookup
    contradiction

end Fixity.Grammar
