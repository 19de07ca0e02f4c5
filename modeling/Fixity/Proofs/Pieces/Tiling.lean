import Fixity.Proofs.Pieces.Tokens
import Fixity.Proofs.Text.Seams

/-!
# The places of the tokens

The tokens of a line tile it: from left to right each stands where its span says, and between
them, before the first and behind the last stand only blanks. The line is never searched past a
token for the next one, as a piece does not start with a blank.

## Main statements

- `tiles_locate`: the located tokens tile the text that they were cut from
- `Tiles.exists_of_append`: what stands before a token and what stands behind it
- `tokenize_tiles`: the spans cut a line into its tokens and the blanks between them
-/

namespace Fixity

/-! ## §1 Tilings -/

/-- The text, of which `offset` characters of a line are gone, consists of the tokens in their
places, with nothing but blanks around them. -/
inductive Tiles : (offset : Nat) → List Char → List Token → Prop where
  | blank {offset : Nat} {cs : List Char} :
      (∀ c ∈ cs, Text.isBlank c = true) → Tiles offset cs []
  | token {offset : Nat} {gap rest : List Char} {t : Token} {ts : List Token} :
      (∀ c ∈ gap, Text.isBlank c = true) → IsSymbol t.symbol →
      t.span =
        some ⟨(offset + gap.length : Nat), (offset + gap.length + t.symbol.length : Nat), 1⟩ →
      Tiles (offset + gap.length + t.symbol.length) rest ts →
      Tiles offset (gap ++ (t.symbol.toList ++ rest)) (t :: ts)

namespace Grammar

variable {g : Grammar}

theorem tiles_locate {pieces : List String} {index offset : Nat} {rest : List Char}
    {tokens : List Token} (h : Text.Cut rest (pieces.map String.toList))
    (hlocate : g.locate index offset rest pieces = .ok tokens) : Tiles offset rest tokens := by
  induction pieces generalizing index offset rest tokens with
  | nil =>
    obtain rfl : [] = tokens := by simpa [locate] using hlocate
    exact .blank h.isBlank_of_nil
  | cons piece pieces ih =>
    obtain ⟨gap, behind, rfl, hgap, hpiece, hcut⟩ := exists_gap_of_cut h
    rw [locate_gap hgap hpiece] at hlocate
    cases hothers : g.locate (index + 1) (offset + gap.length + piece.length) behind pieces with
    | error e => simp [hothers, Except.map] at hlocate
    | ok others =>
      simp only [hothers, Except.map, Except.ok.injEq] at hlocate
      rw [← hlocate]
      -- the piece is the symbol of its token
      generalize ht : (g.classify piece).placed index (some _) = t
      have hsymbol : t.symbol = piece := by
        rw [← ht]
        exact g.symbol_classify piece
      rw [← hsymbol] at ht hpiece hothers ⊢
      exact .token hgap hpiece (congrArg Token.span ht).symm (ih hcut hothers)

theorem tiles_tokenize {line : String} {tokens : List Token} (h : g.tokenize line = .ok tokens) :
    Tiles 0 line.toList tokens :=
  tiles_locate (g.cut_split line) h

end Grammar

namespace Tiles

variable {offset : Nat} {cs : List Char} {ts : List Token}

/-! ## §2 One token -/

/-- A token divides the text into what the tokens before it were cut from and the rest. -/
theorem exists_of_append {t : Token} {before after : List Token}
    (h : Tiles offset cs (before ++ t :: after)) :
    ∃ u v, cs = u ++ (t.symbol.toList ++ v) ∧ IsSymbol t.symbol ∧
      t.span = some ⟨(offset + u.length : Nat), (offset + u.length + t.symbol.length : Nat), 1⟩ ∧
      (before.map (·.symbol.toList)).flatten = Text.ink u := by
  induction before generalizing offset cs with
  | nil =>
    cases h with
    | @token _ gap rest _ _ hgap hsymbol hspan _ =>
      exact ⟨gap, rest, rfl, hsymbol, hspan, (Text.ink_of_blank hgap).symm⟩
  | cons s before ih =>
    cases h with
    | @token _ gap rest _ _ hgap hs _ hrest =>
      obtain ⟨u, v, rfl, hsymbol, hspan, hink⟩ := ih hrest
      refine ⟨gap ++ (s.symbol.toList ++ u), v, by simp, hsymbol, ?_, ?_⟩
      · rw [hspan, List.length_append, List.length_append, String.length_toList, ← Nat.add_assoc,
          ← Nat.add_assoc]
      · rw [List.map_cons, List.flatten_cons, hink, Text.ink_append, Text.ink_append,
          Text.ink_of_blank hgap, Text.ink_of_no_blank hs.2, List.nil_append]

/-- A token takes up the characters of its symbol, which are at least one. -/
theorem exists_span (h : Tiles offset cs ts) {t : Token} (ht : t ∈ ts) :
    ∃ n : Nat, t.span = some ⟨(offset + n : Nat), (offset + n + t.symbol.length : Nat), 1⟩ ∧
      IsSymbol t.symbol ∧ t.symbol.toList <+: cs.drop n := by
  obtain ⟨before, after, rfl⟩ := List.append_of_mem ht
  obtain ⟨u, v, rfl, hsymbol, hspan, -⟩ := h.exists_of_append
  exact ⟨u.length, hspan, hsymbol, by simp⟩

theorem mem_offsets {t : Token} {n m : Nat} {l : Int} {i : Int} (h : t.span = some ⟨n, m, l⟩) :
    i ∈ t.offsets ↔ n ≤ i ∧ i < m := by
  simp only [Token.offsets, h, Option.map_some, Option.getD_some, Span.offsets, List.mem_map,
    List.mem_range]
  constructor
  · rintro ⟨k, hk, rfl⟩
    omega
  · intro hi
    exact ⟨(i - n).toNat, by omega, by omega⟩

/-! ## §3 All tokens -/

/-- The tokens stand one behind the other. -/
theorem pairwise (h : Tiles offset cs ts) :
    ts.Pairwise fun s t => ∀ p ∈ s.span, ∀ q ∈ t.span, p.stop ≤ q.start := by
  induction h with
  | blank => exact .nil
  | token _ _ hspan hrest ih =>
    refine List.pairwise_cons.mpr ⟨?_, ih⟩
    intro t ht p hp q hq
    -- the others stand in the rest of the text
    obtain ⟨n, hn, -⟩ := hrest.exists_span ht
    rw [hspan, Option.mem_some_iff] at hp
    rw [hn, Option.mem_some_iff] at hq
    rw [← hp, ← hq]
    dsimp only
    omega

/-- Where a token stands there is no blank. -/
theorem isBlank_eq_false (h : Tiles offset cs ts) {t : Token} (ht : t ∈ ts) {i : Nat} {c : Char}
    (hi : ((offset + i : Nat) : Int) ∈ t.offsets) (hc : cs[i]? = some c) :
    Text.isBlank c = false := by
  obtain ⟨n, hspan, hsymbol, rest, hrest⟩ := h.exists_span ht
  rw [mem_offsets hspan] at hi
  -- the character is one of the symbol
  have hdrop : (cs.drop n)[i - n]? = some c := by
    rw [List.getElem?_drop, Nat.add_sub_cancel' (by omega)]
    exact hc
  rw [← hrest, List.getElem?_append_left (by rw [String.length_toList]; omega)] at hdrop
  exact hsymbol.2 c (List.mem_of_getElem? hdrop)

/-- Where no token stands there is a blank. -/
theorem exists_mem_offsets (h : Tiles offset cs ts) {i : Nat} {c : Char} (hc : cs[i]? = some c)
    (hblank : Text.isBlank c = false) : ∃ t ∈ ts, ((offset + i : Nat) : Int) ∈ t.offsets := by
  induction h generalizing i with
  | blank hcs =>
    have := hcs c (List.mem_of_getElem? hc)
    simp [hblank] at this
  | @token offset gap rest t ts hgap _ hspan _ ih =>
    by_cases hbefore : i < gap.length
    · -- in front of the token stand blanks
      rw [List.getElem?_append_left hbefore] at hc
      have := hgap c (List.mem_of_getElem? hc)
      simp [hblank] at this
    rw [List.getElem?_append_right (by omega)] at hc
    by_cases hinside : i < gap.length + t.symbol.length
    · exact ⟨t, by simp, (mem_offsets hspan).mpr (by omega)⟩
    · -- behind it the other tokens are asked
      rw [List.getElem?_append_right (by rw [String.length_toList]; omega)] at hc
      obtain ⟨s, hs, hi⟩ := ih hc
      rw [String.length_toList] at hi
      refine ⟨s, by simp [hs], ?_⟩
      convert hi using 2
      omega

end Tiles

/-! ## §4 The spans of a line -/

/-- **The spans cut a line into its tokens and the blanks between them.** Every line has tokens,
and they are numbered from zero. Their spans are not empty, follow each other without overlap
and hold their symbols, and a character is inside one of them exactly if it is not blank. -/
theorem tokenize_tiles (g : Grammar) (line : String) :
    ∃ tokens, g.tokenize line = .ok tokens ∧
      tokens.map (·.index) = (List.range tokens.length).map Int.ofNat ∧
      (∀ t ∈ tokens, ∃ start stop : Nat, t.span = some ⟨start, stop, 1⟩ ∧ start < stop ∧
        stop ≤ line.length ∧ (line.toList.take stop).drop start = t.symbol.toList) ∧
      (tokens.Pairwise fun s t => ∀ p ∈ s.span, ∀ q ∈ t.span, p.stop ≤ q.start) ∧
      ∀ (i : Nat) (c : Char), line.toList[i]? = some c →
        ((∃ t ∈ tokens, (i : Int) ∈ t.offsets) ↔ Text.isBlank c = false) := by
  obtain ⟨tokens, htokens⟩ := g.exists_tokenize line
  have htiles := Grammar.tiles_tokenize htokens
  refine ⟨tokens, htokens, ?_, ?_, htiles.pairwise, ?_⟩
  · have hlength := congrArg List.length (Grammar.lexemes_locate htokens)
    rw [List.length_map, List.length_map] at hlength
    rw [Grammar.indices_locate htokens, hlength, List.range_eq_range']
  · intro t ht
    obtain ⟨n, hspan, hsymbol, rest, hrest⟩ := htiles.exists_span ht
    -- the symbol has a character, and ends where the line ends at the latest
    have hpos := List.length_pos_iff.mpr (Grammar.toList_ne_nil hsymbol)
    have hlength := congrArg List.length hrest
    rw [List.length_append, List.length_drop, String.length_toList, String.length_toList] at hlength
    rw [String.length_toList] at hpos
    refine ⟨0 + n, 0 + n + t.symbol.length, hspan, by omega, by omega, ?_⟩
    rw [List.drop_take, Nat.zero_add, ← hrest, Nat.add_sub_cancel_left, ← String.length_toList,
      List.take_left]
  · intro i c hc
    constructor
    · rintro ⟨t, ht, hi⟩
      exact htiles.isBlank_eq_false ht (by rwa [Nat.zero_add]) hc
    · intro hblank
      simpa using htiles.exists_mem_offsets hc hblank

end Fixity
