import Fixity.Pieces
import Fixity.Proofs.Grammar.Registered
import Fixity.Proofs.Text.Spacing

/-!
# The tokens of a line

Every piece of a line is found where it was cut out, so every line has tokens. They are
identifiers or registered, numbered one after the other, and none takes up less than nothing.
A text that is written with spaces between its pieces is cut into these pieces again, if every
one of them is a symbol or holds none.

## Main statements

- `exists_tokenize`: no piece of a line is lost
- `tokenize_knows`, `nodup_indices`, `tokenize_spans`: what is known of the tokens
- `split_intercalate`: cutting undoes joining
-/

namespace Fixity

/-- The token stands somewhere in the line, and does not end before it begins. -/
def Token.Spanned (t : Token) : Prop :=
  ∃ s, t.span = some s ∧ s.start ≤ s.stop

namespace Grammar

variable {g : Grammar}

/-! ## §1 Padding all symbols -/

theorem mem_isolationOrder {s : String} :
    s ∈ g.isolationOrder ↔ ∃ t ∈ g.tokens, t.symbol = s := by
  simp [isolationOrder]

theorem isSymbol_of_mem_isolationOrder {s : String} (h : s ∈ g.isolationOrder) : IsSymbol s := by
  obtain ⟨t, ht, rfl⟩ := mem_isolationOrder.mp h
  exact isSymbol_of_mem ht

theorem toList_ne_nil {s : String} (h : IsSymbol s) : s.toList ≠ [] := by
  intro hnil
  exact h.1 (String.toList_eq_nil_iff.mp hnil)

/-- The text in which the occurrences of each symbol were set apart, in the order given. -/
def padded (order : List String) (cs : List Char) : List Char :=
  order.foldl (fun cs s => Text.isolate s.toList cs) cs

theorem padded_cons (s : String) (order : List String) (cs : List Char) :
    padded (s :: order) cs = padded order (Text.isolate s.toList cs) := rfl

theorem isolateAll_eq_padded (g : Grammar) (cs : List Char) :
    g.isolateAll cs = padded g.isolationOrder cs := rfl

/-- The parts of a padded text lie in the text itself. -/
theorem cut_of_padded {order : List String} (h : ∀ s ∈ order, IsSymbol s) {cs : List Char}
    {ps : List (List Char)} (hcut : Text.Cut (padded order cs) ps) : Text.Cut cs ps := by
  induction order generalizing cs with
  | nil => exact hcut
  | cons s order ih =>
    -- the other symbols pad what the first one has padded
    have hrest := ih (fun t ht => h t (by simp [ht])) hcut
    exact Text.cut_of_respaced hrest (Text.respaced_isolate (toList_ne_nil (h s (by simp))) cs)

theorem cut_split (g : Grammar) (line : String) :
    Text.Cut line.toList ((g.split line).map String.toList) := by
  have hmap : (g.split line).map String.toList = Text.words (g.isolateAll line.toList) := by
    simp [split, Function.comp_def]
  rw [hmap]
  exact cut_of_padded (fun s => isSymbol_of_mem_isolationOrder) (Text.cut_words _)

/-! ## §2 Pieces are found where they were cut out -/

/-- Nothing but blanks stands before a part, so it is found there. -/
theorem find?_gap {gap p : List Char} (hgap : ∀ c ∈ gap, Text.isBlank c = true) (hne : p ≠ [])
    (hp : ∀ c ∈ p, Text.isBlank c = false) (cs : List Char) :
    Text.find? p (gap ++ (p ++ cs)) = some gap.length := by
  obtain ⟨d, q, rfl⟩ := List.exists_cons_of_ne_nil hne
  induction gap with
  | nil =>
    have hprefix : (d :: q).isPrefixOf (d :: (q ++ cs)) = true := by
      rw [List.isPrefixOf_iff_prefix]
      exact List.prefix_append (d :: q) cs
    rw [List.nil_append, List.cons_append, Text.find?, if_pos hprefix]
    rfl
  | cons b gap ih =>
    -- a part does not start with a blank
    have hmiss : ¬ (d :: q).isPrefixOf (b :: (gap ++ (d :: q ++ cs))) = true := by
      intro hprefix
      obtain ⟨rfl, -⟩ := List.cons_prefix_cons.mp (List.isPrefixOf_iff_prefix.mp hprefix)
      have := hp d (by simp)
      simp [hgap d (by simp)] at this
    rw [List.cons_append, Text.find?, if_neg hmiss, ih fun c hc => hgap c (by simp [hc])]
    rfl

/-- The first piece is found behind the blanks, and the search goes on behind the piece. -/
theorem locate_gap {gap : List Char} (hgap : ∀ c ∈ gap, Text.isBlank c = true) {piece : String}
    (hpiece : IsSymbol piece) (index offset : Nat) (rest : List Char) (pieces : List String) :
    g.locate index offset (gap ++ (piece.toList ++ rest)) (piece :: pieces) =
      (g.locate (index + 1) (offset + gap.length + piece.length) rest pieces).map
        ((g.classify piece).placed index (some ⟨(offset + gap.length : Nat),
          (offset + gap.length + piece.length : Nat), 1⟩) :: ·) := by
  have hdrop : (gap ++ (piece.toList ++ rest)).drop (gap.length + piece.length) = rest := by
    rw [← String.length_toList, ← List.length_append, ← List.append_assoc, List.drop_left]
  rw [locate, find?_gap hgap (toList_ne_nil hpiece) hpiece.2]
  simp only [hdrop]

/-- The first piece of a text that is cut into pieces stands behind blanks. -/
theorem exists_gap_of_cut {rest : List Char} {piece : String} {pieces : List String}
    (h : Text.Cut rest ((piece :: pieces).map String.toList)) :
    ∃ gap behind, rest = gap ++ (piece.toList ++ behind) ∧
      (∀ c ∈ gap, Text.isBlank c = true) ∧ IsSymbol piece ∧
        Text.Cut behind (pieces.map String.toList) := by
  obtain ⟨gap, behind, hrest, hgap, hne, hp, hcut⟩ := h.exists_gap
  exact ⟨gap, behind, hrest, hgap, ⟨mt String.toList_eq_nil_iff.mpr hne, hp⟩, hcut⟩

theorem exists_locate {pieces : List String} {index offset : Nat} {rest : List Char}
    (h : Text.Cut rest (pieces.map String.toList)) :
    ∃ tokens, g.locate index offset rest pieces = .ok tokens := by
  induction pieces generalizing index offset rest with
  | nil => exact ⟨[], rfl⟩
  | cons piece pieces ih =>
    obtain ⟨gap, behind, rfl, hgap, hpiece, hcut⟩ := exists_gap_of_cut h
    -- what is left behind the piece is cut into the other pieces
    obtain ⟨tokens, htokens⟩ : ∃ tokens,
        g.locate (index + 1) (offset + gap.length + piece.length) behind pieces = .ok tokens :=
      ih hcut
    exact ⟨_, by rw [locate_gap hgap hpiece, htokens, Except.map]⟩

/-- **Every line has tokens**: no piece of it is lost. -/
theorem exists_tokenize (g : Grammar) (line : String) :
    ∃ tokens, g.tokenize line = .ok tokens :=
  exists_locate (g.cut_split line)

/-! ## §3 What is known of the tokens -/

theorem knows_classify (g : Grammar) (piece : String) : g.Knows (g.classify piece) := by
  cases h : g.lookup? piece with
  | none =>
    -- what is not in the table is an identifier
    left
    simp [classify, h, Token.ofKind]
  | some t =>
    right
    simpa [classify, h] using ⟨t, (lookup?_eq_some_iff.mp h).1, rfl⟩

theorem symbol_classify (g : Grammar) (piece : String) : (g.classify piece).symbol = piece := by
  cases h : g.lookup? piece with
  | none => simp [classify, h, Token.ofKind]
  | some t => simpa [classify, h] using (lookup?_eq_some_iff.mp h).2

/-- A located token stands where its piece was found, in front of the other tokens. -/
theorem locate_cons {piece : String} {pieces : List String} {index offset : Nat}
    {rest : List Char} {tokens : List Token}
    (h : g.locate index offset rest (piece :: pieces) = .ok tokens) :
    ∃ (start : Nat) (others : List Token),
      tokens = (g.classify piece).placed index (some ⟨start, start + piece.length, 1⟩) :: others ∧
        ∃ (offset : Nat) (rest : List Char),
          g.locate (index + 1) offset rest pieces = .ok others := by
  rw [locate] at h
  -- neither the piece itself nor one of the others was missed
  cases hfind : Text.find? piece.toList rest with
  | none => simp [hfind] at h
  | some before =>
    simp only [hfind] at h
    cases hothers : g.locate (index + 1) (offset + before + piece.length)
        (rest.drop (before + piece.length)) pieces with
    | error e => simp [hothers, Except.map] at h
    | ok others =>
      refine ⟨offset + before, others, ?_, _, _, hothers⟩
      simpa [hothers, Except.map] using h.symm

theorem lexemes_locate {pieces : List String} {index offset : Nat} {rest : List Char}
    {tokens : List Token} (h : g.locate index offset rest pieces = .ok tokens) :
    tokens.map (·.toLexeme) = pieces.map fun p => (g.classify p).toLexeme := by
  induction pieces generalizing index offset rest tokens with
  | nil =>
    obtain rfl : [] = tokens := by simpa [locate] using h
    rfl
  | cons piece pieces ih =>
    obtain ⟨start, others, rfl, _, _, hothers⟩ := locate_cons h
    simp [ih hothers]

theorem indices_locate {pieces : List String} {index offset : Nat} {rest : List Char}
    {tokens : List Token} (h : g.locate index offset rest pieces = .ok tokens) :
    tokens.map (·.index) = (List.range' index pieces.length).map Int.ofNat := by
  induction pieces generalizing index offset rest tokens with
  | nil =>
    obtain rfl : [] = tokens := by simpa [locate] using h
    rfl
  | cons piece pieces ih =>
    obtain ⟨start, others, rfl, _, _, hothers⟩ := locate_cons h
    simp [ih hothers, Token.placed, List.range'_succ]

theorem spans_locate {pieces : List String} {index offset : Nat} {rest : List Char}
    {tokens : List Token} (h : g.locate index offset rest pieces = .ok tokens) :
    ∀ t ∈ tokens, t.Spanned := by
  induction pieces generalizing index offset rest tokens with
  | nil =>
    obtain rfl : [] = tokens := by simpa [locate] using h
    simp
  | cons piece pieces ih =>
    obtain ⟨start, others, rfl, _, _, hothers⟩ := locate_cons h
    intro t ht
    rcases List.mem_cons.mp ht with rfl | ht
    · exact ⟨_, rfl, by dsimp only; omega⟩
    · exact ih hothers t ht

variable {line : String} {tokens : List Token}

theorem symbols_tokenize (h : g.tokenize line = .ok tokens) :
    tokens.map (·.symbol) = g.split line := by
  have hsymbols := congrArg (List.map Lexeme.symbol) (lexemes_locate h)
  simpa [Function.comp_def, symbol_classify] using hsymbols

/-- Apart from its place a token is what the table says of its symbol. -/
theorem classify_tokenize (h : g.tokenize line = .ok tokens) :
    ∀ t ∈ tokens, (g.classify t.symbol).toLexeme = t.toLexeme := by
  have hlexemes := lexemes_locate h
  rw [← symbols_tokenize h, List.map_map] at hlexemes
  intro t ht
  exact (List.map_inj_left.mp hlexemes t ht).symm

theorem tokenize_knows (h : g.tokenize line = .ok tokens) : ∀ t ∈ tokens, g.Knows t := by
  intro t ht
  rw [← classify_tokenize h t ht]
  exact g.knows_classify t.symbol

theorem nodup_indices (h : g.tokenize line = .ok tokens) : (tokens.map (·.index)).Nodup := by
  rw [indices_locate h]
  exact List.Nodup.map (fun _ _ => Int.ofNat.inj) List.nodup_range'

theorem tokenize_spans (h : g.tokenize line = .ok tokens) : ∀ t ∈ tokens, t.Spanned :=
  spans_locate h

/-! ## §4 Joined pieces -/

/-- A piece that padding leaves in one: a symbol of the grammar, or a text that holds none. -/
def IsPiece (g : Grammar) (s : String) : Prop :=
  IsSymbol s ∧ ∀ t ∈ g.tokens, Text.Settled t.symbol.toList s.toList

/-- Symbols of a grammar do not overlap, so each of them is left in one. -/
theorem isPiece_symbol {t : Token} (ht : t ∈ g.tokens) : g.IsPiece t.symbol := by
  refine ⟨isSymbol_of_mem ht, ?_⟩
  intro s hs
  by_cases hpart : s.symbol.toList <:+: t.symbol.toList
  · exact .inl (congrArg String.toList (symbol_eq_of_part hs ht hpart)).symm
  · exact .inr hpart

theorem words_intercalate {ws : List (List Char)}
    (h : ∀ w ∈ ws, w ≠ [] ∧ ∀ c ∈ w, Text.isBlank c = false) :
    Text.words ([' '].intercalate ws) = ws := by
  induction ws with
  | nil => rfl
  | cons w ws ih =>
    obtain ⟨hne, hw⟩ := h w (by simp)
    -- only between two words there is a space
    cases ws with
    | nil => simpa using Text.words_eq_singleton hne hw
    | cons v ws =>
      have hsplit : [' '].intercalate (w :: v :: ws) = w ++ ' ' :: [' '].intercalate (v :: ws) := by
        simp [List.intercalate]
      rw [hsplit, Text.words_append_cons Text.isBlank_space, Text.words_eq_singleton hne hw,
        ih fun u hu => h u (by simp [hu])]
      rfl

theorem words_padded {order : List String} (h : ∀ s ∈ order, IsSymbol s) {cs : List Char}
    (hcs : ∀ w ∈ Text.words cs, ∀ s ∈ order, Text.Settled s.toList w) :
    Text.words (padded order cs) = Text.words cs := by
  induction order generalizing cs with
  | nil => rfl
  | cons s order ih =>
    -- the words stay, so they are settled for the next symbol too
    have hstep : Text.words (Text.isolate s.toList cs) = Text.words cs :=
      Text.words_isolate (toList_ne_nil (h s (by simp))) (h s (by simp)).2 cs
        fun w hw => hcs w hw s (by simp)
    rw [padded_cons, ih (fun t ht => h t (by simp [ht])), hstep]
    intro w hw t ht
    rw [hstep] at hw
    exact hcs w hw t (by simp [ht])

/-- **Cutting undoes joining** with single spaces. -/
theorem split_intercalate {pieces : List String} (h : ∀ p ∈ pieces, g.IsPiece p) :
    g.split (" ".intercalate pieces) = pieces := by
  have hwords : Text.words (" ".intercalate pieces).toList = pieces.map String.toList := by
    rw [String.toList_intercalate]
    apply words_intercalate
    intro w hw
    obtain ⟨p, hp, rfl⟩ := List.mem_map.mp hw
    exact ⟨toList_ne_nil (h p hp).1, (h p hp).1.2⟩
  -- so no symbol takes one of the pieces apart
  have hsettled : ∀ w ∈ Text.words (" ".intercalate pieces).toList,
      ∀ s ∈ g.isolationOrder, Text.Settled s.toList w := by
    rw [hwords]
    intro w hw s hs
    obtain ⟨p, hp, rfl⟩ := List.mem_map.mp hw
    obtain ⟨t, ht, rfl⟩ := mem_isolationOrder.mp hs
    exact (h p hp).2 t ht
  rw [split, isolateAll_eq_padded, words_padded (fun s => isSymbol_of_mem_isolationOrder) hsettled,
    hwords]
  simp [Function.comp_def]

end Grammar

end Fixity
