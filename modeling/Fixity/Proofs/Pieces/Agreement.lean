import Fixity.Proofs.Grammar.Agreement
import Fixity.Proofs.Pieces.Tokens
import Fixity.Proofs.Text.Seams

/-!
# Tokens under grammars that agree

A symbol that does not occur in a line is not padded in it, neither at first nor after other symbols
were padded: only blanks are put in, and no symbol holds a blank. So the pieces of a line depend on
the symbols that occur in it and on the order in which these are padded, and this order is that of
the symbols themselves, not that of their declaration.

## Main statements

- `padded_filter`: only the symbols that occur are padded
- `filter_isolationOrder`: they are padded in the same order
- `AgreeOn.tokenize`: a line has the same tokens under grammars that agree on it
-/

namespace Fixity

/-! ## §1 Symbols that do not occur -/

/-- A part without blanks of a text into which blanks were put is a part of the text. -/
theorem Text.part_of_respaced {p cs ds : List Char} (hne : p ≠ [])
    (hp : ∀ d ∈ p, isBlank d = false) (hr : Respaced cs ds) (h : p <:+: ds) : p <:+: cs := by
  obtain ⟨w, hw, hpart⟩ := exists_mem_words_of_part hne hp h
  -- the words of the text with more blanks lie in the text
  have hcut : Cut cs (words ds) := cut_of_respaced (cut_words ds) hr
  exact hpart.trans (hcut.part_of_mem w hw)

namespace Grammar

variable {g g' : Grammar} {line : String}

/-- **Only the symbols that occur are padded.** -/
theorem padded_filter {order : List String} (horder : ∀ s ∈ order, IsSymbol s) {cs ds : List Char}
    (hparts : ∀ s, IsSymbol s → s.toList <:+: ds → s.toList <:+: cs) :
    padded order ds = padded (order.filter fun s => Text.occurs s.toList cs) ds := by
  induction order generalizing ds with
  | nil => rfl
  | cons s order ih =>
    obtain ⟨hs, hmore⟩ := List.forall_mem_cons.mp horder
    have hne := toList_ne_nil hs
    by_cases hoccurs : s.toList <:+: cs
    · have hparts' : ∀ t, IsSymbol t → t.toList <:+: Text.isolate s.toList ds →
          t.toList <:+: cs := by
        intro t ht hpart
        apply hparts t ht
        exact Text.part_of_respaced (toList_ne_nil ht) ht.2 (Text.respaced_isolate hne ds) hpart
      rw [List.filter_cons, if_pos (Text.occurs_iff.mpr hoccurs), padded_cons, padded_cons,
        ih hmore hparts']
    · have habsent : ¬ s.toList <:+: ds := mt (hparts s hs) hoccurs
      rw [List.filter_cons, if_neg (mt Text.occurs_iff.mp hoccurs), padded_cons,
        Text.isolate_of_absent hne habsent, ih hmore hparts]

/-! ## §2 The order of padding -/

/-- A symbol is padded before another one if it is longer, or as long and not behind it by code
points. -/
def Precedes (s t : String) : Prop :=
  t.length < s.length ∨ (s.length = t.length ∧ s ≤ t)

theorem Precedes.trans {s t u : String} (h : Precedes s t) (h' : Precedes t u) :
    Precedes s u := by
  rcases h with hlt | ⟨heq, hle⟩
  · rcases h' with hlt' | ⟨heq', -⟩
    · exact .inl (by omega)
    · exact .inl (by omega)
  · rcases h' with hlt' | ⟨heq', hle'⟩
    · exact .inl (by omega)
    · exact .inr ⟨heq.trans heq', String.le_trans hle hle'⟩

theorem Precedes.total (s t : String) : Precedes s t ∨ Precedes t s := by
  rcases Nat.lt_trichotomy s.length t.length with hlt | heq | hlt
  · exact .inr (.inl hlt)
  · exact (String.le_total s t).imp (fun h => .inr ⟨heq, h⟩) fun h => .inr ⟨heq.symm, h⟩
  · exact .inl (.inl hlt)

theorem Precedes.antisymm {s t : String} (h : Precedes s t) (h' : Precedes t s) : s = t := by
  rcases h with hlt | ⟨heq, hle⟩
  · rcases h' with hlt' | ⟨heq', -⟩ <;> omega
  · rcases h' with hlt' | ⟨-, hle'⟩
    · omega
    · exact String.le_antisymm hle hle'

theorem pairwise_isolationOrder (g : Grammar) : g.isolationOrder.Pairwise Precedes := by
  have hsorted : g.isolationOrder.Pairwise fun s t =>
      (t.length < s.length || (s.length = t.length && s ≤ t)) = true := by
    apply List.pairwise_mergeSort
    · intro s t u h h'
      simpa [Precedes] using Precedes.trans (by simpa [Precedes] using h)
        (by simpa [Precedes] using h')
    · intro s t
      simpa [Precedes] using Precedes.total s t
  apply hsorted.imp
  intro s t h
  simpa [Precedes] using h

theorem nodup_isolationOrder (g : Grammar) : g.isolationOrder.Nodup :=
  (List.mergeSort_perm _ _).nodup_iff.mpr g.nodup_symbols

/-- **The symbols that occur are padded in the same order**, whatever others there are. -/
theorem filter_isolationOrder {p : String → Bool}
    (h : ∀ s, p s = true → (s ∈ g.symbols ↔ s ∈ g'.symbols)) :
    g.isolationOrder.filter p = g'.isolationOrder.filter p := by
  have hperm : (g.isolationOrder.filter p).Perm (g'.isolationOrder.filter p) := by
    rw [List.perm_ext_iff_of_nodup (g.nodup_isolationOrder.filter p)
      (g'.nodup_isolationOrder.filter p)]
    intro s
    rw [List.mem_filter, List.mem_filter, mem_isolationOrder, mem_isolationOrder, ← mem_symbols,
      ← mem_symbols]
    exact and_congr_left (h s)
  -- two orders of the same symbols that are both sorted are the same
  exact hperm.eq_of_pairwise (fun _ _ _ _ => Precedes.antisymm)
    (g.pairwise_isolationOrder.filter p) (g'.pairwise_isolationOrder.filter p)

/-! ## §3 Tokens -/

theorem AgreeOn.split (h : AgreeOn line g g') : g.split line = g'.split line := by
  have hfilter := @filter_isolationOrder g g' (fun s => Text.occurs s.toList line.toList)
    fun s hs => h.symbols s (Text.occurs_iff.mp hs)
  have hpadded {g : Grammar} : g.isolateAll line.toList =
      padded (g.isolationOrder.filter fun s => Text.occurs s.toList line.toList) line.toList :=
    padded_filter (fun _ => isSymbol_of_mem_isolationOrder) fun _ _ hpart => hpart
  rw [Grammar.split, Grammar.split, hpadded, hpadded, hfilter]

theorem classify_of_registers {x : Lexeme} (h : g.Registers x) :
    (g.classify x.symbol).toLexeme = x := by
  obtain ⟨t, ht, rfl⟩ := h
  rw [classify, lookup?_eq_some_iff.mpr ⟨ht, rfl⟩]
  rfl

/-- A piece that occurs in the line stands for the same lexeme. -/
theorem AgreeOn.classify (h : AgreeOn line g g') {piece : String}
    (hpiece : piece.toList <:+: line.toList) :
    (g.classify piece).toLexeme = (g'.classify piece).toLexeme := by
  have hoccurs {g : Grammar} : (g.classify piece).OccursIn line := by
    rwa [Lexeme.OccursIn, symbol_classify]
  rcases g.knows_classify piece with hk | hreg
  · rcases g'.knows_classify piece with hk' | hreg'
    · exact lexeme_eq (hk.trans hk'.symm) (by rw [symbol_classify, symbol_classify])
    · have hfound := classify_of_registers ((h.registers hoccurs).mpr hreg')
      rwa [symbol_classify] at hfound
  · have hfound := classify_of_registers ((h.registers hoccurs).mp hreg)
    rw [symbol_classify] at hfound
    exact hfound.symm

/-- A token is placed as its lexeme is. -/
theorem placed_eq_of_lexeme {s t : Token} (h : s.toLexeme = t.toLexeme) (index : Int)
    (span : Option Span) : s.placed index span = t.placed index span := by
  rw [Token.placed, Token.placed, h]

theorem locate_congr {pieces : List String}
    (h : ∀ p ∈ pieces, (g.classify p).toLexeme = (g'.classify p).toLexeme) (index offset : Nat)
    (rest : List Char) :
    g.locate index offset rest pieces = g'.locate index offset rest pieces := by
  induction pieces generalizing index offset rest with
  | nil => rfl
  | cons piece pieces ih =>
    obtain ⟨hpiece, hmore⟩ := List.forall_mem_cons.mp h
    rw [locate, locate]
    cases Text.find? piece.toList rest with
    | none => rfl
    | some before =>
      simp only [ih hmore, placed_eq_of_lexeme hpiece]

theorem part_of_mem_split {piece : String} (h : piece ∈ g.split line) :
    piece.toList <:+: line.toList :=
  (g.cut_split line).part_of_mem _ (List.mem_map_of_mem h)

/-- **A line has the same tokens under grammars that agree on it**, in the same places. -/
theorem AgreeOn.tokenize (h : AgreeOn line g g') : g.tokenize line = g'.tokenize line := by
  rw [Grammar.tokenize, Grammar.tokenize, ← h.split]
  exact locate_congr (fun _ hp => h.classify (part_of_mem_split hp)) 0 0 line.toList

theorem occursIn_tokenize {tokens : List Token} (h : g.tokenize line = .ok tokens) :
    ∀ t ∈ tokens, t.OccursIn line := by
  intro t ht
  apply part_of_mem_split (g := g)
  rw [← symbols_tokenize h]
  exact List.mem_map_of_mem ht

end Grammar

end Fixity
