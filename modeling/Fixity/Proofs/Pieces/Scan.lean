import Fixity.Proofs.Grammar.Agreement
import Fixity.Proofs.Pieces.Tokens
import Mathlib.Data.List.Permutation

/-!
# Scanning a line in one pass

A line can also be cut in one pass from left to right, which takes out the symbol that begins where
the scan is and goes on behind it. This comes to the same pieces as padding one symbol after the
other if no two symbols can share a character of the line. A symbol may overlap itself: both ways
take its occurrences from the left.

A pass of padding is a step from the scan for one more symbol to the scan for one less: where the
symbol was set apart, the blanks around it cut out the piece that the scan takes out itself.

## Main statements

- `Apart.not_begins`: a pattern does not begin inside another one that it is apart from
- `scanFrom_isolate`: one pass of padding
- `words_padded_eq_scan`: all passes of padding, in any order
- `split_eq_scan`: a line is cut as by a scan if its symbols do not interlock
-/

namespace Fixity

namespace Text

/-! ## §1 Scanning -/

/-- A piece that ends; without characters it is none. -/
def closed (piece : List Char) : List (List Char) :=
  if piece = [] then [] else [piece]

/-- The pieces of a text of which `skip` characters are taken out already, and `piece` is begun.
A symbol is a piece by itself, a blank ends a piece, and any other character belongs to the piece
that is begun. -/
def scanFrom (symbols : List (List Char)) :
    (skip : Nat) → (piece : List Char) → List Char → List (List Char)
  | _, piece, [] => closed piece
  | skip + 1, piece, _ :: cs => scanFrom symbols skip piece cs
  | 0, piece, c :: cs =>
    match symbols.find? (·.isPrefixOf (c :: cs)) with
    -- the scan goes on behind the symbol
    | some s => closed piece ++ s :: scanFrom symbols (s.length - 1) [] cs
    | none =>
      if isBlank c then closed piece ++ scanFrom symbols 0 [] cs
      else scanFrom symbols 0 (piece ++ [c]) cs

/-- The pieces of a text, cut in one pass from left to right. -/
def scan (symbols : List (List Char)) (cs : List Char) : List (List Char) :=
  scanFrom symbols 0 [] cs

/-! ## §2 Patterns that share no character -/

/-- A proper end of the first pattern is a proper beginning of the second one. -/
def Interlocks (p q : List Char) : Prop :=
  ∃ v, v ≠ [] ∧ v ≠ p ∧ v ≠ q ∧ v <:+ p ∧ v <+: q

instance (p q : List Char) : Decidable (Interlocks p q) :=
  decidable_of_iff (∃ v ∈ p.tails, v ≠ [] ∧ v ≠ p ∧ v ≠ q ∧ v <+: q) (by
    simp only [Interlocks, List.mem_tails]
    exact exists_congr fun v => by tauto)

/-- Neither pattern is a part of the other, and they do not interlock. -/
structure Apart (p q : List Char) : Prop where
  left : ¬ p <:+: q
  right : ¬ q <:+: p
  locks : ¬ Interlocks p q
  locked : ¬ Interlocks q p

theorem Apart.symm {p q : List Char} (h : Apart p q) : Apart q p :=
  ⟨h.right, h.left, h.locked, h.locks⟩

instance : Std.Symm Apart :=
  ⟨fun _ _ => Apart.symm⟩

/-- **A pattern does not begin inside another one**, whatever stands behind that. -/
theorem Apart.not_begins {p q v : List Char} (h : Apart p q) (hv : v <:+ q) (hne : v ≠ [])
    (rest : List Char) : ¬ p <+: v ++ rest := by
  intro hp
  rcases List.prefix_or_prefix_of_prefix hp (List.prefix_append v rest) with hpv | hvp
  · exact h.left (hpv.isInfix.trans hv.isInfix)
  · -- the pattern begins with the end of the other one
    by_cases hvq : v = q
    · exact h.right (hvq ▸ hvp.isInfix)
    by_cases hvp' : v = p
    · exact h.left (hvp' ▸ hv.isInfix)
    exact h.locked ⟨v, hne, hvq, hvp', hv, hvp⟩

/-- To isolate a pattern does nothing to another one. -/
theorem isolate_apart {p q : List Char} (h : Apart p q) (cs : List Char) :
    isolate p (q ++ cs) = q ++ isolate p cs := by
  have hsuffix : ∀ v, v <:+ q → isolate p (v ++ cs) = v ++ isolate p cs := by
    intro v hv
    induction v with
    | nil => rfl
    | cons c v ih =>
      have hmiss : ¬ p <+: c :: (v ++ cs) := h.not_begins hv (by simp) cs
      rw [List.cons_append, isolate_cons hmiss, ih ((List.suffix_cons c v).trans hv),
        List.cons_append]
  exact hsuffix q (List.suffix_refl q)

/-- Patterns without blanks, none of which shares a character with another one. -/
structure Separable (symbols : List (List Char)) : Prop where
  ne_nil : ∀ s ∈ symbols, s ≠ []
  no_blank : ∀ s ∈ symbols, ∀ c ∈ s, isBlank c = false
  apart : symbols.Pairwise Apart

namespace Separable

variable {symbols symbols' : List (List Char)} {s t cs : List Char}

theorem tail (h : Separable (s :: symbols)) : Separable symbols :=
  ⟨(List.forall_mem_cons.mp h.ne_nil).2, (List.forall_mem_cons.mp h.no_blank).2,
    (List.pairwise_cons.mp h.apart).2⟩

theorem perm (h : Separable symbols) (hperm : symbols.Perm symbols') : Separable symbols' :=
  ⟨fun s hs => h.ne_nil s (hperm.mem_iff.mpr hs), fun s hs => h.no_blank s (hperm.mem_iff.mpr hs),
    (hperm.pairwise_iff Apart.symm).mp h.apart⟩

/-- At most one pattern begins at a place. -/
theorem unique (h : Separable symbols) (hs : s ∈ symbols) (ht : t ∈ symbols) (hscs : s <+: cs)
    (htcs : t <+: cs) : s = t := by
  by_contra hne
  have hapart : Apart s t := h.apart.forall hs ht hne
  rcases List.prefix_or_prefix_of_prefix hscs htcs with hst | hts
  · exact hapart.left hst.isInfix
  · exact hapart.right hts.isInfix

/-- No pattern begins with a blank. -/
theorem not_begins (h : Separable symbols) {c : Char} (hc : isBlank c = true) (hs : s ∈ symbols) :
    ¬ s <+: c :: cs := by
  intro hscs
  have hnil : s <+: [] := prefix_of_append_blank (h.no_blank s hs) hc hscs
  exact h.ne_nil s hs (List.prefix_nil.mp hnil)

end Separable

/-! ## §3 Steps of a scan -/

section

variable {symbols order : List (List Char)} {s piece cs rest : List Char} {c : Char}

theorem closed_of_ne_nil (h : piece ≠ []) : closed piece = [piece] :=
  if_neg h

theorem scanFrom_skip (symbols : List (List Char)) (skip : Nat) (piece cs : List Char) :
    scanFrom symbols skip piece cs = scanFrom symbols 0 piece (cs.drop skip) := by
  induction cs generalizing skip with
  | nil => cases skip <;> simp [scanFrom]
  | cons c cs ih =>
    cases skip with
    | zero => rfl
    | succ k => rw [scanFrom, ih, List.drop_succ_cons]

/-- **A symbol is taken out**, and the scan goes on behind it. -/
theorem scanFrom_symbol (h : Separable symbols) (hs : s ∈ symbols) (piece rest : List Char) :
    scanFrom symbols 0 piece (s ++ rest) =
      closed piece ++ s :: scanFrom symbols 0 [] rest := by
  obtain ⟨c, q, rfl⟩ := List.exists_cons_of_ne_nil (h.ne_nil s hs)
  have hbegins : (c :: q).isPrefixOf (c :: (q ++ rest)) = true :=
    List.isPrefixOf_iff_prefix.mpr (List.prefix_append (c :: q) rest)
  rw [List.cons_append, scanFrom]
  cases hfind : symbols.find? (·.isPrefixOf (c :: (q ++ rest))) with
  | none => exact absurd hbegins (List.find?_eq_none.mp hfind _ hs)
  | some t =>
    have ht : t.isPrefixOf (c :: (q ++ rest)) = true := by
      simpa using List.find?_some hfind
    obtain rfl : t = c :: q := h.unique (List.mem_of_find?_eq_some hfind) hs
      (List.isPrefixOf_iff_prefix.mp ht) (List.isPrefixOf_iff_prefix.mp hbegins)
    simp only
    rw [scanFrom_skip, List.length_cons, Nat.add_sub_cancel, List.drop_left]

/-- Where no symbol begins, a blank ends the piece and another character belongs to it. -/
theorem scanFrom_other (h : ∀ s ∈ symbols, ¬ s <+: c :: cs) (piece : List Char) :
    scanFrom symbols 0 piece (c :: cs) =
      if isBlank c then closed piece ++ scanFrom symbols 0 [] cs
      else scanFrom symbols 0 (piece ++ [c]) cs := by
  have hfind : symbols.find? (·.isPrefixOf (c :: cs)) = none := by
    rw [List.find?_eq_none]
    intro s hs hbegins
    exact h s hs (List.isPrefixOf_iff_prefix.mp hbegins)
  rw [scanFrom, hfind]

theorem scanFrom_blank (h : Separable symbols) (hc : isBlank c = true) (piece cs : List Char) :
    scanFrom symbols 0 piece (c :: cs) = closed piece ++ scanFrom symbols 0 [] cs := by
  rw [scanFrom_other fun _ => h.not_begins hc, if_pos hc]

/-- A text in which no symbol begins belongs to the piece as a whole. -/
theorem scanFrom_word {w : List Char} (hw : ∀ d ∈ w, isBlank d = false)
    (h : ∀ v, v <:+ w → v ≠ [] → ∀ s ∈ symbols, ¬ s <+: v ++ rest) (piece : List Char) :
    scanFrom symbols 0 piece (w ++ rest) = scanFrom symbols 0 (piece ++ w) rest := by
  induction w generalizing piece with
  | nil => rw [List.nil_append, List.append_nil]
  | cons c w ih =>
    obtain ⟨hc, hw⟩ := List.forall_mem_cons.mp hw
    have hnone : ∀ s ∈ symbols, ¬ s <+: c :: (w ++ rest) :=
      h (c :: w) (List.suffix_refl _) (by simp)
    have hmore := ih hw fun v hv => h v (hv.trans (List.suffix_cons c w))
    rw [List.cons_append, scanFrom_other hnone, hc, if_neg (by simp), hmore, List.append_assoc,
      List.singleton_append]

/-- A text ends, or starts with one of the symbols, or starts with a character at which none of
them begins. -/
theorem induction_on_symbols (hne : ∀ s ∈ symbols, s ≠ []) {motive : List Char → Prop}
    (nil : motive []) (symbol : ∀ s ∈ symbols, ∀ cs, motive cs → motive (s ++ cs))
    (other : ∀ c cs, (∀ s ∈ symbols, ¬ s <+: c :: cs) → motive cs → motive (c :: cs))
    (cs : List Char) : motive cs := by
  match cs with
  | [] => exact nil
  | c :: cs =>
    by_cases h : ∃ s ∈ symbols, s <+: c :: cs
    · obtain ⟨s, hs, rest, hrest⟩ := h
      -- behind the symbol less is left, as it is not empty
      have hlength : rest.length < (c :: cs).length := by
        have := List.length_pos_iff.mpr (hne s hs)
        rw [← hrest, List.length_append]
        omega
      rw [List.length_cons] at hlength
      rw [← hrest]
      exact symbol s hs rest (induction_on_symbols hne nil symbol other rest)
    · refine other c cs (fun s hs hscs => h ⟨s, hs, hscs⟩) ?_
      exact induction_on_symbols hne nil symbol other cs
termination_by cs.length
decreasing_by
  · simp only [List.length_cons]
    omega
  · simp

/-! ## §4 Padding and scanning -/

/-- **One pass of padding** leaves one symbol less to scan for. -/
theorem scanFrom_isolate (h : Separable (s :: order)) (piece cs : List Char) :
    scanFrom order 0 piece (isolate s cs) = scanFrom (s :: order) 0 piece cs := by
  have hne : s ≠ [] := h.ne_nil s (by simp)
  have hapart : ∀ t ∈ order, Apart s t := (List.pairwise_cons.mp h.apart).1
  induction cs using induction_on_symbols h.ne_nil generalizing piece with
  | nil => rw [isolate_nil, scanFrom, scanFrom]
  | symbol t ht cs ih =>
    rw [scanFrom_symbol h ht]
    rcases List.mem_cons.mp ht with rfl | ht
    · -- the spaces around the symbol end the piece before it and make it one by itself
      have hinside : ∀ v, v <:+ t → v ≠ [] → ∀ u ∈ order,
          ¬ u <+: v ++ ' ' :: isolate t cs := by
        intro v hv hvne u hu
        exact (hapart u hu).symm.not_begins hv hvne _
      rw [isolate_append hne, scanFrom_blank h.tail isBlank_space,
        scanFrom_word (h.no_blank t (by simp)) hinside, List.nil_append,
        scanFrom_blank h.tail isBlank_space, closed_of_ne_nil hne, ih, List.singleton_append]
    · rw [isolate_apart (hapart t ht), scanFrom_symbol h.tail ht, ih]
  | other c cs hnone ih =>
    -- where blanks are put in, no symbol comes up that was not there before
    have hstill : ∀ t ∈ order, ¬ t <+: c :: isolate s cs := by
      rintro t ht ⟨ds, hds⟩
      have hrespaced : Respaced (c :: cs) (t ++ ds) := by
        rw [hds]
        exact (respaced_isolate hne cs).keep c
      obtain ⟨cs', hcs', -⟩ :=
        hrespaced.of_append (h.tail.no_blank t ht) (h.tail.ne_nil t ht)
      exact hnone t (List.mem_cons_of_mem s ht) ⟨cs', hcs'.symm⟩
    rw [isolate_cons (hnone s (by simp)), scanFrom_other hstill, scanFrom_other hnone, ih, ih]

/-- Without symbols a scan cuts out the words. -/
theorem scanFrom_words (hpiece : ∀ d ∈ piece, isBlank d = false) (cs : List Char) :
    scanFrom [] 0 piece cs = words (piece ++ cs) := by
  have hclosed : ∀ w : List Char, (∀ d ∈ w, isBlank d = false) → closed w = words w := by
    intro w hw
    by_cases hnil : w = []
    · rw [hnil, words_nil, closed, if_pos rfl]
    · rw [closed_of_ne_nil hnil, words_eq_singleton hnil hw]
  induction cs generalizing piece with
  | nil => rw [scanFrom, hclosed piece hpiece, List.append_nil]
  | cons c cs ih =>
    have hnil := @ih [] (by simp)
    rw [scanFrom_other (by simp)]
    split
    · next hc => rw [hnil, List.nil_append, hclosed piece hpiece, words_append_cons hc]
    · next hc =>
      have hpiece' : ∀ d ∈ piece ++ [c], isBlank d = false := by
        rw [List.forall_mem_append, List.forall_mem_singleton]
        exact ⟨hpiece, by simpa using hc⟩
      rw [ih hpiece', List.append_assoc, List.singleton_append]

/-- A scan does not ask for the order of the symbols. -/
theorem scanFrom_perm (h : Separable symbols) (hperm : symbols.Perm order)
    (piece cs : List Char) : scanFrom symbols 0 piece cs = scanFrom order 0 piece cs := by
  induction cs using induction_on_symbols h.ne_nil generalizing piece with
  | nil => rw [scanFrom, scanFrom]
  | symbol s hs cs ih =>
    rw [scanFrom_symbol h hs, scanFrom_symbol (h.perm hperm) (hperm.mem_iff.mp hs), ih]
  | other c cs hnone ih =>
    have hnone' : ∀ s ∈ order, ¬ s <+: c :: cs :=
      fun s hs => hnone s (hperm.mem_iff.mpr hs)
    rw [scanFrom_other hnone, scanFrom_other hnone', ih, ih]

end

end Text

namespace Grammar

variable {g : Grammar}

/-- **Padding one symbol after the other comes to a scan** for all of them. -/
theorem words_padded_eq_scan {order : List String}
    (h : Text.Separable (order.map String.toList)) (cs : List Char) :
    Text.words (padded order cs) = Text.scan (order.map String.toList) cs := by
  induction order generalizing cs with
  | nil => exact (@Text.scanFrom_words [] (by simp) cs).symm
  | cons s order ih =>
    rw [List.map_cons] at h ⊢
    rw [padded_cons, ih h.tail]
    exact Text.scanFrom_isolate h [] cs

/-! ## §5 Symbols of a grammar -/

/-- The pieces of a line, cut in one pass by the symbols of a grammar. -/
def scan (g : Grammar) (line : String) : List String :=
  (Text.scan (g.symbols.map String.toList) line.toList).map String.ofList

/-- No symbol ends with what another one begins with. -/
def Uninterlocked (g : Grammar) : Prop :=
  ∀ s ∈ g.tokens, ∀ t ∈ g.tokens, s.symbol ≠ t.symbol →
    ¬ Text.Interlocks s.symbol.toList t.symbol.toList

instance (g : Grammar) : Decidable g.Uninterlocked :=
  List.decidableBAll _ g.tokens

/-- Symbols are no parts of each other, so they share no character if they do not interlock. -/
theorem Uninterlocked.separable (h : g.Uninterlocked) :
    Text.Separable (g.symbols.map String.toList) := by
  have hsymbols : ∀ s ∈ g.symbols, ∃ x ∈ g.tokens, x.symbol = s := fun _ => mem_symbols.mp
  have hnodup : g.symbols.Nodup := (List.mergeSort_perm _ _).nodup_iff.mpr g.nodup_symbols
  refine ⟨?_, ?_, ?_⟩
  · rw [List.forall_mem_map]
    intro s hs
    obtain ⟨x, hx, rfl⟩ := hsymbols s hs
    exact toList_ne_nil (isSymbol_of_mem hx)
  · rw [List.forall_mem_map]
    intro s hs
    obtain ⟨x, hx, rfl⟩ := hsymbols s hs
    exact (isSymbol_of_mem hx).2
  · rw [List.pairwise_map]
    refine hnodup.imp_of_mem fun {s t} hs ht hne => ?_
    obtain ⟨x, hx, rfl⟩ := hsymbols s hs
    obtain ⟨y, hy, rfl⟩ := hsymbols t ht
    exact ⟨fun hpart => hne (symbol_eq_of_part hx hy hpart),
      fun hpart => hne (symbol_eq_of_part hy hx hpart).symm, h x hx y hy hne, h y hy x hx hne.symm⟩

/-- **A line is cut as by a scan if the symbols do not interlock**, in whatever order they are
padded. -/
theorem split_eq_scan (h : g.Uninterlocked) (line : String) :
    g.split line = g.scan line ∧
      ∀ order : List String, order.Perm g.symbols →
        (Text.words (padded order line.toList)).map String.ofList = g.scan line := by
  have hpadded : ∀ order : List String, order.Perm g.symbols →
      (Text.words (padded order line.toList)).map String.ofList = g.scan line := by
    intro order hperm
    have hsymbols := hperm.symm.map String.toList
    rw [words_padded_eq_scan (h.separable.perm hsymbols), scan, Text.scan, Text.scan,
      Text.scanFrom_perm h.separable hsymbols]
  refine ⟨hpadded g.isolationOrder ?_, hpadded⟩
  exact (List.mergeSort_perm _ _).trans (List.mergeSort_perm _ _).symm

/-- An operation that can overlap itself, and two brackets. -/
def selfOverlapping : Grammar where
  classes := [⟨.left, [.ofKind .binary "aXa"]⟩]
  brackets := [⟨.ofKind .opening "(", .ofKind .closing ")"⟩]
  wellFormed := ⟨by decide, by decide, by decide, by decide, by decide⟩

/-- Of two occurrences that overlap the left one is taken. -/
theorem split_eq_scan_selfOverlapping : selfOverlapping.Uninterlocked ∧
    selfOverlapping.split "(yaXaXa)" = ["(", "y", "aXa", "Xa", ")"] := by
  have hapart : selfOverlapping.Uninterlocked := by decide
  have hscan : selfOverlapping.scan "(yaXaXa)" = ["(", "y", "aXa", "Xa", ")"] := by cbv
  exact ⟨hapart, (split_eq_scan hapart "(yaXaXa)").1.trans hscan⟩

/-- Symbols that interlock are not taken from the left: the longer one is set apart first. -/
def interlocking : Grammar where
  classes := [⟨.left, [.ofKind .binary "ab", .ofKind .binary "bcd"]⟩]
  brackets := []
  wellFormed := ⟨by decide, by decide, by decide, by decide, by decide⟩

example : interlocking.split "abcd" = ["a", "bcd"] ∧ interlocking.scan "abcd" = ["ab", "cd"] := by
  cbv

end Grammar

end Fixity
