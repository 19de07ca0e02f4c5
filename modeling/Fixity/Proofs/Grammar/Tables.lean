import Fixity.Proofs.Grammar.Ranks
import Mathlib.Data.List.Induction
import Mathlib.Logic.Function.Basic

/-!
# Tables filled entry by entry

What a grammar knows about its tokens is found by searching its classes and its brackets. It can
be entered into tables instead, once, in the order of the declaration: each operation with its rank
and its associativity, then both brackets of each pair, last the sentinels. An entry overwrites
what stands under its key, while a search stops at the first match, so the two agree only as long
as no key is entered twice. In a well-formed grammar none is.

## Main statements

- `filled_eq_some_iff`: a table without a key that is entered twice holds exactly its entries
- `rank?_eq_some_iff`: the rank of an operation is the position of its class
- `Tables.fill_eq`: the filled tables answer every question as the grammar does
-/

namespace Fixity

/-! ## §1 Entries -/

section Entries

variable {κ β : Type} [DecidableEq κ]

/-- Enters a value under a key, in the place of what stands there. -/
def enter (table : κ → Option β) (entry : κ × β) : κ → Option β :=
  Function.update table entry.1 (some entry.2)

/-- The table that is filled with these entries, one after the other. -/
def filled (entries : List (κ × β)) : κ → Option β :=
  entries.foldl enter fun _ => none

theorem filled_concat (entries : List (κ × β)) (e : κ × β) :
    filled (entries ++ [e]) = enter (filled entries) e :=
  List.foldl_append ..

/-- **A table without a key that is entered twice holds exactly its entries.** -/
theorem filled_eq_some_iff {entries : List (κ × β)} (h : (entries.map Prod.fst).Nodup) {k : κ}
    {v : β} : filled entries k = some v ↔ (k, v) ∈ entries := by
  -- the last entry decides, so the induction takes entries from the end
  induction entries using List.reverseRecOn with
  | nil => simp [filled]
  | append_singleton entries e ih =>
    rw [List.map_append, List.nodup_append] at h
    obtain ⟨hbefore, -, hfresh⟩ := h
    rw [filled_concat, enter, List.mem_append, List.mem_singleton]
    by_cases hk : k = e.1
    · subst hk
      have hnew : (e.1, v) ∉ entries := by
        intro hmem
        exact hfresh e.1 (List.mem_map.mpr ⟨_, hmem, rfl⟩) e.1 (by simp) rfl
      rw [Function.update_self, Option.some.injEq]
      constructor
      · rintro rfl
        exact .inr rfl
      · intro hmem
        rw [← hmem.resolve_left hnew]
    · rw [Function.update_of_ne hk, ih hbefore]
      constructor
      · exact .inl
      · intro hmem
        apply hmem.resolve_right
        rintro rfl
        exact hk rfl

end Entries

/-! ## §2 Classes and ranks -/

namespace Grammar

variable {g : Grammar}

theorem nodup_lexemes (g : Grammar) : (g.tokens.map (·.toLexeme)).Nodup := by
  apply List.Nodup.of_map (·.symbol)
  rw [List.map_map]
  exact g.nodup_symbols

/-- No sentinel is registered. -/
theorem Registers.ne_sentinel {x : Lexeme} (h : g.Registers x) :
    ¬ (x = Token.start.toLexeme ∨ x = Token.finish.toLexeme) := by
  have hk := h.kind
  rintro (rfl | rfl)
  · simp [Token.start, Token.ofKind, Kind.isOperation] at hk
  · simp [Token.finish, Token.ofKind, Kind.isOperation] at hk

/-- No operation is in two classes. -/
theorem class_unique {i j : Nat} {c d : PrecedenceClass} {t u : Token}
    (hc : g.classes[i]? = some c) (ht : t ∈ c.operations) (hd : g.classes[j]? = some d)
    (hu : u ∈ d.operations) (h : u.symbol = t.symbol) : i = j := by
  have hapart := (List.pairwise_append.mp g.wellFormed.distinct.apart).1
  have hclasses := List.pairwise_iff_getElem.mp (List.pairwise_flatMap.mp hapart).2
  obtain ⟨hi, rfl⟩ := List.getElem?_eq_some_iff.mp hc
  obtain ⟨hj, rfl⟩ := List.getElem?_eq_some_iff.mp hd
  rcases Nat.lt_trichotomy i j with hlt | heq | hgt
  · exact absurd (h ▸ overlap_self _) (hclasses i j hi hj hlt t ht u hu)
  · exact heq
  · exact absurd (h ▸ overlap_self _) (hclasses j i hj hi hgt u hu t ht)

theorem rank?_of_mem {i : Nat} {c : PrecedenceClass} {t : Token} (hc : g.classes[i]? = some c)
    (ht : t ∈ c.operations) :
    g.rank? t = some i ∧ g.associativity? t = some c.associativity := by
  have hmem : t ∈ g.operations := mem_operations.mpr ⟨c, List.mem_of_getElem? hc, ht⟩
  have hk := isOperation_of_mem_operations hmem
  obtain ⟨j, d, hj, hd, ha⟩ := exists_rank? ⟨t, mem_tokens.mpr (.inl hmem), rfl⟩ hk
  -- the search comes to a class that has the operation, and only one has
  have hfound := List.findIdx?_eq_some_iff_getElem.mp ((rank?_eq_findIdx? hk).symm.trans hj)
  obtain ⟨hlt, hhas, -⟩ := hfound
  obtain ⟨u, hu, hut⟩ := List.any_eq_true.mp hhas
  have hsymbol : u.symbol = t.symbol := congrArg Lexeme.symbol (of_decide_eq_true hut)
  obtain rfl : i = j := class_unique hc ht (List.getElem?_eq_getElem hlt) hu hsymbol
  obtain rfl : c = d := Option.some.inj (hc.symm.trans hd)
  exact ⟨hj, ha⟩

theorem rank?_of_mem_brackets {b : BracketPair} (hb : b ∈ g.brackets) {x : Lexeme}
    (hx : b.opening.toLexeme = x ∨ b.closing.toLexeme = x) : g.rank? x = some bracketRank := by
  have hregisters : g.Registers x := by
    rcases hx with rfl | rfl
    · exact ⟨b.opening, mem_tokens.mpr (.inr ⟨b, hb, .inl rfl⟩), rfl⟩
    · exact ⟨b.closing, mem_tokens.mpr (.inr ⟨b, hb, .inr rfl⟩), rfl⟩
  have hbracket : (g.brackets.any fun b =>
      b.opening.toLexeme = x ∨ b.closing.toLexeme = x) = true := by
    rw [List.any_eq_true]
    exact ⟨b, hb, by simpa using hx⟩
  rw [rank?, if_neg hregisters.ne_sentinel, if_pos hbracket]

/-- **The rank of an operation is the position of its class**; brackets and sentinels have ranks of
their own, and nothing else has one. -/
theorem rank?_eq_some_iff {x : Lexeme} {r : Nat} :
    g.rank? x = some r ↔
      (∃ c, g.classes[r]? = some c ∧ ∃ t ∈ c.operations, t.toLexeme = x) ∨
      (r = bracketRank ∧ ∃ b ∈ g.brackets, b.opening.toLexeme = x ∨ b.closing.toLexeme = x) ∨
      (r = sentinelRank ∧ (x = Token.start.toLexeme ∨ x = Token.finish.toLexeme)) := by
  constructor
  · intro h
    unfold rank? at h
    split at h
    · next hx => exact .inr (.inr ⟨(Option.some.inj h).symm, hx⟩)
    · split at h
      · next hany =>
        obtain ⟨b, hb, hx⟩ := List.any_eq_true.mp hany
        exact .inr (.inl ⟨(Option.some.inj h).symm, b, hb, of_decide_eq_true hx⟩)
      · obtain ⟨hlt, hhas, -⟩ := List.findIdx?_eq_some_iff_getElem.mp h
        obtain ⟨t, ht, hx⟩ := List.any_eq_true.mp hhas
        exact .inl ⟨_, List.getElem?_eq_getElem hlt, t, ht, of_decide_eq_true hx⟩
  · rintro (⟨c, hc, t, ht, rfl⟩ | ⟨rfl, b, hb, hx⟩ | ⟨rfl, rfl | rfl⟩)
    · exact (rank?_of_mem hc ht).1
    · exact rank?_of_mem_brackets hb hx
    · exact rank?_start
    · exact rank?_finish

theorem associativity?_eq_some_iff {x : Lexeme} {a : Associativity} :
    g.associativity? x = some a ↔
      ∃ c ∈ g.classes, c.associativity = a ∧ ∃ t ∈ c.operations, t.toLexeme = x := by
  constructor
  · intro h
    obtain ⟨c, hc, rfl⟩ := Option.map_eq_some_iff.mp h
    have hhas : (c.has x) = true := by simpa using List.find?_some hc
    obtain ⟨t, ht, hx⟩ := List.any_eq_true.mp hhas
    exact ⟨c, List.mem_of_find?_eq_some hc, rfl, t, ht, of_decide_eq_true hx⟩
  · rintro ⟨c, hc, rfl, t, ht, rfl⟩
    obtain ⟨i, hi⟩ := List.mem_iff_getElem?.mp hc
    exact (rank?_of_mem hi ht).2

theorem openingFor?_eq_some_iff {c : Lexeme} {o : Token} :
    g.openingFor? c = some o ↔ ∃ b ∈ g.brackets, b.closing.toLexeme = c ∧ b.opening = o := by
  unfold openingFor?
  simp only [Option.map_eq_some_iff, find?_key_eq_some_iff g.nodup_closings, and_assoc]

theorem closingFor?_eq_some_iff {o : Lexeme} {c : Token} :
    g.closingFor? o = some c ↔ ∃ b ∈ g.brackets, b.opening.toLexeme = o ∧ b.closing = c := by
  unfold closingFor?
  simp only [Option.map_eq_some_iff, find?_key_eq_some_iff g.nodup_openings, and_assoc]

end Grammar

/-! ## §3 The tables of a grammar -/

/-- What is entered into the tables in one go. -/
inductive Record where
  /-- An operation of the class with this rank and associativity. -/
  | operation (rank : Nat) (associativity : Associativity) (t : Token)
  /-- Both brackets of a pair. -/
  | pair (b : BracketPair)
  /-- The sentinels. -/
  | sentinels

/-- The records of a declaration, in its order. -/
def records (classes : List PrecedenceClass) (brackets : List BracketPair) : List Record :=
  (classes.zipIdx.flatMap fun c => c.1.operations.map (.operation c.2 c.1.associativity)) ++
    (brackets.map .pair ++ [.sentinels])

/-- Which token a symbol stands for, how tight a token binds, and which brackets belong together. -/
structure Tables where
  symbols : String → Option Token
  ranks : Lexeme → Option Nat
  associativities : Lexeme → Option Associativity
  openings : Lexeme → Option Token
  closings : Lexeme → Option Token

/-- The answers of a grammar, as tables. -/
def Grammar.tables (g : Grammar) : Tables :=
  ⟨g.lookup?, g.rank?, g.associativity?, g.openingFor?, g.closingFor?⟩

namespace Tables

/-- Tables without entries. -/
def empty : Tables :=
  ⟨fun _ => none, fun _ => none, fun _ => none, fun _ => none, fun _ => none⟩

/-- Enters one record into the tables it belongs to. -/
def add (T : Tables) : Record → Tables
  | .operation rank a t =>
    { T with
      symbols := enter T.symbols (t.symbol, t)
      ranks := enter T.ranks (t.toLexeme, rank)
      associativities := enter T.associativities (t.toLexeme, a) }
  | .pair b =>
    { T with
      symbols :=
        enter (enter T.symbols (b.opening.symbol, b.opening)) (b.closing.symbol, b.closing)
      ranks := enter (enter T.ranks (b.opening.toLexeme, Grammar.bracketRank))
        (b.closing.toLexeme, Grammar.bracketRank)
      openings := enter T.openings (b.closing.toLexeme, b.opening)
      closings := enter T.closings (b.opening.toLexeme, b.closing) }
  | .sentinels =>
    { T with
      ranks := enter (enter T.ranks (Token.start.toLexeme, Grammar.sentinelRank))
        (Token.finish.toLexeme, Grammar.sentinelRank) }

/-- The tables of a declaration, filled record by record. -/
def fill (classes : List PrecedenceClass) (brackets : List BracketPair) : Tables :=
  (records classes brackets).foldl add empty

end Tables

/-! ## §4 What each table is filled with -/

namespace Record

/-- The entries of a record in the table of symbols. -/
def symbols : Record → List (String × Token)
  | operation _ _ t => [(t.symbol, t)]
  | pair b => [(b.opening.symbol, b.opening), (b.closing.symbol, b.closing)]
  | sentinels => []

/-- The entries of a record in the table of ranks. -/
def ranks : Record → List (Lexeme × Nat)
  | operation rank _ t => [(t.toLexeme, rank)]
  | pair b => [(b.opening.toLexeme, Grammar.bracketRank), (b.closing.toLexeme, Grammar.bracketRank)]
  | sentinels =>
    [(Token.start.toLexeme, Grammar.sentinelRank), (Token.finish.toLexeme, Grammar.sentinelRank)]

/-- The entries of a record in the table of associativities. -/
def associativities : Record → List (Lexeme × Associativity)
  | operation _ a t => [(t.toLexeme, a)]
  | pair _ | sentinels => []

/-- The entries of a record in the table from closing to opening brackets. -/
def openings : Record → List (Lexeme × Token)
  | pair b => [(b.closing.toLexeme, b.opening)]
  | operation _ _ _ | sentinels => []

/-- The entries of a record in the table from opening to closing brackets. -/
def closings : Record → List (Lexeme × Token)
  | pair b => [(b.opening.toLexeme, b.closing)]
  | operation _ _ _ | sentinels => []

end Record

namespace Tables

variable {g : Grammar} {classes : List PrecedenceClass} {brackets : List BracketPair}

/-- The entries of all records: those of the operations, class by class, those of the pairs and
those of the sentinels. -/
theorem mem_entries {γ : Type} {entries : Record → List γ} {e : γ} :
    e ∈ (records classes brackets).flatMap entries ↔
      (∃ r c, classes[r]? = some c ∧
        ∃ t ∈ c.operations, e ∈ entries (.operation r c.associativity t)) ∨
      (∃ b ∈ brackets, e ∈ entries (.pair b)) ∨ e ∈ entries .sentinels := by
  have hoperations : e ∈ (classes.zipIdx.flatMap fun c =>
        c.1.operations.map (Record.operation c.2 c.1.associativity)).flatMap entries ↔
      ∃ r c, classes[r]? = some c ∧
        ∃ t ∈ c.operations, e ∈ entries (.operation r c.associativity t) := by
    simp only [List.flatMap_assoc, List.flatMap_map, List.mem_flatMap, Prod.exists,
      List.mk_mem_zipIdx_iff_getElem?]
    exact exists_comm
  rw [records, List.flatMap_append, List.flatMap_append, List.mem_append, List.mem_append,
    hoperations, List.flatMap_map, List.mem_flatMap, List.flatMap_singleton]

/-- The keys of all entries stand in the order in which the tokens are declared. -/
theorem keys_entries {κ β : Type} {entries : Record → List (κ × β)} {key : Token → List κ}
    (hoperation : ∀ r a t, (entries (.operation r a t)).map Prod.fst = key t) :
    ((records classes brackets).flatMap entries).map Prod.fst =
      (classes.flatMap (·.operations)).flatMap key ++
        ((brackets.flatMap fun b => (entries (.pair b)).map Prod.fst) ++
          (entries .sentinels).map Prod.fst) := by
  have hoperations : ((classes.zipIdx.flatMap fun c =>
        c.1.operations.map (Record.operation c.2 c.1.associativity)).flatMap entries).map
          Prod.fst = (classes.flatMap (·.operations)).flatMap key := by
    simp only [List.flatMap_assoc, List.flatMap_map, List.map_flatMap, hoperation]
    -- the ranks play no part
    conv_rhs => rw [← List.zipIdx_map_fst 0 classes, List.flatMap_map]
  rw [records, List.flatMap_append, List.flatMap_append, List.map_append, List.map_append,
    hoperations, List.flatMap_map, List.map_flatMap, List.flatMap_singleton]

theorem flatMap_const_nil {α β : Type} (l : List α) : l.flatMap (fun _ => ([] : List β)) = [] :=
  List.flatMap_eq_nil_iff.mpr fun _ _ => rfl

/-- A table is what a grammar answers if no key is entered twice and the entries are the answers. -/
theorem fill_table_eq {κ β : Type} [DecidableEq κ] {answer : κ → Option β}
    (table : Tables → κ → Option β) (entries : Record → List (κ × β))
    (hempty : table empty = fun _ => none)
    (hadd : ∀ T r, table (T.add r) = (entries r).foldl enter (table T))
    (hkeys : (((records classes brackets).flatMap entries).map Prod.fst).Nodup)
    (hanswer : ∀ k v, (k, v) ∈ (records classes brackets).flatMap entries ↔ answer k = some v) :
    table (fill classes brackets) = answer := by
  have hfilled : table (fill classes brackets) =
      filled ((records classes brackets).flatMap entries) := by
    rw [filled, List.foldl_flatMap, ← hempty]
    exact (List.foldl_hom table fun T r => (hadd T r).symm).symm
  rw [hfilled]
  funext k
  apply Option.ext
  intro v
  rw [filled_eq_some_iff hkeys, hanswer]

/-! ## §5 The filled tables are those of the grammar -/

theorem fill_symbols (g : Grammar) : (fill g.classes g.brackets).symbols = g.lookup? := by
  apply fill_table_eq Tables.symbols Record.symbols rfl (by rintro T (_ | _ | _) <;> rfl)
  · have hkeys := g.nodup_symbols
    rw [@keys_entries _ _ _ _ _ (fun t => [t.symbol]) fun _ _ _ => rfl]
    simpa [Grammar.tokens, enrolled, List.map_flatMap, Record.symbols, ← List.map_eq_flatMap]
      using hkeys
  · intro symbol t
    rw [mem_entries, Grammar.lookup?_eq_some_iff, Grammar.mem_tokens, Grammar.mem_operations]
    simp only [Record.symbols, List.mem_cons, List.not_mem_nil, Prod.mk.injEq, or_false]
    constructor
    · rintro (⟨r, c, hc, u, hu, rfl, rfl⟩ | ⟨b, hb, ⟨rfl, rfl⟩ | ⟨rfl, rfl⟩⟩)
      · exact ⟨.inl ⟨c, List.mem_of_getElem? hc, hu⟩, rfl⟩
      · exact ⟨.inr ⟨b, hb, .inl rfl⟩, rfl⟩
      · exact ⟨.inr ⟨b, hb, .inr rfl⟩, rfl⟩
    · rintro ⟨⟨c, hc, ht⟩ | ⟨b, hb, rfl | rfl⟩, rfl⟩
      · obtain ⟨r, hr⟩ := List.mem_iff_getElem?.mp hc
        exact .inl ⟨r, c, hr, t, ht, rfl, rfl⟩
      · exact .inr ⟨b, hb, .inl ⟨rfl, rfl⟩⟩
      · exact .inr ⟨b, hb, .inr ⟨rfl, rfl⟩⟩

theorem fill_ranks (g : Grammar) : (fill g.classes g.brackets).ranks = g.rank? := by
  apply fill_table_eq Tables.ranks Record.ranks rfl (by rintro T (_ | _ | _) <;> rfl)
  · rw [@keys_entries _ _ _ _ _ (fun t => [t.toLexeme]) fun _ _ _ => rfl]
    have hkeys : (g.tokens.map (·.toLexeme) ++
        [Token.start.toLexeme, Token.finish.toLexeme]).Nodup := by
      rw [List.nodup_append]
      refine ⟨g.nodup_lexemes, by decide, ?_⟩
      rintro x hx y hy rfl
      exact Grammar.Registers.ne_sentinel (List.mem_map.mp hx) (by simpa using hy)
    simpa [Grammar.tokens, enrolled, List.map_flatMap, Record.ranks, ← List.map_eq_flatMap]
      using hkeys
  · intro x r
    rw [mem_entries, Grammar.rank?_eq_some_iff]
    simp only [Record.ranks, List.mem_cons, List.not_mem_nil, Prod.mk.injEq, or_false]
    constructor
    · rintro (⟨r, c, hc, t, ht, rfl, rfl⟩ | ⟨b, hb, ⟨rfl, rfl⟩ | ⟨rfl, rfl⟩⟩ | hx)
      · exact .inl ⟨c, hc, t, ht, rfl⟩
      · exact .inr (.inl ⟨rfl, b, hb, .inl rfl⟩)
      · exact .inr (.inl ⟨rfl, b, hb, .inr rfl⟩)
      · exact .inr (.inr (by rwa [← or_and_right, and_comm] at hx))
    · rintro (⟨c, hc, t, ht, rfl⟩ | ⟨rfl, b, hb, rfl | rfl⟩ | ⟨rfl, hx⟩)
      · exact .inl ⟨r, c, hc, t, ht, rfl, rfl⟩
      · exact .inr (.inl ⟨b, hb, .inl ⟨rfl, rfl⟩⟩)
      · exact .inr (.inl ⟨b, hb, .inr ⟨rfl, rfl⟩⟩)
      · exact .inr (.inr (by simpa using hx))

theorem fill_associativities (g : Grammar) :
    (fill g.classes g.brackets).associativities = g.associativity? := by
  apply fill_table_eq Tables.associativities Record.associativities rfl
    (by rintro T (_ | _ | _) <;> rfl)
  · have hkeys := (List.map_append ▸ g.nodup_lexemes).of_append_left
    rw [@keys_entries _ _ _ _ _ (fun t => [t.toLexeme]) fun _ _ _ => rfl]
    simpa [List.map_flatMap, Record.associativities, ← List.map_eq_flatMap, flatMap_const_nil]
      using hkeys
  · intro x a
    rw [mem_entries, Grammar.associativity?_eq_some_iff]
    simp only [Record.associativities, List.mem_singleton, Prod.mk.injEq, List.not_mem_nil,
      and_false, exists_false, or_false]
    constructor
    · rintro ⟨r, c, hc, t, ht, rfl, rfl⟩
      exact ⟨c, List.mem_of_getElem? hc, rfl, t, ht, rfl⟩
    · rintro ⟨c, hc, rfl, t, ht, rfl⟩
      obtain ⟨r, hr⟩ := List.mem_iff_getElem?.mp hc
      exact ⟨r, c, hr, t, ht, rfl, rfl⟩

theorem fill_openings (g : Grammar) :
    (fill g.classes g.brackets).openings = g.openingFor? := by
  apply fill_table_eq Tables.openings Record.openings rfl (by rintro T (_ | _ | _) <;> rfl)
  · rw [@keys_entries _ _ _ _ _ (fun _ => []) fun _ _ _ => rfl]
    simpa [Record.openings, ← List.map_eq_flatMap, flatMap_const_nil] using g.nodup_closings
  · intro c o
    rw [mem_entries, Grammar.openingFor?_eq_some_iff]
    simp [Record.openings, eq_comm]

theorem fill_closings (g : Grammar) :
    (fill g.classes g.brackets).closings = g.closingFor? := by
  apply fill_table_eq Tables.closings Record.closings rfl (by rintro T (_ | _ | _) <;> rfl)
  · rw [@keys_entries _ _ _ _ _ (fun _ => []) fun _ _ _ => rfl]
    simpa [Record.closings, ← List.map_eq_flatMap, flatMap_const_nil] using g.nodup_openings
  · intro o c
    rw [mem_entries, Grammar.closingFor?_eq_some_iff]
    simp [Record.closings, eq_comm]

/-- **The filled tables answer every question as the grammar does.** -/
theorem fill_eq (g : Grammar) : fill g.classes g.brackets = g.tables := by
  rw [Grammar.tables, ← fill_symbols, ← fill_ranks, ← fill_associativities, ← fill_openings,
    ← fill_closings]

end Tables

end Fixity
