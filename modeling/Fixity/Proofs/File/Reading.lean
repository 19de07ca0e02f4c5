import Fixity.Grammar.FileText
import Fixity.Proofs.File.Lexemes
import Mathlib.Data.List.Forall2

/-!
# Reading declarations back

The line of a precedence class and that of a bracket pair are read as the declaration that they
were written for. Each lexeme is the only one that can come where it stands, so a symbol may be
spelled like a keyword, like an operation or like a comment.

## Main statements

- `declares_class`, `declares_brackets`: the line of a precedence class and that of a bracket pair
  declare them
- `declarations?_lines`: lines that declare something are read one after the other
-/

namespace Fixity

/-! ## §1 What a table declares -/

/-- An operation as a declaration has it. -/
def Token.member (t : Token) : Int × String :=
  (t.arity, t.symbol)

def PrecedenceClass.declaration (c : PrecedenceClass) : Declaration :=
  .precedence c.associativity.name (c.operations.map (·.member))

def BracketPair.declaration (b : BracketPair) : Declaration :=
  .brackets b.opening.symbol b.closing.symbol

namespace Grammar.File

variable {st st' st'' : Expectation} {cs rest : List Char} {ds ds' : List Declaration}

/-! ## §2 From one expectation to another -/

/-- Reading comes from one expectation and text to others, wherever in the file it is, and
declares something on the way. -/
def Leads (st : Expectation) (cs : List Char) (ds : List Declaration) (st' : Expectation)
    (rest : List Char) : Prop :=
  ∀ here last, ∃ here' last',
    declarations? st here last cs = (declarations? st' here' last' rest).map (ds ++ ·)

theorem Leads.trans {cs' : List Char} (h : Leads st cs ds st' cs')
    (h' : Leads st' cs' ds' st'' rest) : Leads st cs (ds ++ ds') st'' rest := by
  intro here last
  obtain ⟨here₁, last₁, hfirst⟩ := h here last
  obtain ⟨here₂, last₂, hsecond⟩ := h' here₁ last₁
  refine ⟨here₂, last₂, ?_⟩
  rw [hfirst, hsecond]
  cases declarations? st'' here₂ last₂ rest <;> simp [Except.map]

theorem Leads.refl : Leads st cs [] st cs := by
  intro here last
  refine ⟨here, last, ?_⟩
  cases declarations? st here last cs <;> rfl

/-- A lexeme leads to what is expected behind it. -/
theorem leads_lexeme {terminal : Terminal} {c : Char} {more : List Char}
    (h : st.cut? (c :: more ++ rest) = some (terminal, c :: more)) :
    Leads st (c :: more ++ rest) (st.next terminal c more).2 (st.next terminal c more).1 rest := by
  intro here last
  exact ⟨_, _, declarations?_lexeme h here last⟩

theorem Leads.of_blank {c : Char} (hblank : isInlineBlank c = true)
    (hcut : st.cut? (c :: cs) = none) (h : Leads st cs ds st' rest) :
    Leads st (c :: cs) ds st' rest := by
  intro here last
  rw [declarations?_blank hblank hcut]
  exact h (here.past c) last

/-! ## §3 Operations -/

/-- A token that can be written as a member of a class. -/
def Writable (t : Token) : Prop :=
  t.kind.isOperation = true ∧ IsSymbol t.symbol

theorem toList_ne_nil_of_isSymbol {s : String} (h : IsSymbol s) : s.toList ≠ [] := by
  simpa using h.1

/-- The encoding of an operation is a digit for the arity, and the symbol. -/
theorem exists_encoding {t : Token} (h : t.kind.isOperation = true) :
    ∃ d, d.isDigit = true ∧ t.encoding.toList = d :: t.symbol.toList ∧
      ((d.toNat : Int) - '0'.toNat, String.ofList t.symbol.toList) = t.member := by
  cases hk : t.kind with
  | unary =>
    refine ⟨'1', rfl, ?_, by simp [Token.member, Lexeme.arity, hk, Kind.arity]⟩
    simp only [Lexeme.encoding, Lexeme.arity, hk, Kind.isOperation, if_true, String.toList_append]
    rfl
  | binary =>
    refine ⟨'2', rfl, ?_, by simp [Token.member, Lexeme.arity, hk, Kind.arity]⟩
    simp only [Lexeme.encoding, Lexeme.arity, hk, Kind.isOperation, if_true, String.toList_append]
    rfl
  | identifier | opening | closing | start | finish => simp [hk, Kind.isOperation] at h

/-- Where operations are expected, at most newlines are tried before them. -/
def AwaitsOperation (st : Expectation) : Prop :=
  ∃ before, st.terminals = before ++ [.operation] ∧ ∀ t ∈ before, t = .newlines

/-- In front of a text that does not begin with a newline it is the operation alone that counts. -/
theorem AwaitsOperation.cut?_eq (hst : AwaitsOperation st)
    (hnewlines : Terminal.newlines.lexeme? cs = none) :
    st.cut? cs = (Terminal.operation.lexeme? cs).map (.operation, ·) := by
  obtain ⟨before, hterminals, hbefore⟩ := hst
  have hnone : ∀ t ∈ before, t.lexeme? cs = none := by
    intro t ht
    rw [hbefore t ht, hnewlines]
  cases hoperation : Terminal.operation.lexeme? cs with
  | none =>
    apply cut?_eq_none
    rw [hterminals, List.forall_mem_append, List.forall_mem_singleton]
    exact ⟨hnone, hoperation⟩
  | some l => exact cut?_eq_some hterminals hnone hoperation

/-- An operation behind a space is the next lexeme. -/
theorem leads_operation (st : Expectation) {d : Char} {w : List Char} (hst : AwaitsOperation st)
    (hd : d.isDigit = true) (hne : w ≠ []) (hw : ∀ c ∈ w, Text.isBlank c = false)
    (hrest : Text.EndsWord rest) :
    Leads st (' ' :: d :: w ++ rest) (st.next .operation d w).2 (st.next .operation d w).1
      rest := by
  have hgap : ∀ c ∈ (d :: w ++ rest).head?, isGap c = false := by
    simpa using isGap_eq_false_of_isBlank (Text.isBlank_eq_false_of_isDigit hd)
  have hcut : st.cut? (d :: w ++ rest) = some (.operation, d :: w) := by
    have hnewlines : Terminal.newlines.lexeme? (d :: w ++ rest) = none :=
      @lexeme?_newlines_eq_none [] _ (by simp) hgap
    rw [hst.cut?_eq hnewlines, lexeme?_operation hd hne hw hrest, Option.map_some]
  -- neither a newline nor an operation begins at the space
  have hspace : st.cut? (' ' :: (d :: w ++ rest)) = none := by
    have hnewlines : Terminal.newlines.lexeme? (' ' :: (d :: w ++ rest)) = none :=
      @lexeme?_newlines_eq_none [' '] _ (by simp [isInlineBlank]) hgap
    rw [hst.cut?_eq hnewlines, lexeme?_operation_blank (by decide), Option.map_none]
  exact .of_blank (by decide) hspace (leads_lexeme hcut)

/-- The first member of a class is read behind the associativity. -/
theorem leads_first (name : String) {t : Token} (ht : Writable t) (hrest : Text.EndsWord rest) :
    Leads (.firstOperation name) (' ' :: t.encoding.toList ++ rest) []
      (.nextOperation name [t.member]) rest := by
  obtain ⟨d, hd, hencoding, hmember⟩ := exists_encoding ht.1
  have hread := leads_operation (.firstOperation name) ⟨[], rfl, by simp⟩ hd
    (toList_ne_nil_of_isSymbol ht.2) ht.2.2 hrest
  simpa only [hencoding, Expectation.next, hmember] using hread

/-- Each further member is read behind the ones before it. -/
theorem leads_next (name : String) (ops : List (Int × String)) {t : Token} (ht : Writable t)
    (hrest : Text.EndsWord rest) :
    Leads (.nextOperation name ops) (' ' :: t.encoding.toList ++ rest) []
      (.nextOperation name (t.member :: ops)) rest := by
  obtain ⟨d, hd, hencoding, hmember⟩ := exists_encoding ht.1
  have hread := leads_operation (.nextOperation name ops) ⟨[.newlines], rfl, by simp⟩ hd
    (toList_ne_nil_of_isSymbol ht.2) ht.2.2 hrest
  simpa only [hencoding, Expectation.next, hmember] using hread

/-- The members of a class as they stand in its line. -/
def members (ts : List Token) : List Char :=
  ts.flatMap fun t => ' ' :: t.encoding.toList

theorem endsWord_members (ts : List Token) (hrest : Text.EndsWord rest) :
    Text.EndsWord (members ts ++ rest) := by
  cases ts with
  | nil => exact hrest
  | cons t ts => exact Text.endsWord_cons (by decide) _

/-- **The members of a class are read one by one.** -/
theorem leads_members (name : String) (ops : List (Int × String)) {ts : List Token}
    (hts : ∀ t ∈ ts, Writable t) (hrest : Text.EndsWord rest) :
    Leads (.nextOperation name ops) (members ts ++ rest) []
      (.nextOperation name ((ts.map (·.member)).reverse ++ ops)) rest := by
  induction ts generalizing ops with
  | nil => exact .refl
  | cons t ts ih =>
    have hfirst := leads_next name ops (hts t (by simp)) (endsWord_members ts hrest)
    have hmore := ih (t.member :: ops) fun u hu => hts u (List.mem_cons_of_mem t hu)
    simpa [members] using hfirst.trans hmore

/-! ## §4 Lines -/

/-- Where a line may begin. -/
def AtLine (st : Expectation) : Prop :=
  st = .outset ∨ st = .entry

/-- A line that is read as one declaration, wherever a line may begin. -/
structure Declares (line : List Char) (d : Declaration) : Prop where
  starts : ∃ c more, line = c :: more ∧ isGap c = false
  reads : ∀ {st rest}, AtLine st → (∀ c ∈ rest.head?, isGap c = false) →
    Leads st (line ++ '\n' :: rest) [d] .entry rest

/-- The line feed completes what is pending. -/
theorem leads_feed (hst : st.terminals.head? = some .newlines)
    (hrest : ∀ c ∈ rest.head?, isGap c = false) :
    Leads st ('\n' :: rest) st.pending .entry rest := by
  obtain ⟨ts, hterminals⟩ := List.head?_eq_some_iff.mp hst
  have hcut : st.cut? ('\n' :: rest) = some (.newlines, ['\n']) :=
    @cut?_eq_some st _ _ [] ts _ hterminals (by simp) (lexeme?_newlines_feed hrest)
  exact @leads_lexeme st rest .newlines '\n' [] hcut

/-- Without a gap in front, a line begins with a keyword or a comment. -/
theorem cut?_atLine {c : Char} (hst : AtLine st) (hgap : isGap c = false) :
    st.cut? (c :: cs) = Expectation.entry.cut? (c :: cs) := by
  rcases hst with rfl | rfl
  · have hnone : Terminal.newlines.lexeme? (c :: cs) = none :=
      @lexeme?_newlines_eq_none [] _ (by simp) (by simpa using hgap)
    simp only [Expectation.cut?, Expectation.terminals, List.findSome?, hnone, Option.map_none]
  · rfl

/-! ## §5 Precedence classes -/

/-- The name of an associativity is matched as its keyword. -/
theorem lexeme?_name (a : Associativity) (rest : List Char) :
    Terminal.associativity.lexeme? (a.name.toList ++ ' ' :: rest) = some a.name.toList := by
  have hkeyword {word : List Char} (hword : word.map keywordLetter = word) :
      keyword? keywordLetter word (word ++ ' ' :: rest) = some word :=
    keyword?_append hword (.inl rfl) rest
  cases a with
  | left => rw [Terminal.lexeme?, Associativity.name, hkeyword (by decide), Option.some_or]
  | right =>
    have hleft : keyword? keywordLetter "left".toList ("right".toList ++ ' ' :: rest) = none :=
      keyword?_eq_none (by decide)
    rw [Terminal.lexeme?, Associativity.name, hleft, hkeyword (by decide), Option.none_or]

theorem leads_associativity (a : Associativity) (hst : AtLine st) :
    Leads st (a.name.toList ++ ' ' :: rest) [] (.firstOperation a.name) (' ' :: rest) := by
  obtain ⟨c, more, hname, hgap, hgroup⟩ :
      ∃ c more, a.name.toList = c :: more ∧ isGap c = false ∧ c ≠ 'g' := by
    cases a with
    | left => exact ⟨'l', ['e', 'f', 't'], by decide⟩
    | right => exact ⟨'r', ['i', 'g', 'h', 't'], by decide⟩
  have hlexeme := lexeme?_name a rest
  rw [hname] at hlexeme ⊢
  have hnone : Terminal.group.lexeme? (c :: more ++ ' ' :: rest) = none := keyword?_eq_none hgroup
  have hcut : st.cut? (c :: more ++ ' ' :: rest) = some (.associativity, c :: more) := by
    rw [List.cons_append, cut?_atLine hst hgap]
    exact @cut?_eq_some .entry _ _ [.group] [.comment] _ rfl (by simpa using hnone) hlexeme
  have hread := leads_lexeme hcut
  simpa only [Expectation.next, ← hname, String.ofList_toList] using hread

/-- The first of several words has no separator in front, the others have. -/
theorem intercalate_cons {sep x : List Char} {xs : List (List Char)} :
    sep.intercalate (x :: xs) = x ++ xs.flatMap (sep ++ ·) := by
  induction xs generalizing x with
  | nil => simp
  | cons y ys ih => rw [List.intercalate_cons_cons, ih]; simp

theorem toList_class (c : PrecedenceClass) :
    c.line.toList = c.associativity.name.toList ++ members c.operations := by
  rw [PrecedenceClass.line, String.toList_intercalate, List.map_cons, intercalate_cons]
  simp [members, List.flatMap_map]

/-- **The line of a precedence class declares it.** -/
theorem declares_class {c : PrecedenceClass} (hne : c.operations ≠ [])
    (hc : ∀ t ∈ c.operations, Writable t) :
    Declares c.line.toList c.declaration where
  starts := by
    rw [toList_class]
    cases c.associativity with
    | left => exact ⟨'l', _, rfl, by decide⟩
    | right => exact ⟨'r', _, rfl, by decide⟩
  reads := by
    intro st rest hst hrest
    obtain ⟨t, ts, hts⟩ := List.exists_cons_of_ne_nil hne
    obtain ⟨ht, hmembers⟩ := List.forall_mem_cons.mp (hts ▸ hc)
    have hfeed : Text.EndsWord ('\n' :: rest) := Text.endsWord_cons Text.isBlank_newline rest
    have hkeyword := @leads_associativity st (t.encoding.toList ++ (members ts ++ '\n' :: rest))
      c.associativity hst
    have hfirst := leads_first c.associativity.name ht (endsWord_members ts hfeed)
    have hmore := leads_members c.associativity.name [t.member] hmembers hfeed
    have hread := ((hkeyword.trans hfirst).trans hmore).trans (leads_feed rfl hrest)
    simpa [toList_class, PrecedenceClass.declaration, members, hts, Expectation.pending]
      using hread

/-! ## §6 Bracket pairs -/

/-- A symbol behind a space is the next lexeme. -/
theorem leads_symbol (st : Expectation) {c : Char} {more : List Char}
    (hst : st.terminals = [.symbol]) (hw : ∀ d ∈ c :: more, Text.isBlank d = false)
    (hrest : Text.EndsWord rest) :
    Leads st (' ' :: c :: more ++ rest) (st.next .symbol c more).2 (st.next .symbol c more).1
      rest := by
  have hcut : st.cut? (c :: more ++ rest) = some (.symbol, c :: more) :=
    @cut?_eq_some st _ _ [] [] _ hst (by simp) (lexeme?_symbol (by simp) hw hrest)
  have hspace : st.cut? (' ' :: (c :: more ++ rest)) = none := by
    apply cut?_eq_none
    simpa [hst] using lexeme?_symbol_blank (by decide) _
  exact .of_blank (by decide) hspace (leads_lexeme hcut)

theorem leads_opening {o : String} (ho : IsSymbol o) (hrest : Text.EndsWord rest) :
    Leads .opening (' ' :: o.toList ++ rest) [] (.closing o) rest := by
  obtain ⟨c, more, hword⟩ := List.exists_cons_of_ne_nil (toList_ne_nil_of_isSymbol ho)
  have hread := leads_symbol .opening rfl (hword ▸ ho.2) hrest
  simpa only [Expectation.next, ← hword, String.ofList_toList] using hread

theorem leads_closing (o : String) {c : String} (hc : IsSymbol c) (hrest : Text.EndsWord rest) :
    Leads (.closing o) (' ' :: c.toList ++ rest) [.brackets o c] .lineEnd rest := by
  obtain ⟨d, more, hword⟩ := List.exists_cons_of_ne_nil (toList_ne_nil_of_isSymbol hc)
  have hread := leads_symbol (.closing o) rfl (hword ▸ hc.2) hrest
  simpa only [Expectation.next, ← hword, String.ofList_toList] using hread

theorem leads_group (hst : AtLine st) :
    Leads st ("group".toList ++ ' ' :: rest) [] .opening (' ' :: rest) := by
  have hlexeme : Terminal.group.lexeme? ("group".toList ++ ' ' :: rest) = some "group".toList := by
    rw [Terminal.lexeme?]
    exact keyword?_append (List.map_id _) (.inl rfl) rest
  obtain ⟨c, more, hname, hgap⟩ : ∃ c more, "group".toList = c :: more ∧ isGap c = false :=
    ⟨'g', ['r', 'o', 'u', 'p'], by decide⟩
  rw [hname] at hlexeme ⊢
  have hcut : st.cut? (c :: more ++ ' ' :: rest) = some (.group, c :: more) := by
    rw [List.cons_append, cut?_atLine hst hgap]
    exact @cut?_eq_some .entry _ _ [] [.associativity, .comment] _ rfl (by simp) hlexeme
  exact leads_lexeme hcut

theorem toList_brackets (b : BracketPair) : b.line.toList =
    "group".toList ++ ' ' :: b.opening.symbol.toList ++ ' ' :: b.closing.symbol.toList := by
  simp only [BracketPair.line, String.toList_append, List.append_assoc]
  rfl

/-- **The line of a bracket pair declares it.** -/
theorem declares_brackets {b : BracketPair} (ho : IsSymbol b.opening.symbol)
    (hc : IsSymbol b.closing.symbol) :
    Declares b.line.toList b.declaration where
  starts := toList_brackets b ▸ ⟨'g', _, rfl, by decide⟩
  reads := by
    intro st rest hst hrest
    have hfeed : Text.EndsWord ('\n' :: rest) := Text.endsWord_cons Text.isBlank_newline rest
    have hspace : Text.EndsWord (' ' :: b.closing.symbol.toList ++ '\n' :: rest) :=
      Text.endsWord_cons (by decide) _
    have hkeyword := @leads_group st
      (b.opening.symbol.toList ++ ' ' :: b.closing.symbol.toList ++ '\n' :: rest) hst
    have hopening := leads_opening ho hspace
    have hclosing := leads_closing b.opening.symbol hc hfeed
    rw [toList_brackets]
    simp only [List.append_assoc, List.cons_append] at hkeyword hopening hclosing ⊢
    exact ((hkeyword.trans hopening).trans hclosing).trans (leads_feed rfl hrest)

/-! ## §7 Files -/

/-- **Lines that declare something are read one after the other.** -/
theorem declarations?_lines {lines : List (List Char)} (h : List.Forall₂ Declares lines ds)
    (hst : AtLine st) (here last : Position) :
    declarations? st here last (lines.flatMap (· ++ ['\n'])) = .ok ds := by
  induction h generalizing st here last with
  | nil =>
    rcases hst with rfl | rfl <;> rw [List.flatMap_nil, declarations?] <;> rfl
  | @cons line d lines ds hline hlines ih =>
    have hgap : ∀ c ∈ (lines.flatMap (· ++ ['\n'])).head?, isGap c = false := by
      cases hlines with
      | nil => simp
      | cons hnext _ =>
        obtain ⟨c, more, rfl, hc⟩ := hnext.starts
        simpa using hc
    obtain ⟨here', last', hread⟩ := hline.reads hst hgap here last
    rw [List.flatMap_cons, List.append_assoc, List.singleton_append, hread, ih (.inr rfl)]
    rfl

end Grammar.File

end Fixity
