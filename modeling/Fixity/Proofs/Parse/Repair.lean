import Fixity.Proofs.Parse.Diagnosis
import Fixity.Proofs.Pieces.Split

/-!
# Lines with unclosed brackets

If a line ends inside a bracket, the help is to add the partner of the innermost open one. The
advice is good at any depth. Behind a space the partner is a piece of its own and changes no token
before it, the checker lets it pass, as the line has ended with an operand, and then the next
bracket is the innermost one. So the brackets are closed one by one, and the checker accepts the
line when as many partners are added as brackets were open.

## Main statements

- `Grammar.exists_tokenize_append`: a symbol behind a space adds one token
- `LeavesOpen.close`: the partner of the innermost bracket closes it
- `leavesOpen_of_repaired`: after some repairs so many brackets are closed
- `repairs_close`: the repairs lead to an accepted line
-/

namespace Fixity

open Checker

variable {g : Grammar} {line line' : String}

/-! ## §1 One more symbol -/

namespace Grammar

/-- A piece at the end of a text is found behind all others, which stay in their places. -/
theorem locate_append_piece {piece : String} (hpiece : IsSymbol piece) {pieces : List String}
    {index offset : Nat} {rest : List Char} {tokens : List Token}
    (hcut : Text.Cut rest (pieces.map String.toList))
    (h : g.locate index offset rest pieces = .ok tokens) :
    ∃ span, g.locate index offset (rest ++ ' ' :: piece.toList) (pieces ++ [piece]) =
      .ok (tokens ++ [(g.classify piece).placed (index + pieces.length : Nat) span]) := by
  induction pieces generalizing index offset rest tokens with
  | nil =>
    obtain rfl : [] = tokens := by simpa [locate] using h
    -- the rest of the text is blank, and so is the space
    have hgap : ∀ c ∈ rest ++ [' '], Text.isBlank c = true := by
      intro c hc
      rcases List.mem_append.mp hc with hc | hc
      · exact hcut.isBlank_of_nil c hc
      · rw [List.mem_singleton.mp hc]
        exact Text.isBlank_space
    have hlocate := locate_gap (g := g) hgap hpiece index offset [] []
    rw [List.append_nil, List.append_assoc] at hlocate
    exact ⟨_, hlocate⟩
  | cons p pieces ih =>
    obtain ⟨gap, behind, rfl, hgap, hp, hbehind⟩ := exists_gap_of_cut hcut
    rw [locate_gap hgap hp] at h
    cases hothers : g.locate (index + 1) (offset + gap.length + p.length) behind pieces with
    | error e => simp [hothers, Except.map] at h
    | ok others =>
      obtain ⟨span, hspan⟩ := ih hbehind hothers
      simp only [hothers, Except.map, Except.ok.injEq] at h
      refine ⟨span, ?_⟩
      rw [List.append_assoc, List.append_assoc, List.cons_append, locate_gap hgap hp, hspan, ← h]
      simp [Except.map, Nat.add_comm, Nat.add_left_comm]

/-- **A symbol behind a space adds one token**, and leaves the others as they are. -/
theorem exists_tokenize_append {tokens : List Token} (h : g.tokenize line = .ok tokens)
    {t : Token} (ht : g.Registers t) :
    ∃ x : Token, x.toLexeme = t.toLexeme ∧
      g.tokenize (line ++ " " ++ t.symbol) = .ok (tokens ++ [x]) := by
  obtain ⟨hpiece, hlexeme⟩ := ht.legible
  have hlist : (line ++ " " ++ t.symbol).toList = line.toList ++ ' ' :: t.symbol.toList := by
    simp
  have hsplit : g.split (line ++ " " ++ t.symbol) = g.split line ++ [t.symbol] := by
    rw [split_append_blank Text.isBlank_space hlist, split_piece hpiece]
  obtain ⟨span, hspan⟩ := locate_append_piece hpiece.1 (g.cut_split line) h
  refine ⟨(g.classify t.symbol).placed (0 + (g.split line).length : Nat) span, hlexeme, ?_⟩
  rw [tokenize, hlist, hsplit]
  exact hspan

end Grammar

/-! ## §2 The end of a line inside a bracket -/

namespace Checker

variable {c : Checker} {e o : Token} {partner : Option Token}

theorem check_finish (hk : e.kind = .finish) :
    (c.check g e).2 = refusal? g c.last c.opened e := by
  -- the end of the line opens and closes nothing
  have hbracket : bracket g c.opened e = (c.opened, none) :=
    bracket_eq_none_iff.mpr (.inr (.inr ⟨by simp [hk], by simp [hk], rfl⟩))
  simp only [check, hbracket]
  cases refusal? g c.last c.opened e with
  | some r => rfl
  | none => rfl

theorem feed_singleton : (feed g c [e]).2 = (c.check g e).2 := by
  simp only [feed]
  split
  · next h => rw [h]
  · next h => rw [h]

/-- The innermost open bracket is reported at the end of the line only, and only behind an
operand. -/
theorem check_eq_unclosed_iff :
    (c.check g e).2 = some (.unclosed o partner) ↔
      e.kind = .finish ∧ c.last.kind.endsOperand = true ∧
        ∃ rest, c.opened = o :: rest ∧ partner = g.closingFor? o := by
  have hmay (hk : e.kind = .finish) :
      c.last.kind.mayPrecede e.kind = true ↔ c.last.kind.endsOperand = true := by
    rw [mayPrecede_eq, hk]
    rfl
  constructor
  · intro h
    cases refuses_of_check h with
    | @unclosed _ rest hk ho =>
      refine ⟨hk, ?_, rest, ho, rfl⟩
      rw [check_finish hk] at h
      unfold refusal? at h
      split at h
      · next hnext => exact (hmay hk).mp hnext
      · simp at h
  · rintro ⟨hk, hends, rest, ho, rfl⟩
    rw [check_finish hk]
    unfold refusal?
    rw [if_pos ((hmay hk).mpr hends)]
    simp only [hk, ho]

end Checker

/-- The checker accepts the tokens of the line, the last of which ends an operand, and these
brackets are still open then, the innermost first. -/
def LeavesOpen (g : Grammar) (line : String) (opened : List Token) : Prop :=
  ∃ tokens last, g.tokenize line = .ok tokens ∧ feed g {} tokens = (⟨last, opened⟩, none) ∧
    last.kind.endsOperand = true

theorem LeavesOpen.unique {opened opened' : List Token} (h : LeavesOpen g line opened)
    (h' : LeavesOpen g line opened') : opened = opened' := by
  obtain ⟨tokens, last, htokens, hfeed, -⟩ := h
  obtain ⟨tokens', last', htokens', hfeed', -⟩ := h'
  obtain rfl : tokens = tokens' := Except.ok.inj (htokens.symm.trans htokens')
  have hstates := hfeed.symm.trans hfeed'
  rw [Prod.mk.injEq, Checker.mk.injEq] at hstates
  exact hstates.1.2

/-- Each of these brackets has a partner. -/
theorem LeavesOpen.exists_closingFor? {opened : List Token} (h : LeavesOpen g line opened) :
    ∀ o ∈ opened, ∃ c, g.closingFor? o = some c := by
  obtain ⟨tokens, last, htokens, hfeed, -⟩ := h
  intro o ho
  rcases mem_opened_of_feed hfeed o ho with hnone | ⟨hmem, hk⟩
  · simp at hnone
  · have hregisters := (Grammar.tokenize_knows htokens o hmem).resolve_left (by simp [hk])
    obtain ⟨b, hb, hbo⟩ := hregisters.exists_opening hk
    exact ⟨b.closing, hbo ▸ Grammar.closingFor?_eq hb⟩

/-- **The partner of the innermost bracket closes it.** -/
theorem LeavesOpen.close {o c : Token} {rest : List Token} (h : LeavesOpen g line (o :: rest))
    (hc : g.closingFor? o = some c) : LeavesOpen g (line ++ " " ++ c.symbol) rest := by
  obtain ⟨tokens, last, htokens, hfeed, hlast⟩ := h
  have hclose : g.Closes o c := by
    rw [Grammar.Closes, hc]
    rfl
  obtain ⟨x, hx, hmore⟩ := Grammar.exists_tokenize_append htokens hclose.registers_closing
  have hpass : Passes g ⟨last, o :: rest⟩ x ⟨x, rest⟩ := .closing hlast rfl (hx ▸ hclose)
  refine ⟨tokens ++ [x], x, hmore, ?_, ?_⟩
  · rw [feed_append_of_none hfeed, feed_cons_of_passes hpass]
    rfl
  · -- a closing bracket ends an operand in its turn
    rw [hx, hclose.kind_closing]
    rfl

/-! ## §3 The report and the help -/

/-- The help to add a symbol. -/
def closingHelp (symbol : String) : String :=
  "add `" ++ symbol ++ "` to close it"

theorem closingHelp_inj {s t : String} (h : closingHelp s = closingHelp t) : s = t := by
  have hlist := congrArg String.toList h
  simp only [closingHelp, String.toList_append] at hlist
  exact String.toList_injective (List.append_cancel_left (List.append_cancel_right hlist))

/-- Parsing the line fails with the report of an unclosed bracket. -/
def FailsUnclosed (g : Grammar) (line : String) (e : ParseError) : Prop :=
  ∃ f, g.parse line = .error f ∧ f.report = .parseError e ∧ e.category = .unclosed

/-- The report is about this bracket, and the help names its partner. -/
def ParseError.AsksToClose (g : Grammar) (e : ParseError) (o : Token) : Prop :=
  e.tokens = [o] ∧ ∃ c, g.closingFor? o = some c ∧ e.help = some (closingHelp c.symbol)

/-- A line that ends inside a bracket fails for the innermost one. -/
theorem LeavesOpen.fails (few : g.classes.length < Grammar.bracketRank) {o : Token}
    {rest : List Token} (h : LeavesOpen g line (o :: rest)) :
    ∃ e, FailsUnclosed g line e ∧ e.AsksToClose g o := by
  obtain ⟨c, hc⟩ := h.exists_closingFor? o (by simp)
  obtain ⟨tokens, last, htokens, hfeed, hlast⟩ := h
  have hknown := Grammar.tokenize_knows htokens
  have hend : ∀ e : Token, e.kind = .finish →
      (feed g {} (tokens ++ [e])).2 = some (.unclosed o (some c)) := by
    intro e he
    rw [feed_append_of_none hfeed, feed_singleton, check_eq_unclosed_iff]
    exact ⟨he, hlast, rest, rfl, hc.symm⟩
  have hrefused : ¬ Accepts g tokens := by
    intro haccepts
    have hnone : (feed g {} (tokens ++ [.finish])).2 = none := haccepts
    simp [hend .finish rfl] at hnone
  obtain ⟨e, r, hends, hr, hrun⟩ := runFresh_refused (fun t ht => (hknown t ht).supports few)
    (Grammar.tokenize_spans htokens) hrefused
  -- the run is refused for the reason that the checker gives
  obtain rfl : .unclosed o (some c) = r :=
    Option.some.inj ((hend e (congrArg Lexeme.kind hends.lexeme)).symm.trans hr)
  have hparse : g.parse line = .error (.engine (.rejected (.unclosed o (some c)))) := by
    rw [Grammar.parse, htokens]
    simp only [Grammar.parseTokens, hrun]
  exact ⟨_, ⟨_, hparse, rfl, rfl⟩, rfl, c, hc, rfl⟩

/-- No other lines fail with an unclosed bracket. -/
theorem FailsUnclosed.leavesOpen (few : g.classes.length < Grammar.bracketRank) {e : ParseError}
    (h : FailsUnclosed g line e) : ∃ o rest, LeavesOpen g line (o :: rest) ∧ e.AsksToClose g o := by
  obtain ⟨f, hf, hreport, hcategory⟩ := h
  obtain ⟨tokens, htokens⟩ := g.exists_tokenize line
  have hknown := Grammar.tokenize_knows htokens
  rcases refused_or_lacks few htokens hf with ⟨finish, r, -, hr, rfl⟩ | ⟨t, -, found, rfl⟩
  · obtain rfl : r.error = e := Report.parseError.inj hreport
    obtain ⟨before, t, behind, c, hsplit, hbefore, hrefused⟩ := exists_of_feed_eq_some hr
    cases r with
    | misplaced | unopened | mismatched => simp [Rejection.error] at hcategory
    | unclosed o partner =>
      obtain ⟨hk, hlast, rest, ho, rfl⟩ := check_eq_unclosed_iff.mp hrefused
      -- it is the end of the line that is refused, as no token of the line is of its kind
      have hmem : t ∉ tokens := by
        intro ht
        have hsentinel := (hknown t ht).isSentinel_eq_false
        simp [hk, Kind.isSentinel] at hsentinel
      obtain rfl : before = tokens := by
        rcases List.append_eq_append_iff.mp hsplit with ⟨more, rfl, hmore⟩ | ⟨more, rfl, hmore⟩
        · cases more with
          | nil => simp
          | cons x more => simp at hmore
        · cases more with
          | nil => simp
          | cons x more =>
            obtain ⟨rfl, -⟩ := List.cons.inj hmore
            simp at hmem
      have hopen : LeavesOpen g line (o :: rest) := ⟨before, c.last, htokens, ho ▸ hbefore, hlast⟩
      obtain ⟨p, hp⟩ := hopen.exists_closingFor? o (by simp)
      exact ⟨o, rest, hopen, rfl, p, hp, by rw [hp]; rfl⟩
  · obtain rfl := Report.parseError.inj hreport
    simp at hcategory

/-- A line that ends outside of all brackets is accepted, and fails for its structure at most. -/
theorem LeavesOpen.accepts (few : g.classes.length < Grammar.bracketRank)
    (h : LeavesOpen g line []) : (∃ tokens, g.tokenize line = .ok tokens ∧ Accepts g tokens) ∧
      ∀ f, g.parse line = .error f → f.IsStructural := by
  obtain ⟨tokens, last, htokens, hfeed, hlast⟩ := h
  have haccepts : Accepts g tokens := by
    rw [Accepts, Completes, feed_append_of_none hfeed]
    exact completes_nil.mpr ⟨hlast, rfl⟩
  refine ⟨⟨tokens, htokens, haccepts⟩, ?_⟩
  intro f hf
  rcases refused_or_lacks few htokens hf with ⟨e, r, hends, hr, -⟩ | ⟨t, -, found, rfl⟩
  · have hnone := (feed_append_finish (congrArg Lexeme.kind hends.lexeme)).mpr haccepts
    simp [hr] at hnone
  · exact ⟨_, rfl, rfl⟩

/-! ## §4 Repairs -/

/-- The line after a number of repairs: each time the symbol that the help asks for is added behind
a space. -/
inductive Repaired (g : Grammar) (line : String) : Nat → String → Prop where
  | none : Repaired g line 0 line
  | again {n : Nat} {mid symbol : String} {e : ParseError} : Repaired g line n mid →
      FailsUnclosed g mid e → e.help = some (closingHelp symbol) →
      Repaired g line (n + 1) (mid ++ " " ++ symbol)

/-- **After some repairs so many brackets are closed**, the innermost ones, and no others. -/
theorem leavesOpen_of_repaired (few : g.classes.length < Grammar.bracketRank)
    {opened : List Token} (h : LeavesOpen g line opened) {n : Nat} (hr : Repaired g line n line') :
    n ≤ opened.length ∧ LeavesOpen g line' (opened.drop n) := by
  induction hr with
  | none => exact ⟨Nat.zero_le _, h⟩
  | @again n mid symbol e _ hfails hhelp ih =>
    obtain ⟨-, hopen⟩ := ih
    -- the line failed for the innermost of the brackets that were left
    obtain ⟨o, rest, hopen', -, c, hc, hhelp'⟩ := hfails.leavesOpen few
    have hdrop : opened.drop n = o :: rest := hopen.unique hopen'
    obtain rfl : c.symbol = symbol :=
      closingHelp_inj (Option.some.inj (hhelp'.symm.trans hhelp))
    have hlength := congrArg List.length hdrop
    rw [List.length_drop, List.length_cons] at hlength
    refine ⟨by omega, ?_⟩
    rw [← List.drop_drop, hdrop]
    exact hopen'.close hc

theorem exists_repaired (few : g.classes.length < Grammar.bracketRank) {opened : List Token}
    (h : LeavesOpen g line opened) {n : Nat} (hn : n ≤ opened.length) :
    ∃ line', Repaired g line n line' := by
  induction n with
  | zero => exact ⟨line, .none⟩
  | succ n ih =>
    obtain ⟨mid, hmid⟩ := ih (by omega)
    obtain ⟨-, hopen⟩ := leavesOpen_of_repaired few h hmid
    rw [List.drop_eq_getElem_cons hn] at hopen
    obtain ⟨e, hfails, -, c, -, hhelp⟩ := hopen.fails few
    exact ⟨_, .again hmid hfails hhelp⟩

/-- **The repairs lead to an accepted line.** If a line fails with an unclosed bracket, some of its
brackets have no partner, and the line can be repaired as often. After fewer repairs it fails for
the innermost bracket that is left, and the help is to add the partner of this one. After the last
repair the checker accepts the line, which can fail for its structure only. -/
theorem repairs_close (few : g.classes.length < Grammar.bracketRank) (line : String)
    {e : ParseError} (h : FailsUnclosed g line e) :
    ∃ tokens opened : List Token, g.tokenize line = .ok tokens ∧
      (∀ us, Residue g tokens us ↔ us = opened.reverse) ∧
      (∀ n ≤ opened.length, ∃ line', Repaired g line n line') ∧
      ∀ n line', Repaired g line n line' →
        (∃ o e', opened[n]? = some o ∧ FailsUnclosed g line' e' ∧ e'.AsksToClose g o) ∨
        (n = opened.length ∧ (∃ tokens', g.tokenize line' = .ok tokens' ∧ Accepts g tokens') ∧
          ∀ f, g.parse line' = .error f → f.IsStructural) := by
  obtain ⟨o, rest, hopen, -⟩ := h.leavesOpen few
  obtain ⟨tokens, last, htokens, hfeed, hlast⟩ := hopen
  have hopen : LeavesOpen g line (o :: rest) := ⟨tokens, last, htokens, hfeed, hlast⟩
  refine ⟨tokens, o :: rest, htokens, ?_, fun n hn => exists_repaired few hopen hn, ?_⟩
  · intro us
    have hresidue := residue_of_feed hfeed
    constructor
    · intro hus
      exact hus.unique hresidue
    · rintro rfl
      exact hresidue
  · intro n line' hr
    obtain ⟨hn, hleft⟩ := leavesOpen_of_repaired few hopen hr
    rcases Nat.lt_or_eq_of_le hn with hlt | heq
    · rw [List.drop_eq_getElem_cons hlt] at hleft
      obtain ⟨e', hfails, hasks⟩ := hleft.fails few
      exact .inl ⟨_, e', List.getElem?_eq_getElem hlt, hfails, hasks⟩
    · rw [heq, List.drop_length] at hleft
      exact .inr ⟨heq, hleft.accepts few⟩

/-- In this line the second bracket is closed already, so one repair is enough. -/
theorem repairs_close_innerClosed :
    (∃ e, FailsUnclosed roundBrackets "( ( x )" e ∧ e.help = some (closingHelp ")")) ∧
      Repaired roundBrackets "( ( x )" 1 "( ( x ) )" ∧
      ∃ tokens, roundBrackets.tokenize "( ( x ) )" = .ok tokens ∧ Accepts roundBrackets tokens := by
  have hfails : FailsUnclosed roundBrackets "( ( x )"
      (Rejection.error (.unclosed ⟨⟨.opening, "("⟩, 0, some ⟨0, 1, 1⟩⟩
        (some (.ofKind .closing ")")))) := by
    refine ⟨.engine (.rejected _), ?_, rfl, rfl⟩
    rw [Grammar.parse, tokenize_innerClosed]
    rfl
  have hrepaired : Repaired roundBrackets "( ( x )" 1 "( ( x ) )" := .again .none hfails rfl
  refine ⟨⟨_, hfails, rfl⟩, hrepaired, ?_⟩
  obtain ⟨tokens, opened, htokens, hleft, -, hrepairs⟩ :=
    repairs_close (by decide) "( ( x )" hfails
  obtain rfl : innerClosed = tokens := Except.ok.inj (tokenize_innerClosed.symm.trans htokens)
  -- only the first bracket is left
  have hfeed : feed roundBrackets {} innerClosed =
      (⟨⟨⟨.closing, ")"⟩, 3, some ⟨6, 7, 1⟩⟩, [⟨⟨.opening, "("⟩, 0, some ⟨0, 1, 1⟩⟩]⟩, none) := by
    decide
  have hopened := List.reverse_injective ((hleft _).mp (residue_of_feed hfeed))
  rcases hrepairs 1 _ hrepaired with ⟨o, -, ho, -⟩ | ⟨-, haccepts, -⟩
  · simp [← hopened] at ho
  · exact haccepts

end Fixity
