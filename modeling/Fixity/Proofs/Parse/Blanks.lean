import Fixity.Proofs.Engine.Unspanned
import Fixity.Proofs.Parse.Soundness
import Fixity.Proofs.Pieces.Split
import Fixity.Proofs.Text.Reblanked

/-!
# Blanks only separate

A line is cut word by word, as no symbol goes over a blank. So a change of its runs of blanks
changes no piece of it, and the tokens stay but for their spans. From there on nothing is decided by
a span: neither the engine nor the building of the tree looks at one, and no message tells of one.

## Main statements

- `Grammar.split_append_run`: a run of blanks cuts a line into two that are cut apart
- `Grammar.split_eq_of_words`: the pieces of a line depend on its words only
- `Tree.ofPostfix?_unspanned`: spans decide nothing in the building of a tree
- `parse_reblanked`: the runs of blanks in a line decide nothing but spans
-/

namespace Fixity

variable {g : Grammar}

/-! ## §1 Pieces -/

namespace Grammar

theorem padded_nil (order : List String) : padded order [] = [] := by
  induction order with
  | nil => rfl
  | cons s order ih =>
    rw [padded_cons, Text.isolate_nil]
    exact ih

section Order

variable {order : List String} (h : ∀ s ∈ order, IsSymbol s)
include h

/-- A text is padded and cut word by word. -/
theorem words_padded_eq_flatMap (cs : List Char) :
    Text.words (padded order cs) =
      (Text.words cs).flatMap fun w => Text.words (padded order w) := by
  rcases Text.exists_first_blank cs with hcs | ⟨u, c, v, rfl, hu, hc⟩
  · by_cases hnil : cs = []
    · rw [hnil, padded_nil, Text.words_nil]
      rfl
    · rw [Text.words_eq_singleton hnil hcs, List.flatMap_singleton]
  · have hlen : v.length < (u ++ c :: v).length := by simp; omega
    rw [padded_append_blank h hc, Text.words_append_cons hc, Text.words_append_cons hc,
      List.flatMap_append, words_padded_eq_flatMap v]
    by_cases hnil : u = []
    · rw [hnil, padded_nil, Text.words_nil]
      rfl
    · rw [Text.words_eq_singleton hnil hu, List.flatMap_singleton]
termination_by cs.length

end Order

/-- **A run of blanks cuts a line into two that are cut apart.** -/
theorem split_append_run {w : String} (hw : Text.IsRun w.toList) (hne : w ≠ "") (u v : String) :
    g.split (u ++ w ++ v) = g.split u ++ g.split v := by
  have hsymbols : ∀ s ∈ g.isolationOrder, IsSymbol s := fun s => isSymbol_of_mem_isolationOrder
  have hwords := Text.words_append_run hw (mt String.toList_eq_nil_iff.mp hne) u.toList v.toList
  unfold split
  rw [String.append_assoc, String.toList_append, String.toList_append, isolateAll_eq_padded,
    words_padded_eq_flatMap hsymbols, hwords, List.flatMap_append,
    ← words_padded_eq_flatMap hsymbols, ← words_padded_eq_flatMap hsymbols, List.map_append]
  rfl

/-- **The pieces of a line depend on its words only.** -/
theorem split_eq_of_words {line line' : String}
    (h : Text.words line.toList = Text.words line'.toList) : g.split line = g.split line' := by
  have hsymbols : ∀ s ∈ g.isolationOrder, IsSymbol s := fun s => isSymbol_of_mem_isolationOrder
  unfold split
  rw [isolateAll_eq_padded, isolateAll_eq_padded, words_padded_eq_flatMap hsymbols,
    words_padded_eq_flatMap hsymbols, h]

/-- Without their spans the tokens depend on the pieces only. -/
theorem unspanned_locate {pieces : List String} {index offset : Nat} {rest : List Char}
    {tokens : List Token} (h : g.locate index offset rest pieces = .ok tokens) :
    tokens.map Token.unspanned =
      (pieces.zipIdx index).map fun p => (g.classify p.1).placed p.2 none := by
  induction pieces generalizing index offset rest tokens with
  | nil =>
    obtain rfl : [] = tokens := by simpa [locate] using h
    rfl
  | cons piece pieces ih =>
    obtain ⟨start, others, rfl, _, _, hothers⟩ := locate_cons h
    rw [List.map_cons, List.zipIdx_cons, List.map_cons, ih hothers]
    rfl

theorem unspanned_tokenize {line line' : String} {ss ts : List Token}
    (h : Text.words line.toList = Text.words line'.toList) (hss : g.tokenize line = .ok ss)
    (hts : g.tokenize line' = .ok ts) : ss.map Token.unspanned = ts.map Token.unspanned := by
  rw [unspanned_locate hss, unspanned_locate hts, split_eq_of_words h]

end Grammar

/-! ## §2 Trees -/

namespace Tree

/-- The same tree over tokens without spans. -/
def unspanned : Tree → Tree
  | leaf t h => leaf t.unspanned h
  | unary t h a => unary t.unspanned h a.unspanned
  | binary t h a b => binary t.unspanned h a.unspanned b.unspanned

theorem token_unspanned (t : Tree) : t.unspanned.token = t.token.unspanned := by
  cases t <;> rfl

/-- The same fault of tokens in other places. -/
def BuildFault.map (f : Token → Token) : BuildFault → BuildFault
  | unbuildable t => unbuildable (f t)
  | missingOperands t found => missingOperands (f t) found
  | empty => empty
  | leftover roots => leftover (roots.map f)
  | arity fault => arity ⟨f fault.token, fault.given⟩

theorem node?_unspanned (t : Token) (children : List Tree) :
    node? t.unspanned (children.map unspanned) =
      ((node? t children).map unspanned).mapError fun fault =>
        ⟨fault.token.unspanned, fault.given⟩ := by
  have harity : t.unspanned.arity = t.arity := rfl
  match children with
  | [] | [a] | [a, b] =>
    unfold node?
    simp only [List.map_nil, List.map_cons, harity]
    split
    · rfl
    · rfl
  | a :: b :: c :: rest =>
    unfold node?
    simp [Except.map, Except.mapError]

theorem assemble_unspanned (finished : List Tree) (ts : List Token) :
    assemble (finished.map unspanned) (ts.map Token.unspanned) =
      ((assemble finished ts).map (List.map unspanned)).mapError (.map Token.unspanned) := by
  induction ts generalizing finished with
  | nil => rfl
  | cons t ts ih =>
    have hkind : t.unspanned.kind = t.kind := rfl
    have harity : t.unspanned.arity = t.arity := rfl
    rw [List.map_cons, assemble, assemble, hkind, harity, List.length_map, ← List.map_take,
      ← List.map_reverse, node?_unspanned, ← List.map_drop]
    split
    · rfl
    · split
      · rfl
      · cases node? t (finished.take t.arity).reverse with
        | error fault => rfl
        | ok n => exact ih (n :: finished.drop t.arity)

/-- **Spans decide nothing in the building of a tree.** -/
theorem ofPostfix?_unspanned (ts : List Token) :
    ofPostfix? (ts.map Token.unspanned) =
      ((ofPostfix? ts).map unspanned).mapError (.map Token.unspanned) := by
  have hassemble := assemble_unspanned [] ts
  rw [List.map_nil] at hassemble
  unfold ofPostfix?
  rw [hassemble]
  cases assemble [] ts with
  | error fault => rfl
  | ok result =>
    match result with
    | [] | [t] => rfl
    | t :: u :: before =>
      have hroots : ((u :: before).map unspanned).reverse.map token =
          ((u :: before).reverse.map token).map Token.unspanned := by
        rw [← List.map_reverse, List.map_map, List.map_map]
        exact List.map_congr_left fun n _ => token_unspanned n
      exact congrArg (fun roots => Except.error (BuildFault.leftover roots)) hroots

end Tree

/-! ## §3 Reports -/

/-- The same error about tokens without spans: of the same category, with the same message and hint,
and with tokens of the same kinds, symbols and indices. -/
def ParseError.unspanned (e : ParseError) : ParseError :=
  { e with tokens := e.tokens.map Token.unspanned }

theorem ParseError.indices_unspanned (e : ParseError) : e.unspanned.indices = e.indices := by
  unfold ParseError.indices ParseError.unspanned
  rw [List.map_map]
  rfl

/-- The same report about tokens without spans. -/
def Report.unspanned : Report → Report
  | parseError e => parseError e.unspanned
  | arity fault => arity ⟨fault.token.unspanned, fault.given⟩
  | grammarError e => grammarError e
  | internalError e => internalError e
  | noLength s => noLength s

theorem Rejection.error_unspanned (r : Rejection) :
    (r.map Token.unspanned).error = r.error.unspanned := by
  cases r with
  | misplaced last next =>
    have htokens : [last.unspanned, next.unspanned].filter (·.kind ≠ .start) =
        ([last, next].filter (·.kind ≠ .start)).map Token.unspanned :=
      List.filter_map (l := [last, next])
    simp only [Rejection.map, Rejection.error, ParseError.unspanned, htokens]
    rfl
  | unclosed | unopened | mismatched => rfl

theorem EngineFault.report_unspanned (fault : EngineFault) :
    (fault.map Token.unspanned).report = fault.report.unspanned := by
  cases fault with
  | rejected r => exact congrArg Report.parseError r.error_unspanned
  | leftPending ts =>
    simp only [EngineFault.map, EngineFault.report, List.map_map]
    rfl
  | emptyStack | noOpening | mismatched | unexpected | noPrecedence | inverted => rfl

theorem Tree.BuildFault.report_unspanned (fault : Tree.BuildFault) :
    (fault.map Token.unspanned).report = fault.report.unspanned := by
  cases fault with
  | leftover roots =>
    simp only [BuildFault.map, BuildFault.report, List.length_map]
    rfl
  | unbuildable | missingOperands | empty | arity => rfl

/-! ## §4 Lines -/

/-- What is known of a parse without the spans: the tree or the report. -/
def unspannedResult (parsed : Except Failure Tree) : Except Report Tree :=
  (parsed.map Tree.unspanned).mapError (·.report.unspanned)

/-- The tree or the report that the result of a run leads to. -/
def reported (result : Except EngineFault (List Token)) : Except Report Tree :=
  match result with
  | .error fault => .error fault.report
  | .ok postfixed => (Tree.ofPostfix? postfixed).mapError (·.report)

theorem unspannedResult_parseTokens (g : Grammar) (tokens : List Token) :
    unspannedResult (g.parseTokens tokens) =
      reported (Engine.relocate Token.unspanned (g.runFresh tokens).result) := by
  unfold Grammar.parseTokens
  cases (g.runFresh tokens).result with
  | error fault => exact congrArg Except.error fault.report_unspanned.symm
  | ok postfixed =>
    have hbuilt := Tree.ofPostfix?_unspanned postfixed
    show unspannedResult ((Tree.ofPostfix? postfixed).mapError .build) =
      (Tree.ofPostfix? (postfixed.map Token.unspanned)).mapError (·.report)
    rw [hbuilt]
    cases Tree.ofPostfix? postfixed with
    | error fault => exact congrArg Except.error fault.report_unspanned.symm
    | ok t => rfl

/-- **The runs of blanks in a line decide nothing but spans.** A run that is not empty cuts a line
into two that are cut apart. So lines that differ in their runs of blanks only have the same tree
but for the spans of its tokens, or fail with the same report but for these: of the same sort, with
the same message and hint, and about tokens of the same kinds, symbols and indices. -/
theorem parse_reblanked (g : Grammar) :
    (∀ u w v : String, Text.IsRun w.toList → w ≠ "" →
      g.split (u ++ w ++ v) = g.split u ++ g.split v) ∧
    ∀ line line' : String, Relation.ReflTransGen Text.Reblanks line.toList line'.toList →
      unspannedResult (g.parse line) = unspannedResult (g.parse line') := by
  refine ⟨fun u w v hw hne => Grammar.split_append_run hw hne u v, ?_⟩
  intro line line' h
  obtain ⟨ss, hss⟩ := g.exists_tokenize line
  obtain ⟨ts, hts⟩ := g.exists_tokenize line'
  have htokens := Grammar.unspanned_tokenize (Text.words_eq_iff.mpr h) hss hts
  -- the two runs come to the same end, but for the spans
  have hrun := runFresh_unspanned (g := g) (Grammar.tokenize_spans hss)
    (Grammar.tokenize_spans hts) htokens
  unfold Grammar.parse
  rw [hss, hts]
  show unspannedResult (g.parseTokens ss) = unspannedResult (g.parseTokens ts)
  rw [unspannedResult_parseTokens, unspannedResult_parseTokens, hrun]

/-- A line with other blanks around its words is cut at these, and has the tree of the line with
single spaces. -/
theorem parse_reblanked_signedProduct :
    arithmetic.split ("-   x" ++ "\t " ++ "* ( y )\t") = ["-", "x"] ++ ["*", "(", "y", ")"] ∧
      unspannedResult (arithmetic.parse "-   x\t * ( y )\t") = .ok signedProductTree.unspanned := by
  obtain ⟨hsplit, hresult⟩ := parse_reblanked arithmetic
  constructor
  · rw [hsplit "-   x" "\t " "* ( y )\t" (by decide) (by decide)]
    cbv
  · have hwords : Text.words "-   x\t * ( y )\t".toList = Text.words "- x * ( y )".toList := by
      decide
    rw [hresult _ _ (Text.words_eq_iff.mp hwords), parse_signedProduct]
    rfl

end Fixity
