import Fixity.Grammar.Declaration
import Fixity.Text.Lines

/-!
# Grammar files

A grammar file holds one declaration a line:

    # comment
    group ( )
    left 2* 2/
    right 1-

The text is cut into lexemes by a reader that knows at every point which terminals may come
next and tries only those; blanks between lexemes are skipped. So a symbol may be spelled like
a keyword, like an operation or like a comment. The whole file is read before any declaration
is looked at.

## Main statements

- `lexeme?_isPrefix`: what a terminal matches is a beginning of the text
-/

namespace Fixity

/-! ## §1 Positions -/

/-- A line and a column, both counted from one. Only a line feed begins a new line. -/
structure Position where
  line : Nat := 1
  column : Nat := 1
deriving DecidableEq, Repr

/-- The position behind a character. -/
def Position.past (p : Position) (c : Char) : Position :=
  if c = '\n' then ⟨p.line + 1, 1⟩ else ⟨p.line, p.column + 1⟩

namespace Grammar.File

/-! ## §2 Terminals -/

/-- What the reader cuts out of a file. -/
inductive Terminal where
  /-- Line feeds with the blanks before them. -/
  | newlines
  /-- A number sign and the rest of its line. -/
  | comment
  /-- The keyword of bracket pairs. -/
  | group
  /-- A keyword of precedence classes. -/
  | associativity
  /-- Characters up to the next blank. -/
  | symbol
  /-- A digit and at least one more character up to the next blank. -/
  | operation
deriving DecidableEq, Repr

/-- The blanks that are skipped inside a line. -/
def isInlineBlank (c : Char) : Bool :=
  c = ' ' || c = '\t' || c = '\x0c' || c = '\r'

/-- The letter that a character stands for in a keyword of any letter size. Both dotted
    capital and dotless small i stand for i. -/
def keywordLetter (c : Char) : Char :=
  if c = 'ı' || c = 'İ' then 'i' else c.toLower

/-- The first characters of a text, if they stand for a keyword and a space or a tab follows
    them. -/
def keyword? (letter : Char → Char) (word cs : List Char) : Option (List Char) :=
  match cs.drop word.length with
  | c :: _ =>
    if (cs.take word.length).map letter = word ∧ (c = ' ' ∨ c = '\t') then
      some (cs.take word.length)
    else none
  | [] => none

/-- The longest beginning of a text that a terminal matches. -/
def Terminal.lexeme? : Terminal → List Char → Option (List Char)
  | newlines, cs =>
    -- blanks behind the last line feed belong to the next line
    let run := cs.takeWhile fun c => isInlineBlank c || c = '\n'
    let upToLast := (run.reverse.dropWhile (· ≠ '\n')).reverse
    if upToLast = [] then none else some upToLast
  | comment, cs => if cs.head? = some '#' then some (cs.takeWhile (· ≠ '\n')) else none
  | group, cs => keyword? id "group".toList cs
  | associativity, cs =>
    (keyword? keywordLetter "left".toList cs).or (keyword? keywordLetter "right".toList cs)
  | symbol, cs =>
    let word := cs.takeWhile (!Text.isBlank ·)
    if word = [] then none else some word
  | operation, cs =>
    match cs.takeWhile (!Text.isBlank ·) with
    | d :: s :: rest => if d.isDigit then some (d :: s :: rest) else none
    | _ => none

theorem keyword?_isPrefix {letter : Char → Char} {word cs l : List Char}
    (h : keyword? letter word cs = some l) : l <+: cs := by
  unfold keyword? at h
  split at h
  · split at h
    · exact Option.some.inj h ▸ List.take_prefix _ _
    · simp at h
  · simp at h

theorem lexeme?_isPrefix {t : Terminal} {cs l : List Char} (h : t.lexeme? cs = some l) :
    l <+: cs := by
  cases t with
  | newlines =>
    simp only [Terminal.lexeme?] at h
    split at h
    · simp at h
    · have hrun := List.takeWhile_prefix (l := cs) fun c => isInlineBlank c || c = '\n'
      refine Option.some.inj h ▸ List.IsPrefix.trans ?_ hrun
      rw [← List.reverse_suffix, List.reverse_reverse]
      exact List.dropWhile_suffix _
  | comment =>
    simp only [Terminal.lexeme?] at h
    split at h
    · exact Option.some.inj h ▸ List.takeWhile_prefix _
    · simp at h
  | group => exact keyword?_isPrefix h
  | associativity =>
    simp only [Terminal.lexeme?, Option.or_eq_some_iff] at h
    rcases h with h | ⟨_, h⟩ <;> exact keyword?_isPrefix h
  | symbol =>
    simp only [Terminal.lexeme?] at h
    split at h
    · simp at h
    · exact Option.some.inj h ▸ List.takeWhile_prefix _
  | operation =>
    simp only [Terminal.lexeme?] at h
    split at h
    · next hw =>
      split at h
      · exact Option.some.inj h ▸ hw ▸ List.takeWhile_prefix _
      · simp at h
    · simp at h

/-! ## §3 Expectations -/

/-- What the reader has seen of the current line. -/
inductive Expectation where
  /-- Nothing of the file. -/
  | outset
  /-- A new line. -/
  | entry
  /-- The keyword of a bracket pair. -/
  | opening
  /-- The opening bracket of a pair. -/
  | closing (opening : String)
  /-- The keyword of a precedence class. -/
  | firstOperation (associativity : String)
  /-- A precedence class with at least one operation, the last one first. -/
  | nextOperation (associativity : String) (operations : List (Int × String))
  /-- A whole bracket pair or a comment. -/
  | lineEnd
deriving DecidableEq, Repr

namespace Expectation

/-- The terminals that may come next, in the order in which they are tried. -/
def terminals : Expectation → List Terminal
  | outset => [.newlines, .group, .associativity, .comment]
  | entry => [.group, .associativity, .comment]
  | opening | closing _ => [.symbol]
  | firstOperation _ => [.operation]
  | nextOperation _ _ => [.newlines, .operation]
  | lineEnd => [.newlines]

/-- Whether the file may end here. -/
def mayEnd : Expectation → Bool
  | outset | entry | nextOperation _ _ | lineEnd => true
  | opening | closing _ | firstOperation _ => false

/-- The declaration that the end of a line completes. -/
def pending : Expectation → List Declaration
  | nextOperation associativity operations => [.precedence associativity operations.reverse]
  | _ => []

/-- What is expected behind a lexeme, of which the first character and the rest are given,
    and the declarations that the lexeme completes. -/
def next (st : Expectation) (terminal : Terminal) (first : Char) (rest : List Char) :
    Expectation × List Declaration :=
  let lexeme := String.ofList (first :: rest)
  let operation : Int × String := (first.toNat - '0'.toNat, String.ofList rest)
  match terminal with
  | .newlines => (entry, st.pending)
  | .comment => (lineEnd, [])
  | .group => (opening, [])
  | .associativity => (firstOperation lexeme, [])
  | .symbol =>
    match st with
    | closing o => (lineEnd, [.brackets o lexeme])
    | _ => (closing lexeme, [])
  | .operation =>
    match st with
    | nextOperation a ops => (nextOperation a (operation :: ops), [])
    | firstOperation a => (nextOperation a [operation], [])
    | _ => (st, [])

/-- The first terminal that may come next and matches, with what it matches. -/
def cut? (st : Expectation) (cs : List Char) : Option (Terminal × List Char) :=
  st.terminals.findSome? fun t => (t.lexeme? cs).map (t, ·)

end Expectation

/-! ## §4 Reading -/

/-- Reads declarations up to the end of the text, or up to the position where no terminal
    that may come next matches; where the text ends too early, that is the position of the
    last lexeme. -/
def declarations? (st : Expectation) (here last : Position) :
    List Char → Except Position (List Declaration)
  -- the end of the text completes the last line
  | [] => if st.mayEnd then .ok st.pending else .error last
  | c :: cs =>
    match st.cut? (c :: cs) with
    | some (terminal, _ :: more) =>
      let (st', declared) := st.next terminal c more
      (declarations? st' (more.foldl .past (here.past c)) here (cs.drop more.length)).map
        (declared ++ ·)
    -- no terminal begins here, so this is a blank or the place of the fault
    | _ =>
      if isInlineBlank c then declarations? st (here.past c) last cs else .error here
termination_by cs => cs.length

/-- The line that a message quotes: lines are counted at every line boundary. -/
def quotedLine (text : String) (line : Nat) : String :=
  String.ofList (Text.trim ((Text.boundedLines text.toList)[line - 1]?.getD []))

end Grammar.File

namespace Grammar

/-- The grammar that the text of a grammar file declares. -/
def ofFileText? (text source : String) : Except GrammarFault Grammar :=
  match File.declarations? .outset {} {} text.toList with
  | .error p => .error (.unreadable (File.quotedLine text p.line) source p.line p.column)
  | .ok ds => ofDeclarations? ds

/-! ## §5 Files -/

/-- Why a file yields no grammar. -/
inductive LoadFault where
  /-- There is no such file. -/
  | missing
  /-- The bytes of the file are not a text. -/
  | undecodable
  /-- The text of the file declares no grammar. -/
  | refused (fault : GrammarFault)
deriving DecidableEq, Repr

/-- The grammar that a file declares. Its line ends are those of any system. -/
def load? (contents : Option ByteArray) (source : String) : Except LoadFault Grammar :=
  match contents with
  | none => .error .missing
  | some bytes =>
    match String.fromUTF8? bytes with
    | none => .error .undecodable
    | some text =>
      (ofFileText? (String.ofList (Text.unifyNewlines text.toList)) source).mapError .refused

end Grammar

end Fixity
