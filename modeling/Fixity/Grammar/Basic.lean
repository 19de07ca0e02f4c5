import Fixity.Grammar.Fault
import Fixity.Text.Blank
import Fixity.Text.Search

/-!
# Operator grammars

A grammar lists precedence classes, the tightest first, each with one associativity, and
bracket pairs. It is well formed if its symbols can be told apart in any text: no symbol is
empty or holds a blank, and none is a part of another. Building checks the tokens one by one
against those before them.

## Main statements

- `enrolAll_eq_ok_iff`: the check in passing accepts exactly the well-formed tables
- `exists_build?_eq_ok_iff`: a grammar is built from exactly the well-formed tables
-/

namespace Fixity

/-! ## §1 Tables -/

/-- Which of two operations of one class binds tighter: the left one or the right one. -/
inductive Associativity where
  | left
  | right
deriving DecidableEq, Repr

/-- Operations that bind equally tight. -/
structure PrecedenceClass where
  associativity : Associativity
  operations : List Token
deriving DecidableEq, Repr

/-- An opening bracket and the closing bracket that belongs to it. -/
structure BracketPair where
  opening : Token
  closing : Token
deriving DecidableEq, Repr

/-- All tokens of a table, in the order of their declaration. -/
def enrolled (classes : List PrecedenceClass) (brackets : List BracketPair) : List Token :=
  classes.flatMap (·.operations) ++ brackets.flatMap fun b => [b.opening, b.closing]

/-! ## §2 Well-formed tables -/

/-- A symbol has characters, none of them blank. -/
def IsSymbol (s : String) : Prop :=
  s ≠ "" ∧ ∀ c ∈ s.toList, Text.isBlank c = false

instance (s : String) : Decidable (IsSymbol s) :=
  -- only the characters of the symbol are looked at
  @instDecidableAnd _ _ _ (List.decidableBAll _ s.toList)

/-- One of two symbols is a part of the other. -/
def Overlap (s t : String) : Prop :=
  s.toList <:+: t.toList ∨ t.toList <:+: s.toList

instance (s t : String) : Decidable (Overlap s t) :=
  decidable_of_iff
    (Text.occurs s.toList t.toList = true ∨ Text.occurs t.toList s.toList = true)
    (by simp [Overlap, Text.occurs_iff])

/-- Tokens whose symbols can be told apart in any text. -/
structure Distinct (tokens : List Token) : Prop where
  symbols : ∀ t ∈ tokens, IsSymbol t.symbol
  apart : tokens.Pairwise fun s t => ¬ Overlap s.symbol t.symbol

/-- What is required of the table of a grammar. -/
structure WellFormed (classes : List PrecedenceClass) (brackets : List BracketPair) : Prop where
  inhabited : ∀ c ∈ classes, c.operations ≠ []
  operations : ∀ c ∈ classes, ∀ t ∈ c.operations, t.kind.isOperation = true
  pairs : ∀ b ∈ brackets, b.opening.kind = .opening ∧ b.closing.kind = .closing
  distinct : Distinct (enrolled classes brackets)

/-- A well-formed table of precedence classes and bracket pairs. -/
structure Grammar where
  classes : List PrecedenceClass
  brackets : List BracketPair
  wellFormed : WellFormed classes brackets
deriving DecidableEq

/-! ## §3 Enrolling tokens one by one -/

/-- Adds a token to those enrolled before, if its symbol is one and can be told apart from
    theirs. -/
def enrol (before : List Token) (t : Token) : Except GrammarFault (List Token) :=
  if IsSymbol t.symbol then
    match before.find? fun s => Overlap s.symbol t.symbol with
    | some s => .error (.overlap s t)
    | none => .ok (before ++ [t])
  else .error (.badSymbol t.symbol)

/-- Enrols the members of a precedence class. -/
def enrolOperations (before : List Token) : List Token → Except GrammarFault (List Token)
  | [] => .ok before
  | t :: ts =>
    if t.kind.isOperation then
      match enrol before t with
      | .error f => .error f
      | .ok now => enrolOperations now ts
    else .error (.notAnOperation t)

/-- Enrols the precedence classes from a rank on. -/
def enrolClasses (before : List Token) (rank : Nat) :
    List PrecedenceClass → Except GrammarFault (List Token)
  | [] => .ok before
  | c :: cs =>
    if c.operations = [] then .error (.emptyClass rank)
    else
      match enrolOperations before c.operations with
      | .error f => .error f
      | .ok now => enrolClasses now (rank + 1) cs

/-- Enrols bracket pairs. -/
def enrolBrackets (before : List Token) : List BracketPair → Except GrammarFault (List Token)
  | [] => .ok before
  | b :: bs =>
    if b.opening.kind = .opening ∧ b.closing.kind = .closing then
      match enrol before b.opening with
      | .error f => .error f
      | .ok now =>
        match enrol now b.closing with
        | .error f => .error f
        | .ok now => enrolBrackets now bs
    else .error (.notABracketPair b.opening b.closing)

/-- Enrols a whole table, its classes before its brackets. -/
def enrolAll (classes : List PrecedenceClass) (brackets : List BracketPair) :
    Except GrammarFault (List Token) :=
  match enrolClasses [] 0 classes with
  | .error f => .error f
  | .ok now => enrolBrackets now brackets

/-! ## §4 Passing the check one by one is being well formed -/

theorem distinct_nil : Distinct [] :=
  ⟨by simp, .nil⟩

theorem Distinct.of_append_left {l m : List Token} (h : Distinct (l ++ m)) : Distinct l :=
  ⟨fun t ht => h.symbols t (List.mem_append_left _ ht), (List.pairwise_append.1 h.apart).1⟩

theorem distinct_concat_iff {before : List Token} {t : Token} :
    Distinct (before ++ [t]) ↔
      Distinct before ∧ IsSymbol t.symbol ∧ ∀ s ∈ before, ¬ Overlap s.symbol t.symbol := by
  constructor
  · intro h
    refine ⟨h.of_append_left, h.symbols t (by simp), fun s hs => ?_⟩
    exact (List.pairwise_append.1 h.apart).2.2 s hs t (by simp)
  · rintro ⟨h, hs, ho⟩
    refine ⟨fun u hu => ?_, List.pairwise_append.2 ⟨h.apart, by simp, by simpa using ho⟩⟩
    rcases List.mem_append.1 hu with hu | hu
    · exact h.symbols u hu
    · exact List.mem_singleton.1 hu ▸ hs

theorem enrol_eq_ok_iff {before now : List Token} {t : Token} (h : Distinct before) :
    enrol before t = .ok now ↔ now = before ++ [t] ∧ Distinct (before ++ [t]) := by
  rw [distinct_concat_iff]
  unfold enrol
  split
  · next hs =>
    split
    -- an overlap with an earlier token
    · next s ho =>
      have hmem := List.mem_of_find?_eq_some ho
      have hlap := by simpa using List.find?_some ho
      simp only [reduceCtorEq, false_iff]
      exact fun ⟨_, _, _, hno⟩ => hno s hmem hlap
    · next ho =>
      have hno := by simpa using ho
      simp only [Except.ok.injEq]
      exact ⟨fun e => ⟨e.symm, h, hs, hno⟩, fun e => e.1.symm⟩
  · next hs =>
    simp only [reduceCtorEq, false_iff]
    exact fun ⟨_, _, hs', _⟩ => hs hs'

theorem enrolOperations_eq_ok_iff {ts before now : List Token} (h : Distinct before) :
    enrolOperations before ts = .ok now ↔
      now = before ++ ts ∧ (∀ t ∈ ts, t.kind.isOperation = true) ∧ Distinct (before ++ ts) := by
  induction ts generalizing before with
  | nil => simpa [enrolOperations, h] using eq_comm
  | cons t ts ih =>
    rw [enrolOperations]
    by_cases hk : t.kind.isOperation = true
    · simp only [hk, if_true]
      cases hn : enrol before t with
      -- a refused token makes the whole list indistinct
      | error f =>
        simp only [reduceCtorEq, false_iff]
        rintro ⟨_, _, hd⟩
        have hd' : Distinct (before ++ [t]) := by
          refine Distinct.of_append_left (m := ts) ?_
          simpa using hd
        simp [(enrol_eq_ok_iff h).2 ⟨rfl, hd'⟩] at hn
      | ok next =>
        obtain ⟨rfl, hd⟩ := (enrol_eq_ok_iff h).1 hn
        simp [ih hd, hk]
    · simp [hk]

theorem enrolClasses_eq_ok_iff {cs : List PrecedenceClass} {before now : List Token} {rank : Nat}
    (h : Distinct before) :
    enrolClasses before rank cs = .ok now ↔
      now = before ++ cs.flatMap (·.operations) ∧ (∀ c ∈ cs, c.operations ≠ []) ∧
        (∀ c ∈ cs, ∀ t ∈ c.operations, t.kind.isOperation = true) ∧
        Distinct (before ++ cs.flatMap (·.operations)) := by
  induction cs generalizing before rank with
  | nil => simpa [enrolClasses, h] using eq_comm
  | cons c cs ih =>
    rw [enrolClasses]
    by_cases he : c.operations = []
    · simp [he]
    · simp only [he, if_false]
      cases hn : enrolOperations before c.operations with
      | error f =>
        simp only [reduceCtorEq, false_iff]
        rintro ⟨_, _, hk, hd⟩
        have hd' : Distinct (before ++ c.operations) := by
          refine Distinct.of_append_left (m := cs.flatMap (·.operations)) ?_
          simpa using hd
        have hk' := hk c (by simp)
        simp [(enrolOperations_eq_ok_iff h).2 ⟨rfl, hk', hd'⟩] at hn
      | ok next =>
        obtain ⟨rfl, hk, hd⟩ := (enrolOperations_eq_ok_iff h).1 hn
        simp only [ih hd, List.flatMap_cons, List.append_assoc, List.forall_mem_cons]
        exact ⟨fun ⟨a, b, c, d⟩ => ⟨a, ⟨he, b⟩, ⟨hk, c⟩, d⟩,
          fun ⟨a, b, c, d⟩ => ⟨a, b.2, c.2, d⟩⟩

theorem enrolBrackets_eq_ok_iff {bs : List BracketPair} {before now : List Token}
    (h : Distinct before) :
    enrolBrackets before bs = .ok now ↔
      now = before ++ bs.flatMap (fun b => [b.opening, b.closing]) ∧
        (∀ b ∈ bs, b.opening.kind = .opening ∧ b.closing.kind = .closing) ∧
        Distinct (before ++ bs.flatMap fun b => [b.opening, b.closing]) := by
  induction bs generalizing before with
  | nil => simpa [enrolBrackets, h] using eq_comm
  | cons b bs ih =>
    rw [enrolBrackets]
    by_cases hk : b.opening.kind = .opening ∧ b.closing.kind = .closing
    · simp only [hk, and_self, if_true]
      -- both brackets pass if the longer list that holds them is distinct
      have hsplit : ∀ l, before ++ (b.opening :: b.closing :: l) =
          (before ++ [b.opening]) ++ [b.closing] ++ l := by simp
      cases ho : enrol before b.opening with
      | error f =>
        simp only [reduceCtorEq, false_iff]
        rintro ⟨_, _, hd⟩
        simp only [List.flatMap_cons, List.cons_append, List.nil_append, hsplit] at hd
        simp [(enrol_eq_ok_iff h).2 ⟨rfl, hd.of_append_left.of_append_left⟩] at ho
      | ok next =>
        obtain ⟨rfl, hd⟩ := (enrol_eq_ok_iff h).1 ho
        simp only
        cases hc : enrol (before ++ [b.opening]) b.closing with
        | error f =>
          simp only [reduceCtorEq, false_iff]
          rintro ⟨_, _, hd'⟩
          simp only [List.flatMap_cons, List.cons_append, List.nil_append, hsplit] at hd'
          simp [(enrol_eq_ok_iff hd).2 ⟨rfl, hd'.of_append_left⟩] at hc
        | ok next =>
          obtain ⟨rfl, hd'⟩ := (enrol_eq_ok_iff hd).1 hc
          simp only [ih hd', List.flatMap_cons, List.forall_mem_cons]
          simp [hk]
    · simp [hk]

theorem enrolAll_eq_ok_iff {classes : List PrecedenceClass} {brackets : List BracketPair}
    {now : List Token} :
    enrolAll classes brackets = .ok now ↔
      now = enrolled classes brackets ∧ WellFormed classes brackets := by
  unfold enrolAll
  cases hc : enrolClasses [] 0 classes with
  | error f =>
    simp only [reduceCtorEq, false_iff]
    rintro ⟨_, h⟩
    simp [(enrolClasses_eq_ok_iff distinct_nil).2
      ⟨rfl, h.inhabited, h.operations, h.distinct.of_append_left⟩] at hc
  | ok next =>
    obtain ⟨rfl, hi, ho, hd⟩ := (enrolClasses_eq_ok_iff distinct_nil).1 hc
    rw [enrolBrackets_eq_ok_iff hd]
    exact ⟨fun ⟨a, b, c⟩ => ⟨a, hi, ho, b, c⟩, fun ⟨a, b⟩ => ⟨a, b.pairs, b.distinct⟩⟩

/-! ## §5 Building -/

namespace Grammar

/-- The grammar of a table, or the first fault of the table. -/
def build? (classes : List PrecedenceClass) (brackets : List BracketPair) :
    Except GrammarFault Grammar :=
  match h : enrolAll classes brackets with
  | .error f => .error f
  | .ok _ => .ok ⟨classes, brackets, (enrolAll_eq_ok_iff.1 h).2⟩

theorem build?_eq_ok_iff {classes : List PrecedenceClass} {brackets : List BracketPair}
    {g : Grammar} :
    build? classes brackets = .ok g ↔ g.classes = classes ∧ g.brackets = brackets := by
  unfold build?
  split
  · next f h =>
    simp only [reduceCtorEq, false_iff]
    rintro ⟨rfl, rfl⟩
    simp [enrolAll_eq_ok_iff.2 ⟨rfl, g.wellFormed⟩] at h
  · cases g
    simp [eq_comm]

theorem exists_build?_eq_ok_iff {classes : List PrecedenceClass} {brackets : List BracketPair} :
    (∃ g, build? classes brackets = .ok g) ↔ WellFormed classes brackets := by
  simp only [build?_eq_ok_iff]
  exact ⟨fun ⟨g, hc, hb⟩ => hc ▸ hb ▸ g.wellFormed, fun h => ⟨⟨classes, brackets, h⟩, rfl, rfl⟩⟩

/-- The grammar of separate lists of classes and associativities, which must be equally long. -/
def ofLists? (precedences : List (List Token)) (associativities : List Associativity)
    (brackets : List BracketPair) : Except GrammarFault Grammar :=
  if precedences.length = associativities.length then
    build? (associativities.zipWith PrecedenceClass.mk precedences) brackets
  else .error (.countMismatch precedences.length associativities.length)

/-- The tokens of a grammar, in the order of their declaration. -/
def tokens (g : Grammar) : List Token :=
  enrolled g.classes g.brackets

/-- The operations of a grammar, the tightest first. -/
def operations (g : Grammar) : List Token :=
  g.classes.flatMap (·.operations)

end Grammar

end Fixity
