import Fixity.Proofs.Parse.RoundTrip
import Fixity.Tree.Print

/-!
# The printed form determines the tree

Nothing is quoted in the printed form, and an identifier may hold braces and commas itself: `a,` is
one, and `x}` is another. The form can be read back all the same. It is read word by word, since
no symbol holds a blank. A word that begins a node is an opening brace, a symbol of the grammar and a
comma. The word of a leaf is no such word, because no identifier holds a symbol. It ends with the
braces of the nodes that end there; how many these are is known from the words before it, so the rest
is the identifier.

The only thing that must not happen is that a symbol of the grammar has a closing brace itself.

## Main statements

- `words_toText`: the words of the printed form by recursion on the tree
- `ne_headWord`: the word of a leaf is not the word of a node
- `printed_append_inj`: no printed tree is the beginning of another one
- `toText_determines`: parsed trees that are printed alike are alike
-/

namespace Fixity

namespace Tree

/-! ## §1 The words of a printed tree -/

/-- The word that begins the printed form of a node with subtrees. -/
def headWord (t : Token) : List Char :=
  '{' :: (t.symbol.toList ++ [','])

/-- The words of a printed tree, when some characters follow its last word directly. -/
def printed (behind : List Char) : Tree → List (List Char)
  | leaf t _ => [t.symbol.toList ++ behind]
  | unary t _ a => headWord t :: a.printed ('}' :: behind)
  | binary t _ a b => headWord t :: (a.printed [','] ++ b.printed ('}' :: behind))

theorem toList_toText_unary {t : Token} {h : t.arity = 1} {a : Tree} :
    (unary t h a).toText.toList = headWord t ++ ' ' :: (a.toText.toList ++ ['}']) := by
  simp only [toText_eq_eval, eval]
  simp [nodeText, token, headWord, String.intercalate_cons_of_ne_nil]

theorem toList_toText_binary {t : Token} {h : t.arity = 2} {a b : Tree} :
    (binary t h a b).toText.toList =
      headWord t ++ ' ' :: (a.toText.toList ++ ',' :: ' ' :: (b.toText.toList ++ ['}'])) := by
  simp only [toText_eq_eval, eval]
  simp [nodeText, token, headWord, String.intercalate_cons_of_ne_nil]

theorem words_headWord {t : Token} (h : IsSymbol t.symbol) (cs : List Char) :
    Text.words (headWord t ++ ' ' :: cs) = headWord t :: Text.words cs := by
  have hblank : ∀ c ∈ headWord t, Text.isBlank c = false := by
    intro c hc
    rcases List.mem_cons.mp hc with rfl | hc
    · decide
    · rcases List.mem_append.mp hc with hc | hc
      · exact h.2 c hc
      · rw [List.mem_singleton.mp hc]
        decide
  have hword : Text.words (headWord t) = [headWord t] :=
    Text.words_eq_singleton (List.cons_ne_nil _ _) hblank
  rw [Text.words_append_cons Text.isBlank_space, hword]
  rfl

/-- **The printed form is cut into words at its blanks**, as no symbol holds one. -/
theorem words_toText {t : Tree} (h : ∀ n ∈ t.walk, IsSymbol n.token.symbol) {behind : List Char}
    (hbehind : ∀ c ∈ behind, Text.isBlank c = false) :
    Text.words (t.toText.toList ++ behind) = t.printed behind := by
  have hbrace : ∀ {cs : List Char}, (∀ c ∈ cs, Text.isBlank c = false) →
      ∀ c ∈ '}' :: cs, Text.isBlank c = false :=
    fun hcs => List.forall_mem_cons.mpr ⟨by decide, hcs⟩
  induction t generalizing behind with
  | leaf t harity =>
    have hsymbol : IsSymbol t.symbol := forall_mem_walk_leaf.mp h
    have htext : (leaf t harity).toText = t.symbol := by
      rw [toText_eq_eval]
      rfl
    rw [htext, printed]
    apply Text.words_eq_singleton
    · simp [Grammar.toList_ne_nil hsymbol]
    · intro c hc
      exact (List.mem_append.mp hc).elim (hsymbol.2 c) (hbehind c)
  | unary t harity a ih =>
    obtain ⟨(hsymbol : IsSymbol t.symbol), ha⟩ := forall_mem_walk_unary.mp h
    have hoperand := ih ha (hbrace hbehind)
    rw [toList_toText_unary, printed]
    simpa [words_headWord hsymbol] using hoperand
  | binary t harity a b iha ihb =>
    obtain ⟨(hsymbol : IsSymbol t.symbol), ha, hb⟩ := forall_mem_walk_binary.mp h
    -- the left operand is followed by a comma, the right one by the brace of the node
    have hcomma : ∀ c ∈ [','], Text.isBlank c = false := List.forall_mem_singleton.mpr (by decide)
    have hleft := iha ha hcomma
    have hright := ihb hb (hbrace hbehind)
    have hcut := Text.words_append_cons Text.isBlank_space (a.toText.toList ++ [','])
      (b.toText.toList ++ '}' :: behind)
    rw [hleft, hright] at hcut
    rw [toList_toText_binary, printed]
    simpa [words_headWord hsymbol] using hcut

/-! ## §2 Reading the words -/

/-- What may follow a printed tree directly: nothing, a comma, or something that holds the brace of a
node above. -/
def MayFollow (behind : List Char) : Prop :=
  behind = [] ∨ behind = [','] ∨ '}' ∈ behind

theorem mayFollow_brace (behind : List Char) : MayFollow ('}' :: behind) :=
  .inr (.inr List.mem_cons_self)

section Reading

variable {g : Grammar}

/-- **The word of a leaf is not the word of a node**: either the identifier would hold the symbol, or
the symbol would hold a brace. -/
theorem ne_headWord {x t : Token} (hx : ¬ t.symbol.toList <:+: x.symbol.toList)
    (ht : '}' ∉ t.symbol.toList) {behind : List Char} (hbehind : MayFollow behind) :
    x.symbol.toList ++ behind ≠ headWord t := by
  intro h
  apply hx
  rcases hbehind with rfl | rfl | hbrace
  · -- the comma belongs to the identifier
    rw [List.append_nil] at h
    exact ⟨['{'], [','], by rw [h]; rfl⟩
  · have hsymbol : x.symbol.toList = '{' :: t.symbol.toList := List.append_cancel_right h
    exact ⟨['{'], [], by rw [hsymbol]; simp⟩
  · -- the brace stands in the word of the node, so in its symbol
    have hmem : '}' ∈ headWord t := h ▸ List.mem_append_right x.symbol.toList hbrace
    exact absurd (by simpa [headWord] using hmem) ht

theorem headWord_inj {s t : Token} (h : headWord s = headWord t) : s.symbol = t.symbol := by
  have hsymbol : s.symbol.toList ++ [','] = t.symbol.toList ++ [','] := (List.cons.inj h).2
  exact String.toList_injective (List.append_cancel_right hsymbol)

theorem lexeme_of_symbol {s t : Token} (hs : g.Spells s) (ht : g.Spells t)
    (h : s.symbol = t.symbol) : s.toLexeme = t.toLexeme := by
  rw [← hs.legible.2, h]
  exact ht.legible.2

/-- The first word of a printed tree, by its root. -/
def firstWord (behind : List Char) (t : Token) : List Char :=
  if t.arity = 0 then t.symbol.toList ++ behind else headWord t

theorem head?_printed (behind : List Char) (t : Tree) :
    (t.printed behind).head? = some (firstWord behind t.token) := by
  cases t with
  | leaf t h => simp [printed, firstWord, token, h]
  | unary t h a => simp [printed, firstWord, token, h]
  | binary t h a b => simp [printed, firstWord, token, h]

variable (hbraces : ∀ s ∈ g.symbols, '}' ∉ s.toList) {behind : List Char}
include hbraces

theorem ne_headWord_of_arity {x t : Token} (hx : g.Spells x) (hleaf : x.arity = 0)
    (ht : g.Spells t) (hnode : t.arity ≠ 0) (hbehind : MayFollow behind) :
    x.symbol.toList ++ behind ≠ headWord t := by
  have hname : x.kind = .identifier := hx.kind_of_leaf hleaf
  have hid : t.kind ≠ .identifier := fun hid => hnode (arity_identifier hid)
  rw [Grammar.Spells, if_neg hid] at ht
  rw [Grammar.Spells, if_pos hname] at hx
  obtain ⟨r, hr, hlexeme⟩ := ht.2
  have hsymbol : r.symbol = t.symbol := congrArg Lexeme.symbol hlexeme
  apply ne_headWord _ _ hbehind
  · rw [← hsymbol]
    exact hx.2 r hr
  · rw [← hsymbol]
    exact hbraces r.symbol (Grammar.mem_symbols.mpr ⟨r, hr, rfl⟩)

/-- **The first word tells what the root is**, whether it is a leaf or a node with subtrees. -/
theorem firstWord_inj {s t : Token} (hs : g.Spells s) (ht : g.Spells t)
    (hbehind : MayFollow behind) (h : firstWord behind s = firstWord behind t) :
    s.toLexeme = t.toLexeme := by
  apply lexeme_of_symbol hs ht
  unfold firstWord at h
  split at h
  · next hleaf =>
    split at h
    · exact String.toList_injective (List.append_cancel_right h)
    · next hnode => exact absurd h (ne_headWord_of_arity hbraces hs hleaf ht hnode hbehind)
  · next hnode =>
    split at h
    · next hleaf =>
      exact absurd h.symm (ne_headWord_of_arity hbraces ht hleaf hs hnode hbehind)
    · exact headWord_inj h

theorem lexeme_of_printed_append {t u : Tree} (ht : ∀ n ∈ t.walk, g.Spells n.token)
    (hu : ∀ n ∈ u.walk, g.Spells n.token) (hbehind : MayFollow behind)
    {ws ws' : List (List Char)} (h : t.printed behind ++ ws = u.printed behind ++ ws') :
    t.token.toLexeme = u.token.toLexeme := by
  have hroot : ∀ v : Tree, v ∈ v.walk := by
    intro v
    cases v <;> simp [walk_eq_preorder, preorder]
  have hfirst := congrArg List.head? h
  rw [List.head?_append, List.head?_append, head?_printed, head?_printed] at hfirst
  exact firstWord_inj hbraces (ht t (hroot t)) (hu u (hroot u)) hbehind (Option.some.inj hfirst)

/-- **No printed tree is the beginning of another one**, when the same characters follow both. -/
theorem printed_append_inj {t u : Tree} (ht : ∀ n ∈ t.walk, g.Spells n.token)
    (hu : ∀ n ∈ u.walk, g.Spells n.token) (hbehind : MayFollow behind)
    {ws ws' : List (List Char)} (h : t.printed behind ++ ws = u.printed behind ++ ws') :
    t.unplaced = u.unplaced ∧ ws = ws' := by
  -- the roots have one lexeme, so as many subtrees, and the words of these follow
  induction t generalizing u behind ws ws' with
  | leaf t harity =>
    have hlexeme := lexeme_of_printed_append hbraces ht hu hbehind h
    have hsame : t.arity = u.token.arity := congrArg Lexeme.arity hlexeme
    cases u with
    | leaf u harity' =>
      have hplaced : t.placed (-1) none = u.placed (-1) none := placed_eq_placed hlexeme _ _
      have hrest : ws = ws' := (List.cons.inj h).2
      exact ⟨by simp only [unplaced, hplaced], hrest⟩
    | unary u harity' a' => simp [token, harity, harity'] at hsame
    | binary u harity' a' b' => simp [token, harity, harity'] at hsame
  | unary t harity a ih =>
    have hlexeme := lexeme_of_printed_append hbraces ht hu hbehind h
    have hsame : t.arity = u.token.arity := congrArg Lexeme.arity hlexeme
    cases u with
    | leaf u harity' => simp [token, harity, harity'] at hsame
    | unary u harity' a' =>
      have hplaced : t.placed (-1) none = u.placed (-1) none := placed_eq_placed hlexeme _ _
      obtain ⟨hoperand, hrest⟩ := ih (forall_mem_walk_unary.mp ht).2 (forall_mem_walk_unary.mp hu).2
        (mayFollow_brace behind) (List.cons.inj h).2
      exact ⟨by simp only [unplaced, hplaced, hoperand], hrest⟩
    | binary u harity' a' b' => simp [token, harity, harity'] at hsame
  | binary t harity a b iha ihb =>
    have hlexeme := lexeme_of_printed_append hbraces ht hu hbehind h
    have hsame : t.arity = u.token.arity := congrArg Lexeme.arity hlexeme
    cases u with
    | leaf u harity' => simp [token, harity, harity'] at hsame
    | unary u harity' a' => simp [token, harity, harity'] at hsame
    | binary u harity' a' b' =>
      have hplaced : t.placed (-1) none = u.placed (-1) none := placed_eq_placed hlexeme _ _
      obtain ⟨-, hta, htb⟩ := forall_mem_walk_binary.mp ht
      obtain ⟨-, hua, hub⟩ := forall_mem_walk_binary.mp hu
      have hbelow : a.printed [','] ++ b.printed ('}' :: behind) ++ ws =
          a'.printed [','] ++ b'.printed ('}' :: behind) ++ ws' := (List.cons.inj h).2
      rw [List.append_assoc, List.append_assoc] at hbelow
      obtain ⟨hleft, hbelow⟩ := iha hta hua (.inr (.inl rfl)) hbelow
      obtain ⟨hright, hrest⟩ := ihb htb hub (mayFollow_brace behind) hbelow
      exact ⟨by simp only [unplaced, hplaced, hleft, hright], hrest⟩

end Reading

/-! ## §3 The printed form -/

theorem toText_unplaced (t : Tree) : t.unplaced.toText = t.toText := by
  rw [toText_eq_eval, toText_eq_eval]
  induction t with
  | leaf t h => rfl
  | unary t h a ih => simp [unplaced, eval, nodeText, token, ih]
  | binary t h a b iha ihb => simp [unplaced, eval, nodeText, token, iha, ihb]

/-- Two trees of symbols of the grammar and of identifiers that are printed alike are alike. -/
theorem unplaced_eq_of_toText_eq {g : Grammar} (hbraces : ∀ s ∈ g.symbols, '}' ∉ s.toList)
    {t u : Tree} (ht : ∀ n ∈ t.walk, g.Spells n.token) (hu : ∀ n ∈ u.walk, g.Spells n.token)
    (h : t.toText = u.toText) : t.unplaced = u.unplaced := by
  have hwords : ∀ {v : Tree}, (∀ n ∈ v.walk, g.Spells n.token) →
      v.printed [] = Text.words v.toText.toList := by
    intro v hv
    have hcut : Text.words (v.toText.toList ++ []) = v.printed [] :=
      words_toText (fun n hn => (hv n hn).legible.1.1) nofun
    rw [List.append_nil] at hcut
    exact hcut.symm
  have hprinted : t.printed [] ++ [] = u.printed [] ++ [] := by
    rw [hwords ht, hwords hu, h]
  exact (printed_append_inj hbraces ht hu (.inl rfl) hprinted).1

end Tree

/-- **The printed form determines the tree.** If no symbol of a grammar holds a closing brace, two
trees that are parsed under it, from whatever lines, are printed alike if and only if they have the
same shape and the same tokens, but for the places. Identifiers may hold braces and commas. -/
theorem toText_determines {g : Grammar} (hbraces : ∀ s ∈ g.symbols, '}' ∉ s.toList)
    {line line' : String} {t u : Tree} (ht : g.parse line = .ok t) (hu : g.parse line' = .ok u) :
    t.toText = u.toText ↔ t.unplaced = u.unplaced := by
  constructor
  · intro h
    exact Tree.unplaced_eq_of_toText_eq hbraces (spells_parse ht) (spells_parse hu) h
  · intro h
    rw [← Tree.toText_unplaced t, h, Tree.toText_unplaced]

/-- The sum of the identifiers `a,` and `x}`, with the places of its three tokens. -/
def bracedSum (first plus second : Span) : Tree :=
  .binary ⟨⟨.binary, "+"⟩, 1, some plus⟩ rfl
    (.leaf ⟨⟨.identifier, "a,"⟩, 0, some first⟩ rfl)
    (.leaf ⟨⟨.identifier, "x\x7d"⟩, 2, some second⟩ rfl)

theorem tokenize_bracedSum :
    arithmetic.tokenize "a, + x\x7d" =
        .ok [⟨⟨.identifier, "a,"⟩, 0, some ⟨0, 2, 1⟩⟩, ⟨⟨.binary, "+"⟩, 1, some ⟨3, 4, 1⟩⟩,
          ⟨⟨.identifier, "x\x7d"⟩, 2, some ⟨5, 7, 1⟩⟩] ∧
      arithmetic.tokenize "a,+x\x7d" =
        .ok [⟨⟨.identifier, "a,"⟩, 0, some ⟨0, 2, 1⟩⟩, ⟨⟨.binary, "+"⟩, 1, some ⟨2, 3, 1⟩⟩,
          ⟨⟨.identifier, "x\x7d"⟩, 2, some ⟨3, 5, 1⟩⟩] := by
  constructor <;> cbv

/-- With and without blanks it is printed `{+, a,, x}}`, so both are one tree in two places. -/
theorem toText_determines_bracedSum :
    ∃ t u, arithmetic.parse "a, + x\x7d" = .ok t ∧ arithmetic.parse "a,+x\x7d" = .ok u ∧
      t.toText = "\x7b+, a,, x\x7d\x7d" ∧ t ≠ u ∧ t.unplaced = u.unplaced := by
  have ht : arithmetic.parse "a, + x\x7d" = .ok (bracedSum ⟨0, 2, 1⟩ ⟨3, 4, 1⟩ ⟨5, 7, 1⟩) := by
    rw [Grammar.parse, tokenize_bracedSum.1]
    rfl
  have hu : arithmetic.parse "a,+x\x7d" = .ok (bracedSum ⟨0, 2, 1⟩ ⟨2, 3, 1⟩ ⟨3, 5, 1⟩) := by
    rw [Grammar.parse, tokenize_bracedSum.2]
    rfl
  have hbraces : ∀ s ∈ arithmetic.symbols, '}' ∉ s.toList := by
    intro s hs
    obtain ⟨r, hr, rfl⟩ := Grammar.mem_symbols.mp hs
    have htokens : ∀ r ∈ arithmetic.tokens, '}' ∉ r.symbol.toList := by decide
    exact htokens r hr
  refine ⟨_, _, ht, hu, ?_, by decide, ?_⟩
  · rw [Tree.toText_eq_eval]
    decide
  · apply (toText_determines hbraces ht hu).mp
    rw [Tree.toText_eq_eval, Tree.toText_eq_eval]
    decide

end Fixity
