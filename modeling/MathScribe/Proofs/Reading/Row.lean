/-
The row of symbols of a text.

Tokens carry their places, and whatever is said about a formula as a part of a larger text would have
to move them. The reader does not look at places, so this file leaves them out. `symbolsOf` splits a
text into bare symbols and `Closing` closes the integrals of a bare row; `closedRow?` is both, and
`parse_eq_ok_iff` says that a text is understood exactly when its closed row is one relation.

Both steps are local. What stands at the front of a text is a symbol together with the text behind it
(`symbolsOf_symbol`), and closing a row that is put together from two closes the one and goes on with
the other from the state that the first leaves (`Closing.run_append`).
-/
import MathScribe.Proofs.Reading.Course

set_option autoImplicit false

namespace MathScribe

/-! ## The symbol at the front of a text -/

namespace Symbol

/-- A word is written as it is read. -/
theorem ofWord_text (word : Text) : (ofWord word).text = word := by
  unfold ofWord
  split
  · next h => exact h.symm
  · split
    · next h => exact h.symm
    · split
      · next f h =>
        have := List.find?_some h
        exact of_decide_eq_true this
      · split
        · next op h =>
          have := List.find?_some h
          exact of_decide_eq_true this
        · rfl

/-- The fraction digits are the front of the text. -/
theorem fractionDigits_isPrefix (text : Text) : fractionDigits text <+: text := by
  unfold fractionDigits
  split
  · split
    · exact List.cons_prefix_cons.mpr ⟨rfl, List.cons_prefix_cons.mpr ⟨rfl, List.takeWhile_prefix _⟩⟩
    · exact List.nil_prefix
  · exact List.nil_prefix

/-- The number at the front of a text is the front of the text. -/
theorem numberAt_isPrefix (text : Text) : numberAt text <+: text := by
  have hwhole := List.prefix_iff_eq_append.mp (List.takeWhile_prefix isDecimalDigit (l := text))
  have h := (List.prefix_append_right_inj (text.takeWhile isDecimalDigit)).mpr
    (fractionDigits_isPrefix (text.drop (text.takeWhile isDecimalDigit).length))
  rw [hwhole] at h
  exact h

/-- A mark is the front of the text. -/
theorem markAt?_isPrefix {text : Text} {symbol : Symbol} (h : markAt? text = some symbol) :
    symbol.text <+: text ∧ symbol.text ≠ [] := by
  unfold markAt? at h
  split at h <;> cases h <;>
    exact ⟨by simp [Symbol.text, Relation.text], by simp [Symbol.text, Relation.text]⟩

/-- The symbol that is read stands at the front of the text. -/
theorem read?_isPrefix {c : Char} {rest : Text} {symbol : Symbol} (h : read? c rest = some symbol) :
    symbol.text <+: c :: rest ∧ symbol.text ≠ [] := by
  unfold read? at h
  split at h
  · cases h
    rw [ofWord_text]
    exact ⟨List.cons_prefix_cons.mpr ⟨rfl, List.takeWhile_prefix _⟩, List.cons_ne_nil _ _⟩
  · split at h
    · exact markAt?_isPrefix h
    · next hdigits =>
      cases h
      exact ⟨numberAt_isPrefix _, hdigits⟩

/-- The text behind the symbol that is read. -/
theorem read?_eq_append {c : Char} {rest : Text} {symbol : Symbol}
    (h : read? c rest = some symbol) :
    symbol.text ++ rest.drop (symbol.text.length - 1) = c :: rest := by
  obtain ⟨⟨behind, hbehind⟩, hne⟩ := read?_isPrefix h
  cases htext : symbol.text with
  | nil => exact absurd htext hne
  | cons first more =>
    rw [htext, List.cons_append, List.cons.injEq] at hbehind
    rw [List.length_cons, Nat.add_sub_cancel, List.cons_append, ← hbehind.2, List.drop_left,
      hbehind.1]

end Symbol

/-! ## Splitting a text -/

/-- The symbols of a text, or none when some character starts no symbol. The number counts the
characters that an earlier symbol covers. -/
def symbolsFrom : Nat → Text → Option (List Symbol)
  | _, [] => some []
  | covered + 1, _ :: rest => symbolsFrom covered rest
  | 0, c :: rest =>
    if isBlank c then symbolsFrom 0 rest
    else
      match Symbol.read? c rest with
      | none => none
      | some symbol => (symbolsFrom (symbol.text.length - 1) rest).map (symbol :: ·)

/-- The symbols of a text. -/
def symbolsOf (text : Text) : Option (List Symbol) :=
  symbolsFrom 0 text

/-- Covered characters are passed over. -/
theorem symbolsFrom_eq_drop (covered : Nat) (text : Text) :
    symbolsFrom covered text = symbolsOf (text.drop covered) := by
  induction text generalizing covered with
  | nil => cases covered <;> rfl
  | cons c rest ih =>
    cases covered with
    | zero => rfl
    | succ covered => exact ih covered

/-- An empty text has no symbols. -/
@[simp] theorem symbolsOf_nil : symbolsOf [] = some [] :=
  rfl

/-- White space is dropped. -/
theorem symbolsOf_blank {c : Char} (h : isBlank c = true) (rest : Text) :
    symbolsOf (c :: rest) = symbolsOf rest := by
  unfold symbolsOf
  rw [symbolsFrom, if_pos h]

/-- A symbol comes first, and the text behind it is split next. -/
theorem symbolsOf_symbol {c : Char} {rest : Text} {symbol : Symbol} (hc : isBlank c = false)
    (h : Symbol.read? c rest = some symbol) :
    symbolsOf (c :: rest)
      = (symbolsOf (rest.drop (symbol.text.length - 1))).map (symbol :: ·) := by
  rw [← symbolsFrom_eq_drop]
  simp only [symbolsOf, symbolsFrom, hc, h, Bool.false_eq_true, if_false]

/-- The symbols are those of the tokens, and there are some when the tokens do not fail. -/
theorem symbolsFrom_eq_some_iff {covered : Nat} (position : Nat) {text : Text}
    {row : List Symbol} :
    symbolsFrom covered text = some row
      ↔ (scanFrom covered position text).failure = none
        ∧ (scanFrom covered position text).tokens.map Token.symbol = row := by
  induction text generalizing covered position row with
  | nil => simp [symbolsFrom, scanFrom]
  | cons c rest ih =>
    cases covered with
    | succ covered => exact ih (position + 1)
    | zero =>
      unfold symbolsFrom scanFrom
      by_cases hc : isBlank c = true
      · rw [if_pos hc, if_pos hc]
        exact ih (position + 1)
      · rw [if_neg hc, if_neg hc]
        cases Symbol.read? c rest with
        | none => simp
        | some symbol =>
          simp only [Option.map_eq_some_iff, Scan.after, List.cons_append, List.nil_append,
            List.map_cons]
          constructor
          · rintro ⟨others, hothers, rfl⟩
            obtain ⟨hfailure, htokens⟩ := (ih (position + 1)).mp hothers
            exact ⟨hfailure, by rw [htokens]⟩
          · rintro ⟨hfailure, rfl⟩
            exact ⟨_, (ih (position + 1)).mpr ⟨hfailure, rfl⟩, rfl⟩

/-! ## Closing integrals -/

/-- What has to be remembered between two symbols while integrals are closed. -/
structure Closing where
  /-- The parenthesis depth. -/
  depth : Int
  /-- The depths at which integrals are open, the innermost first. -/
  integrals : List Int
  /-- Whether a name `d` is held back. -/
  held : Bool
  deriving DecidableEq, Repr

namespace Closing

/-- The state before the first symbol. -/
def initial : Closing :=
  ⟨0, [], false⟩

/-- The name that is held back. -/
def heldSymbols (state : Closing) : List Symbol :=
  if state.held then [.name ['d']] else []

/-- The state with nothing held. -/
def release (state : Closing) : Closing :=
  { state with held := false }

/-- Take a symbol while nothing is held. -/
def takeFree (state : Closing) : Symbol → Option (List Symbol × Closing)
  | .openParen =>
    if state.depth + 1 > maxNesting then none
    else some ([.openParen], { state with depth := state.depth + 1 })
  | .closeParen =>
    some ([.closeParen], { state with
      depth := state.depth - 1
      integrals := state.integrals.dropWhile (state.depth - 1 < ·) })
  | .integral => some ([.integral], { state with integrals := state.depth :: state.integrals })
  | .name text =>
    if state.integrals.head? = some state.depth then
      if text = ['d'] then some ([], { state with held := true })
      else
        match Nesting.differentialOf? text with
        | some v => some ([.differential v], { state with integrals := state.integrals.tail })
        | none => some ([.name text], state)
    else some ([.name text], state)
  | symbol => some ([symbol], state)

/-- Take the next symbol: the symbols that are delivered for it and the state behind it, or none when
a parenthesis opens one level too many. -/
def take (state : Closing) (symbol : Symbol) : Option (List Symbol × Closing) :=
  if state.held then
    match symbol with
    | .name text =>
      some ([.differential text], { state.release with integrals := state.integrals.tail })
    | symbol => (state.release.takeFree symbol).map fun (out, next) => (.name ['d'] :: out, next)
  else state.takeFree symbol

/-- While nothing is held, a symbol is taken as it comes. -/
theorem take_of_free {state : Closing} (h : state.held = false) (symbol : Symbol) :
    state.take symbol = state.takeFree symbol := by
  unfold take
  rw [if_neg (by simp [h])]

/-- A held `d` joins with the name behind it. -/
theorem take_name_of_held {state : Closing} (h : state.held = true) (text : Text) :
    state.take (.name text)
      = some ([.differential text], ⟨state.depth, state.integrals.tail, false⟩) := by
  unfold take
  rw [if_pos h]
  rfl

/-- A held `d` is delivered in front of anything else. -/
theorem take_of_held {state : Closing} (h : state.held = true) {symbol : Symbol}
    (hname : ∀ text, symbol ≠ .name text) :
    state.take symbol
      = (state.release.takeFree symbol).map fun (out, next) => (.name ['d'] :: out, next) := by
  unfold take
  rw [if_pos h]
  cases symbol <;> first | rfl | exact absurd rfl (hname _)

/-- Take a row of symbols. -/
def run : Closing → List Symbol → Option (List Symbol × Closing)
  | state, [] => some ([], state)
  | state, symbol :: rest =>
    (state.take symbol).bind fun (out, next) =>
      (next.run rest).map fun (more, last) => (out ++ more, last)

/-- The end of a row changes nothing. -/
@[simp] theorem run_nil (state : Closing) : state.run [] = some ([], state) :=
  rfl

/-- A row is taken symbol by symbol. -/
theorem run_cons_iff {state last : Closing} {symbol : Symbol} {rest out : List Symbol} :
    state.run (symbol :: rest) = some (out, last)
      ↔ ∃ delivered next more, state.take symbol = some (delivered, next)
        ∧ next.run rest = some (more, last) ∧ out = delivered ++ more := by
  rw [run, Option.bind_eq_some_iff]
  constructor
  · rintro ⟨⟨delivered, next⟩, htake, hmore⟩
    obtain ⟨⟨more, last'⟩, hrun, hout⟩ := Option.map_eq_some_iff.mp hmore
    cases hout
    exact ⟨delivered, next, more, htake, hrun, rfl⟩
  · rintro ⟨delivered, next, more, htake, hrun, rfl⟩
    exact ⟨(delivered, next), htake, Option.map_eq_some_iff.mpr ⟨(more, last), hrun, rfl⟩⟩

/-- Closing a row that is put together from two closes the one and goes on with the other. -/
theorem run_append_iff {state last : Closing} {first second out : List Symbol} :
    state.run (first ++ second) = some (out, last)
      ↔ ∃ closed next more, state.run first = some (closed, next)
        ∧ next.run second = some (more, last) ∧ out = closed ++ more := by
  induction first generalizing state out with
  | nil =>
    constructor
    · intro h
      exact ⟨[], state, out, rfl, h, rfl⟩
    · rintro ⟨closed, next, more, hfirst, hsecond, rfl⟩
      cases hfirst
      exact hsecond
  | cons symbol first ih =>
    simp only [List.cons_append, run_cons_iff]
    constructor
    · rintro ⟨delivered, next, more, htake, hrun, rfl⟩
      obtain ⟨closed, next', more', hfirst, hsecond, rfl⟩ := ih.mp hrun
      exact ⟨delivered ++ closed, next', more', ⟨delivered, next, closed, htake, hfirst, rfl⟩,
        hsecond, (List.append_assoc ..).symm⟩
    · rintro ⟨closed, next', more', ⟨delivered, next, closed', htake, hfirst, rfl⟩, hsecond, rfl⟩
      exact ⟨delivered, next, closed' ++ more', htake,
        ih.mpr ⟨closed', next', more', hfirst, hsecond, rfl⟩, List.append_assoc ..⟩

end Closing

/-- A row of symbols with its integrals closed. -/
def closeRow? (row : List Symbol) : Option (List Symbol) :=
  (Closing.initial.run row).map fun (out, last) => out ++ last.heldSymbols

/-- The row of symbols of a text with its integrals closed, or none when the text cannot be split or
nests its parentheses too deeply. -/
def closedRow? (text : Text) : Option (List Symbol) :=
  (symbolsOf text).bind closeRow?

/-! ## Places do not matter -/

namespace Nesting

/-- The state of the pass without places. -/
def bare (state : Nesting) : Closing :=
  ⟨state.depth, state.integrals, state.held.isSome⟩

/-- What is held is a name `d`. -/
def HoldsD (state : Nesting) : Prop :=
  ∀ token, state.held = some token → token.symbol = .name ['d']

/-- In front of the row nothing is held. -/
theorem initial_holdsD : initial.HoldsD :=
  fun _ h => nomatch h

/-- Taking a token while none is held, without the places. -/
theorem takeFree_bare (state : Nesting) (hfree : state.held = none) (token : Token) :
    state.bare.takeFree token.symbol
      = match state.takeFree token with
        | .ok (delivered, next) => some (delivered.map Token.symbol, next.bare)
        | .error _ => none := by
  obtain ⟨depth, integrals, held⟩ := state
  obtain rfl : held = none := hfree
  unfold takeFree
  cases hsymbol : token.symbol with
  | openParen =>
    by_cases hdeep : depth + 1 > maxNesting
    · simp [bare, Closing.takeFree, hdeep]
    · simp [bare, Closing.takeFree, hdeep, hsymbol]
  | closeParen =>
    simp only [bare, Closing.takeFree, List.map_cons, List.map_nil, hsymbol]
    rfl
  | name text =>
    by_cases hopen : integrals.head? = some depth
    · by_cases htext : text = ['d']
      · simp [bare, Closing.takeFree, hopen, htext]
      · cases hv : differentialOf? text <;>
          simp [bare, Closing.takeFree, hopen, htext, hv, hsymbol]
    · simp [bare, Closing.takeFree, hopen, hsymbol]
  | _ => simp [bare, Closing.takeFree, hsymbol]

/-- What is held after a token is taken is a name `d`. -/
theorem takeFree_holdsD {state next : Nesting} {token : Token} {delivered : List Token}
    (hfree : state.held = none) (h : state.takeFree token = .ok (delivered, next)) :
    next.HoldsD := by
  intro d hd
  unfold takeFree at h
  split at h
  case h_4 hsymbol =>
    split at h
    · split at h
      · next htext =>
        cases h
        cases hd
        rw [hsymbol, htext]
      · split at h <;> cases h <;> exact absurd (hfree.symm.trans hd) nofun
    · cases h
      exact absurd (hfree.symm.trans hd) nofun
  case h_1 =>
    split at h <;> cases h
    exact absurd (hfree.symm.trans hd) nofun
  all_goals
    cases h
    exact absurd (hfree.symm.trans hd) nofun

/-- Taking a token, without the places. -/
theorem take_bare {state : Nesting} (hd : state.HoldsD) (token : Token) :
    state.bare.take token.symbol
      = match state.take token with
        | (delivered, .ok next) => some (delivered.map Token.symbol, next.bare)
        | (_, .error _) => none := by
  cases hheld : state.held with
  | none =>
    have hfree := takeFree_bare state hheld token
    simp only [Closing.take, take, bare, hheld, Option.isSome_none, Bool.false_eq_true, if_false]
    simp only [bare, hheld, Option.isSome_none] at hfree
    rw [hfree]
    cases state.takeFree token <;> rfl
  | some d =>
    have hfree := takeFree_bare { state with held := none } rfl token
    simp only [Closing.take, take, bare, hheld, Option.isSome_some, if_true]
    cases hsymbol : token.symbol with
    | name text => rfl
    | _ =>
      rw [hsymbol] at hfree
      simp only [Closing.release]
      simp only [bare, Option.isSome_none] at hfree
      rw [hfree]
      cases takeFree { state with held := none } token <;> simp [hd d hheld]

/-- What is held after a token is taken is a name `d`. -/
theorem take_holdsD {state next : Nesting} {token : Token} {delivered : List Token}
    (h : state.take token = (delivered, .ok next)) : next.HoldsD := by
  unfold take at h
  split at h
  · split at h
    · cases h
      exact fun _ hd => nomatch hd
    · split at h
      · next hfree =>
        cases h
        exact takeFree_holdsD rfl hfree
      · cases h
  · next hheld =>
    split at h
    · next hfree =>
      cases h
      exact takeFree_holdsD hheld hfree
    · cases h

/-- The whole pass, without the places. -/
theorem run_eq_iff {state : Nesting} (hd : state.HoldsD) {tokens : List Token}
    {row : List Symbol} :
    (run none state tokens).failure = none
        ∧ (run none state tokens).tokens.map Token.symbol = row
      ↔ ∃ out last, state.bare.run (tokens.map Token.symbol) = some (out, last)
        ∧ row = out ++ last.heldSymbols := by
  -- The state without places takes the symbols as the state takes the tokens. At the end a held `d` is
  -- delivered in both.
  induction tokens generalizing state row with
  | nil =>
    cases hheld : state.held with
    | none =>
      constructor
      · rintro ⟨-, rfl⟩
        exact ⟨_, _, rfl, by simp [run, Closing.heldSymbols, bare, hheld]⟩
      · rintro ⟨out, last, hrun, rfl⟩
        cases hrun
        simp [run, Closing.heldSymbols, bare, hheld]
    | some d =>
      constructor
      · rintro ⟨-, rfl⟩
        exact ⟨_, _, rfl, by simp [run, Closing.heldSymbols, bare, hheld, hd d hheld]⟩
      · rintro ⟨out, last, hrun, rfl⟩
        cases hrun
        simp [run, Closing.heldSymbols, bare, hheld, hd d hheld]
  | cons token tokens ih =>
    have hbare := take_bare hd token
    simp only [List.map_cons, Closing.run_cons_iff, hbare]
    unfold run
    cases htake : state.take token with
    | mk delivered outcome =>
      cases outcome with
      | error e => simp
      | ok next =>
        simp only [Scan.after, List.map_append, Option.some.injEq, Prod.mk.injEq]
        constructor
        · rintro ⟨hfailure, rfl⟩
          obtain ⟨out, last, hrun, htokens⟩ := (ih (take_holdsD htake)).mp ⟨hfailure, rfl⟩
          exact ⟨_, last, ⟨_, _, _, ⟨rfl, rfl⟩, hrun, rfl⟩, by rw [htokens, List.append_assoc]⟩
        · rintro ⟨out, last, ⟨_, _, more, ⟨rfl, rfl⟩, hrun, rfl⟩, rfl⟩
          obtain ⟨hfailure, htokens⟩ := (ih (take_holdsD htake)).mpr ⟨more, last, hrun, rfl⟩
          exact ⟨hfailure, by rw [htokens, List.append_assoc]⟩

/-- A failure to split the text is a failure of the pass. -/
theorem run_some_failure (e : ParseError) (state : Nesting) (tokens : List Token) :
    (run (some e) state tokens).failure ≠ none := by
  induction tokens generalizing state with
  | nil => exact nofun
  | cons token tokens ih =>
    unfold run
    rcases state.take token with ⟨delivered, _ | next⟩
    · exact nofun
    · exact ih next

end Nesting

/-- The closed row is the row of the tokens, and there is one when the tokens do not fail. -/
theorem closedRow?_eq_some_iff {text : Text} {row : List Symbol} :
    closedRow? text = some row
      ↔ (scanClosed text).failure = none ∧ (scanClosed text).tokens.map Token.symbol = row := by
  have hsplit : ∀ raw, symbolsOf text = some raw
      ↔ (scan text).failure = none ∧ (scan text).tokens.map Token.symbol = raw :=
    fun raw => symbolsFrom_eq_some_iff 0
  unfold closedRow? scanClosed closeRow?
  simp only [Option.bind_eq_some_iff, Option.map_eq_some_iff]
  constructor
  · rintro ⟨raw, hraw, ⟨out, last⟩, hrun, rfl⟩
    obtain ⟨hfailure, htokens⟩ := (hsplit raw).mp hraw
    rw [hfailure]
    exact (Nesting.run_eq_iff Nesting.initial_holdsD).mpr ⟨out, last, htokens ▸ hrun, rfl⟩
  · intro h
    cases hfailure : (scan text).failure with
    | some e => exact absurd (hfailure ▸ h.1) (Nesting.run_some_failure e _ _)
    | none =>
      rw [hfailure] at h
      obtain ⟨out, last, hrun, rfl⟩ := (Nesting.run_eq_iff Nesting.initial_holdsD).mp h
      exact ⟨_, (hsplit _).mpr ⟨hfailure, rfl⟩, (out, last), hrun, rfl⟩

/-- The closed row is the row of the tokens. -/
theorem closedRow?_eq_some_iff_tokenize {text : Text} {row : List Symbol} :
    closedRow? text = some row
      ↔ ∃ tokens, tokenize text = .ok tokens ∧ tokens.map Token.symbol = row := by
  rw [closedRow?_eq_some_iff]
  unfold tokenize
  rcases scanClosed text with ⟨tokens, _ | e⟩ <;> simp

/-- White space alone has no symbols. -/
theorem closedRow?_of_isBlankText {text : Text} (h : isBlankText text = true) :
    closedRow? text = some [] := by
  have hsymbols : symbolsOf text = some [] := by
    induction text with
    | nil => rfl
    | cons c rest ih =>
      simp only [isBlankText, List.all_cons, Bool.and_eq_true] at h
      rw [symbolsOf_blank h.1]
      exact ih h.2
  unfold closedRow?
  rw [hsymbols]
  rfl

/-- A text is understood when its closed row is one relation from end to end. -/
theorem parse_eq_ok_iff {text : Text} {tree : Expr} :
    parse text = .ok tree ↔ ∃ row, closedRow? text = some row ∧ Reads .relation row tree [] := by
  simp only [closedRow?_eq_some_iff, ← readSymbols_eq_ok_iff]
  constructor
  · intro h
    unfold parse at h
    split at h
    · cases h
    · dsimp only at h
      split at h <;> cases h
      next hfailure hread => exact ⟨_, ⟨hfailure, rfl⟩, hread⟩
  · rintro ⟨row, ⟨hfailure, rfl⟩, hread⟩
    unfold parse
    split
    · next hblank =>
      have hempty := closedRow?_eq_some_iff.mp (closedRow?_of_isBlankText hblank)
      rw [hempty.2] at hread
      exact absurd (readSymbols_eq_ok_iff.mp hread).length_le (by simp [Phrase.takesSymbol])
    · dsimp only
      rw [hread, hfailure]

/-! ## What all symbols of a text have in common -/

section Kind

variable {kind : Symbol → Prop}

/-- The symbols of a text are of a kind that every symbol is of that can be read. -/
theorem symbolsFrom_forall
    (hread : ∀ {c rest symbol}, Symbol.read? c rest = some symbol → kind symbol) {covered : Nat}
    {text : Text} {row : List Symbol} (h : symbolsFrom covered text = some row) :
    ∀ symbol ∈ row, kind symbol := by
  induction text generalizing covered row with
  | nil => cases covered <;> cases h <;> exact nofun
  | cons c rest ih =>
    cases covered with
    | succ covered => exact ih h
    | zero =>
      unfold symbolsFrom at h
      split at h
      · exact ih h
      · split at h
        · cases h
        · next symbol hsymbol =>
          obtain ⟨others, hothers, rfl⟩ := Option.map_eq_some_iff.mp h
          exact List.forall_mem_cons.mpr ⟨hread hsymbol, ih hothers⟩

namespace Closing

/-- Closing integrals stays within a kind of symbols: the name that may be held is of the kind, and so is a
differential that comes of a name of the kind. -/
structure StaysIn (kind : Symbol → Prop) : Prop where
  held : kind (.name ['d'])
  joined : ∀ text, kind (.name text) → kind (.differential text)
  alone : ∀ text v, kind (.name text) → Nesting.differentialOf? text = some v → kind (.differential v)

variable {state next last : Closing} {symbol : Symbol} {row out : List Symbol}

/-- What is delivered for a symbol of such a kind is of the kind. -/
theorem takeFree_forall (hkind : StaysIn kind) (hsymbol : kind symbol)
    (h : state.takeFree symbol = some (out, next)) : ∀ delivered ∈ out, kind delivered := by
  unfold takeFree at h
  repeat' split at h
  all_goals
    cases h <;> first
      | exact List.forall_mem_nil _
      | exact List.forall_mem_singleton.mpr hsymbol
      | exact List.forall_mem_singleton.mpr (hkind.alone _ _ hsymbol ‹_›)

/-- The held `d` that may be delivered in front of it is of the kind too. -/
theorem take_forall (hkind : StaysIn kind) (hsymbol : kind symbol)
    (h : state.take symbol = some (out, next)) : ∀ delivered ∈ out, kind delivered := by
  unfold take at h
  split at h
  · split at h
    · cases h
      exact List.forall_mem_singleton.mpr (hkind.joined _ hsymbol)
    · obtain ⟨⟨delivered, next'⟩, hfree, hout⟩ := Option.map_eq_some_iff.mp h
      cases hout
      exact List.forall_mem_cons.mpr ⟨hkind.held, takeFree_forall hkind hsymbol hfree⟩
  · exact takeFree_forall hkind hsymbol h

/-- All that is delivered for a row of symbols of such a kind is of the kind. -/
theorem run_forall (hkind : StaysIn kind) (hrow : ∀ symbol ∈ row, kind symbol)
    (h : state.run row = some (out, last)) : ∀ symbol ∈ out, kind symbol := by
  induction row generalizing state out with
  | nil =>
    cases h
    exact nofun
  | cons symbol row ih =>
    obtain ⟨hsymbol, hrow⟩ := List.forall_mem_cons.mp hrow
    obtain ⟨delivered, next, more, htake, hrun, rfl⟩ := run_cons_iff.mp h
    exact List.forall_mem_append.mpr ⟨take_forall hkind hsymbol htake, ih hrow hrun⟩

end Closing

/-- The symbols of a closed row are of every kind that all symbols are of that can be read, if closing
integrals stays within it. -/
theorem closedRow?_forall
    (hread : ∀ {c rest symbol}, Symbol.read? c rest = some symbol → kind symbol)
    (hkind : Closing.StaysIn kind) {text : Text} {row : List Symbol} (h : closedRow? text = some row) :
    ∀ symbol ∈ row, kind symbol := by
  obtain ⟨raw, hraw, hclosed⟩ := Option.bind_eq_some_iff.mp h
  obtain ⟨⟨out, last⟩, hrun, rfl⟩ := Option.map_eq_some_iff.mp hclosed
  refine List.forall_mem_append.mpr ⟨Closing.run_forall hkind (symbolsFrom_forall hread hraw) hrun, ?_⟩
  unfold Closing.heldSymbols
  split
  · exact List.forall_mem_singleton.mpr hkind.held
  · exact nofun

end Kind

end MathScribe
