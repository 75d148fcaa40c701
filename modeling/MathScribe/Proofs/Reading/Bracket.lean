/-
Brackets.

An integral and its differential belong together like two parentheses, and in a row that can be read the
two kinds of brackets are nested in each other (`Reads.brackets`). The pass that closes integrals knows
less: it sees a name `d` in front of a name, or a name of `d` and one letter, and takes it for a
differential wherever an integral is open at that depth of the parentheses.

This file says when the pass finds the differentials that are meant. `rawRow` undoes the pass: it writes
each differential as two names again. Closing the raw row of a balanced row gives the row back
(`closeRow?_rawRow`), unless a name that stands directly inside an integral passes for a differential
itself. The states that the pass goes through are those of the brackets that are open
(`Closing.within`).
-/
import MathScribe.Proofs.Reading.Lookahead

set_option autoImplicit false

namespace MathScribe

/-! ## Balanced rows -/

/-- What can be open at a place in a row. -/
inductive Bracket
  | paren
  | integral
  deriving DecidableEq, Repr

/-- The brackets that are open behind a symbol, the innermost first, from those in front of it. None when
the symbol closes something that is not the innermost. -/
def Symbol.pass? : Symbol → List Bracket → Option (List Bracket)
  | openParen, stack => some (.paren :: stack)
  | integral, stack => some (.integral :: stack)
  | closeParen, .paren :: stack => some stack
  | differential _, .integral :: stack => some stack
  | closeParen, _ | differential _, _ => none
  | _, stack => some stack

/-- The brackets that are open behind a row. -/
def bracketsFrom : List Bracket → List Symbol → Option (List Bracket)
  | stack, [] => some stack
  | stack, symbol :: row => (symbol.pass? stack).bind (bracketsFrom · row)

/-- A symbol that is no bracket. -/
def Symbol.isNeutral : Symbol → Bool
  | openParen | closeParen | integral | differential _ => false
  | _ => true

/-- A symbol that is no bracket opens and closes nothing. -/
theorem Symbol.pass?_of_isNeutral {symbol : Symbol} (h : symbol.isNeutral = true)
    (stack : List Bracket) : symbol.pass? stack = some stack := by
  cases symbol <;> first | rfl | cases h

/-- A symbol that is no bracket may be left out when the open brackets are followed. -/
theorem bracketsFrom_cons_of_isNeutral {symbol : Symbol} (h : symbol.isNeutral = true)
    (stack : List Bracket) (row : List Symbol) :
    bracketsFrom stack (symbol :: row) = bracketsFrom stack row := by
  rw [bracketsFrom, Symbol.pass?_of_isNeutral h, Option.bind_some]

/-- An operator is no bracket. -/
theorem Symbol.isNeutral_of_operator {symbol : Symbol} {op : Operator}
    (h : symbol.additive? = some op ∨ symbol.multiplicative? = some op ∨ symbol.sign? = some op) :
    symbol.isNeutral = true := by
  cases symbol <;> simp_all [additive?, multiplicative?, sign?, isNeutral]

/-- The name of a call is no bracket. -/
theorem Symbol.isNeutral_of_callee {symbol : Symbol} {function : Text}
    (h : symbol.callee? = some function) : symbol.isNeutral = true := by
  cases symbol <;> simp_all [callee?, isNeutral]

/-- The brackets that a phrase closes without having opened them. -/
def Phrase.closed : Phrase → List Bracket
  | arguments .. => [.paren]
  | _ => []

/-- **Reading keeps the brackets.** Those that are open behind a row do not depend on whether a phrase is
read in front of it. -/
theorem Reads.brackets {phrase : Phrase} {input rest : List Symbol} {tree : Expr}
    (h : Reads phrase input tree rest) (stack : List Bracket) :
    bracketsFrom (phrase.closed ++ stack) input = bracketsFrom stack rest := by
  induction h generalizing stack with
  | additiveNext h _ _ ih₁ ih₂ =>
    rw [bracketsFrom_cons_of_isNeutral (Symbol.isNeutral_of_operator (.inl h))]
    exact (ih₁ stack).trans (ih₂ stack)
  | termNext h _ _ ih₁ ih₂ =>
    rw [bracketsFrom_cons_of_isNeutral (Symbol.isNeutral_of_operator (.inr (.inl h)))]
    exact (ih₁ stack).trans (ih₂ stack)
  | sign h _ ih =>
    rw [bracketsFrom_cons_of_isNeutral (Symbol.isNeutral_of_operator (.inr (.inr h)))]
    exact ih stack
  | callEmpty h =>
    rw [bracketsFrom_cons_of_isNeutral (Symbol.isNeutral_of_callee h)]
    rfl
  | call h _ _ ih =>
    rw [bracketsFrom_cons_of_isNeutral (Symbol.isNeutral_of_callee h)]
    exact ih stack
  | _ => simp_all [bracketsFrom, Phrase.closed, Symbol.pass?]

/-! ## How deep parentheses are nested -/

/-- The greatest depth that a row reaches, where each of its entries changes the depth by its weight. -/
def greatestDepth {α : Type} (weight : α → Int) : Int → List α → Int
  | depth, [] => depth
  | depth, a :: row => max depth (greatestDepth weight (depth + weight a) row)

/-- A row stays within a depth when its first step does and the rest does from there on. -/
theorem greatestDepth_cons_le_iff {α : Type} {weight : α → Int} {depth bound : Int} {a : α}
    {row : List α} :
    greatestDepth weight depth (a :: row) ≤ bound
      ↔ depth ≤ bound ∧ greatestDepth weight (depth + weight a) row ≤ bound :=
  Int.max_le

/-- The greatest depth is at least the one that is started from. -/
theorem le_greatestDepth {α : Type} {weight : α → Int} (depth : Int) (row : List α) :
    depth ≤ greatestDepth weight depth row := by
  cases row with
  | nil => exact Int.le_refl _
  | cons a row => exact Int.le_max_left ..

/-- How a symbol changes the depth of the parentheses. -/
def Symbol.weight : Symbol → Int
  | openParen => 1
  | closeParen => -1
  | _ => 0

/-- How a character changes the depth of the parentheses. -/
def parenWeight (c : Char) : Int :=
  if c = '(' then 1 else if c = ')' then -1 else 0

/-- The depth up to which a text nests its parentheses. -/
def parenDepth (text : Text) : Int :=
  greatestDepth parenWeight 0 text

/-- What has no weight does not take depth away from what stands behind it. -/
theorem greatestDepth_append_of_neutral {α : Type} {weight : α → Int} {front : List α}
    (h : ∀ a ∈ front, weight a = 0) (depth : Int) (row : List α) :
    greatestDepth weight depth row ≤ greatestDepth weight depth (front ++ row) := by
  induction front with
  | nil => exact Int.le_refl _
  | cons a front ih =>
    obtain ⟨ha, hfront⟩ := List.forall_mem_cons.mp h
    rw [List.cons_append, greatestDepth, ha, Int.add_zero]
    exact Int.le_trans (ih hfront) (Int.le_max_right ..)

theorem parenWeight_of_isBlank {c : Char} (h : isBlank c = true) : parenWeight c = 0 := by
  have ho : c ≠ '(' := by rintro rfl; cases h
  have hc : c ≠ ')' := by rintro rfl; cases h
  rw [parenWeight, if_neg ho, if_neg hc]

theorem parenWeight_of_isWordChar {c : Char} (h : Symbol.isWordChar c) : parenWeight c = 0 := by
  rw [parenWeight, if_neg (Symbol.isWordChar_ne h (by decide)),
    if_neg (Symbol.isWordChar_ne h (by decide))]

/-- A symbol is a parenthesis, or there is none in its text. -/
theorem Symbol.text_weight {c : Char} {rest : Text} {symbol : Symbol}
    (h : read? c rest = some symbol) :
    (∃ paren, symbol.text = [paren] ∧ symbol.weight = parenWeight paren)
      ∨ (symbol.weight = 0 ∧ ∀ d ∈ symbol.text, parenWeight d = 0) := by
  rcases isWordChar_or_mark h with hword | hmark
  · refine .inr ⟨?_, fun d hd => parenWeight_of_isWordChar (hword d hd)⟩
    have hparen : ∀ paren, symbol.text = [paren] → isWordChar paren := fun paren hparen =>
      hword paren (hparen ▸ List.mem_singleton_self paren)
    cases symbol with
    | openParen => exact absurd (hparen '(' rfl) (by unfold isWordChar; decide)
    | closeParen => exact absurd (hparen ')' rfl) (by unfold isWordChar; decide)
    | _ => rfl
  · rcases markAt?_cases hmark with ⟨hsingle, -⟩ | ⟨d, more, -, hpair⟩
    · refine .inl ⟨c, singleMark?_text hsingle, ?_⟩
      unfold singleMark? at hsingle
      split at hsingle <;> cases hsingle <;> rfl
    · refine .inr ?_
      unfold pairMark? at hpair
      repeat' split at hpair
      all_goals
        cases hpair <;>
          exact ⟨rfl, List.forall_mem_cons.mpr ⟨rfl, List.forall_mem_singleton.mpr rfl⟩⟩

/-- The symbols of a text are nested no deeper than its characters. -/
theorem greatestDepth_symbolsOf {text : Text} {row : List Symbol} (h : symbolsOf text = some row)
    (depth : Int) :
    greatestDepth Symbol.weight depth row ≤ greatestDepth parenWeight depth text := by
  revert depth
  refine symbolsOf_induction (motive := fun text row => ∀ depth,
    greatestDepth Symbol.weight depth row ≤ greatestDepth parenWeight depth text) ?_ ?_ ?_ h
  · exact fun depth => Int.le_refl _
  · intro c rest row hc _ ih depth
    have hweight : ∀ d ∈ [c], parenWeight d = 0 := by
      simpa using parenWeight_of_isBlank hc
    exact Int.le_trans (ih depth) (greatestDepth_append_of_neutral hweight depth rest)
  · intro c more left symbol row _ hread htext _ ih depth
    rcases Symbol.text_weight hread with ⟨paren, hparen, hweight⟩ | ⟨hweight, htexts⟩
    · obtain ⟨rfl, rfl⟩ := List.cons.inj (htext.symm.trans hparen)
      rw [List.nil_append, greatestDepth, greatestDepth, hweight]
      have := ih (depth + parenWeight c)
      omega
    · rw [← List.cons_append, ← htext, greatestDepth, hweight, Int.add_zero]
      have hleft := Int.le_trans (ih depth) (greatestDepth_append_of_neutral htexts depth left)
      exact Int.max_le.mpr ⟨le_greatestDepth depth _, hleft⟩

/-! ## Differentials written as names -/

/-- A symbol before integrals are closed: a differential is a name `d` and the name of its variable. -/
def Symbol.raw : Symbol → List Symbol
  | differential v => [name ['d'], name v]
  | symbol => [symbol]

/-- A row before its integrals are closed. -/
def rawRow (row : List Symbol) : List Symbol :=
  row.flatMap Symbol.raw

@[simp] theorem rawRow_nil : rawRow [] = [] :=
  rfl

@[simp] theorem rawRow_cons (symbol : Symbol) (row : List Symbol) :
    rawRow (symbol :: row) = symbol.raw ++ rawRow row :=
  List.flatMap_cons

@[simp] theorem rawRow_append (first second : List Symbol) :
    rawRow (first ++ second) = rawRow first ++ rawRow second :=
  List.flatMap_append

/-- A symbol that is written with a name in front. -/
def Symbol.startsWithName : Symbol → Bool
  | name _ | differential _ => true
  | _ => false

/-- A name that is taken for a differential when an integral is open at its depth: a name of `d` and one
letter, or a `d` in front of a name. -/
def Symbol.passesForDifferential (behind : List Symbol) : Symbol → Bool
  | name text =>
    (Nesting.differentialOf? text).isSome
      || (text = ['d'] && goesOn startsWithName behind)
  | _ => false

/-- Whether no name that stands directly inside an integral passes for its differential, when the given
brackets are open in front of the row. -/
def keepsNames : List Bracket → List Symbol → Bool
  | _, [] => true
  | stack, symbol :: row =>
    !(stack.head? = some .integral && symbol.passesForDifferential row)
      && (symbol.pass? stack).all (keepsNames · row)

/-- The names of a row are kept when its first symbol does not pass for a differential directly inside an
integral, and those of the rest are kept with the brackets behind it. -/
theorem keepsNames_cons {stack stack' : List Bracket} {symbol : Symbol} {row : List Symbol}
    (hpass : symbol.pass? stack = some stack') :
    keepsNames stack (symbol :: row) = true
      ↔ ¬ (stack.head? = some .integral ∧ symbol.passesForDifferential row = true)
        ∧ keepsNames stack' row = true := by
  simp only [keepsNames, hpass, Option.all_some, Bool.and_eq_true, Bool.not_eq_true',
    ← Bool.not_eq_true, decide_eq_true_eq]

/-- A differential starts with a name before integrals are closed. -/
theorem goesOn_startsWithName_rawRow (row : List Symbol) :
    goesOn Symbol.startsWithName (rawRow row) = goesOn Symbol.startsWithName row := by
  cases row with
  | nil => rfl
  | cons symbol row => cases symbol <;> rfl

/-- A differential is nested like the two names that it is written with. -/
theorem greatestDepth_rawRow (depth : Int) (row : List Symbol) :
    greatestDepth Symbol.weight depth row ≤ greatestDepth Symbol.weight depth (rawRow row) := by
  induction row generalizing depth with
  | nil => exact Int.le_refl _
  | cons symbol row ih =>
    cases symbol with
    | differential v =>
      have hnames : ∀ symbol ∈ (Symbol.differential v).raw, symbol.weight = 0 := by
        simp [Symbol.raw, Symbol.weight]
      have hweight : (Symbol.differential v).weight = 0 := rfl
      rw [rawRow_cons, greatestDepth, hweight, Int.add_zero]
      exact Int.max_le.mpr ⟨le_greatestDepth depth _,
        Int.le_trans (ih depth) (greatestDepth_append_of_neutral hnames depth _)⟩
    | _ =>
      refine Int.max_le.mpr ⟨le_greatestDepth depth _, Int.le_trans (ih _) (Int.le_max_right ..)⟩

namespace Closing

/-- The symbols that closing a row delivers, with the one that is held at the end. -/
def close? (state : Closing) (row : List Symbol) : Option (List Symbol) :=
  (state.run row).map fun (out, last) => out ++ last.heldSymbols

/-- Closing a row is taking its first symbol and closing the rest. -/
theorem close?_cons (state : Closing) (symbol : Symbol) (row : List Symbol) :
    state.close? (symbol :: row)
      = (state.take symbol).bind fun (out, next) => (next.close? row).map (out ++ ·) := by
  unfold close?
  rw [run]
  cases state.take symbol with
  | none => rfl
  | some taken => cases hrun : taken.2.run row <;> simp [hrun]

/-- What taking the first symbol delivers comes first. -/
theorem close?_of_take {state next : Closing} {symbol : Symbol} {out : List Symbol}
    (h : state.take symbol = some (out, next)) (row : List Symbol) :
    state.close? (symbol :: row) = (next.close? row).map (out ++ ·) := by
  rw [close?_cons, h, Option.bind_some]

/-- The depth of the parentheses inside brackets. -/
def depthOf : List Bracket → Int
  | [] => 0
  | .paren :: stack => depthOf stack + 1
  | .integral :: stack => depthOf stack

/-- The depths of the integrals among brackets. -/
def integralsOf : List Bracket → List Int
  | [] => []
  | .paren :: stack => integralsOf stack
  | .integral :: stack => depthOf stack :: integralsOf stack

/-- The state inside brackets while nothing is held. -/
def within (stack : List Bracket) : Closing :=
  ⟨depthOf stack, integralsOf stack, false⟩

/-- The state inside brackets while a `d` is held. -/
def holding (stack : List Bracket) : Closing :=
  ⟨depthOf stack, integralsOf stack, true⟩

/-- An integral stands no deeper than the parentheses that are open now. -/
theorem le_depthOf_of_mem_integralsOf {stack : List Bracket} :
    ∀ depth ∈ integralsOf stack, depth ≤ depthOf stack := by
  induction stack with
  | nil => exact nofun
  | cons bracket stack ih =>
    cases bracket with
    | paren =>
      intro depth hdepth
      have := ih depth hdepth
      simp only [depthOf]
      omega
    | integral => exact List.forall_mem_cons.mpr ⟨Int.le_refl _, ih⟩

/-- An integral is open at the depth of the parentheses exactly when the innermost bracket is one. -/
theorem integralsOf_head?_eq_iff {stack : List Bracket} :
    (integralsOf stack).head? = some (depthOf stack) ↔ stack.head? = some .integral := by
  cases stack with
  | nil => simp [integralsOf]
  | cons bracket stack =>
    cases bracket with
    | integral => simp [integralsOf, depthOf]
    | paren =>
      simp only [integralsOf, depthOf, List.head?_cons, Option.some.injEq, reduceCtorEq, iff_false]
      intro hhead
      have := le_depthOf_of_mem_integralsOf _ (List.mem_of_head? hhead)
      omega

/-- A closing parenthesis leaves the integrals outside open. -/
theorem dropWhile_integralsOf (stack : List Bracket) :
    (integralsOf stack).dropWhile (depthOf stack < ·) = integralsOf stack := by
  cases hintegrals : integralsOf stack with
  | nil => rfl
  | cons first others =>
    have := le_depthOf_of_mem_integralsOf first (hintegrals ▸ List.mem_cons_self)
    refine List.dropWhile_cons_of_neg ?_
    simp only [decide_eq_true_eq]
    omega

/-- A symbol changes the depth by its weight. -/
theorem depthOf_of_pass? {stack stack' : List Bracket} {symbol : Symbol}
    (h : symbol.pass? stack = some stack') : depthOf stack + symbol.weight = depthOf stack' := by
  unfold Symbol.pass? at h
  split at h <;> cases h <;> simp [depthOf, Symbol.weight]

/-- A symbol that is no name is taken as the bracket that it is, if it is one. -/
theorem takeFree_within {stack stack' : List Bracket} {symbol : Symbol}
    (hname : symbol.startsWithName = false) (hpass : symbol.pass? stack = some stack')
    (hdepth : symbol = .openParen → depthOf stack + 1 ≤ maxNesting) :
    (within stack).takeFree symbol = some ([symbol], within stack') := by
  cases symbol with
  | name | differential => cases hname
  | openParen =>
    cases hpass
    exact if_neg (Int.not_lt.mpr (hdepth rfl))
  | integral =>
    cases hpass
    rfl
  | closeParen =>
    match stack with
    -- The depth falls back to that of the brackets outside, where their integrals are still open.
    | .paren :: _ =>
      cases hpass
      have hsame : depthOf (.paren :: stack') - 1 = depthOf stack' := Int.add_sub_cancel ..
      have hdrop : (integralsOf (.paren :: stack')).dropWhile (depthOf (.paren :: stack') - 1 < ·)
          = integralsOf stack' := by
        rw [hsame]
        exact dropWhile_integralsOf stack'
      have htake : (within (.paren :: stack')).takeFree .closeParen
          = some ([.closeParen], ⟨depthOf (.paren :: stack') - 1,
            (integralsOf (.paren :: stack')).dropWhile (depthOf (.paren :: stack') - 1 < ·), false⟩) :=
        rfl
      rw [htake, hdrop, hsame]
      rfl
  | _ =>
    cases hpass
    rfl

/-- A name that passes for no differential is delivered, and a `d` is held inside an integral. -/
theorem takeFree_name (stack : List Bracket) {text : Text} {behind : List Symbol}
    (hkeep : ¬ (stack.head? = some .integral
      ∧ (Symbol.name text).passesForDifferential behind = true)) :
    (within stack).takeFree (.name text)
      = if stack.head? = some .integral ∧ text = ['d'] then some ([], holding stack)
        else some ([.name text], within stack) := by
  have hopen : (within stack).integrals.head? = some (within stack).depth
      ↔ stack.head? = some .integral := integralsOf_head?_eq_iff
  unfold takeFree
  by_cases hinside : stack.head? = some .integral
  · have hnone : Nesting.differentialOf? text = none := by
      have := not_and.mp hkeep hinside
      simp only [Symbol.passesForDifferential, Bool.or_eq_true, not_or, Bool.not_eq_true,
        Option.isSome_eq_false_iff, Option.isNone_iff_eq_none] at this
      exact this.1
    simp only [hopen.mpr hinside, if_true, hinside, true_and, hnone]
    rfl
  · simp only [mt hopen.mp hinside, if_false, hinside, false_and]

/-- What is closed behind a held `d` is what would be closed without it, unless a name follows. -/
theorem close?_holding {stack : List Bracket} {raw : List Symbol}
    (h : goesOn Symbol.startsWithName raw = false) :
    (holding stack).close? raw = ((within stack).close? raw).map (.name ['d'] :: ·) := by
  cases raw with
  | nil => rfl
  | cons symbol raw =>
    have hname : ∀ text, symbol ≠ .name text := by
      rintro text rfl
      cases h
    rw [close?_cons, close?_cons, take_of_held rfl hname, take_of_free rfl]
    change (Option.map _ ((within stack).takeFree symbol)).bind _ = _
    cases (within stack).takeFree symbol with
    | none => rfl
    | some taken =>
      cases hclose : taken.2.close? raw <;> simp [hclose]

/-- A symbol that is no name is delivered, and the row behind it is closed inside the brackets that are then
open. -/
theorem close?_symbol {stack stack' : List Bracket} {symbol : Symbol}
    (hname : symbol.startsWithName = false) (hpass : symbol.pass? stack = some stack')
    (hdepth : symbol = .openParen → depthOf stack + 1 ≤ maxNesting) (raw : List Symbol) :
    (within stack).close? (symbol :: raw) = ((within stack').close? raw).map (symbol :: ·) :=
  close?_of_take ((take_of_free rfl symbol).trans (takeFree_within hname hpass hdepth)) raw

/-- A name that passes for no differential is delivered, at once or behind the next symbol. -/
theorem close?_name {stack : List Bracket} {text : Text} {raw : List Symbol}
    (hkeep : ¬ (stack.head? = some .integral
      ∧ (Symbol.name text).passesForDifferential raw = true)) :
    (within stack).close? (.name text :: raw) = ((within stack).close? raw).map (.name text :: ·) := by
  have htake := (take_of_free rfl _).trans (takeFree_name stack hkeep)
  by_cases hheld : stack.head? = some .integral ∧ text = ['d']
  · rw [if_pos hheld] at htake
    obtain ⟨hinside, rfl⟩ := hheld
    have hbehind : goesOn Symbol.startsWithName raw = false := by
      simpa [Symbol.passesForDifferential, Nesting.differentialOf?] using
        not_and.mp hkeep hinside
    rw [close?_of_take htake, close?_holding hbehind]
    cases (within stack).close? raw <;> rfl
  · rw [if_neg hheld] at htake
    exact close?_of_take htake raw

/-- The two names of a differential are joined. -/
theorem close?_joined (stack : List Bracket) (v : Text) (raw : List Symbol) :
    (within (.integral :: stack)).close? (.name ['d'] :: .name v :: raw)
      = ((within stack).close? raw).map (.differential v :: ·) := by
  have hopen : (within (.integral :: stack)).integrals.head?
      = some (within (.integral :: stack)).depth := integralsOf_head?_eq_iff.mpr rfl
  have hheld : (within (.integral :: stack)).take (.name ['d'])
      = some ([], holding (.integral :: stack)) := by
    rw [take_of_free rfl, takeFree]
    exact if_pos hopen
  have hjoined : (holding (.integral :: stack)).take (.name v)
      = some ([.differential v], within stack) :=
    take_name_of_held rfl v
  rw [close?_of_take hheld, close?_of_take hjoined]
  cases (within stack).close? raw <;> rfl

/-- **Closing the raw row of a balanced row gives the row back**, inside whatever brackets. -/
theorem close?_rawRow {stack last : List Bracket} {row : List Symbol}
    (hbrackets : bracketsFrom stack row = some last) (hkeep : keepsNames stack row = true)
    (hdepth : greatestDepth Symbol.weight (depthOf stack) row ≤ maxNesting) :
    (within stack).close? (rawRow row) = some row := by
  -- The state of the pass is the one inside the brackets that are open, so the induction is over the row for
  -- any brackets.
  induction row generalizing stack with
  | nil => rfl
  | cons symbol row ih =>
    obtain ⟨stack', hpass, hbrackets⟩ := Option.bind_eq_some_iff.mp hbrackets
    obtain ⟨hhere, hkeep⟩ := (keepsNames_cons hpass).mp hkeep
    obtain ⟨-, hdepth⟩ := greatestDepth_cons_le_iff.mp hdepth
    have hweight : depthOf stack + symbol.weight = depthOf stack' := depthOf_of_pass? hpass
    have hrest := ih hbrackets hkeep (hweight ▸ hdepth)
    cases hname : symbol.startsWithName with
    | false =>
      have hraw : symbol.raw = [symbol] := by cases symbol <;> first | rfl | cases hname
      have hopen : symbol = .openParen → depthOf stack + 1 ≤ maxNesting := by
        rintro rfl
        exact Int.le_trans (le_greatestDepth _ row) hdepth
      rw [rawRow_cons, hraw, List.singleton_append, close?_symbol hname hpass hopen, hrest]
      rfl
    | true =>
      cases symbol with
      | differential v =>
        match stack with
        | .integral :: _ =>
          cases hpass
          have hraw : rawRow (.differential v :: row) = .name ['d'] :: .name v :: rawRow row := rfl
          rw [hraw, close?_joined, hrest]
          rfl
      | name text =>
        cases hpass
        have hraw : rawRow (.name text :: row) = .name text :: rawRow row := rfl
        -- What a name passes for depends only on whether a name follows, and that is the same.
        have hstays : ¬ (stack.head? = some .integral
            ∧ (Symbol.name text).passesForDifferential (rawRow row) = true) := by
          rwa [Symbol.passesForDifferential, goesOn_startsWithName_rawRow]
        rw [hraw, close?_name hstays, hrest]
        rfl
      | _ => cases hname

end Closing

/-- **Closing the raw row of a balanced row gives the row back.** -/
theorem closeRow?_rawRow {row : List Symbol} (hbrackets : bracketsFrom [] row = some [])
    (hkeep : keepsNames [] row = true) (hdepth : greatestDepth Symbol.weight 0 row ≤ maxNesting) :
    closeRow? (rawRow row) = some row :=
  Closing.close?_rawRow hbrackets hkeep hdepth

end MathScribe
