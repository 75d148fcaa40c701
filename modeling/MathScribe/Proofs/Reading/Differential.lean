/-
The differential that closes an integral.

`Closes stack raw row last` says what the pass that closes integrals makes of a row of bare symbols: inside
the brackets `stack` it delivers the symbols `row`, and then the brackets `last` are open. It has one rule
for each thing that the pass can do, and it agrees with the pass on every row that comes out balanced
(`closes_of_closeRow?`). Unlike the pass it has no state in which a `d` is held back.

With the rules it is plain that what stands between parentheses is closed as it is alone, and that the
integrals outside stay open (`Closes.of_group`). So a quotient of formulas keeps its row wherever its text
stands (`Formula.quotient`).

The other result compares a row inside an integral with the same row alone. Alone its names stay names. Inside
the integral they do as well, up to the first one at the level of the integral that passes for its
differential; that one closes the integral, and behind it there is no difference any more
(`Closes.closedBy`). So a differential that is not meant can only be found at that place.
-/
import MathScribe.Proofs.Reading.Bracket
import MathScribe.Proofs.Reading.Group
import MathScribe.Proofs.Reading.Letters

set_option autoImplicit false

namespace MathScribe

/-! ## What the pass does -/

/-- **Closing a row inside brackets**, one rule for each thing that may happen to a symbol. -/
inductive Closes : List Bracket → List Symbol → List Symbol → List Bracket → Prop
  | nil {stack : List Bracket} : Closes stack [] [] stack
  /-- What is no name stays as it is. -/
  | symbol {stack stack' last : List Bracket} {symbol : Symbol} {raw row : List Symbol} :
      symbol.startsWithName = false → symbol.pass? stack = some stack' → Closes stack' raw row last →
      Closes stack (symbol :: raw) (symbol :: row) last
  /-- A `d` directly inside an integral joins with the name behind it. -/
  | joined {stack last : List Bracket} {v : Text} {raw row : List Symbol} :
      Closes stack raw row last →
      Closes (.integral :: stack) (.name ['d'] :: .name v :: raw) (.differential v :: row) last
  /-- A name of `d` and a letter directly inside an integral is its differential. -/
  | differential {stack last : List Bracket} {text v : Text} {raw row : List Symbol} :
      Nesting.differentialOf? text = some v → Closes stack raw row last →
      Closes (.integral :: stack) (.name text :: raw) (.differential v :: row) last
  /-- Any other name stays as it is. -/
  | name {stack last : List Bracket} {text : Text} {raw row : List Symbol} :
      ¬ (stack.head? = some .integral ∧ (Symbol.name text).passesForDifferential raw = true) →
      Closes stack raw row last → Closes stack (.name text :: raw) (.name text :: row) last

/-- A `d` passes for a differential exactly when a name follows. -/
theorem Symbol.passesForDifferential_d (behind : List Symbol) :
    (name ['d']).passesForDifferential behind = goesOn startsWithName behind := by
  simp [passesForDifferential, Nesting.differentialOf?]

/-- A name of `d` and a letter passes for a differential, whatever stands behind it. -/
theorem Symbol.passesForDifferential_of_differentialOf? {text v : Text}
    (h : Nesting.differentialOf? text = some v) (behind : List Symbol) :
    (name text).passesForDifferential behind = true := by
  simp [passesForDifferential, h]

/-- A name that passes for a differential does so in front of more symbols. -/
theorem Symbol.passesForDifferential_append {symbol : Symbol} {behind : List Symbol}
    (h : symbol.passesForDifferential behind = true) (more : List Symbol) :
    symbol.passesForDifferential (behind ++ more) = true := by
  cases behind with
  | nil =>
    cases symbol with
    | name text => simp_all [passesForDifferential, goesOn]
    | _ => cases h
  | cons next behind => exact h

/-- A bare `d` names no variable; the name behind it does. -/
theorem Nesting.differentialOf?_d : differentialOf? ['d'] = none :=
  rfl

namespace Closing

/-- A name that is neither `d` nor a `d` with a letter is delivered. -/
theorem not_passesForDifferential {text : Text} (hd : text ≠ ['d'])
    (hnone : Nesting.differentialOf? text = none) (behind : List Symbol) :
    (Symbol.name text).passesForDifferential behind = false := by
  simp [Symbol.passesForDifferential, hd, hnone]

/-- A name of `d` and a letter directly inside an integral is delivered as its differential. -/
theorem takeFree_differential {stack : List Bracket} {text v : Text}
    (h : Nesting.differentialOf? text = some v) :
    (within (.integral :: stack)).takeFree (.name text) = some ([.differential v], within stack) := by
  have hopen : (within (.integral :: stack)).integrals.head?
      = some (within (.integral :: stack)).depth := integralsOf_head?_eq_iff.mpr rfl
  have hd : text ≠ ['d'] := by
    rintro rfl
    rw [Nesting.differentialOf?_d] at h
    cases h
  unfold takeFree
  simp only [hopen, if_true, if_neg hd, h]
  rfl

/-- A name directly inside an integral is held or delivered as its differential, or no name passes for
one. -/
theorem takeFree_name_cases (stack : List Bracket) (text : Text) :
    (∃ outside, stack = .integral :: outside ∧ text = ['d']
      ∧ (within stack).takeFree (.name text) = some ([], holding stack))
    ∨ (∃ outside v, stack = .integral :: outside ∧ Nesting.differentialOf? text = some v
      ∧ (within stack).takeFree (.name text) = some ([.differential v], within outside))
    ∨ ((stack.head? = some .integral →
        ∀ behind, (Symbol.name text).passesForDifferential behind = false)
      ∧ (within stack).takeFree (.name text) = some ([.name text], within stack)) := by
  by_cases hinside : stack.head? = some .integral
  · obtain ⟨outside, rfl⟩ := List.head?_eq_some_iff.mp hinside
    cases hv : Nesting.differentialOf? text with
    | some v => exact .inr (.inl ⟨outside, v, rfl, rfl, takeFree_differential hv⟩)
    | none =>
      have htake := @takeFree_name (.integral :: outside) text []
        (by simp [Symbol.passesForDifferential, hv, goesOn])
      by_cases hd : text = ['d']
      · rw [if_pos ⟨rfl, hd⟩] at htake
        exact .inl ⟨outside, rfl, hd, htake⟩
      · rw [if_neg fun h => hd h.2] at htake
        exact .inr (.inr ⟨fun _ => not_passesForDifferential hd hv, htake⟩)
  · have htake := @takeFree_name stack text [] fun h => hinside h.1
    rw [if_neg fun h => hinside h.1] at htake
    exact .inr (.inr ⟨fun h => absurd h hinside, htake⟩)

/-- What is no name is delivered as it is, and a parenthesis only where it is not one level too many. -/
theorem of_takeFree {state next : Closing} {symbol : Symbol} {out : List Symbol}
    (hname : symbol.startsWithName = false) (h : state.takeFree symbol = some (out, next)) :
    out = [symbol] ∧ (symbol = .openParen → state.depth + 1 ≤ maxNesting) := by
  cases symbol with
  | name | differential => cases hname
  | openParen =>
    simp only [takeFree] at h
    split at h
    · cases h
    · next hle =>
      cases h
      exact ⟨rfl, fun _ => Int.not_lt.mp hle⟩
  | _ =>
    cases h
    exact ⟨rfl, fun hopen => by cases hopen⟩

/-- The symbol at the front of a row that is closed, and the row behind it. -/
theorem close?_cons_eq_some {state : Closing} {symbol : Symbol} {raw row : List Symbol}
    (h : state.close? (symbol :: raw) = some row) :
    ∃ out next more, state.take symbol = some (out, next) ∧ next.close? raw = some more
      ∧ row = out ++ more := by
  rw [close?_cons] at h
  obtain ⟨⟨out, next⟩, htake, hmore⟩ := Option.bind_eq_some_iff.mp h
  obtain ⟨more, hrest, rfl⟩ := Option.map_eq_some_iff.mp hmore
  exact ⟨out, next, more, htake, hrest, rfl⟩

/-- The rules give what the pass makes of a row, wherever that comes out balanced. -/
def ClosesWithin (raw : List Symbol) : Prop :=
  ∀ stack last row, (within stack).close? raw = some row → bracketsFrom stack row = some last →
    Closes stack raw row last

/-- The rules give what the pass makes of a row behind a `d` that is held. Nothing is held where no integral is
open. -/
def ClosesHolding (raw : List Symbol) : Prop :=
  ∀ stack last row, (holding (.integral :: stack)).close? raw = some row →
    bracketsFrom (.integral :: stack) row = some last →
    Closes (.integral :: stack) (.name ['d'] :: raw) row last

/-- With no `d` held, a name that is a `d` with a letter may become a differential and a `d` alone may be held;
anything else comes out as it is. -/
theorem ClosesWithin.cons {symbol : Symbol} {raw : List Symbol} (hsymbol : ∀ v, symbol ≠ .differential v)
    (hwithin : ClosesWithin raw) (hholding : ClosesHolding raw) : ClosesWithin (symbol :: raw) := by
  intro stack last row hrow hlast
  obtain ⟨out, next, more, htake, hmore, rfl⟩ := close?_cons_eq_some hrow
  rw [take_of_free rfl] at htake
  cases hname : symbol.startsWithName with
  | false =>
    obtain ⟨rfl, hopen⟩ := of_takeFree hname htake
    obtain ⟨stack', hpass, hlast⟩ := Option.bind_eq_some_iff.mp hlast
    rw [takeFree_within hname hpass hopen] at htake
    cases htake
    exact .symbol hname hpass (hwithin _ _ _ hmore hlast)
  | true =>
    obtain ⟨text, rfl⟩ : ∃ text, symbol = .name text := by
      cases symbol with
      | name text => exact ⟨text, rfl⟩
      | differential v => exact absurd rfl (hsymbol v)
      | _ => cases hname
    rcases takeFree_name_cases stack text with
      ⟨outside, rfl, rfl, hheld⟩ | ⟨outside, v, rfl, hv, hjoined⟩ | ⟨hkeep, hplain⟩
    -- The `d` waits for the symbol behind it.
    · rw [hheld] at htake
      cases htake
      exact hholding _ _ _ hmore hlast
    · rw [hjoined] at htake
      cases htake
      exact .differential hv (hwithin _ _ _ hmore hlast)
    · rw [hplain] at htake
      cases htake
      have hstays : ¬ ((stack.head? = some .integral)
          ∧ (Symbol.name text).passesForDifferential raw = true) :=
        fun hpasses => Bool.false_ne_true ((hkeep hpasses.1 raw).symm.trans hpasses.2)
      exact .name hstays (hwithin _ _ _ hmore hlast)

/-- A name joins with the `d` that is held; in front of any other symbol the `d` comes out by itself. -/
theorem ClosesHolding.cons {symbol : Symbol} {raw : List Symbol} (hsymbol : ∀ v, symbol ≠ .differential v)
    (hwithin : ClosesWithin raw) (hboth : ClosesWithin (symbol :: raw)) : ClosesHolding (symbol :: raw) := by
  intro stack last row hrow hlast
  by_cases hname : ∃ v, symbol = .name v
  · obtain ⟨v, rfl⟩ := hname
    obtain ⟨out, next, more, htake, hmore, rfl⟩ := close?_cons_eq_some hrow
    rw [take_name_of_held rfl] at htake
    cases htake
    exact .joined (hwithin _ _ _ hmore hlast)
  · have hbehind : goesOn Symbol.startsWithName (symbol :: raw) = false := by
      cases symbol with
      | name v => exact absurd ⟨v, rfl⟩ hname
      | differential v => exact absurd rfl (hsymbol v)
      | _ => rfl
    rw [close?_holding hbehind] at hrow
    obtain ⟨more, hmore, rfl⟩ := Option.map_eq_some_iff.mp hrow
    refine .name ?_ (hboth _ _ _ hmore hlast)
    simp [Symbol.passesForDifferential_d, hbehind]

/-- **What the pass makes of a row** that comes out balanced, and of one behind a `d` that is held. -/
theorem closes_and_holding {raw : List Symbol} (hraw : ∀ symbol ∈ raw, ∀ v, symbol ≠ .differential v) :
    ClosesWithin raw ∧ ClosesHolding raw := by
  -- Both at once, since a `d` may be held in front of every symbol.
  induction raw with
  | nil =>
    constructor
    · intro stack last row hrow hlast
      cases hrow
      cases hlast
      exact .nil
    · intro stack last row hrow hlast
      cases hrow
      cases hlast
      exact .name (by simp [Symbol.passesForDifferential_d, goesOn]) .nil
  | cons symbol raw ih =>
    obtain ⟨hsymbol, hrest⟩ := List.forall_mem_cons.mp hraw
    obtain ⟨hwithin, hholding⟩ := ih hrest
    have hboth := hwithin.cons hsymbol hholding
    exact ⟨hboth, .cons hsymbol hwithin hboth⟩

end Closing

/-- **The rules are those of the pass** on every row that comes out balanced. -/
theorem closes_of_closeRow? {raw row : List Symbol} {last : List Bracket}
    (hraw : ∀ symbol ∈ raw, ∀ v, symbol ≠ .differential v) (h : closeRow? raw = some row)
    (hlast : bracketsFrom [] row = some last) : Closes [] raw row last :=
  (Closing.closes_and_holding hraw).1 [] last row h hlast

/-! ## One row at most, and rows one behind the other -/

/-- A bracket that a symbol closes is on top, so what lies deeper does not matter. -/
theorem Symbol.pass?_append {symbol : Symbol} {stack stack' : List Bracket}
    (h : symbol.pass? stack = some stack') (more : List Bracket) :
    symbol.pass? (stack ++ more) = some (stack' ++ more) := by
  cases symbol with
  | closeParen =>
    match stack with
    | .paren :: _ => cases h; rfl
  | differential v =>
    match stack with
    | .integral :: _ => cases h; rfl
  | _ => cases h; rfl

namespace Closes

variable {stack middle last last' : List Bracket} {raw raw' row row' out : List Symbol}

/-- A row comes out in one way. -/
theorem unique (h : Closes stack raw row last) (h' : Closes stack raw row' last') :
    row = row' ∧ last = last' := by
  -- Which rule applies is decided by the first symbol, by what is open and by the name behind.
  induction h generalizing row' with
  | nil =>
    cases h'
    exact ⟨rfl, rfl⟩
  | symbol hname hpass _ ih =>
    cases h' with
    | symbol _ hpass' hrest =>
      cases hpass.symm.trans hpass'
      obtain ⟨rfl, rfl⟩ := ih hrest
      exact ⟨rfl, rfl⟩
    | joined | differential | name => cases hname
  | joined _ ih =>
    cases h' with
    | symbol hname => cases hname
    | joined hrest =>
      obtain ⟨rfl, rfl⟩ := ih hrest
      exact ⟨rfl, rfl⟩
    | differential hv => cases hv
    | name hkeep => exact absurd ⟨rfl, Symbol.passesForDifferential_d _⟩ hkeep
  | differential hv _ ih =>
    cases h' with
    | symbol hname => cases hname
    | joined => cases hv
    | differential hv' hrest =>
      cases hv.symm.trans hv'
      obtain ⟨rfl, rfl⟩ := ih hrest
      exact ⟨rfl, rfl⟩
    | name hkeep =>
      exact absurd ⟨rfl, Symbol.passesForDifferential_of_differentialOf? hv _⟩ hkeep
  | name hkeep _ ih =>
    cases h' with
    | symbol hname => cases hname
    | joined => exact absurd ⟨rfl, Symbol.passesForDifferential_d _⟩ hkeep
    | differential hv =>
      exact absurd ⟨rfl, Symbol.passesForDifferential_of_differentialOf? hv _⟩ hkeep
    | name _ hrest =>
      obtain ⟨rfl, rfl⟩ := ih hrest
      exact ⟨rfl, rfl⟩

/-- A row starts with a name, or with a differential, exactly when it did before. -/
theorem goesOn_startsWithName (h : Closes stack raw row last) :
    goesOn Symbol.startsWithName row = goesOn Symbol.startsWithName raw := by
  cases h <;> rfl

/-- **Rows one behind the other** are closed one behind the other. A `d` at the end of the first would
join with the second only directly inside an integral. -/
theorem append (h : Closes stack raw row middle) (h' : Closes middle raw' row' last)
    (hmiddle : middle.head? ≠ some .integral) : Closes stack (raw ++ raw') (row ++ row') last := by
  induction h with
  | nil => exact h'
  | symbol hname hpass _ ih => exact .symbol hname hpass (ih h' hmiddle)
  | joined _ ih => exact .joined (ih h' hmiddle)
  | differential hv _ ih => exact .differential hv (ih h' hmiddle)
  -- Only the last name of the first row sees the second row, and no integral is open behind it.
  | @name stack _ text raw _ hkeep hrest ih =>
    refine .name ?_ (ih h' hmiddle)
    cases hrest with
    | nil => exact fun h => hmiddle h.1
    | _ => exact hkeep

/-- **Inside parentheses** a row is closed as it is alone, whatever is open around them. -/
theorem inParens (h : Closes stack raw row last) (around : List Bracket) :
    Closes (stack ++ .paren :: around) raw row (last ++ .paren :: around) := by
  induction h with
  | nil => exact .nil
  | symbol hname hpass _ ih => exact .symbol hname (Symbol.pass?_append hpass _) ih
  | joined _ ih => exact .joined ih
  | differential hv _ ih => exact .differential hv ih
  -- A parenthesis is no integral, so a name that stays alone stays here too.
  | @name stack _ text raw _ hkeep _ ih =>
    refine .name ?_ ih
    cases stack with
    | nil => exact fun h => nomatch h.1
    | cons bracket stack => exact hkeep

/-- A row in front of a symbol that is no name is closed first: no `d` at its end joins with the symbol. -/
theorem split {symbol : Symbol} (hname : symbol.startsWithName = false)
    (h : Closes stack (raw ++ symbol :: raw') out last) :
    ∃ row middle row', out = row ++ row' ∧ Closes stack raw row middle
      ∧ Closes middle (symbol :: raw') row' last := by
  -- The induction runs over the pass on the whole row, and the cut moves along with it. No rule spans the cut,
  -- since the symbol behind it is no name.
  generalize hwhole : raw ++ symbol :: raw' = whole at h
  induction h generalizing raw with
  | nil => simp at hwhole
  | symbol hfirst hpass hrest ih =>
    cases raw with
    | nil =>
      cases hwhole
      exact ⟨[], _, _, rfl, .nil, .symbol hfirst hpass hrest⟩
    | cons first raw =>
      cases hwhole
      obtain ⟨row, middle, row', rfl, hfront, hback⟩ := ih rfl
      exact ⟨_, middle, row', rfl, .symbol hfirst hpass hfront, hback⟩
  | joined hrest ih =>
    match raw with
    | [] | [_] =>
      cases hwhole
      cases hname
    | first :: second :: raw =>
      cases hwhole
      obtain ⟨row, middle, row', rfl, hfront, hback⟩ := ih rfl
      exact ⟨_, middle, row', rfl, .joined hfront, hback⟩
  | differential hv hrest ih =>
    cases raw with
    | nil =>
      cases hwhole
      cases hname
    | cons first raw =>
      cases hwhole
      obtain ⟨row, middle, row', rfl, hfront, hback⟩ := ih rfl
      exact ⟨_, middle, row', rfl, .differential hv hfront, hback⟩
  | name hkeep hrest ih =>
    cases raw with
    | nil =>
      cases hwhole
      cases hname
    | cons first raw =>
      cases hwhole
      obtain ⟨row, middle, row', rfl, hfront, hback⟩ := ih rfl
      have hstays := fun hpasses : _ ∧ _ =>
        hkeep ⟨hpasses.1, Symbol.passesForDifferential_append hpasses.2 _⟩
      exact ⟨_, middle, row', rfl, .name hstays hfront, hback⟩

/-- **A group passes through.** What stands between parentheses comes out as it does alone, and behind the
group the same brackets are open as in front of it. -/
theorem of_group (hinside : Closes [] raw row [])
    (h : Closes stack (.openParen :: (raw ++ Symbol.closeParen :: raw')) out last) :
    ∃ out', out = .openParen :: (row ++ Symbol.closeParen :: out') ∧ Closes stack raw' out' last := by
  cases h with
  | symbol _ hpass hrest =>
    cases hpass
    obtain ⟨inside, middle, behind, rfl, hraw, hbehind⟩ := hrest.split rfl
    -- The row comes out in one way, and the parenthesis in front of it is still open behind it.
    obtain ⟨rfl, rfl⟩ := hraw.unique (hinside.inParens stack)
    cases hbehind with
    | symbol _ hpass hbehind =>
      cases hpass
      exact ⟨_, rfl, hbehind⟩

end Closes

/-! ## Formulas -/

/-- No bare symbol is a differential. -/
theorem ne_differential_of_symbolsOf {text : Text} {raw : List Symbol} (h : symbolsOf text = some raw) :
    ∀ symbol ∈ raw, ∀ v, symbol ≠ .differential v := by
  refine symbolsOf_induction (motive := fun _ raw => ∀ symbol ∈ raw, ∀ v, symbol ≠ .differential v)
    (List.forall_mem_nil _) (fun _ _ _ _ _ ih => ih) ?_ h
  intro c more left symbol raw _ hread _ _ ih
  refine List.forall_mem_cons.mpr ⟨?_, ih⟩
  rintro v rfl
  exact Symbol.read?_ne_differential hread

/-- The bare symbols of a formula, and how they are closed. -/
theorem Formula.closes {text : Text} {row : List Symbol} {tree : Expr} (h : Formula text row tree) :
    ∃ raw, symbolsOf text = some raw ∧ Closes [] raw row [] := by
  obtain ⟨raw, hraw, hclosed⟩ := Option.bind_eq_some_iff.mp h.closed
  exact ⟨raw, hraw, closes_of_closeRow? (ne_differential_of_symbolsOf hraw) hclosed (h.reads.brackets [])⟩

/-- **A quotient of formulas keeps its row** wherever its text stands. -/
theorem Formula.quotient {before numerator denominator behind : Text}
    {row numeratorRow denominatorRow : List Symbol} {a b tree : Expr}
    (hn : Formula numerator numeratorRow a) (hd : Formula denominator denominatorRow b)
    (h : Formula (before ++ '(' :: (numerator ++ ')' :: '/' :: '(' ::
      (denominator ++ ')' :: behind))) row tree) :
    ∃ front back, row = front ++ quotientRow numeratorRow denominatorRow ++ back := by
  obtain ⟨rawN, hrawN, hclosesN⟩ := hn.closes
  obtain ⟨rawD, hrawD, hclosesD⟩ := hd.closes
  obtain ⟨raw, hraw, hcloses⟩ := h.closes
  -- The symbols: what stands in front, the two groups around the slash, and what stands behind.
  rw [symbolsOf, symbolsFrom_append_seam (by decide) _ (Nat.zero_le _)] at hraw
  obtain ⟨first, -, hraw⟩ := Option.bind_eq_some_iff.mp hraw
  obtain ⟨rest, hrest, rfl⟩ := Option.map_eq_some_iff.mp hraw
  obtain ⟨rawN', rest', hrawN', hrest', rfl⟩ := symbolsOf_group hrest
  obtain ⟨rest'', hrest'', rfl⟩ := Option.map_eq_some_iff.mp (symbolsOf_slash _ ▸ hrest')
  obtain ⟨rawD', second, hrawD', -, rfl⟩ := symbolsOf_group hrest''
  cases hrawN.symm.trans hrawN'
  cases hrawD.symm.trans hrawD'
  -- The groups come out as they do alone, one after the other.
  simp only [List.cons_append, List.append_assoc, List.nil_append] at hcloses
  obtain ⟨front, middle, rest, rfl, -, hgroupN⟩ := hcloses.split rfl
  obtain ⟨rest, rfl, hslash⟩ := hclosesN.of_group hgroupN
  cases hslash with
  | symbol _ hpass hgroupD =>
    cases hpass
    obtain ⟨back, rfl, -⟩ := hclosesD.of_group hgroupD
    exact ⟨front, back, by simp [quotientRow]⟩

/-! ## The first name that passes for the differential -/

/-- The row on the right is the one on the left, but for one name at the level of the integral around it:
that name closes the integral, together with the name behind it or alone. -/
inductive ClosedBy (stack : List Bracket) : List Symbol → List Symbol → Prop
  | joined {front behind : List Symbol} {v : Text} :
      bracketsFrom stack front = some [] →
      ClosedBy stack (front ++ Symbol.name ['d'] :: .name v :: behind) (front ++ Symbol.differential v :: behind)
  | alone {front behind : List Symbol} {text v : Text} :
      bracketsFrom stack front = some [] → front.getLast? ≠ some (.name ['d']) →
      Nesting.differentialOf? text = some v →
      ClosedBy stack (front ++ Symbol.name text :: behind) (front ++ Symbol.differential v :: behind)

/-- A symbol in front changes nothing. A `d` that stays a name stands in front of no other name. -/
theorem ClosedBy.cons {stack stack' : List Bracket} {symbol : Symbol} {row out : List Symbol}
    (h : ClosedBy stack' row out) (hpass : symbol.pass? stack = some stack')
    (hd : stack' = [] → symbol = .name ['d'] → goesOn Symbol.startsWithName row = false) :
    ClosedBy stack (symbol :: row) (symbol :: out) := by
  have hfront : ∀ front, bracketsFrom stack' front = some [] →
      bracketsFrom stack (symbol :: front) = some [] := by
    intro front hfront
    rw [bracketsFrom, hpass, Option.bind_some, hfront]
  cases h with
  | joined hbrackets => exact .joined (hfront _ hbrackets)
  | @alone front behind text v hbrackets hlast hv =>
    refine ClosedBy.alone (hfront _ hbrackets) ?_ hv
    cases front with
    | nil =>
      cases hbrackets
      intro hsymbol
      exact Bool.noConfusion (hd rfl (Option.some.inj hsymbol))
    | cons first front => exact hlast

/-- **Inside an integral that is closed at the end** a row comes out as it does alone, but for the first
name that passes for the differential of the integral. -/
theorem Closes.closedBy {stack last : List Bracket} {raw row out : List Symbol}
    (h : Closes stack raw row last) (hout : Closes (stack ++ [Bracket.integral]) raw out []) :
    ClosedBy stack row out := by
  -- The two rows are closed alike until a name directly inside the outer integral passes for its differential,
  -- which happens in the last two cases. The row inside is closed at the end, so that has to happen.
  induction h generalizing out with
  | @nil stack =>
    generalize hinside : stack ++ [Bracket.integral] = inside at hout
    cases hout
    simp at hinside
  | @symbol stack stack' _ _ _ _ hname hpass _ ih =>
    generalize hinside : stack ++ [Bracket.integral] = inside at hout
    cases hout with
    | symbol _ hpass' hrest =>
      rw [← hinside, Symbol.pass?_append hpass] at hpass'
      cases hpass'
      refine (ih hrest).cons hpass ?_
      rintro - rfl
      cases hname
    | joined | differential | name => cases hname
  | joined _ ih =>
    cases hout with
    | symbol hname => cases hname
    | joined hrest => exact (ih hrest).cons rfl nofun
    | differential hv => cases hv
    | name hkeep => exact absurd ⟨rfl, Symbol.passesForDifferential_d _⟩ hkeep
  | differential hv _ ih =>
    cases hout with
    | symbol hname => cases hname
    | joined => cases hv
    | differential hv' hrest =>
      cases hv.symm.trans hv'
      exact (ih hrest).cons rfl nofun
    | name hkeep =>
      exact absurd ⟨rfl, Symbol.passesForDifferential_of_differentialOf? hv _⟩ hkeep
  | @name stack _ text raw row hkeep hrest ih =>
    generalize hinside : stack ++ [Bracket.integral] = inside at hout
    cases hout with
    | symbol hname => cases hname
    | @joined outside _ v raw out' hout' =>
      cases stack with
      | nil =>
        -- The name is at the level of the integral, and behind it the two rows are closed alike.
        cases hinside
        cases hrest with
        | symbol hname => cases hname
        | name _ hrest =>
          obtain ⟨rfl, -⟩ := hrest.unique hout'
          exact @ClosedBy.joined _ [] _ _ rfl
      | cons bracket stack =>
        cases hinside
        exact absurd ⟨rfl, Symbol.passesForDifferential_d _⟩ hkeep
    | differential hv hout' =>
      cases stack with
      | nil =>
        cases hinside
        obtain ⟨rfl, -⟩ := hrest.unique hout'
        exact @ClosedBy.alone _ [] _ _ _ rfl nofun hv
      | cons bracket stack =>
        cases hinside
        exact absurd ⟨rfl, Symbol.passesForDifferential_of_differentialOf? hv _⟩ hkeep
    | name hkeep' hout' =>
      subst hinside
      refine (ih hout').cons rfl ?_
      rintro rfl hd
      cases hd
      have hnone := not_and.mp hkeep' rfl
      rwa [Symbol.passesForDifferential_d, ← hrest.goesOn_startsWithName, Bool.not_eq_true] at hnone

/-- The places where a row with two symbols behind it can be cut in front of a symbol: in front of the last
two, between them, or within the row. -/
theorem append_pair_cases {row front cut : List Symbol} {first second : Symbol}
    (h : row ++ [first, second] = front ++ cut) (hcut : cut ≠ []) :
    (front = row ∧ cut = [first, second]) ∨ (front = row ++ [first] ∧ cut = [second])
      ∨ ∃ more, more ≠ [] ∧ row = front ++ more ∧ cut = more ++ [first, second] := by
  rcases List.append_eq_append_iff.mp h with ⟨more, rfl, hmore⟩ | ⟨more, rfl, hmore⟩
  · match more with
    | [] => exact .inl ⟨by simp, hmore.symm⟩
    | [_] =>
      cases hmore
      exact .inr (.inl ⟨rfl, rfl⟩)
    | _ :: _ :: more =>
      have hlength := congrArg List.length hmore
      have hpositive := List.length_pos_iff.mpr hcut
      simp only [List.length_append, List.length_cons, List.length_nil] at hlength
      omega
  · cases more with
    | nil => exact .inl ⟨by simp, hmore⟩
    | cons symbol more => exact .inr (.inr ⟨symbol :: more, List.cons_ne_nil _ _, rfl, hmore⟩)

/-- **A row with a differential behind it**, inside an integral that is closed at the end: the integral is
closed by that differential, or by a name of the row itself. -/
theorem ClosedBy.cases_last {row out : List Symbol} {v : Text}
    (h : ClosedBy [] (row ++ [Symbol.name ['d'], .name v]) out) :
    out = row ++ [Symbol.differential v]
      ∨ ∃ front more w behind, bracketsFrom [] front = some [] ∧ row = front ++ more ∧ more ≠ []
        ∧ out = front ++ Symbol.differential w :: behind ∧ behind ≠ [] := by
  generalize hwhole : row ++ [Symbol.name ['d'], .name v] = whole at h
  cases h with
  | @joined front behind w hfront =>
    rcases append_pair_cases hwhole (List.cons_ne_nil _ _) with
      ⟨rfl, hcut⟩ | ⟨-, hcut⟩ | ⟨more, hne, rfl, hcut⟩
    · cases hcut
      exact .inl rfl
    · cases hcut
    · refine .inr ⟨front, more, w, behind, hfront, rfl, hne, rfl, ?_⟩
      rintro rfl
      exact hne (by simpa using congrArg List.length hcut)
  | @alone front behind text w hfront hlast hw =>
    rcases append_pair_cases hwhole (List.cons_ne_nil _ _) with
      ⟨-, hcut⟩ | ⟨rfl, -⟩ | ⟨more, hne, rfl, hcut⟩
    · -- A `d` alone is no differential.
      cases hcut
      cases hw
    · -- The variable behind a `d` would have been joined with it.
      simp at hlast
    · refine .inr ⟨front, more, w, behind, hfront, rfl, hne, rfl, ?_⟩
      rintro rfl
      have hlength := congrArg List.length hcut
      simp at hlength

end MathScribe
