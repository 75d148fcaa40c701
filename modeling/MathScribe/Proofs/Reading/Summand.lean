/-
Where a term begins.

A quotient `(A)/(B)` has no parentheses of its own, so whether it is one operand depends on where it
stands. It is one exactly when the reader looks for a term where it starts: then `(A)` is the first
factor, and the slash divides it and nothing in front of it. This file says which places these are
(`TermAt`) and shows that the quotient is a part of the tree there (`TermAt.quotient_mem_parts`).

The places are described by the row alone. Behind an opening parenthesis, a comma, a relation or a plus
a summand begins, whatever stands further in front; behind a minus it does when a summand ends there,
and a sign stands there otherwise. Only integrals and big operators have to be followed further, over
their bounds and scripts.

That the reader does look for a term at these places is one induction over the course of the reading:
whichever phrase takes such a symbol goes on with a term behind it (`Reads.entries`).
-/
import MathScribe.Proofs.Reading.Group

set_option autoImplicit false

namespace MathScribe

/-! ## The parts of a tree -/

namespace Expr

mutual

/-- The tree and all trees below its root. -/
def parts : Expr → List Expr
  | number digits => [number digits]
  | name text => [name text]
  | verbatim text => [verbatim text]
  | unary op operand => unary op operand :: operand.parts
  | binary op left right implicit => binary op left right implicit :: (left.parts ++ right.parts)
  | call function arguments => call function arguments :: partsAll arguments

/-- The parts of a row of trees. -/
def partsAll : List Expr → List Expr
  | [] => []
  | e :: es => e.parts ++ partsAll es

end

/-- A tree is a part of itself. -/
@[simp] theorem mem_parts_self (e : Expr) : e ∈ e.parts := by
  cases e <;> simp [parts]

/-- A part of a row of trees is a part of one of them. -/
theorem mem_partsAll {part : Expr} {es : List Expr} :
    part ∈ partsAll es ↔ ∃ e ∈ es, part ∈ e.parts := by
  induction es with
  | nil => simp [partsAll]
  | cons e es ih => simp [partsAll, ih]

mutual

/-- The parts of a part are parts. -/
theorem parts_subset : (whole : Expr) → ∀ part ∈ whole.parts, part.parts ⊆ whole.parts
  | number _ | name _ | verbatim _ => by
    intro part hpart
    rw [parts, List.mem_singleton] at hpart
    rw [hpart]
    exact fun _ h => h
  | unary op operand => by
    intro part hpart
    rcases List.mem_cons.mp hpart with rfl | hbelow
    · exact fun _ h => h
    · exact fun _ h => List.mem_cons_of_mem _ (parts_subset operand part hbelow h)
  | binary op left right implicit => by
    intro part hpart
    rcases List.mem_cons.mp hpart with rfl | hbelow
    · exact fun _ h => h
    · refine fun _ h => List.mem_cons_of_mem _ ?_
      rcases List.mem_append.mp hbelow with hl | hr
      · exact List.mem_append_left _ (parts_subset left part hl h)
      · exact List.mem_append_right _ (parts_subset right part hr h)
  | call function arguments => by
    intro part hpart
    rcases List.mem_cons.mp hpart with rfl | hbelow
    · exact fun _ h => h
    · exact fun _ h => List.mem_cons_of_mem _ (partsAll_subset arguments part hbelow h)

/-- The parts of a part of a row of trees are parts of the row. -/
theorem partsAll_subset : (es : List Expr) → ∀ part ∈ partsAll es, part.parts ⊆ partsAll es
  | [] => by
    intro part hpart
    cases hpart
  | e :: es => by
    intro part hpart
    rcases List.mem_append.mp hpart with hfirst | hrest
    · exact fun _ h => List.mem_append_left _ (parts_subset e part hfirst h)
    · exact fun _ h => List.mem_append_right _ (partsAll_subset es part hrest h)

end

/-- A part of a part is a part. -/
theorem mem_parts_trans {part middle whole : Expr} (h₁ : part ∈ middle.parts)
    (h₂ : middle ∈ whole.parts) : part ∈ whole.parts :=
  parts_subset whole middle h₂ h₁

theorem left_mem_parts (op : Operator) (left right : Expr) (implicit : Bool) :
    left ∈ (binary op left right implicit).parts := by
  simp [parts]

theorem right_mem_parts (op : Operator) (left right : Expr) (implicit : Bool) :
    right ∈ (binary op left right implicit).parts := by
  simp [parts]

theorem operand_mem_parts (op : Operator) (operand : Expr) :
    operand ∈ (unary op operand).parts := by
  simp [parts]

theorem argument_mem_parts {function : Text} {arguments : List Expr} {argument : Expr}
    (h : argument ∈ arguments) : argument ∈ (call function arguments).parts :=
  List.mem_cons_of_mem _ (mem_partsAll.mpr ⟨argument, h, mem_parts_self argument⟩)

end Expr

/-- The trees that a phrase goes on with. -/
def Phrase.carried : Phrase → List Expr
  | moreRelation left | moreAdditive left | moreTerm left => [left]
  | bigOperator head => [head]
  | morePowered base => [base]
  | arguments _ done => done
  | _ => []

/-- A tree that a phrase goes on with is a part of the tree that is read. -/
theorem Reads.carried_mem_parts {phrase : Phrase} {input rest : List Symbol} {tree : Expr}
    (h : Reads phrase input tree rest) : ∀ e ∈ phrase.carried, e ∈ tree.parts := by
  induction h with
  | relationNext _ _ _ ih₂ | additiveNext _ _ _ _ ih₂ | termNext _ _ _ _ ih₂
  | termBeside _ _ _ _ ih₂ | bigSubscript _ _ _ ih₂ | bigPower _ _ _ ih₂ | subscript _ _ _ ih₂ =>
    intro e he
    obtain rfl := List.mem_singleton.mp he
    exact Expr.mem_parts_trans (Expr.left_mem_parts ..) (ih₂ _ List.mem_cons_self)
  | relationEnd | additiveEnd | termEnd | bigAlone | poweredEnd =>
    intro e he
    obtain rfl := List.mem_singleton.mp he
    exact Expr.mem_parts_self _
  | bigTerm | power =>
    intro e he
    obtain rfl := List.mem_singleton.mp he
    exact Expr.left_mem_parts ..
  | argumentsNext _ _ _ ih₂ =>
    intro e he
    exact ih₂ e (List.mem_append_left _ he)
  | argumentsEnd =>
    intro e he
    exact Expr.argument_mem_parts (List.mem_append_left _ he)
  | _ => exact nofun

/-! ## The first symbol of a phrase -/

/-- The symbols that a phrase can start with, where it takes a symbol at all. -/
def Phrase.starts? : Phrase → Option (Symbol → Bool)
  | relation | additive | term | factor | arguments .. | bound => some Symbol.startsTerm
  | powered | primary => some Symbol.startsPowered
  | operand | atom => some Symbol.startsAtom
  | _ => none

/-- An atom may carry scripts. -/
theorem Symbol.startsPowered_of_startsAtom {symbol : Symbol} (h : symbol.startsAtom = true) :
    symbol.startsPowered = true := by
  cases symbol <;> first | rfl | exact h

/-- What may carry scripts may start a term. -/
theorem Symbol.startsTerm_of_startsPowered {symbol : Symbol} (h : symbol.startsPowered = true) :
    symbol.startsTerm = true := by
  cases symbol <;> first | rfl | exact h

/-- A row that goes on with one kind of symbols goes on with every wider kind. -/
theorem goesOn_mono {kind wider : Symbol → Bool}
    (hwider : ∀ {symbol : Symbol}, kind symbol = true → wider symbol = true) {row : List Symbol}
    (h : goesOn kind row = true) : goesOn wider row = true := by
  cases row with
  | nil => cases h
  | cons symbol row => exact hwider h

/-- A row that is not empty goes on alike whatever stands behind it. -/
theorem goesOn_append {row : List Symbol} (h : row ≠ []) (kind : Symbol → Bool) (k : List Symbol) :
    goesOn kind (row ++ k) = goesOn kind row := by
  obtain ⟨symbol, row, rfl⟩ := List.exists_cons_of_ne_nil h
  rfl

/-- A row that goes on with one kind of symbols does not go on with another. -/
theorem goesOn_apart {kind other : Symbol → Bool}
    (hapart : ∀ {symbol : Symbol}, kind symbol = true → other symbol = false) {row : List Symbol}
    (h : goesOn kind row = true) : goesOn other row = false := by
  cases row with
  | nil => cases h
  | cons symbol row => exact hapart h

/-- What a term starts with closes no group and marks no script. -/
theorem not_goesOn_of_startsTerm {row : List Symbol} (h : goesOn Symbol.startsTerm row = true) :
    goesOn Symbol.isClose row = false ∧ goesOn Symbol.isScriptMark row = false := by
  refine ⟨goesOn_apart ?_ h, goesOn_apart ?_ h⟩
  all_goals
    intro symbol hsymbol
    cases symbol <;> first | rfl | cases hsymbol

/-- What is read starts with a symbol that the phrase can start with. -/
theorem Reads.starts {phrase : Phrase} {input rest : List Symbol} {tree : Expr}
    (h : Reads phrase input tree rest) :
    ∀ kind, phrase.starts? = some kind → goesOn kind input = true := by
  -- A phrase starts with its first part or with a symbol of its own; the phrases that go on with a left side
  -- claim nothing.
  induction h with
  | relation _ _ ih₁ _ | additive _ _ ih₁ _ | term _ _ ih₁ _ | powered _ _ ih₁ _
  | operand _ _ ih₁ _ =>
    intro kind hkind
    cases hkind
    exact ih₁ _ rfl
  | @sign symbol _ _ _ _ h =>
    intro kind hkind
    cases hkind
    cases symbol <;> first | rfl | cases h
  | bigOperator | group | number | name | functionOperand | functionAlone | rootAlone | rootOne
  | rootTwo | integral | integralLower | integralUpper | boundMinus =>
    intro kind hkind
    cases hkind
    rfl
  | factor _ _ _ ih | bound _ _ ih =>
    intro kind hkind
    cases hkind
    exact goesOn_mono Symbol.startsTerm_of_startsPowered (ih _ rfl)
  | primary _ _ ih =>
    intro kind hkind
    cases hkind
    exact goesOn_mono Symbol.startsPowered_of_startsAtom (ih _ rfl)
  | @callEmpty symbol _ _ h | @call symbol _ _ _ _ h =>
    intro kind hkind
    cases hkind
    cases symbol <;> first | rfl | cases h
  | argumentsNext _ _ ih₁ _ | argumentsEnd _ ih₁ =>
    intro kind hkind
    cases hkind
    exact ih₁ _ rfl
  | _ => exact nofun

/-- A row that is read has a symbol. -/
theorem Reads.ne_nil {phrase : Phrase} {input rest : List Symbol} {tree : Expr}
    (h : Reads phrase input tree rest) (hphrase : phrase.takesSymbol = true) : input ≠ [] := by
  rintro rfl
  exact absurd (h.length_lt hphrase) (Nat.not_lt_zero _)

/-- A powered phrase starts with neither a sign nor a big operator. -/
theorem Reads.factor_of_powered {input rest : List Symbol} {tree : Expr}
    (h : Reads .powered input tree rest) : Reads .factor input tree rest := by
  have hstart := h.starts _ rfl
  refine .factor (goesOn_apart ?_ hstart) (goesOn_apart ?_ hstart) h
  all_goals
    intro symbol hsymbol
    cases symbol <;> first | rfl | cases hsymbol

/-- A term does not start with a closing parenthesis. -/
theorem Reads.not_isClose {input rest : List Symbol} {tree : Expr}
    (h : Reads .term input tree rest) : goesOn Symbol.isClose input = false :=
  (not_goesOn_of_startsTerm (h.starts _ rfl)).1

/-! ## Where a term is looked for -/

/-- A summand of a sum in the tree starts here: a term is read, and it is the last summand of a sum
that is a part of the tree. -/
def SummandIn (tree : Expr) (place : List Symbol) : Prop :=
  ∃ term middle sum whole rest, Reads .term place term middle ∧ term ∈ sum.parts
    ∧ Reads (.moreAdditive sum) middle whole rest ∧ whole ∈ tree.parts

/-- A term in the tree starts here. -/
def TermIn (tree : Expr) (place : List Symbol) : Prop :=
  ∃ term middle, Reads .term place term middle ∧ term ∈ tree.parts

/-- A summand in a part of a tree is a summand in the tree. -/
theorem SummandIn.mono {part tree : Expr} {place : List Symbol} (h : SummandIn part place)
    (hpart : part ∈ tree.parts) : SummandIn tree place := by
  obtain ⟨term, middle, sum, whole, rest, hterm, hsum, hmore, hwhole⟩ := h
  exact ⟨term, middle, sum, whole, rest, hterm, hsum, hmore, Expr.mem_parts_trans hwhole hpart⟩

/-- A term in a part of a tree is a term in the tree. -/
theorem TermIn.mono {part tree : Expr} {place : List Symbol} (h : TermIn part place)
    (hpart : part ∈ tree.parts) : TermIn tree place := by
  obtain ⟨term, middle, hterm, hmem⟩ := h
  exact ⟨term, middle, hterm, Expr.mem_parts_trans hmem hpart⟩

/-- A summand is a term. -/
theorem SummandIn.termIn {tree : Expr} {place : List Symbol} (h : SummandIn tree place) :
    TermIn tree place := by
  obtain ⟨term, middle, sum, whole, rest, hterm, hsum, hmore, hwhole⟩ := h
  exact ⟨term, middle, hterm, Expr.mem_parts_trans (Expr.mem_parts_trans hsum
    (hmore.carried_mem_parts sum List.mem_cons_self)) hwhole⟩

/-- A sum starts with a summand. -/
theorem Reads.summandIn_of_additive {input rest : List Symbol} {tree : Expr}
    (h : Reads .additive input tree rest) : SummandIn tree input := by
  cases h with
  | additive h₁ h₂ =>
    exact ⟨_, _, _, _, _, h₁, Expr.mem_parts_self _, h₂, Expr.mem_parts_self _⟩

/-- Sums joined by relations start with a summand. -/
theorem Reads.summandIn_of_relation {input rest : List Symbol} {tree : Expr}
    (h : Reads .relation input tree rest) : SummandIn tree input := by
  cases h with
  | relation h₁ h₂ =>
    exact h₁.summandIn_of_additive.mono (h₂.carried_mem_parts _ List.mem_cons_self)

/-- The arguments of a call start with a summand. -/
theorem Reads.summandIn_of_arguments {function : Text} {done : List Expr}
    {input rest : List Symbol} {tree : Expr} (h : Reads (.arguments function done) input tree rest) :
    SummandIn tree input := by
  cases h with
  | argumentsNext h₁ h₂ =>
    exact h₁.summandIn_of_relation.mono
      (h₂.carried_mem_parts _ (List.mem_append_right _ List.mem_cons_self))
  | argumentsEnd h₁ =>
    exact h₁.summandIn_of_relation.mono
      (Expr.argument_mem_parts (List.mem_append_right _ List.mem_cons_self))

/-- What stands behind the bounds of an integral, if it has any. -/
inductive BoundsTo : List Symbol → List Symbol → Prop
  | none {body : List Symbol} : goesOn Symbol.isScriptMark body = false → BoundsTo body body
  | lower {input middle body : List Symbol} {lower upper : Expr} :
      Reads .bound input lower (.caret :: middle) → Reads .bound middle upper body →
      BoundsTo (.underscore :: input) body
  | upper {input middle body : List Symbol} {lower upper : Expr} :
      Reads .bound input upper (.underscore :: middle) → Reads .bound middle lower body →
      BoundsTo (.caret :: input) body

/-- What stands behind the scripts of a big operator. -/
inductive ScriptsTo : List Symbol → List Symbol → Prop
  | none {body : List Symbol} : goesOn Symbol.isScriptMark body = false → ScriptsTo body body
  | subscript {input middle body : List Symbol} {script : Expr} :
      Reads .primary input script middle → ScriptsTo middle body →
      ScriptsTo (.underscore :: input) body
  | power {input middle body : List Symbol} {exponent : Expr} :
      Reads .factor input exponent middle → ScriptsTo middle body →
      ScriptsTo (.caret :: input) body

/-- The integrand starts with a summand. -/
theorem BoundsTo.summandIn {input body rest : List Symbol} {tree : Expr} (hb : BoundsTo input body)
    (h : Reads .atom (.integral :: input) tree rest) : SummandIn tree body := by
  cases hb with
  | none hmark =>
    cases h with
    | integral _ h₁ =>
      exact h₁.summandIn_of_additive.mono (Expr.argument_mem_parts List.mem_cons_self)
    | integralLower => cases hmark
    | integralUpper => cases hmark
    | callEmpty hcallee => cases hcallee
    | call hcallee => cases hcallee
  | lower hlower hupper =>
    cases h with
    | integral hmark => cases hmark
    | integralLower h₁ h₂ h₃ =>
      cases (hlower.unique h₁).2
      obtain ⟨-, rfl⟩ := hupper.unique h₂
      exact h₃.summandIn_of_additive.mono (Expr.argument_mem_parts List.mem_cons_self)
  | upper hupper hlower =>
    cases h with
    | integral hmark => cases hmark
    | integralUpper h₁ h₂ h₃ =>
      cases (hupper.unique h₁).2
      obtain ⟨-, rfl⟩ := hlower.unique h₂
      exact h₃.summandIn_of_additive.mono (Expr.argument_mem_parts List.mem_cons_self)

/-- A big operator takes a term behind its scripts. -/
theorem ScriptsTo.termIn {input body rest : List Symbol} {head tree : Expr}
    (hs : ScriptsTo input body) (hbody : goesOn Symbol.startsTerm body = true)
    (h : Reads (.bigOperator head) input tree rest) : TermIn tree body := by
  induction hs generalizing head with
  | none hmark =>
    cases h with
    | bigTerm _ h₁ => exact ⟨_, _, h₁, Expr.right_mem_parts ..⟩
    | bigAlone _ hstart => exact absurd (hbody.symm.trans hstart) Bool.noConfusion
    | bigSubscript => cases hmark
    | bigPower => cases hmark
  | subscript hscript _ ih =>
    cases h with
    | bigSubscript h₁ h₂ =>
      obtain ⟨-, rfl⟩ := hscript.unique h₁
      exact ih hbody h₂
    | bigTerm hstart => cases hstart
    | bigAlone hmark => cases hmark
  | power hexponent _ ih =>
    cases h with
    | bigPower h₁ h₂ =>
      obtain ⟨-, rfl⟩ := hexponent.unique h₁
      exact ih hbody h₂
    | bigTerm hstart => cases hstart
    | bigAlone hmark => cases hmark

/-! ## What a symbol goes on with -/

/-- What the reader goes on with behind a symbol that a summand or a term can follow. -/
def Entry (symbol : Symbol) (place : List Symbol) (tree : Expr) : Prop :=
  match symbol with
  | .openParen => goesOn Symbol.isClose place = false → SummandIn tree place
  | .comma | .relation _ | .plus => SummandIn tree place
  | .integral => ∀ body, BoundsTo place body → SummandIn tree body
  | .bigOperator _ => ∀ body, ScriptsTo place body → goesOn Symbol.startsTerm body = true →
      TermIn tree body
  | .minus | .plusMinus => goesOn Symbol.startsTerm place = true
  | _ => True

/-- What the reader goes on with in a part, it goes on with in the tree. -/
theorem Entry.mono {symbol : Symbol} {place : List Symbol} {part tree : Expr}
    (h : Entry symbol place part) (hpart : part ∈ tree.parts) : Entry symbol place tree := by
  cases symbol with
  | openParen => exact fun hclose => (h hclose).mono hpart
  | comma | relation | plus => exact SummandIn.mono h hpart
  | integral => exact fun body hbody => (h body hbody).mono hpart
  | bigOperator => exact fun body hbody hstart => (h body hbody hstart).mono hpart
  | minus | plusMinus => exact h
  | _ => trivial

/-- Behind every symbol between two places of a row stands what `Entry` says. The places are given by what
stands behind them, the first one by `input` and the second one by `rest`. -/
def EntriesIn (input rest : List Symbol) (tree : Expr) : Prop :=
  ∀ (symbol : Symbol) (place : List Symbol), symbol :: place <:+ input →
    rest.length ≤ place.length → Entry symbol place tree

namespace EntriesIn

variable {symbol : Symbol} {input middle rest : List Symbol} {part tree : Expr}

/-- What holds of a part at every place of a stretch holds of the tree there. -/
theorem mono (h : EntriesIn input rest part) (hpart : part ∈ tree.parts) :
    EntriesIn input rest tree := by
  intro symbol place hplace hrest
  exact (h symbol place hplace hrest).mono hpart

/-- Nothing stands between a place and itself. -/
theorem empty : EntriesIn rest rest tree := by
  intro symbol place hplace hrest
  have := hplace.length_le
  rw [List.length_cons] at this
  omega

/-- A symbol in front: it is the symbol that is asked about, or that one stands further back. -/
theorem cons (hentry : Entry symbol input tree) (h : EntriesIn input rest tree) :
    EntriesIn (symbol :: input) rest tree := by
  intro symbol' place hplace hrest
  rcases List.suffix_cons_iff.mp hplace with heq | hinput
  · obtain ⟨rfl, rfl⟩ := List.cons.inj heq
    exact hentry
  · exact h symbol' place hinput hrest

/-- Two stretches of a row, one behind the other: how much stands behind a symbol says in which of them
it is. -/
theorem append (h₁ : EntriesIn input middle tree) (hmiddle : middle <:+ input)
    (h₂ : EntriesIn middle rest tree) : EntriesIn input rest tree := by
  intro symbol place hplace hrest
  by_cases hlength : middle.length ≤ place.length
  · exact h₁ symbol place hplace hlength
  · refine h₂ symbol place (List.suffix_of_suffix_length_le hplace hmiddle ?_) hrest
    rw [List.length_cons]
    omega

/-- The symbol at the end of a stretch. -/
theorem last (hentry : Entry symbol rest tree) : EntriesIn (symbol :: rest) rest tree :=
  cons hentry empty

end EntriesIn

/-- The right operand of a tree that a phrase goes on with. -/
theorem Reads.right_mem_parts {phrase : Phrase} {input rest : List Symbol} {tree : Expr}
    (h : Reads phrase input tree rest) {op : Operator} {left right : Expr} {implicit : Bool}
    (hcarried : .binary op left right implicit ∈ phrase.carried) : right ∈ tree.parts :=
  Expr.mem_parts_trans (Expr.right_mem_parts ..) (h.carried_mem_parts _ hcarried)

/-- A sign has to be followed by what a term can start with. -/
theorem entry_of_sign {symbol : Symbol} {op : Operator} {place : List Symbol} {tree : Expr}
    (hop : symbol.sign? = some op) (hplace : goesOn Symbol.startsTerm place = true) :
    Entry symbol place tree := by
  cases symbol with
  | minus | plusMinus => exact hplace
  | _ => cases hop

/-- What may be called says nothing about what follows: the parenthesis behind it does. -/
theorem entry_of_callee {symbol : Symbol} {function : Text} {place : List Symbol} {tree : Expr}
    (h : symbol.callee? = some function) : Entry symbol place tree := by
  cases symbol with
  | name | function => trivial
  | _ => cases h

/-- Behind a star or a slash goes a factor, and no term of its own. -/
theorem entry_of_multiplicative {symbol : Symbol} {op : Operator} {place : List Symbol} {tree : Expr}
    (h : symbol.multiplicative? = some op) : Entry symbol place tree := by
  cases symbol with
  | star | slash => trivial
  | _ => cases h

/-- Behind a plus starts the last summand of the sum so far; behind the other two stands what a term can
start with, since they may have been signs. -/
theorem entry_of_additive {symbol : Symbol} {op : Operator} {input middle rest : List Symbol}
    {left right tree : Expr} (hop : symbol.additive? = some op) (hright : Reads .term input right middle)
    (hmore : Reads (.moreAdditive (.binary op left right false)) middle tree rest) :
    Entry symbol input tree := by
  cases symbol with
  | plus => exact ⟨_, _, _, _, _, hright, Expr.right_mem_parts .., hmore, Expr.mem_parts_self _⟩
  | minus | plusMinus => exact hright.starts _ rfl
  | _ => cases hop

/-- An argument of a call, with the symbol that closes it. -/
theorem EntriesIn.argument {function : Text} {arguments : List Expr} {argument : Expr}
    {symbol : Symbol} {input middle rest : List Symbol}
    (h : EntriesIn input (symbol :: middle) argument) (hargument : argument ∈ arguments)
    (hmiddle : symbol :: middle <:+ input)
    (hrest : EntriesIn (symbol :: middle) rest (.call function arguments)) :
    EntriesIn input rest (.call function arguments) :=
  (h.mono (Expr.argument_mem_parts hargument)).append hmiddle hrest

/-- **What stands behind a symbol that is read.** Whichever phrase takes the symbol goes on with what
`Entry` says. -/
theorem Reads.entries {phrase : Phrase} {input rest : List Symbol} {tree : Expr}
    (h : Reads phrase input tree rest) : EntriesIn input rest tree := by
  -- Every rule says from which symbols and parts the phrase is put together; the tree of a part is a part
  -- of the tree.
  induction h with
  | relation h₁ h₂ ih₁ ih₂ | additive h₁ h₂ ih₁ ih₂ | term h₁ h₂ ih₁ ih₂ | powered h₁ h₂ ih₁ ih₂
  | operand h₁ h₂ ih₁ ih₂ =>
    exact (ih₁.mono (h₂.carried_mem_parts _ List.mem_cons_self)).append h₁.suffix ih₂
  | relationNext h₁ h₂ ih₁ ih₂ =>
    have hright := h₂.right_mem_parts List.mem_cons_self
    exact .cons (h₁.summandIn_of_additive.mono hright) ((ih₁.mono hright).append h₁.suffix ih₂)
  | relationEnd | additiveEnd | termEnd | bigAlone | poweredEnd => exact .empty
  | additiveNext hop h₁ h₂ ih₁ ih₂ =>
    have hright := h₂.right_mem_parts List.mem_cons_self
    exact .cons (entry_of_additive hop h₁ h₂) ((ih₁.mono hright).append h₁.suffix ih₂)
  | termNext hop h₁ h₂ ih₁ ih₂ =>
    have hright := h₂.right_mem_parts List.mem_cons_self
    exact .cons (entry_of_multiplicative hop) ((ih₁.mono hright).append h₁.suffix ih₂)
  | termBeside _ h₁ h₂ ih₁ ih₂ =>
    exact (ih₁.mono (h₂.right_mem_parts List.mem_cons_self)).append h₁.suffix ih₂
  | sign hop h₁ ih₁ =>
    exact .cons (entry_of_sign hop (h₁.starts _ rfl)) (ih₁.mono (Expr.operand_mem_parts ..))
  | bigOperator h₁ ih₁ => exact .cons (fun _ hbody hstart => hbody.termIn hstart h₁) ih₁
  | factor _ _ _ ih₁ | primary _ _ ih₁ | bound _ _ ih₁ => exact ih₁
  | bigSubscript h₁ h₂ ih₁ ih₂ | bigPower h₁ h₂ ih₁ ih₂ | subscript h₁ h₂ ih₁ ih₂ =>
    have hright := h₂.right_mem_parts List.mem_cons_self
    exact .cons trivial ((ih₁.mono hright).append h₁.suffix ih₂)
  | bigTerm _ _ ih₁ => exact ih₁.mono (Expr.right_mem_parts ..)
  | power _ ih₁ => exact .cons trivial (ih₁.mono (Expr.right_mem_parts ..))
  | group h₁ ih₁ =>
    exact .cons (fun _ => h₁.summandIn_of_relation) (ih₁.append h₁.suffix (.last trivial))
  | number | name | functionAlone | rootAlone => exact .last trivial
  | callEmpty hcallee =>
    exact .cons (entry_of_callee hcallee) (.cons (fun hclose => nomatch hclose) (.last trivial))
  | call hcallee _ h₁ ih₁ =>
    exact .cons (entry_of_callee hcallee) (.cons (fun _ => h₁.summandIn_of_arguments) ih₁)
  | functionOperand _ _ ih₁ =>
    exact .cons trivial (ih₁.mono (Expr.argument_mem_parts List.mem_cons_self))
  | rootOne h₁ _ ih₁ =>
    refine .cons trivial (.cons (fun _ => ?_) ?_)
    · exact h₁.summandIn_of_relation.mono (Expr.argument_mem_parts (by simp))
    · exact ih₁.argument (by simp) h₁.suffix (.last trivial)
  | rootTwo h₁ h₂ ih₁ ih₂ =>
    refine .cons trivial (.cons (fun _ => ?_) (ih₁.argument (by simp) h₁.suffix ?_))
    · exact h₁.summandIn_of_relation.mono (Expr.argument_mem_parts (by simp))
    refine .cons trivial (.cons (fun _ => ?_) (ih₂.argument (by simp) h₂.suffix (.last trivial)))
    exact h₂.summandIn_of_relation.mono (Expr.argument_mem_parts (by simp))
  | integral hmark h₁ ih₁ =>
    refine .cons (fun body hbody => hbody.summandIn (.integral hmark h₁)) ?_
    exact ih₁.argument (by simp) h₁.suffix (.last trivial)
  | integralLower h₁ h₂ h₃ ih₁ ih₂ ih₃ =>
    refine .cons (fun body hbody => hbody.summandIn (.integralLower h₁ h₂ h₃)) (.cons trivial ?_)
    refine ih₁.argument (by simp) h₁.suffix (.cons trivial ?_)
    refine (ih₂.mono (Expr.argument_mem_parts (by simp))).append h₂.suffix ?_
    exact ih₃.argument (by simp) h₃.suffix (.last trivial)
  | integralUpper h₁ h₂ h₃ ih₁ ih₂ ih₃ =>
    refine .cons (fun body hbody => hbody.summandIn (.integralUpper h₁ h₂ h₃)) (.cons trivial ?_)
    refine ih₁.argument (by simp) h₁.suffix (.cons trivial ?_)
    refine (ih₂.mono (Expr.argument_mem_parts (by simp))).append h₂.suffix ?_
    exact ih₃.argument (by simp) h₃.suffix (.last trivial)
  | argumentsNext h₁ h₂ ih₁ ih₂ =>
    have hargument := h₂.carried_mem_parts _ (List.mem_append_right _ List.mem_cons_self)
    exact (ih₁.mono hargument).append h₁.suffix (.cons h₂.summandIn_of_arguments ih₂)
  | argumentsEnd h₁ ih₁ => exact ih₁.argument (by simp) h₁.suffix (.last trivial)
  | boundMinus h₁ ih₁ =>
    have hstart := goesOn_mono Symbol.startsTerm_of_startsPowered (h₁.starts _ rfl)
    exact .cons hstart (ih₁.mono (Expr.operand_mem_parts ..))

/-! ## The places where a term begins -/

/-- A symbol behind which a summand begins, whatever stands in front of it. -/
def Symbol.opensSum : Symbol → Bool
  | openParen | comma | relation _ | plus => true
  | _ => false

/-- A summand begins at a place in a row, which is given by what stands in front of it and by what
stands there. -/
inductive SummandAt : List Symbol → List Symbol → Prop
  /-- at the front, -/
  | front {place : List Symbol} : SummandAt [] place
  /-- behind a symbol that a sum follows, -/
  | behind {before place : List Symbol} {symbol : Symbol} :
      symbol.opensSum = true → SummandAt (before ++ [symbol]) place
  /-- behind an integral with its bounds, -/
  | integral {before bounds place : List Symbol} :
      BoundsTo (bounds ++ place) place → SummandAt (before ++ Symbol.integral :: bounds) place
  /-- and behind an additive symbol in front of which a summand ends. -/
  | next {before summand place : List Symbol} {symbol : Symbol} {tree : Expr} :
      SummandAt before (summand ++ symbol :: place) →
      Reads .term (summand ++ symbol :: place) tree (symbol :: place) →
      symbol.isAdditive = true → SummandAt (before ++ summand ++ [symbol]) place

/-- A term begins at a place in a row: a summand, or the term of a big operator behind its scripts. -/
inductive TermAt : List Symbol → List Symbol → Prop
  | summand {before place : List Symbol} : SummandAt before place → TermAt before place
  | bigOperator {before scripts place : List Symbol} {op : BigOperator} :
      ScriptsTo (scripts ++ place) place → TermAt (before ++ Symbol.bigOperator op :: scripts) place

section

variable {before place : List Symbol} {tree : Expr}

/-- The reader looks for a summand where one begins. -/
theorem SummandAt.summandIn (h : SummandAt before place)
    (hreads : Reads .relation (before ++ place) tree [])
    (hplace : goesOn Symbol.isClose place = false) : SummandIn tree place := by
  induction h with
  | front => exact hreads.summandIn_of_relation
  | @behind before place symbol hopens =>
    have hsuffix : symbol :: place <:+ before ++ [symbol] ++ place := ⟨before, by simp⟩
    have hentry := hreads.entries _ _ hsuffix (Nat.zero_le _)
    cases symbol with
    | openParen => exact hentry hplace
    | comma | relation | plus => exact hentry
    | _ => cases hopens
  | @integral before bounds place hbounds =>
    have hsuffix : .integral :: (bounds ++ place) <:+ before ++ Symbol.integral :: bounds ++ place :=
      ⟨before, by simp⟩
    have hentry := hreads.entries _ _ hsuffix (Nat.zero_le _)
    exact hentry place hbounds
  | @next before summand place symbol term _ hterm hadditive ih =>
    have hrow : before ++ summand ++ [symbol] ++ place = before ++ (summand ++ symbol :: place) := by
      simp
    rw [hrow] at hreads
    obtain ⟨first, middle, sum, whole, rest, hfirst, -, hmore, hwhole⟩ :=
      ih hreads hterm.not_isClose
    -- The summand that ends in front of the symbol is the one that the reader reads there.
    obtain ⟨-, rfl⟩ := hterm.unique hfirst
    cases hmore with
    | additiveNext _ hright hmore =>
      exact ⟨_, _, _, _, _, hright, Expr.right_mem_parts .., hmore, hwhole⟩
    | additiveEnd hend => exact absurd (hadditive.symm.trans hend) Bool.noConfusion

/-- The reader looks for a term where one begins. -/
theorem TermAt.termIn (h : TermAt before place) (hreads : Reads .relation (before ++ place) tree [])
    (hplace : goesOn Symbol.startsTerm place = true)
    (hclose : goesOn Symbol.isClose place = false) : TermIn tree place := by
  cases h with
  | summand h => exact (h.summandIn hreads hclose).termIn
  | @bigOperator before scripts _ op hscripts =>
    have hsuffix : .bigOperator op :: (scripts ++ place)
        <:+ before ++ Symbol.bigOperator op :: scripts ++ place := ⟨before, by simp⟩
    have hentry := hreads.entries _ _ hsuffix (Nat.zero_le _)
    exact hentry place hscripts hplace

end

/-! ## A quotient is one operand there -/

/-- A formula in parentheses is read as one primary. -/
theorem Reads.parenthesized {row rest : List Symbol} {tree : Expr}
    (h : Reads .relation row tree []) :
    Reads .primary (.openParen :: (row ++ Symbol.closeParen :: rest)) tree rest :=
  .group (h.extend (k := .closeParen :: rest) rfl)

/-- **A quotient in parentheses is one operand where a term begins**, unless a script follows. -/
theorem TermAt.quotient_mem_parts {before after numerator denominator : List Symbol}
    {a b tree : Expr} (hn : Reads .relation numerator a []) (hd : Reads .relation denominator b [])
    (h : TermAt before (quotientRow numerator denominator ++ after))
    (hafter : goesOn Symbol.isScriptMark after = false)
    (hreads : Reads .relation (before ++ (quotientRow numerator denominator ++ after)) tree []) :
    .binary .dividedBy a b false ∈ tree.parts := by
  -- The reader looks for a term there, and the term starts with the quotient.
  obtain ⟨term, middle, hterm, hmem⟩ := h.termIn hreads rfl rfl
  have hrow : quotientRow numerator denominator ++ after
      = .openParen :: (numerator ++ Symbol.closeParen :: .slash :: .openParen ::
        (denominator ++ Symbol.closeParen :: after)) := by
    simp [quotientRow]
  rw [hrow] at hterm
  -- The first factor is the numerator, and the slash goes on with the denominator.
  have hfirst : Reads .factor (.openParen :: (numerator ++ Symbol.closeParen :: .slash :: .openParen ::
      (denominator ++ Symbol.closeParen :: after))) a
      (.slash :: .openParen :: (denominator ++ Symbol.closeParen :: after)) :=
    .factor rfl rfl (.powered hn.parenthesized (.poweredEnd rfl))
  have hsecond : Reads .factor (.openParen :: (denominator ++ Symbol.closeParen :: after)) b after :=
    .factor rfl rfl (.powered hd.parenthesized (.poweredEnd hafter))
  cases hterm with
  | term h₁ h₂ =>
    obtain ⟨rfl, rfl⟩ := h₁.unique hfirst
    cases h₂ with
    | termNext hop h₂ h₃ =>
      cases hop
      obtain ⟨rfl, rfl⟩ := h₂.unique hsecond
      exact Expr.mem_parts_trans (h₃.carried_mem_parts _ List.mem_cons_self) hmem
    | termBeside hstart => cases hstart
    | termEnd hend => cases hend

end MathScribe
