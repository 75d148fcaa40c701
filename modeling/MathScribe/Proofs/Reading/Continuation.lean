/-
What a phrase does when the row goes on.

A phrase that is read up to the end of a row may take more when more symbols follow: a name that ends the
row becomes a call in front of a parenthesis, a function takes an operand, a big operator a term. The
reader takes whatever it can and never goes back, so it has to be seen that it is not led into a dead end.

What may follow is described by what the reader itself goes on with: `AddsOn` are the summands that can
follow a term, `MultipliesOn` the factors that can follow a factor, and `ScriptsOn` the scripts that can
follow a primary. Each is followed by the one before it and at last by what may end a sum. Now if a phrase
takes more than its row, it takes a whole operand, group or term off what follows, and what is left may
still follow it. So a phrase that is read to the end of a row is read in front of everything that may follow
it (`Reads.onward`), with some tree and some rest which may follow it in turn.

One thing may not follow: a big operator cannot stand behind a factor, only behind another big operator that
takes it. So a row may also be followed by what stands behind a big operator at its end (`Followed`).
-/
import MathScribe.Proofs.Reading.Summand

set_option autoImplicit false

namespace MathScribe

/-! ## The left side of a phrase -/

/-- The phrase with another left side to go on with, if it goes on with one. -/
def Phrase.onto (left : Expr) : Phrase → Phrase
  | moreRelation _ => moreRelation left
  | moreAdditive _ => moreAdditive left
  | moreTerm _ => moreTerm left
  | bigOperator _ => bigOperator left
  | morePowered _ => morePowered left
  | phrase => phrase

/-- **The left side does not matter** for what is taken. -/
theorem Reads.onto {phrase : Phrase} {input rest : List Symbol} {tree : Expr}
    (h : Reads phrase input tree rest) (left : Expr) :
    ∃ tree', Reads (phrase.onto left) input tree' rest := by
  -- A phrase that takes something goes on with a left side that it has made, and the others have none.
  have hself := h
  induction h generalizing left with
  | @relationNext r _ _ _ _ right _ h₁ h₂ _ ih =>
    obtain ⟨tree', hmore⟩ := ih (.binary (.relation r) left right false) h₂
    exact ⟨tree', .relationNext h₁ hmore⟩
  | @additiveNext _ op _ _ _ _ right _ hop h₁ h₂ _ ih =>
    obtain ⟨tree', hmore⟩ := ih (.binary op left right false) h₂
    exact ⟨tree', .additiveNext hop h₁ hmore⟩
  | @termNext _ op _ _ _ _ right _ hop h₁ h₂ _ ih =>
    obtain ⟨tree', hmore⟩ := ih (.binary op left right false) h₂
    exact ⟨tree', .termNext hop h₁ hmore⟩
  | @termBeside _ _ _ _ right _ hstart h₁ h₂ _ ih =>
    obtain ⟨tree', hmore⟩ := ih (.juxtapose left right) h₂
    exact ⟨tree', .termBeside hstart h₁ hmore⟩
  | @bigSubscript _ _ _ _ script _ h₁ h₂ _ ih =>
    obtain ⟨tree', hmore⟩ := ih (.binary .subscript left script false) h₂
    exact ⟨tree', .bigSubscript h₁ hmore⟩
  | @bigPower _ _ _ _ exponent _ h₁ h₂ _ ih =>
    obtain ⟨tree', hmore⟩ := ih (.binary .power left exponent false) h₂
    exact ⟨tree', .bigPower h₁ hmore⟩
  | @subscript _ _ _ _ script _ h₁ h₂ _ ih =>
    obtain ⟨tree', hmore⟩ := ih (.binary .subscript left script false) h₂
    exact ⟨tree', .subscript h₁ hmore⟩
  | relationEnd h => exact ⟨left, .relationEnd h⟩
  | additiveEnd h => exact ⟨left, .additiveEnd h⟩
  | termEnd h₁ h₂ => exact ⟨left, .termEnd h₁ h₂⟩
  | bigTerm hstart h₁ => exact ⟨_, .bigTerm hstart h₁⟩
  | bigAlone h₁ h₂ => exact ⟨left, .bigAlone h₁ h₂⟩
  | power h₁ => exact ⟨_, .power h₁⟩
  | poweredEnd h => exact ⟨left, .poweredEnd h⟩
  | _ => exact ⟨_, hself⟩

/-! ## What may follow -/

/-- What may stand behind a sum: nothing, or a relation. -/
def EndsSum (last : List Symbol → Prop) : Prop :=
  ∀ rest, last rest → rest = [] ∨ goesOn Symbol.isRelation rest = true

/-- A phrase goes on with these symbols, with any left side, and leaves a row of the given kind. -/
def GoesOnTo (more : Expr → Phrase) (next : List Symbol → Prop) (input : List Symbol) : Prop :=
  ∃ left tree rest, Reads (more left) input tree rest ∧ next rest

section Following

variable (last : List Symbol → Prop)

/-- Summands that are added to a term, up to the end of the sum. -/
def AddsOn : List Symbol → Prop :=
  GoesOnTo .moreAdditive last

/-- Factors behind a factor, and then summands. -/
def MultipliesOn : List Symbol → Prop :=
  GoesOnTo .moreTerm (AddsOn last)

/-- Scripts behind a primary, and then factors. -/
def ScriptsOn : List Symbol → Prop :=
  GoesOnTo .morePowered (MultipliesOn last)

/-- Scripts of a big operator and the term it takes, and then factors. -/
def TakesOn : List Symbol → Prop :=
  GoesOnTo .bigOperator (MultipliesOn last)

/-- What a phrase inside a sum may leave. -/
def Phrase.Leaves : Phrase → List Symbol → Prop
  | additive | moreAdditive _ => last
  | term | moreTerm _ => AddsOn last
  | factor | bigOperator _ | powered | morePowered _ | operand => MultipliesOn last
  | primary | atom | arguments .. => ScriptsOn last
  | relation | moreRelation _ | bound => fun _ => False

/-- A phrase inside a sum is read, and what it leaves may follow it. -/
def Continues (phrase : Phrase) (input : List Symbol) : Prop :=
  ∃ tree rest, Reads phrase input tree rest ∧ phrase.Leaves last rest

end Following

variable {last : List Symbol → Prop} {input rest k : List Symbol}

/-- What may follow does so behind every left side. -/
theorem GoesOnTo.reads {more : Expr → Phrase} {next : List Symbol → Prop}
    (h : GoesOnTo more next input) (left : Expr) (hmore : ∀ e, (more e).onto left = more left) :
    ∃ tree rest, Reads (more left) input tree rest ∧ next rest := by
  obtain ⟨e, _, rest, hreads, hrest⟩ := h
  obtain ⟨tree, hreads⟩ := hreads.onto left
  rw [hmore e] at hreads
  exact ⟨tree, rest, hreads, hrest⟩

/-- What stands behind a sum starts with a relation or not at all. -/
theorem EndsSum.not_goesOn (hlast : EndsSum last) (h : last rest) {kind : Symbol → Bool}
    (hkind : ∀ r, kind (.relation r) = false) : goesOn kind rest = false := by
  rcases hlast rest h with rfl | hrelation
  · rfl
  · cases rest with
    | nil => rfl
    | cons symbol rest =>
      cases symbol with
      | relation r => exact hkind r
      | _ => cases hrelation

section

variable (hlast : EndsSum last)
include hlast

/-- No more summands follow a term where its sum ends. -/
theorem AddsOn.of_last (h : last rest) : AddsOn last rest :=
  ⟨.name [], _, _, .additiveEnd (hlast.not_goesOn h fun _ => rfl), h⟩

/-- Summands do not start with what goes on with a term. -/
theorem AddsOn.not_goesOn (h : AddsOn last input) :
    goesOn Symbol.isMultiplicative input = false ∧ goesOn Symbol.startsPowered input = false
      ∧ goesOn Symbol.isScriptMark input = false := by
  obtain ⟨_, _, _, hmore, hrest⟩ := h
  cases hmore with
  | @additiveNext symbol _ _ _ _ _ _ _ hop => cases symbol <;> cases hop <;> exact ⟨rfl, rfl, rfl⟩
  | additiveEnd =>
    refine ⟨?_, ?_, ?_⟩
    all_goals exact hlast.not_goesOn hrest fun _ => rfl

/-- What may follow a term may follow a factor: there are no more factors. -/
theorem MultipliesOn.of_addsOn (h : AddsOn last input) : MultipliesOn last input := by
  obtain ⟨hmultiplicative, hpowered, -⟩ := h.not_goesOn hlast
  exact ⟨.name [], _, _, .termEnd hmultiplicative hpowered, h⟩

/-- Factors do not start with a script. -/
theorem MultipliesOn.not_goesOn (h : MultipliesOn last input) :
    goesOn Symbol.isScriptMark input = false := by
  obtain ⟨_, _, _, hmore, hrest⟩ := h
  cases hmore with
  | @termNext symbol _ _ _ _ _ _ _ hop => cases symbol <;> cases hop <;> rfl
  | termBeside hstart =>
    exact (not_goesOn_of_startsTerm (goesOn_mono Symbol.startsTerm_of_startsPowered hstart)).2
  | termEnd => exact (hrest.not_goesOn hlast).2.2

/-- What may follow a factor may follow a primary: there are no more scripts. -/
theorem ScriptsOn.of_multipliesOn (h : MultipliesOn last input) : ScriptsOn last input :=
  ⟨.name [], _, _, .poweredEnd (h.not_goesOn hlast), h⟩

/-- The end of a sum may follow a primary: there are no scripts, no factors and no summands. -/
theorem ScriptsOn.of_last (h : last rest) : ScriptsOn last rest :=
  .of_multipliesOn hlast (.of_addsOn hlast (.of_last hlast h))

/-- What may follow a factor is a term with more summands, if a term can start there. -/
theorem MultipliesOn.term (h : MultipliesOn last input) (hstart : goesOn Symbol.startsTerm input = true) :
    ∃ tree rest, Reads .term input tree rest ∧ AddsOn last rest := by
  obtain ⟨_, _, rest, hmore, hrest⟩ := h
  cases hmore with
  | @termNext symbol _ _ _ _ _ _ _ hop => cases symbol <;> first | (cases hop; done) | cases hstart
  | termBeside _ hpowered hmore =>
    obtain ⟨tree, hmore⟩ := hmore.onto _
    exact ⟨tree, rest, .term hpowered.factor_of_powered hmore, hrest⟩
  | termEnd _ hpowered =>
    -- Only a sign is left for a term to start with, and it stands in front of the next summand.
    obtain ⟨_, _, last', hmore, hlast'⟩ := hrest
    cases hmore with
    | @additiveNext symbol _ _ _ _ _ _ _ hop hterm hmore =>
      obtain ⟨op, hsign⟩ : ∃ op, symbol.sign? = some op := by
        cases symbol <;> first | exact ⟨_, rfl⟩ | (cases hop; done) | cases hstart
      cases hterm with
      | term hfactor hmoreTerm =>
        obtain ⟨tree, hmoreTerm⟩ := hmoreTerm.onto _
        exact ⟨tree, _, .term (.sign hsign hfactor) hmoreTerm, _, _, _, hmore, hlast'⟩
    | additiveEnd =>
      have hend : goesOn Symbol.startsTerm input = false := hlast.not_goesOn hlast' fun _ => rfl
      exact absurd (hstart.symm.trans hend) Bool.noConfusion

/-- What may follow a factor may follow a big operator, which takes the term there if it is one. -/
theorem MultipliesOn.takesOn (h : MultipliesOn last input) : TakesOn last input := by
  cases hstart : goesOn Symbol.startsTerm input with
  | false => exact ⟨.name [], _, _, .bigAlone (h.not_goesOn hlast) hstart, h⟩
  | true =>
    obtain ⟨tree, rest, hterm, hrest⟩ := h.term hlast hstart
    exact ⟨.name [], _, _, .bigTerm hstart hterm, .of_addsOn hlast hrest⟩

/-- What may follow a primary may follow a big operator. -/
theorem ScriptsOn.takesOn (h : ScriptsOn last input) : TakesOn last input := by
  obtain ⟨base, tree, rest, hmore, hrest⟩ := h
  -- The scripts are those of the big operator, one after the other.
  generalize hphrase : Phrase.morePowered base = phrase at hmore
  induction hmore generalizing base with
  | subscript hscript _ _ ih =>
    obtain ⟨tree, rest, htakes, hrest⟩ := (ih _ hrest rfl).reads _ fun _ => rfl
    exact ⟨.name [], _, _, .bigSubscript hscript htakes, hrest⟩
  | power hexponent _ =>
    obtain ⟨tree, rest, htakes, hrest⟩ := (hrest.takesOn hlast).reads _ fun _ => rfl
    exact ⟨.name [], _, _, .bigPower hexponent htakes, hrest⟩
  | poweredEnd => exact hrest.takesOn hlast
  | _ => cases hphrase

end

/-! ## What follows a symbol -/

section

variable {symbol : Symbol}

/-- An additive symbol with a term behind it goes on with a sum. -/
theorem AddsOn.next (hsymbol : symbol.isAdditive = true) (h : Continues last .term input) :
    AddsOn last (symbol :: input) := by
  obtain ⟨op, hop⟩ := Option.isSome_iff_exists.mp hsymbol
  obtain ⟨right, _, hterm, hrest⟩ := h
  obtain ⟨tree, rest, hmore, hrest⟩ :=
    GoesOnTo.reads hrest (.binary op (.name []) right false) fun _ => rfl
  exact ⟨_, tree, rest, .additiveNext hop hterm hmore, hrest⟩

/-- A multiplicative symbol with a factor behind it goes on with a term. -/
theorem MultipliesOn.next (hsymbol : symbol.isMultiplicative = true) (h : Continues last .factor input) :
    MultipliesOn last (symbol :: input) := by
  obtain ⟨op, hop⟩ := Option.isSome_iff_exists.mp hsymbol
  obtain ⟨right, _, hfactor, hrest⟩ := h
  obtain ⟨tree, rest, hmore, hrest⟩ :=
    GoesOnTo.reads hrest (.binary op (.name []) right false) fun _ => rfl
  exact ⟨_, tree, rest, .termNext hop hfactor hmore, hrest⟩

/-- Something powered goes on with a term without a symbol in front of it. -/
theorem MultipliesOn.beside (h : Continues last .powered input) : MultipliesOn last input := by
  obtain ⟨right, _, hpowered, hrest⟩ := h
  obtain ⟨tree, rest, hmore, hrest⟩ := GoesOnTo.reads hrest (.juxtapose (.name []) right) fun _ => rfl
  exact ⟨_, tree, rest, .termBeside (hpowered.starts _ rfl) hpowered hmore, hrest⟩

/-- A subscript with a primary behind its mark goes on with a primary. -/
theorem ScriptsOn.subscript (h : Continues last .primary input) : ScriptsOn last (.underscore :: input) := by
  obtain ⟨script, _, hprimary, hrest⟩ := h
  obtain ⟨tree, rest, hmore, hrest⟩ :=
    GoesOnTo.reads hrest (.binary .subscript (.name []) script false) fun _ => rfl
  exact ⟨_, tree, rest, .subscript hprimary hmore, hrest⟩

/-- A power goes on with a primary, and takes the whole factor behind its mark. -/
theorem ScriptsOn.power (h : Continues last .factor input) : ScriptsOn last (.caret :: input) := by
  obtain ⟨exponent, rest, hfactor, hrest⟩ := h
  exact ⟨.name [], _, rest, .power hfactor, hrest⟩

end

/-! ## What is taken off the front -/

/-- Where something powered can start, it is read, and what it leaves may follow a factor. -/
theorem ScriptsOn.powered (h : ScriptsOn last input)
    (hstart : goesOn Symbol.startsPowered input = true) :
    ∃ tree rest, Reads .powered input tree rest ∧ MultipliesOn last rest := by
  cases input with
  | nil => cases hstart
  | cons symbol input =>
    obtain ⟨_, _, _, hmore, _, _, rest, hmoreTerm, hrest⟩ := h
    cases hmore with
    | subscript | power => cases hstart
    | poweredEnd =>
      cases hmoreTerm with
      | termNext hop => cases symbol <;> first | (cases hop; done) | cases hstart
      | termBeside _ hpowered hmoreTerm => exact ⟨_, _, hpowered, _, _, _, hmoreTerm, hrest⟩
      | termEnd _ hend => exact absurd (hstart.symm.trans hend) Bool.noConfusion

/-- A group is read where one is opened. -/
theorem ScriptsOn.group (h : ScriptsOn last (.openParen :: input)) :
    ∃ inside rest, Reads .relation input inside (.closeParen :: rest) ∧ ScriptsOn last rest := by
  obtain ⟨_, _, hpowered, hrest⟩ := h.powered rfl
  cases hpowered with
  | powered hprimary hmore =>
    cases hprimary with
    | group hinside => exact ⟨_, _, hinside, _, _, _, hmore, hrest⟩
    | primary hopen => cases hopen

/-- An operand is read where an atom can start. -/
theorem ScriptsOn.operand (h : ScriptsOn last input)
    (hstart : goesOn Symbol.startsAtom input = true) :
    ∃ tree rest, Reads .operand input tree rest ∧ MultipliesOn last rest := by
  obtain ⟨_, _, hpowered, hrest⟩ :=
    h.powered (goesOn_mono Symbol.startsPowered_of_startsAtom hstart)
  cases hpowered with
  | powered hprimary hmore =>
    cases hprimary with
    | group => cases hstart
    | primary _ hatom => exact ⟨_, _, .operand hatom hmore, hrest⟩

/-! ## In front of what may follow -/

/-- A phrase that leaves something of its row leaves it in front of whatever follows the row. -/
theorem Reads.append_right {phrase : Phrase} {tree : Expr} (h : Reads phrase input tree rest)
    (hrest : rest ≠ []) (k : List Symbol) : Reads phrase (input ++ k) tree (rest ++ k) := by
  obtain ⟨taken, rfl, hlocal⟩ := h.taken
  rw [List.append_assoc]
  have hquieter := Quieter.of_ne_nil hrest [] k
  rw [List.append_nil] at hquieter
  exact hlocal _ hquieter

/-- A phrase that ends in front of a symbol does so whatever follows the row. -/
theorem Reads.up_to {phrase : Phrase} {symbol : Symbol} {tree : Expr}
    (h : Reads phrase input tree (symbol :: rest)) (k : List Symbol) :
    Reads phrase (input ++ k) tree (symbol :: (rest ++ k)) :=
  h.append_right (List.cons_ne_nil _ _) k

/-- What may stand behind a row: what may follow a primary, or, if the row ends with a big operator, what
the operator goes on with. -/
def Followed (last : List Symbol → Prop) (row k : List Symbol) : Prop :=
  ScriptsOn last k
    ∨ ∃ op, row.getLast? = some (.bigOperator op) ∧ Continues last .factor (.bigOperator op :: k)

/-- What may stand behind a row may stand behind the end of it. -/
theorem Followed.suffix (h : Followed last input k) (hsuffix : rest <:+ input) (hrest : rest ≠ []) :
    Followed last rest k := by
  obtain ⟨front, rfl⟩ := hsuffix
  rcases h with hscripts | ⟨op, hop, hfactor⟩
  · exact .inl hscripts
  · rw [List.getLast?_append_of_ne_nil _ hrest] at hop
    exact .inr ⟨op, hop, hfactor⟩

/-- Behind another symbol stands what may follow a primary. -/
theorem Followed.scriptsOn {symbol : Symbol} (h : Followed last input k) (hsuffix : [symbol] <:+ input)
    (hsymbol : symbol.isBigOperator = false) : ScriptsOn last k := by
  rcases h.suffix hsuffix (List.cons_ne_nil _ _) with hscripts | ⟨op, hop, -⟩
  · exact hscripts
  · obtain rfl : symbol = .bigOperator op := Option.some.inj hop
    cases hsymbol

/-- The phrases that lie inside a sum. -/
def Phrase.inSum : Phrase → Bool
  | relation | moreRelation _ | bound => false
  | _ => true

/-- A group is opened by a parenthesis. -/
theorem eq_openParen_of_goesOn (h : goesOn Symbol.isOpen input = true) :
    ∃ inside, input = .openParen :: inside := by
  cases input with
  | nil => cases h
  | cons symbol inside =>
    obtain rfl : symbol = .openParen := of_decide_eq_true h
    exact ⟨inside, rfl⟩

/-- What calls is called in front of a group that may follow it. -/
theorem ScriptsOn.call {symbol : Symbol} {function : Text} (hcallee : symbol.callee? = some function)
    (h : ScriptsOn last (.openParen :: k)) : Continues last .atom (symbol :: .openParen :: k) := by
  obtain ⟨inside, rest, hinside, hrest⟩ := h.group
  obtain ⟨hclose, -⟩ := not_goesOn_of_startsTerm (hinside.starts _ rfl)
  exact ⟨_, rest, .call hcallee hclose (.argumentsEnd hinside), hrest⟩

/-- A name is an atom in front of what may follow a primary; in front of a parenthesis it is a call. -/
theorem ScriptsOn.name (text : Text) (h : ScriptsOn last k) : Continues last .atom (.name text :: k) := by
  by_cases hopen : goesOn Symbol.isOpen k = true
  · obtain ⟨inside, rfl⟩ := eq_openParen_of_goesOn hopen
    exact h.call rfl
  · exact ⟨_, k, .name (Bool.eq_false_of_not_eq_true hopen), h⟩

/-- A function is an atom there too: alone, with the operand that starts there, or as a call. -/
theorem ScriptsOn.function (hlast : EndsSum last) (f : NamedFunction) (h : ScriptsOn last k) :
    Continues last .atom (.function f :: k) := by
  by_cases hopen : goesOn Symbol.isOpen k = true
  · obtain ⟨inside, rfl⟩ := eq_openParen_of_goesOn hopen
    exact h.call rfl
  · by_cases hatom : goesOn Symbol.startsAtom k = true
    · obtain ⟨_, rest, hoperand, hrest⟩ := h.operand hatom
      exact ⟨_, rest, .functionOperand hatom hoperand, .of_multipliesOn hlast hrest⟩
    · have hstart : goesOn Symbol.startsPowered k = false := by
        cases k with
        | nil => rfl
        | cons symbol k =>
          cases symbol <;> first | rfl | exact absurd rfl hopen | exact absurd rfl hatom
      exact ⟨_, k, .functionAlone hstart, h⟩

/-- A root behind its first group takes a second one. -/
theorem ScriptsOn.rootGroup {first : Expr} (hfirst : Reads .relation input first (.closeParen :: k))
    (h : ScriptsOn last k) : Continues last .atom (.root :: .openParen :: input) := by
  by_cases hopen : goesOn Symbol.isOpen k = true
  · obtain ⟨inside, rfl⟩ := eq_openParen_of_goesOn hopen
    obtain ⟨_, rest, hsecond, hrest⟩ := h.group
    exact ⟨_, rest, .rootTwo hfirst hsecond, hrest⟩
  · exact ⟨_, k, .rootOne hfirst (Bool.eq_false_of_not_eq_true hopen), h⟩

/-- A root is an atom there too, and takes one or two groups if they start there. -/
theorem ScriptsOn.root (h : ScriptsOn last k) : Continues last .atom (.root :: k) := by
  by_cases hopen : goesOn Symbol.isOpen k = true
  · obtain ⟨inside, rfl⟩ := eq_openParen_of_goesOn hopen
    obtain ⟨_, _, hfirst, hrest⟩ := h.group
    exact hrest.rootGroup hfirst
  · exact ⟨_, k, .rootAlone (Bool.eq_false_of_not_eq_true hopen), h⟩

/-- A phrase inside a sum is read in front of whatever may stand behind a row, and leaves what may follow
it. -/
def Onward (last : List Symbol → Prop) (k : List Symbol) (phrase : Phrase) (row : List Symbol) : Prop :=
  phrase.inSum = true → row ≠ [] → Followed last row k → Continues last phrase (row ++ k)

/-- A phrase goes onward with its only part. -/
theorem Onward.part {part whole : Phrase} {build : Expr → Expr}
    (hinput : input ≠ []) (front : List Symbol) (hpart : part.inSum = true)
    (ih : Onward last k part input) (hleaves : ∀ rest, part.Leaves last rest → whole.Leaves last rest)
    (hrule : ∀ tree rest, Reads part (input ++ k) tree rest →
      Reads whole (front ++ (input ++ k)) (build tree) rest) :
    Onward last k whole (front ++ input) := by
  intro _ _ hk
  obtain ⟨tree, rest, hreads, hrest⟩ := ih hpart hinput (hk.suffix (List.suffix_append _ _) hinput)
  rw [List.append_assoc]
  exact ⟨build tree, rest, hrule tree rest hreads, hleaves rest hrest⟩

/-- **One part and then the next.** The first part either leaves something of the row to the next one, or
goes on behind the row and leaves what the next one goes on with. -/
theorem Reads.onward_parts {first whole : Phrase} {more : Expr → Phrase} {build : Expr → Expr}
    {middle : List Symbol} {left : Expr} (h : Reads first input left middle) (front : List Symbol)
    (htakes : first.takesSymbol = true) (hfirst : first.inSum = true)
    (ih₁ : middle = [] → Onward last k first input) (ih₂ : Onward last k (more (build left)) middle)
    (hnext : ∀ rest, first.Leaves last rest → GoesOnTo more (whole.Leaves last) rest)
    (hmore : ∀ e e', (more e).onto e' = more e' ∧ (more e).inSum = true
      ∧ (more e).Leaves last = whole.Leaves last)
    (hrule : ∀ left middle tree rest, Reads first (input ++ k) left middle →
      Reads (more (build left)) middle tree rest → Reads whole (front ++ (input ++ k)) tree rest) :
    Onward last k whole (front ++ input) := by
  intro _ _ hk
  have hinput := h.ne_nil htakes
  have hk := hk.suffix (List.suffix_append _ _) hinput
  rw [List.append_assoc]
  by_cases hend : middle = []
  · obtain ⟨left, middle, hreads, hmiddle⟩ := ih₁ hend hfirst hinput hk
    obtain ⟨tree, rest, hmore, hrest⟩ :=
      (hnext middle hmiddle).reads (build left) fun e => (hmore e _).1
    exact ⟨tree, rest, hrule _ _ _ _ hreads hmore, hrest⟩
  · obtain ⟨-, hsum, hleaves⟩ := hmore (build left) left
    obtain ⟨tree, rest, hmore, hrest⟩ := ih₂ hsum hend (hk.suffix h.suffix hend)
    exact ⟨tree, rest, hrule _ _ _ _ (h.append_right hend k) hmore, hleaves ▸ hrest⟩

/-- A phrase that ends with its row leaves what follows. -/
theorem Onward.closed {phrase : Phrase} {row : List Symbol} {symbol : Symbol} {tree : Expr}
    (hsuffix : [symbol] <:+ row) (hsymbol : symbol.isBigOperator = false)
    (hleaves : ∀ rest, ScriptsOn last rest → phrase.Leaves last rest)
    (h : Reads phrase (row ++ k) tree k) : Onward last k phrase row := by
  intro _ _ hk
  exact ⟨tree, k, h, hleaves k (hk.scriptsOn hsuffix hsymbol)⟩

/-- **Reading goes on.** A phrase inside a sum that is read to the end of a row is read in front of whatever
may stand behind the row, and leaves what may follow it. -/
theorem Reads.onward (hlast : EndsSum last) {phrase : Phrase} {tree : Expr}
    (h : Reads phrase input tree rest) (hrest : rest = []) : Onward last k phrase input := by
  -- The part of the phrase that ends the row goes on behind it, and the parts in front of that one are read
  -- as before. What the part leaves may follow it, and so it may start the next part.
  induction h with
  | relation | relationNext | relationEnd | boundMinus | bound => exact fun hphrase => nomatch hphrase
  | additiveEnd | termEnd | bigAlone | poweredEnd => exact fun _ hinput => absurd hrest hinput
  | additive h₁ _ ih₁ ih₂ =>
    exact h₁.onward_parts [] rfl rfl ih₁ (ih₂ hrest) (fun _ h => h) (fun _ _ => ⟨rfl, rfl, rfl⟩)
      fun _ _ _ _ => .additive
  | @additiveNext symbol _ _ _ _ _ _ _ hop h₁ _ ih₁ ih₂ =>
    exact h₁.onward_parts [symbol] rfl rfl ih₁ (ih₂ hrest) (fun _ h => h) (fun _ _ => ⟨rfl, rfl, rfl⟩)
      fun _ _ _ _ => .additiveNext hop
  | term h₁ _ ih₁ ih₂ =>
    exact h₁.onward_parts [] rfl rfl ih₁ (ih₂ hrest) (fun _ h => h) (fun _ _ => ⟨rfl, rfl, rfl⟩)
      fun _ _ _ _ => .term
  | @termNext symbol _ _ _ _ _ _ _ hop h₁ _ ih₁ ih₂ =>
    exact h₁.onward_parts [symbol] rfl rfl ih₁ (ih₂ hrest) (fun _ h => h) (fun _ _ => ⟨rfl, rfl, rfl⟩)
      fun _ _ _ _ => .termNext hop
  | termBeside hstart h₁ _ ih₁ ih₂ =>
    rw [← goesOn_append (h₁.ne_nil rfl) _ k] at hstart
    exact h₁.onward_parts [] rfl rfl ih₁ (ih₂ hrest) (fun _ h => h) (fun _ _ => ⟨rfl, rfl, rfl⟩)
      fun _ _ _ _ => .termBeside hstart
  | @sign symbol _ _ _ _ hop h₁ ih₁ =>
    exact Onward.part (h₁.ne_nil rfl) [symbol] rfl (ih₁ hrest) (fun _ h => h) fun _ _ => .sign hop
  | factor hs hb h₁ ih₁ =>
    rw [← goesOn_append (h₁.ne_nil rfl) _ k] at hs hb
    exact Onward.part (h₁.ne_nil rfl) [] rfl (ih₁ hrest) (fun _ h => h) fun _ _ => .factor hs hb
  | bigSubscript h₁ _ ih₁ ih₂ =>
    exact h₁.onward_parts [.underscore] rfl rfl ih₁ (ih₂ hrest) (fun _ h => h.takesOn hlast)
      (fun _ _ => ⟨rfl, rfl, rfl⟩) fun _ _ _ _ => .bigSubscript
  | bigPower h₁ _ ih₁ ih₂ =>
    exact h₁.onward_parts [.caret] rfl rfl ih₁ (ih₂ hrest) (fun _ h => h.takesOn hlast)
      (fun _ _ => ⟨rfl, rfl, rfl⟩) fun _ _ _ _ => .bigPower
  | bigTerm hstart h₁ ih₁ =>
    rw [← goesOn_append (h₁.ne_nil rfl) _ k] at hstart
    exact Onward.part (h₁.ne_nil rfl) [] rfl (ih₁ hrest) (fun _ h => .of_addsOn hlast h)
      fun _ _ => .bigTerm hstart
  | powered h₁ _ ih₁ ih₂ =>
    exact h₁.onward_parts [] rfl rfl ih₁ (ih₂ hrest) (fun _ h => h) (fun _ _ => ⟨rfl, rfl, rfl⟩)
      fun _ _ _ _ => .powered
  | subscript h₁ _ ih₁ ih₂ =>
    exact h₁.onward_parts [.underscore] rfl rfl ih₁ (ih₂ hrest) (fun _ h => h)
      (fun _ _ => ⟨rfl, rfl, rfl⟩) fun _ _ _ _ => .subscript
  | power h₁ ih₁ =>
    exact Onward.part (h₁.ne_nil rfl) [.caret] rfl (ih₁ hrest) (fun _ h => h) fun _ _ => .power
  | operand h₁ _ ih₁ ih₂ =>
    exact h₁.onward_parts [] rfl rfl ih₁ (ih₂ hrest) (fun _ h => h) (fun _ _ => ⟨rfl, rfl, rfl⟩)
      fun _ _ _ _ => .operand
  | primary hopen h₁ ih₁ =>
    rw [← goesOn_append (h₁.ne_nil rfl) _ k] at hopen
    exact Onward.part (h₁.ne_nil rfl) [] rfl (ih₁ hrest) (fun _ h => h) fun _ _ => .primary hopen
  | functionOperand hstart h₁ ih₁ =>
    rw [← goesOn_append (h₁.ne_nil rfl) _ k] at hstart
    exact Onward.part (h₁.ne_nil rfl) [.function _] rfl (ih₁ hrest) (fun _ h => .of_multipliesOn hlast h)
      fun _ _ => .functionOperand hstart
  | @call symbol _ _ _ _ hcallee hclose h₁ ih₁ =>
    rw [← goesOn_append (h₁.ne_nil rfl) _ k] at hclose
    exact Onward.part (h₁.ne_nil rfl) [symbol, .openParen] rfl (ih₁ hrest) (fun _ h => h)
      fun _ _ => .call hcallee hclose
  | @bigOperator op input _ _ h₁ ih₁ =>
    by_cases hinput : input = []
    · intro _ _ hk
      rw [hinput] at hk ⊢
      -- The operator ends the row, and what it goes on with stands behind the row.
      rcases hk with hscripts | ⟨op', hop, hfactor⟩
      · obtain ⟨tree, rest, htakes, hrest⟩ := (hscripts.takesOn hlast).reads _ fun _ => rfl
        exact ⟨tree, rest, .bigOperator htakes, hrest⟩
      · obtain rfl : op = op' := Symbol.bigOperator.inj (Option.some.inj hop)
        exact hfactor
    · exact Onward.part hinput [.bigOperator op] rfl (ih₁ hrest) (fun _ h => h) fun _ _ => .bigOperator
  | group h₁ =>
    subst hrest
    exact .closed (h₁.suffix.trans (List.suffix_cons ..)) rfl (fun _ h => h)
      (.group (h₁.up_to k))
  | number =>
    subst hrest
    exact .closed (List.suffix_refl _) rfl (fun _ h => h) .number
  | name =>
    subst hrest
    exact fun _ _ hk => (hk.scriptsOn (List.suffix_refl _) rfl).name _
  | callEmpty hcallee =>
    subst hrest
    exact .closed ⟨[_, .openParen], rfl⟩ rfl (fun _ h => h) (.callEmpty hcallee)
  | functionAlone =>
    subst hrest
    exact fun _ _ hk => (hk.scriptsOn (List.suffix_refl _) rfl).function hlast _
  | rootAlone =>
    subst hrest
    exact fun _ _ hk => (hk.scriptsOn (List.suffix_refl _) rfl).root
  | @rootOne input _ _ h₁ =>
    subst hrest
    have hsuffix : [.closeParen] <:+ .root :: .openParen :: input :=
      h₁.suffix.trans ⟨[.root, .openParen], rfl⟩
    exact fun _ _ hk => (hk.scriptsOn hsuffix rfl).rootGroup (h₁.up_to k)
  | @rootTwo input middle _ _ _ h₁ h₂ =>
    subst hrest
    have hmiddle : middle <:+ input := List.IsSuffix.trans ⟨[.closeParen, .openParen], rfl⟩ h₁.suffix
    exact .closed ((h₂.suffix.trans hmiddle).trans ⟨[.root, .openParen], rfl⟩) rfl (fun _ h => h)
      (.rootTwo (h₁.up_to k) (h₂.up_to k))
  | integral hmark h₁ =>
    subst hrest
    rw [← goesOn_append (h₁.ne_nil rfl) _ k] at hmark
    exact .closed (h₁.suffix.trans (List.suffix_cons ..)) rfl (fun _ h => h)
      (.integral hmark (h₁.up_to k))
  | @integralLower input middle body _ _ _ _ _ h₁ h₂ h₃ =>
    subst hrest
    have hmiddle : middle <:+ input := (List.suffix_cons ..).trans h₁.suffix
    exact .closed (((h₃.suffix.trans h₂.suffix).trans hmiddle).trans ⟨[.integral, .underscore], rfl⟩) rfl
      (fun _ h => h) (.integralLower (h₁.up_to k)
        (h₂.append_right (h₃.ne_nil rfl) k) (h₃.up_to k))
  | @integralUpper input middle body _ _ _ _ _ h₁ h₂ h₃ =>
    subst hrest
    have hmiddle : middle <:+ input := (List.suffix_cons ..).trans h₁.suffix
    exact .closed (((h₃.suffix.trans h₂.suffix).trans hmiddle).trans ⟨[.integral, .caret], rfl⟩) rfl
      (fun _ h => h) (.integralUpper (h₁.up_to k)
        (h₂.append_right (h₃.ne_nil rfl) k) (h₃.up_to k))
  | argumentsNext h₁ h₂ _ ih₂ =>
    intro _ _ hk
    have hmiddle := h₂.ne_nil rfl
    obtain ⟨tree, rest, hmore, hrest⟩ :=
      ih₂ hrest rfl hmiddle (hk.suffix ((List.suffix_cons ..).trans h₁.suffix) hmiddle)
    exact ⟨tree, rest, .argumentsNext (h₁.up_to k) hmore, hrest⟩
  | argumentsEnd h₁ =>
    subst hrest
    exact .closed h₁.suffix rfl (fun _ h => h) (.argumentsEnd (h₁.up_to k))

/-! ## Rows that are followed -/

section

variable (hlast : EndsSum last)
include hlast

/-- A phrase inside a sum goes on behind its row, if what it leaves of the row does. -/
theorem Reads.append {phrase : Phrase} {tree : Expr} (h : Reads phrase input tree rest)
    (hphrase : phrase.inSum = true) (hinput : input ≠ []) (hk : Followed last input k)
    (hleaves : rest ≠ [] → Followed last rest k → phrase.Leaves last (rest ++ k)) :
    Continues last phrase (input ++ k) := by
  by_cases hrest : rest = []
  · exact h.onward hlast hrest hphrase hinput hk
  · exact ⟨tree, rest ++ k, h.append_right hrest k, hleaves hrest (hk.suffix h.suffix hrest)⟩

/-- What may follow a term may be longer, by what may stand behind its row. -/
theorem AddsOn.append (h : AddsOn (· = []) input) (hinput : input ≠ []) (hk : Followed last input k) :
    AddsOn last (input ++ k) := by
  obtain ⟨left, _, _, hmore, hrest⟩ := h
  exact ⟨left, hmore.append hlast rfl hinput hk fun hne => absurd hrest hne⟩

/-- What may follow a factor may be longer, by what may stand behind its row. -/
theorem MultipliesOn.append (h : MultipliesOn (· = []) input) (hinput : input ≠ [])
    (hk : Followed last input k) : MultipliesOn last (input ++ k) := by
  obtain ⟨left, _, _, hmore, hrest⟩ := h
  exact ⟨left, hmore.append hlast rfl hinput hk (hrest.append hlast)⟩

/-- What may follow a primary may be longer, by what may stand behind its row. -/
theorem ScriptsOn.append (h : ScriptsOn (· = []) input) (hinput : input ≠ [])
    (hk : Followed last input k) : ScriptsOn last (input ++ k) := by
  obtain ⟨left, _, _, hmore, hrest⟩ := h
  exact ⟨left, hmore.append hlast rfl hinput hk (hrest.append hlast)⟩

/-- What a phrase leaves may be followed by what may stand behind it. -/
theorem Phrase.Leaves.append {phrase : Phrase} (h : phrase.Leaves (· = []) rest) (hrest : rest ≠ [])
    (hk : Followed last rest k) : phrase.Leaves last (rest ++ k) := by
  cases phrase with
  | additive | moreAdditive => exact absurd h hrest
  | term | moreTerm => exact AddsOn.append hlast h hrest hk
  | factor | bigOperator | powered | morePowered | operand => exact MultipliesOn.append hlast h hrest hk
  | primary | atom | arguments => exact ScriptsOn.append hlast h hrest hk
  | relation | moreRelation | bound => exact h

/-- **A row and what may stand behind it.** A phrase that is read at the front of a row, and leaves what may
follow it, is read at the front of the longer row in the same sense. -/
theorem Continues.append {phrase : Phrase} (h : Continues (· = []) phrase input)
    (hphrase : phrase.inSum = true) (htakes : phrase.takesSymbol = true) (hk : Followed last input k) :
    Continues last phrase (input ++ k) := by
  obtain ⟨_, _, hreads, hrest⟩ := h
  exact hreads.append hlast hphrase (hreads.ne_nil htakes) hk (hrest.append hlast)

end

/-! ## Comparisons that are followed by one more -/

section

variable (hrelation : goesOn Symbol.isRelation k = true)
  (hk : GoesOnTo .moreRelation (· = []) k)
include hrelation hk

/-- A sum is followed by the comparisons of its row, or by the next one where the row ends. -/
theorem Reads.additive_compared {middle : List Symbol} {left : Expr}
    (h : Reads .additive input left middle)
    (hmiddle : middle ≠ [] → GoesOnTo .moreRelation (· = []) (middle ++ k)) :
    ∃ left rest, Reads .additive (input ++ k) left rest ∧ GoesOnTo .moreRelation (· = []) rest := by
  by_cases hend : middle = []
  · have hlast : EndsSum (· = k) := fun rest hrest => .inr (hrest ▸ hrelation)
    obtain ⟨left, rest, hreads, hrest⟩ :=
      h.onward hlast hend rfl (h.ne_nil rfl) (.inl (.of_last hlast rfl))
    obtain rfl : rest = k := hrest
    exact ⟨left, rest, hreads, hk⟩
  · exact ⟨left, middle ++ k, h.append_right hend k, hmiddle hend⟩

/-- Sums joined by relations go on with a relation behind their row. -/
theorem Reads.moreRelation_compared {phrase : Phrase} {tree : Expr}
    (h : Reads phrase input tree rest) {left : Expr} (hphrase : phrase = .moreRelation left)
    (hrest : rest = []) (hinput : input ≠ []) : GoesOnTo .moreRelation (· = []) (input ++ k) := by
  induction h generalizing left with
  | relationNext h₁ _ _ ih₂ =>
    obtain ⟨right, middle, hright, hmiddle⟩ :=
      h₁.additive_compared hrelation hk fun hmiddle => ih₂ rfl hrest hmiddle
    obtain ⟨tree, rest, hmore, hrest⟩ := hmiddle.reads _ fun _ => rfl
    exact ⟨.name [], tree, rest, .relationNext hright hmore, hrest⟩
  | relationEnd => exact absurd hrest hinput
  | _ => cases hphrase

/-- A formula that is followed by a relation is read further: it may be compared once more. -/
theorem Reads.relation_compared {tree : Expr} (h : Reads .relation input tree []) :
    ∃ tree, Reads .relation (input ++ k) tree [] := by
  cases h with
  | relation h₁ h₂ =>
    obtain ⟨left, middle, hleft, hmiddle⟩ :=
      h₁.additive_compared hrelation hk fun hmiddle => h₂.moreRelation_compared hrelation hk rfl rfl hmiddle
    obtain ⟨tree, rest, hmore, rfl⟩ := hmiddle.reads left fun _ => rfl
    exact ⟨tree, .relation hleft hmore⟩

end

end MathScribe
