/-
Which sentences are read.

The grammar is ambiguous, and the reader settles each choice once and for all by taking what it can. So it
may take a symbol that some derivation needs elsewhere, and there are sentences that it rejects. There are
two places where that happens.

1. A bound of an integral has no mark at its end. In `int_0^a (x) dx` the upper bound is taken to be the call
   `a(x)`, and no integrand is left.
2. A big operator can stand behind another one that takes it, and behind nothing else. In
   `sum^sum_sin x*y sum z` the function takes `x` and leaves `*y` to the first operator, which then does not
   take the last one.

Everywhere else the symbols that the reader takes are not missed. `DerivesApart` is the grammar with these
two places guarded, and its sentences are exactly the ones that are read (`exists_parse_iff`). For a row
without bounds and with at most one big operator it is the grammar itself (`Derives.apart`).

That they are read is one induction over the derivation. The claim for a nonterminal is not that its row is
read as its phrase, as the reader may divide the row in another way; it is that the phrase is read at the
front of the row and that what it leaves may follow it (`Continues`), which is what `Continues.append` keeps
up. Conversely every rule of the reader is a production, as for the grammar without guards.
-/
import MathScribe.Proofs.Reading.Bounds
import MathScribe.Proofs.Reading.Continuation
import MathScribe.Proofs.Reading.Grammar

set_option autoImplicit false

namespace MathScribe

/-! ## The guarded grammar -/

/-- In front of a big operator the row of another one takes it: together they are one factor. -/
def TakesNext (row : List Symbol) (op : BigOperator) : Prop :=
  ∃ tree, Reads .factor (row ++ [.bigOperator op]) tree []

/-- **The guarded grammar**, without meanings. Its productions are those of `Derives`, except that each bound
of an integral is one bound in front of the symbol behind it, and that a big operator takes a term which
starts with another one only if it takes that operator. -/
inductive DerivesApart : Nonterminal → List Symbol → Prop
  | start {row : List Symbol} : DerivesApart .relation row → DerivesApart .start row
  | relation {row : List Symbol} : DerivesApart .additive row → DerivesApart .relation row
  | compared {a b : List Symbol} {symbol : Symbol} :
      DerivesApart .relation a → symbol.isRelation = true → DerivesApart .additive b →
      DerivesApart .relation (a ++ symbol :: b)
  | additive {row : List Symbol} : DerivesApart .term row → DerivesApart .additive row
  | added {a b : List Symbol} {symbol : Symbol} :
      DerivesApart .additive a → symbol.isAdditive = true → DerivesApart .term b →
      DerivesApart .additive (a ++ symbol :: b)
  | term {row : List Symbol} : DerivesApart .factor row → DerivesApart .term row
  | multiplied {a b : List Symbol} {symbol : Symbol} :
      DerivesApart .term a → symbol.isMultiplicative = true → DerivesApart .factor b →
      DerivesApart .term (a ++ symbol :: b)
  | beside {a b : List Symbol} :
      DerivesApart .term a → DerivesApart .powered b → DerivesApart .term (a ++ b)
  | factor {row : List Symbol} : DerivesApart .powered row → DerivesApart .factor row
  | signed {row : List Symbol} {symbol : Symbol} :
      symbol.isSign = true → DerivesApart .factor row → DerivesApart .factor (symbol :: row)
  | bigAlone {row : List Symbol} : DerivesApart .bigOperator row → DerivesApart .factor row
  | bigTaking {a b : List Symbol} :
      DerivesApart .bigOperator a → DerivesApart .term b →
      (∀ op, b.head? = some (.bigOperator op) → TakesNext a op) → DerivesApart .factor (a ++ b)
  | bigName {op : BigOperator} : DerivesApart .bigOperator [.bigOperator op]
  | bigSubscript {a b : List Symbol} :
      DerivesApart .bigOperator a → DerivesApart .primary b →
      DerivesApart .bigOperator (a ++ .underscore :: b)
  | bigPower {a b : List Symbol} :
      DerivesApart .bigOperator a → DerivesApart .factor b →
      DerivesApart .bigOperator (a ++ .caret :: b)
  | powered {row : List Symbol} : DerivesApart .scripted row → DerivesApart .powered row
  | power {a b : List Symbol} :
      DerivesApart .scripted a → DerivesApart .factor b → DerivesApart .powered (a ++ .caret :: b)
  | scripted {row : List Symbol} : DerivesApart .primary row → DerivesApart .scripted row
  | subscript {a b : List Symbol} :
      DerivesApart .scripted a → DerivesApart .primary b →
      DerivesApart .scripted (a ++ .underscore :: b)
  | group {row : List Symbol} :
      DerivesApart .relation row → DerivesApart .primary (.openParen :: row ++ [.closeParen])
  | primary {row : List Symbol} : DerivesApart .atom row → DerivesApart .primary row
  | number {digits : Text} : DerivesApart .atom [.number digits]
  | name {text : Text} : DerivesApart .atom [.name text]
  | callEmpty {symbol : Symbol} {function : Text} :
      symbol.callee? = some function → DerivesApart .atom [symbol, .openParen, .closeParen]
  | call {row : List Symbol} {symbol : Symbol} {function : Text} :
      symbol.callee? = some function → DerivesApart .arguments row →
      DerivesApart .atom (symbol :: .openParen :: row ++ [.closeParen])
  | functionTaking {row : List Symbol} {f : NamedFunction} :
      DerivesApart .barePowered row → DerivesApart .atom (.function f :: row)
  | functionName {f : NamedFunction} : DerivesApart .atom [.function f]
  | rootOne {row : List Symbol} :
      DerivesApart .relation row → DerivesApart .atom (.root :: .openParen :: row ++ [.closeParen])
  | rootTwo {a b : List Symbol} :
      DerivesApart .relation a → DerivesApart .relation b →
      DerivesApart .atom (.root :: .openParen :: a ++ .closeParen :: .openParen :: b ++ [.closeParen])
  | rootName : DerivesApart .atom [.root]
  | integral {row : List Symbol} : DerivesApart .integral row → DerivesApart .atom row
  | barePowered {row : List Symbol} : DerivesApart .bareScripted row → DerivesApart .barePowered row
  | barePower {a b : List Symbol} :
      DerivesApart .bareScripted a → DerivesApart .factor b →
      DerivesApart .barePowered (a ++ .caret :: b)
  | bareScripted {row : List Symbol} : DerivesApart .atom row → DerivesApart .bareScripted row
  | bareSubscript {a b : List Symbol} :
      DerivesApart .bareScripted a → DerivesApart .primary b →
      DerivesApart .bareScripted (a ++ .underscore :: b)
  | argument {row : List Symbol} : DerivesApart .relation row → DerivesApart .arguments row
  | arguments {a b : List Symbol} :
      DerivesApart .relation a → DerivesApart .arguments b →
      DerivesApart .arguments (a ++ .comma :: b)
  | unbounded {row : List Symbol} {v : Text} :
      DerivesApart .additive row →
      DerivesApart .integral (.integral :: row ++ [.differential v])
  | lowerUpper {a b body : List Symbol} {next : Symbol} {v : Text} :
      IsOne .bound a .caret → IsOne .bound b next → DerivesApart .additive (next :: body) →
      DerivesApart .integral
        (.integral :: .underscore :: a ++ .caret :: b ++ next :: body ++ [.differential v])
  | upperLower {a b body : List Symbol} {next : Symbol} {v : Text} :
      IsOne .bound a .underscore → IsOne .bound b next → DerivesApart .additive (next :: body) →
      DerivesApart .integral
        (.integral :: .caret :: a ++ .underscore :: b ++ next :: body ++ [.differential v])

/-! ## Guarded sentences are read -/

/-- What is read at the front of a row of a nonterminal: the whole row, or a phrase with what may follow
it. Arguments are read up to the parenthesis that closes them, and bounds are not derived on their own. -/
def Nonterminal.IsRead : Nonterminal → List Symbol → Prop
  | start, row | relation, row => ∃ tree, Reads .relation row tree []
  | additive, row => Continues (· = []) .additive row
  | term, row => Continues (· = []) .term row
  | factor, row | bigOperator, row => Continues (· = []) .factor row
  | powered, row | scripted, row | primary, row => Continues (· = []) .primary row
  | barePowered, row | bareScripted, row | atom, row | integral, row => Continues (· = []) .atom row
  | arguments, row =>
    ∀ function done, ∃ tree, Reads (.arguments function done) (row ++ [.closeParen]) tree []
  | bounds, _ | bound, _ => True

/-- At the end of a row a sum ends. -/
theorem endsSum_nil : EndsSum (· = []) :=
  fun _ h => .inl h

section

variable {row k : List Symbol}

/-- Nothing may follow a primary. -/
theorem scriptsOn_nil : ScriptsOn (· = []) [] :=
  .of_last endsSum_nil rfl

/-- What is read to the end of a row is read in front of a stop. -/
theorem Reads.stopped {phrase : Phrase} {tree : Expr} {symbol : Symbol} (h : Reads phrase row tree [])
    (hsymbol : symbol.isStop = true) : Reads phrase (row ++ symbol :: k) tree (symbol :: k) := by
  have hstops : Stops (symbol :: k) := hsymbol
  exact h.extend hstops

/-- A phrase is read in front of what may follow a primary. -/
theorem Continues.followed {phrase : Phrase} (h : Continues (· = []) phrase row)
    (hphrase : phrase.inSum = true) (htakes : phrase.takesSymbol = true) (hk : ScriptsOn (· = []) k) :
    Continues (· = []) phrase (row ++ k) :=
  h.append endsSum_nil hphrase htakes (.inl hk)

/-- A term is read to the end of its sum. -/
theorem Continues.additive (h : Continues (· = []) .term row) : Continues (· = []) .additive row := by
  obtain ⟨left, rest, hterm, hrest⟩ := h
  obtain ⟨tree, rest, hmore, hrest⟩ := GoesOnTo.reads hrest left fun _ => rfl
  exact ⟨tree, rest, .additive hterm hmore, hrest⟩

/-- A factor is read to the end of its term. -/
theorem Continues.term (h : Continues (· = []) .factor row) : Continues (· = []) .term row := by
  obtain ⟨left, rest, hfactor, hrest⟩ := h
  obtain ⟨tree, rest, hmore, hrest⟩ := GoesOnTo.reads hrest left fun _ => rfl
  exact ⟨tree, rest, .term hfactor hmore, hrest⟩

/-- What leaves the rest of its term leaves what may follow a factor. -/
theorem Continues.factor_of_term (h : Continues (· = []) .term row) : Continues (· = []) .factor row := by
  obtain ⟨_, _, hterm, hrest⟩ := h
  cases hterm with
  | term hfactor hmore => exact ⟨_, _, hfactor, _, _, _, hmore, hrest⟩

/-- A primary is read with its scripts. -/
theorem Continues.powered (h : Continues (· = []) .primary row) : Continues (· = []) .powered row := by
  obtain ⟨base, rest, hprimary, hrest⟩ := h
  obtain ⟨tree, rest, hmore, hrest⟩ := GoesOnTo.reads hrest base fun _ => rfl
  exact ⟨tree, rest, .powered hprimary hmore, hrest⟩

/-- Where a primary starts, a factor is read. -/
theorem Continues.factor (h : Continues (· = []) .primary row) : Continues (· = []) .factor row := by
  obtain ⟨tree, rest, hpowered, hrest⟩ := h.powered
  exact ⟨tree, rest, hpowered.factor_of_powered, hrest⟩

/-- Where an atom starts, a primary is read, since no atom starts with a parenthesis. -/
theorem Continues.primary (h : Continues (· = []) .atom row) : Continues (· = []) .primary row := by
  obtain ⟨tree, rest, hatom, hrest⟩ := h
  refine ⟨tree, rest, .primary (goesOn_apart ?_ (hatom.starts _ rfl)) hatom, hrest⟩
  intro symbol hsymbol
  cases symbol <;> first | rfl | cases hsymbol

/-- A term that starts with no big operator may follow a term. -/
theorem Continues.scriptsOn (h : Continues (· = []) .term row)
    (hrow : goesOn Symbol.isBigOperator row = false) : ScriptsOn (· = []) row := by
  obtain ⟨_, _, hterm, hrest⟩ := h
  cases hterm with
  | term hfactor hmore =>
    cases hfactor with
    | @sign symbol _ _ _ _ hop hfactor =>
      -- The sign is taken for an operator between summands.
      obtain ⟨tree, hmore⟩ := hmore.onto _
      have hadditive : symbol.isAdditive = true := by cases symbol <;> first | rfl | cases hop
      exact .of_multipliesOn endsSum_nil (.of_addsOn endsSum_nil
        (.next hadditive ⟨tree, _, .term hfactor hmore, hrest⟩))
    | bigOperator => cases hrow
    | factor _ _ hpowered =>
      exact .of_multipliesOn endsSum_nil (.beside ⟨_, _, hpowered, _, _, _, hmore, hrest⟩)

/-- **A big operator takes a term.** If the term starts with another big operator, the row of the first one
has to take that one; then the term is read from there on. -/
theorem Continues.taking (h : Continues (· = []) .factor row) (hk : Continues (· = []) .term k)
    (htakes : ∀ op, k.head? = some (.bigOperator op) → TakesNext row op) :
    Continues (· = []) .factor (row ++ k) := by
  by_cases hbig : goesOn Symbol.isBigOperator k = true
  · obtain ⟨op, k, rfl⟩ : ∃ op k', k = .bigOperator op :: k' := by
      cases k with
      | nil => cases hbig
      | cons symbol k => cases symbol <;> first | exact ⟨_, _, rfl⟩ | cases hbig
    obtain ⟨tree, hreads⟩ := htakes op rfl
    have hfollowed : Followed (· = []) (row ++ [.bigOperator op]) k :=
      .inr ⟨op, List.getLast?_concat, hk.factor_of_term⟩
    have honward := hreads.onward endsSum_nil rfl rfl (by simp) hfollowed
    rwa [List.append_assoc] at honward
  · exact h.followed rfl rfl (hk.scriptsOn (Bool.eq_false_of_not_eq_true hbig))

/-- The row of an integral with bounds, part by part. -/
theorem boundedRow (first second : Symbol) (a b body : List Symbol) (next last : Symbol) :
    .integral :: first :: a ++ second :: b ++ next :: body ++ [last]
      = .integral :: first :: (a ++ second :: (b ++ next :: (body ++ [last]))) := by
  simp

end

/-- **A guarded row is read.** -/
theorem DerivesApart.isRead {nonterminal : Nonterminal} {row : List Symbol}
    (h : DerivesApart nonterminal row) : nonterminal.IsRead row := by
  -- What follows in a production may follow what stands in front of it, so the first part is read in front
  -- of it; and what the first part leaves then starts the second one.
  induction h with
  | start _ ih => exact ih
  | relation _ ih =>
    obtain ⟨tree, _, hadditive, rfl⟩ := ih
    exact ⟨tree, .relation hadditive (.relationEnd rfl)⟩
  | @compared _ _ symbol _ hsymbol _ ih₁ ih₂ =>
    obtain ⟨left, hleft⟩ := ih₁
    obtain ⟨right, _, hright, rfl⟩ := ih₂
    obtain ⟨r, rfl⟩ : ∃ r, symbol = .relation r := by
      cases symbol <;> first | exact ⟨_, rfl⟩ | cases hsymbol
    exact hleft.relation_compared rfl ⟨.name [], _, _, .relationNext hright (.relationEnd rfl), rfl⟩
  | additive _ ih => exact Continues.additive ih
  | added _ hsymbol _ ih₁ ih₂ =>
    exact Continues.followed ih₁ rfl rfl (.of_multipliesOn endsSum_nil (.of_addsOn endsSum_nil
      (.next hsymbol ih₂)))
  | term _ ih => exact Continues.term ih
  | multiplied _ hsymbol _ ih₁ ih₂ =>
    exact Continues.followed ih₁ rfl rfl (.of_multipliesOn endsSum_nil (.next hsymbol ih₂))
  | beside _ _ ih₁ ih₂ =>
    exact Continues.followed ih₁ rfl rfl (.of_multipliesOn endsSum_nil (.beside (Continues.powered ih₂)))
  | factor _ ih => exact Continues.factor ih
  | @signed _ symbol hsymbol _ ih =>
    obtain ⟨op, hop⟩ := Option.isSome_iff_exists.mp hsymbol
    obtain ⟨operand, rest, hfactor, hrest⟩ := ih
    exact ⟨_, rest, .sign hop hfactor, hrest⟩
  | bigAlone _ ih => exact ih
  | bigTaking _ _ htakes ih₁ ih₂ => exact Continues.taking ih₁ ih₂ htakes
  | bigName =>
    exact ⟨_, [], .bigOperator (.bigAlone rfl rfl), .of_addsOn endsSum_nil (.of_last endsSum_nil rfl)⟩
  | bigSubscript _ _ ih₁ ih₂ => exact Continues.followed ih₁ rfl rfl (.subscript ih₂)
  | bigPower _ _ ih₁ ih₂ => exact Continues.followed ih₁ rfl rfl (.power ih₂)
  | powered _ ih | scripted _ ih | integral _ ih | barePowered _ ih | bareScripted _ ih => exact ih
  | power _ _ ih₁ ih₂ | barePower _ _ ih₁ ih₂ => exact Continues.followed ih₁ rfl rfl (.power ih₂)
  | subscript _ _ ih₁ ih₂ | bareSubscript _ _ ih₁ ih₂ =>
    exact Continues.followed ih₁ rfl rfl (.subscript ih₂)
  | group _ ih =>
    obtain ⟨tree, hinside⟩ := ih
    exact ⟨tree, [], .group (hinside.stopped rfl), scriptsOn_nil⟩
  | primary _ ih => exact Continues.primary ih
  | number => exact ⟨_, [], .number, scriptsOn_nil⟩
  | name => exact ⟨_, [], .name rfl, scriptsOn_nil⟩
  | callEmpty hcallee => exact ⟨_, [], .callEmpty hcallee, scriptsOn_nil⟩
  | @call row _ _ hcallee _ ih =>
    obtain ⟨tree, harguments⟩ := ih _ []
    obtain ⟨hclose, -⟩ := not_goesOn_of_startsTerm (harguments.starts _ rfl)
    exact ⟨tree, [], .call hcallee hclose harguments, scriptsOn_nil⟩
  | functionTaking _ ih =>
    obtain ⟨base, rest, hatom, hrest⟩ := ih
    obtain ⟨tree, rest, hmore, hrest⟩ := GoesOnTo.reads hrest base fun _ => rfl
    exact ⟨_, rest, .functionOperand (hatom.starts _ rfl) (.operand hatom hmore),
      .of_multipliesOn endsSum_nil hrest⟩
  | functionName => exact ⟨_, [], .functionAlone rfl, scriptsOn_nil⟩
  | rootOne _ ih =>
    obtain ⟨first, hfirst⟩ := ih
    exact ⟨_, [], .rootOne (hfirst.stopped rfl) rfl, scriptsOn_nil⟩
  | @rootTwo a b _ _ ih₁ ih₂ =>
    obtain ⟨first, hfirst⟩ := ih₁
    obtain ⟨second, hsecond⟩ := ih₂
    refine ⟨.call rootWord [first, second], [], ?_, scriptsOn_nil⟩
    have hrow : Symbol.root :: .openParen :: a ++ .closeParen :: .openParen :: b ++ [Symbol.closeParen]
        = .root :: .openParen :: (a ++ .closeParen :: .openParen :: (b ++ [.closeParen])) := by
      simp
    rw [hrow]
    exact .rootTwo (hfirst.stopped rfl) (hsecond.stopped rfl)
  | rootName => exact ⟨_, [], .rootAlone rfl, scriptsOn_nil⟩
  | argument _ ih =>
    intro function done
    obtain ⟨argument, hargument⟩ := ih
    exact ⟨_, .argumentsEnd (hargument.stopped rfl)⟩
  | arguments _ _ ih₁ ih₂ =>
    intro function done
    obtain ⟨argument, hargument⟩ := ih₁
    obtain ⟨tree, hmore⟩ := ih₂ function (done ++ [argument])
    refine ⟨tree, ?_⟩
    rw [List.append_assoc]
    exact .argumentsNext (hargument.stopped rfl) hmore
  | @unbounded row v _ ih =>
    obtain ⟨integrand, _, hintegrand, rfl⟩ := ih
    have hbody : Reads .additive (row ++ [.differential v]) integrand [.differential v] :=
      hintegrand.stopped rfl
    obtain ⟨-, hmark⟩ := not_goesOn_of_startsTerm (hbody.starts _ rfl)
    exact ⟨_, [], .integral hmark hbody, scriptsOn_nil⟩
  | @lowerUpper a b body next v hlower hupper _ ih =>
    obtain ⟨lower, hlower⟩ := hlower
    obtain ⟨upper, hupper⟩ := hupper
    obtain ⟨integrand, _, hintegrand, rfl⟩ := ih
    refine ⟨.call integralWord [integrand, .name v, lower, upper], [], ?_, scriptsOn_nil⟩
    rw [boundedRow]
    exact .integralLower (hlower.exchange .cons) (hupper.exchange .cons) (hintegrand.stopped rfl)
  | @upperLower a b body next v hupper hlower _ ih =>
    obtain ⟨upper, hupper⟩ := hupper
    obtain ⟨lower, hlower⟩ := hlower
    obtain ⟨integrand, _, hintegrand, rfl⟩ := ih
    refine ⟨.call integralWord [integrand, .name v, lower, upper], [], ?_, scriptsOn_nil⟩
    rw [boundedRow]
    exact .integralUpper (hupper.exchange .cons) (hlower.exchange .cons) (hintegrand.stopped rfl)

/-! ## What is read is guarded -/

/-- The symbols that a phrase takes in front of others are guarded. A phrase that goes on with a left side
takes them behind every row of the left side. A big operator has to be read together with what follows its
row; otherwise it would not take what it takes. -/
def Phrase.TakesApart : Phrase → List Symbol → List Symbol → Prop
  | relation, taken, _ => DerivesApart .relation taken
  | moreRelation _, taken, _ =>
    ∀ front, DerivesApart .relation front → DerivesApart .relation (front ++ taken)
  | additive, taken, _ => DerivesApart .additive taken
  | moreAdditive _, taken, _ =>
    ∀ front, DerivesApart .additive front → DerivesApart .additive (front ++ taken)
  | term, taken, _ => DerivesApart .term taken
  | moreTerm _, taken, _ => ∀ front, DerivesApart .term front → DerivesApart .term (front ++ taken)
  | factor, taken, _ => DerivesApart .factor taken
  | bigOperator head, taken, rest =>
    ∀ front, DerivesApart .bigOperator front →
      (∀ more tree, Quieter (taken ++ rest) more → Reads (.bigOperator head) more tree [] →
        ∃ tree, Reads .factor (front ++ more) tree []) →
      DerivesApart .factor (front ++ taken)
  | powered, taken, _ => DerivesApart .powered taken
  | morePowered _, taken, _ =>
    (∀ front, DerivesApart .scripted front → DerivesApart .powered (front ++ taken))
      ∧ ∀ front, DerivesApart .bareScripted front → DerivesApart .barePowered (front ++ taken)
  | operand, taken, _ => DerivesApart .barePowered taken
  | primary, taken, _ => DerivesApart .primary taken
  | atom, taken, _ => DerivesApart .atom taken
  | arguments _ _, taken, _ => ∃ row, taken = row ++ [.closeParen] ∧ DerivesApart .arguments row
  | bound, _, _ => True

/-- The bounds of an integral that is read are one bound each. -/
theorem Reads.bounds_isOne {input middle body rest : List Symbol} {lower upper integrand : Expr}
    {mark : Symbol} {v : Text} (h₁ : Reads .bound input lower (mark :: middle))
    (h₂ : Reads .bound middle upper body) (h₃ : Reads .additive body integrand (.differential v :: rest))
    (hbody : ∃ taken, body = taken ++ .differential v :: rest ∧ DerivesApart .additive taken) :
    ∃ a b next taken, input = a ++ mark :: (b ++ next :: (taken ++ .differential v :: rest))
      ∧ IsOne .bound a mark ∧ IsOne .bound b next ∧ DerivesApart .additive (next :: taken) := by
  obtain ⟨a, rfl⟩ := h₁.suffix
  obtain ⟨b, rfl⟩ := h₂.suffix
  obtain ⟨taken, rfl, htaken⟩ := hbody
  obtain ⟨next, taken, rfl⟩ := List.exists_cons_of_ne_nil (h₃.taken_ne_nil rfl)
  exact ⟨a, b, next, taken, rfl, h₁.isOne, h₂.isOne, htaken⟩

/-- **What is read is guarded.** -/
theorem Reads.takesApart {phrase : Phrase} {input rest : List Symbol} {tree : Expr}
    (h : Reads phrase input tree rest) :
    Takes (fun taken => phrase.TakesApart taken rest) input rest := by
  -- As for the grammar without guards, each rule of the reader is a production. The guards hold because the
  -- reader has ended the bound there, or goes on with the big operator.
  induction h with
  | relation _ _ ih₁ ih₂ => exact ih₁.andThen ih₂ fun a _ ha hb => hb a (.relation ha)
  | relationNext _ _ ih₁ ih₂ =>
    refine .cons (ih₁.andThen ih₂ fun a b ha hb front hfront => ?_)
    simpa using hb _ (.compared hfront rfl ha)
  | relationEnd | additiveEnd | termEnd => exact .empty fun front hfront => by simpa using hfront
  | additive _ _ ih₁ ih₂ => exact ih₁.andThen ih₂ fun a _ ha hb => hb a (.additive ha)
  | additiveNext hop _ _ ih₁ ih₂ =>
    refine .cons (ih₁.andThen ih₂ fun a b ha hb front hfront => ?_)
    simpa using hb _ (.added hfront (Option.isSome_of_eq_some hop) ha)
  | term _ _ ih₁ ih₂ => exact ih₁.andThen ih₂ fun a _ ha hb => hb a (.term ha)
  | termNext hop _ _ ih₁ ih₂ =>
    refine .cons (ih₁.andThen ih₂ fun a b ha hb front hfront => ?_)
    simpa using hb _ (.multiplied hfront (Option.isSome_of_eq_some hop) ha)
  | termBeside _ _ _ ih₁ ih₂ =>
    refine ih₁.andThen ih₂ fun a b ha hb front hfront => ?_
    simpa using hb _ (.beside hfront ha)
  | sign hop _ ih => exact .cons (ih.mono fun _ => .signed (Option.isSome_of_eq_some hop))
  | bigOperator _ ih =>
    exact .cons (ih.mono fun _ ha => ha _ .bigName fun _ _ _ hmore => ⟨_, .bigOperator hmore⟩)
  | factor _ _ _ ih => exact ih.mono fun _ => .factor
  | bigSubscript h₁ _ ih₁ ih₂ =>
    obtain ⟨a, rfl, ha⟩ := ih₁
    obtain ⟨b, rfl, hb⟩ := ih₂
    refine ⟨.underscore :: a ++ b, by simp, fun front hfront htakes => ?_⟩
    have hfactor := hb _ (.bigSubscript hfront ha) fun more tree hquieter hmore => by
      have hscripted := htakes (.underscore :: (a ++ more)) tree .cons
        (.bigSubscript (h₁.exchange hquieter) hmore)
      rwa [List.append_assoc]
    simpa using hfactor
  | bigPower h₁ _ ih₁ ih₂ =>
    obtain ⟨a, rfl, ha⟩ := ih₁
    obtain ⟨b, rfl, hb⟩ := ih₂
    refine ⟨.caret :: a ++ b, by simp, fun front hfront htakes => ?_⟩
    have hfactor := hb _ (.bigPower hfront ha) fun more tree hquieter hmore => by
      have hscripted := htakes (.caret :: (a ++ more)) tree .cons
        (.bigPower (h₁.exchange hquieter) hmore)
      rwa [List.append_assoc]
    simpa using hfactor
  | bigTerm _ _ ih =>
    refine ih.mono fun a ha front hfront htakes => .bigTaking hfront ha fun op hop => ?_
    obtain ⟨a, rfl⟩ := List.head?_eq_some_iff.mp hop
    exact htakes [.bigOperator op] _ .cons
      (.bigTerm rfl (.term (.bigOperator (.bigAlone rfl rfl)) (.termEnd rfl rfl)))
  | bigAlone => exact .empty fun _ hfront _ => by simpa using DerivesApart.bigAlone hfront
  | powered _ _ ih₁ ih₂ => exact ih₁.andThen ih₂ fun a _ ha hb => hb.1 a (.scripted ha)
  | subscript _ _ ih₁ ih₂ =>
    refine .cons (ih₁.andThen ih₂ fun a b ha hb => ⟨fun front hfront => ?_, fun front hfront => ?_⟩)
    · simpa using hb.1 _ (.subscript hfront ha)
    · simpa using hb.2 _ (.bareSubscript hfront ha)
  | power _ ih =>
    exact .cons (ih.mono fun _ ha =>
      ⟨fun _ hfront => .power hfront ha, fun _ hfront => .barePower hfront ha⟩)
  | poweredEnd =>
    refine .empty ⟨fun front hfront => ?_, fun front hfront => ?_⟩
    · simpa using DerivesApart.powered hfront
    · simpa using DerivesApart.barePowered hfront
  | operand _ _ ih₁ ih₂ => exact ih₁.andThen ih₂ fun a _ ha hb => hb.2 a (.bareScripted ha)
  | group _ ih => exact .cons (ih.closed fun _ => .group)
  | primary _ _ ih => exact ih.mono fun _ => .primary
  | number => exact .one .number
  | name => exact .one .name
  | callEmpty hcallee => exact .cons (.cons (.one (.callEmpty hcallee)))
  | call hcallee _ _ ih =>
    refine .cons (.cons (ih.mono fun _ hrow => ?_))
    obtain ⟨row, rfl, hrow⟩ := hrow
    exact .call hcallee hrow
  | functionOperand _ _ ih => exact .cons (ih.mono fun _ => .functionTaking)
  | functionAlone => exact .one .functionName
  | rootAlone => exact .one .rootName
  | rootOne _ _ ih => exact .cons (.cons (ih.closed fun _ => .rootOne))
  | rootTwo _ _ ih₁ ih₂ =>
    obtain ⟨b, rfl, hb⟩ := ih₂
    obtain ⟨a, rfl, ha⟩ := ih₁
    exact ⟨.root :: .openParen :: a ++ .closeParen :: .openParen :: b ++ [Symbol.closeParen], by simp,
      .rootTwo ha hb⟩
  | integral _ _ ih => exact .cons (ih.closed fun _ ha => .integral (.unbounded ha))
  | @integralLower _ _ _ _ _ _ _ v h₁ h₂ h₃ _ _ ih₃ =>
    obtain ⟨a, b, next, body, rfl, hlower, hupper, hbody⟩ := h₁.bounds_isOne h₂ h₃ ih₃
    refine ⟨.integral :: .underscore :: a ++ .caret :: b ++ next :: body ++ [Symbol.differential v], ?_,
      .integral (.lowerUpper hlower hupper hbody)⟩
    simp
  | @integralUpper _ _ _ _ _ _ _ v h₁ h₂ h₃ _ _ ih₃ =>
    obtain ⟨a, b, next, body, rfl, hupper, hlower, hbody⟩ := h₁.bounds_isOne h₂ h₃ ih₃
    refine ⟨.integral :: .caret :: a ++ .underscore :: b ++ next :: body ++ [Symbol.differential v], ?_,
      .integral (.upperLower hupper hlower hbody)⟩
    simp
  | argumentsNext _ _ ih₁ ih₂ =>
    refine ih₁.upTo ih₂ fun a b ha hb => ?_
    obtain ⟨row, rfl, hrow⟩ := hb
    exact ⟨a ++ .comma :: row, by simp, .arguments ha hrow⟩
  | argumentsEnd _ ih => exact ih.closed fun a ha => ⟨a, rfl, .argument ha⟩
  | boundMinus h₁ =>
    obtain ⟨a, rfl⟩ := h₁.suffix
    exact ⟨.minus :: a, rfl, trivial⟩
  | bound _ h₁ =>
    obtain ⟨a, rfl⟩ := h₁.suffix
    exact ⟨a, rfl, trivial⟩

/-- The rows that are read from end to end are the sentences of the guarded grammar. -/
theorem exists_reads_iff {row : List Symbol} :
    (∃ tree, Reads .relation row tree []) ↔ DerivesApart .start row := by
  constructor
  · rintro ⟨tree, h⟩
    obtain ⟨taken, rfl, htaken⟩ := h.takesApart
    rw [List.append_nil]
    exact .start htaken
  · intro h
    exact h.isRead

/-- Guarded sentences are sentences of the grammar. -/
theorem DerivesApart.derives {row : List Symbol} (h : DerivesApart .start row) :
    ∃ tree, Derives .start row (.tree tree) := by
  obtain ⟨tree, hreads⟩ := exists_reads_iff.mpr h
  obtain ⟨taken, hrow, htaken⟩ := hreads.derives
  rw [List.append_nil] at hrow
  exact ⟨tree, hrow ▸ .start htaken⟩

/-! ## Rows that need no guard -/

/-- No integral in the row has bounds, and there is at most one big operator. -/
structure NeedsNoGuard (row : List Symbol) : Prop where
  noBounds : ∀ mark : Symbol, mark.isScriptMark = true → ¬ [.integral, mark] <:+: row
  oneBigOperator : row.countP Symbol.isBigOperator ≤ 1

namespace NeedsNoGuard

variable {a b : List Symbol} {symbol : Symbol}

/-- Whatever stands inside a row that needs no guard needs none. -/
theorem part (h : NeedsNoGuard b) (ha : a <:+: b) : NeedsNoGuard a where
  noBounds mark hmark hmarked := h.noBounds mark hmark (hmarked.trans ha)
  oneBigOperator := Nat.le_trans ha.sublist.countP_le h.oneBigOperator

theorem left (h : NeedsNoGuard (a ++ b)) : NeedsNoGuard a :=
  h.part (List.prefix_append a b).isInfix

theorem right (h : NeedsNoGuard (a ++ b)) : NeedsNoGuard b :=
  h.part (List.suffix_append a b).isInfix

theorem tail (h : NeedsNoGuard (symbol :: b)) : NeedsNoGuard b :=
  h.part (List.suffix_cons symbol b).isInfix

end NeedsNoGuard

/-- The nonterminals of bounds, which the guarded grammar does without. -/
def Nonterminal.isBounds : Nonterminal → Bool
  | bounds | bound => true
  | _ => false

/-- The row of a big operator has one. -/
theorem Derives.one_le_countP {nonterminal : Nonterminal} {row : List Symbol} {meaning : Meaning}
    (h : Derives nonterminal row meaning) (hbig : nonterminal = .bigOperator) :
    1 ≤ row.countP Symbol.isBigOperator := by
  induction h with
  | bigName => exact Nat.le_refl 1
  | bigSubscript _ _ ih | bigPower _ _ ih =>
    rw [List.countP_append]
    exact Nat.le_trans (ih rfl) (Nat.le_add_right ..)
  | _ => cases hbig

/-- Bounds start with a mark. -/
theorem Derives.bounds_cons {row : List Symbol} {meaning : Meaning} (h : Derives .bounds row meaning) :
    ∃ mark behind, row = mark :: behind ∧ mark.isScriptMark = true := by
  cases h with
  | lowerUpper | upperLower => exact ⟨_, _, rfl, rfl⟩

/-- **Where nothing has to be guarded, the guarded grammar is the grammar.** -/
theorem Derives.apart {nonterminal : Nonterminal} {row : List Symbol} {meaning : Meaning}
    (h : Derives nonterminal row meaning) (hrow : NeedsNoGuard row)
    (hnonterminal : nonterminal.isBounds = false) : DerivesApart nonterminal row := by
  induction h with
  | start _ ih => exact .start (ih hrow rfl)
  | relation _ ih => exact .relation (ih hrow rfl)
  | compared _ hsymbol _ ih₁ ih₂ =>
    exact .compared (ih₁ hrow.left rfl) hsymbol (ih₂ hrow.right.tail rfl)
  | additive _ ih => exact .additive (ih hrow rfl)
  | added _ hsymbol _ ih₁ ih₂ =>
    exact .added (ih₁ hrow.left rfl) hsymbol (ih₂ hrow.right.tail rfl)
  | term _ ih => exact .term (ih hrow rfl)
  | multiplied _ hsymbol _ ih₁ ih₂ =>
    exact .multiplied (ih₁ hrow.left rfl) hsymbol (ih₂ hrow.right.tail rfl)
  | beside _ _ ih₁ ih₂ => exact .beside (ih₁ hrow.left rfl) (ih₂ hrow.right rfl)
  | factor _ ih => exact .factor (ih hrow rfl)
  | signed hsymbol _ ih => exact .signed hsymbol (ih hrow.tail rfl)
  | bigAlone _ ih => exact .bigAlone (ih hrow rfl)
  | bigTaking hbig _ ih₁ ih₂ =>
    refine .bigTaking (ih₁ hrow.left rfl) (ih₂ hrow.right rfl) fun op hop => ?_
    -- The row has no second big operator.
    obtain ⟨b, rfl⟩ := List.head?_eq_some_iff.mp hop
    have hcount := hrow.oneBigOperator
    have hone := hbig.one_le_countP rfl
    rw [List.countP_append, List.countP_cons_of_pos rfl] at hcount
    omega
  | bigName => exact .bigName
  | bigSubscript _ _ ih₁ ih₂ =>
    exact .bigSubscript (ih₁ hrow.left rfl) (ih₂ hrow.right.tail rfl)
  | bigPower _ _ ih₁ ih₂ =>
    exact .bigPower (ih₁ hrow.left rfl) (ih₂ hrow.right.tail rfl)
  | powered _ ih => exact .powered (ih hrow rfl)
  | power _ _ ih₁ ih₂ =>
    exact .power (ih₁ hrow.left rfl) (ih₂ hrow.right.tail rfl)
  | scripted _ ih => exact .scripted (ih hrow rfl)
  | subscript _ _ ih₁ ih₂ =>
    exact .subscript (ih₁ hrow.left rfl) (ih₂ hrow.right.tail rfl)
  | group _ ih => exact .group (ih hrow.left.tail rfl)
  | primary _ ih => exact .primary (ih hrow rfl)
  | number => exact .number
  | name => exact .name
  | callEmpty hcallee => exact .callEmpty hcallee
  | call hcallee _ ih => exact .call hcallee (ih hrow.left.tail.tail rfl)
  | functionTaking _ ih => exact .functionTaking (ih hrow.tail rfl)
  | functionName => exact .functionName
  | rootOne _ ih => exact .rootOne (ih hrow.left.tail.tail rfl)
  | rootTwo _ _ ih₁ ih₂ =>
    exact .rootTwo (ih₁ hrow.left.left.tail.tail rfl)
      (ih₂ hrow.left.right.tail.tail rfl)
  | rootName => exact .rootName
  | integral _ ih => exact .integral (ih hrow rfl)
  | barePowered _ ih => exact .barePowered (ih hrow rfl)
  | barePower _ _ ih₁ ih₂ =>
    exact .barePower (ih₁ hrow.left rfl) (ih₂ hrow.right.tail rfl)
  | bareScripted _ ih => exact .bareScripted (ih hrow rfl)
  | bareSubscript _ _ ih₁ ih₂ =>
    exact .bareSubscript (ih₁ hrow.left rfl) (ih₂ hrow.right.tail rfl)
  | argument _ ih => exact .argument (ih hrow rfl)
  | arguments _ _ ih₁ ih₂ =>
    exact .arguments (ih₁ hrow.left rfl) (ih₂ hrow.right.tail rfl)
  | unbounded _ ih => exact .unbounded (ih hrow.left.tail rfl)
  | @bounded _ b _ _ _ v hbounds =>
    obtain ⟨mark, behind, rfl, hmark⟩ := hbounds.bounds_cons
    exact absurd ⟨[], behind ++ b ++ [.differential v], by simp⟩ (hrow.noBounds mark hmark)
  | lowerUpper | upperLower | bound | boundMinus => cases hnonterminal

/-! ## Texts -/

/-- **A sentence without bounds and with at most one big operator is understood**, under any resolution of
the ambiguities. -/
theorem parse_of_derives {text : Text} {tokens : List Token} {meaning : Meaning}
    (htokens : tokenize text = .ok tokens) (hderives : Derives .start (tokens.map Token.symbol) meaning)
    (hrow : NeedsNoGuard (tokens.map Token.symbol)) : ∃ tree, parse text = .ok tree := by
  obtain ⟨tree, hreads⟩ := exists_reads_iff.mpr (hderives.apart hrow rfl)
  have hclosed := closedRow?_eq_some_iff_tokenize.mpr ⟨tokens, htokens, rfl⟩
  exact ⟨tree, parse_eq_ok_iff.mpr ⟨_, hclosed, hreads⟩⟩

/-- **Which texts are understood**: `parse` gives a tree for those whose tokens are a sentence of the guarded
grammar, and for no others. -/
theorem exists_parse_iff {text : Text} :
    (∃ tree, parse text = .ok tree)
      ↔ ∃ tokens, tokenize text = .ok tokens ∧ DerivesApart .start (tokens.map Token.symbol) := by
  constructor
  · rintro ⟨tree, h⟩
    obtain ⟨row, hclosed, hreads⟩ := parse_eq_ok_iff.mp h
    obtain ⟨tokens, htokens, rfl⟩ := closedRow?_eq_some_iff_tokenize.mp hclosed
    exact ⟨tokens, htokens, exists_reads_iff.mp ⟨tree, hreads⟩⟩
  · rintro ⟨tokens, htokens, hderives⟩
    obtain ⟨tree, hreads⟩ := exists_reads_iff.mpr hderives
    have hclosed := closedRow?_eq_some_iff_tokenize.mpr ⟨tokens, htokens, rfl⟩
    exact ⟨tree, parse_eq_ok_iff.mpr ⟨_, hclosed, hreads⟩⟩

/-- A text whose tokens are a sentence of the grammar, and which is rejected all the same. -/
def RejectedSentence (text : Text) : Prop :=
  ∃ tokens tree, tokenize text = .ok tokens ∧ Derives .start (tokens.map Token.symbol) (.tree tree)
    ∧ ∃ e, parse text = .error e

/-- A text is a rejected sentence when its row is derived and parsing it fails. -/
theorem RejectedSentence.of_row {text : Text} {row : List Symbol} {tree : Expr} {e : ParseError}
    (hrow : closedRow? text = some row) (hderives : Derives .relation row (.tree tree))
    (herror : parse text = .error e) : RejectedSentence text := by
  obtain ⟨tokens, htokens, rfl⟩ := closedRow?_eq_some_iff_tokenize.mp hrow
  exact ⟨tokens, tree, htokens, .start hderives, e, herror⟩

/-- A factor is a whole formula. -/
theorem Derives.relation_of_factor {row : List Symbol} {tree : Expr} (h : Derives .factor row (.tree tree)) :
    Derives .relation row (.tree tree) :=
  .relation (.additive (.term h))

/-- An atom is a factor. -/
theorem Derives.factor_of_primary {row : List Symbol} {tree : Expr} (h : Derives .primary row (.tree tree)) :
    Derives .factor row (.tree tree) :=
  .factor (.powered (.scripted h))

/-- An upper bound that is taken for the name of a call, and an operand that a function takes away from a
term. -/
theorem sentences_rejected :
    RejectedSentence "int_0^a (x) dx".toList ∧ RejectedSentence "sum^sum_sin x*y sum z".toList := by
  have hname : ∀ c, Derives .factor [.name [c]] (.tree (.name [c])) := fun c =>
    .factor_of_primary (.primary .name)
  constructor
  · have hbounds : Derives .bounds [.underscore, .number ['0'], .caret, .name ['a']]
        (.bounds (.number ['0']) (.name ['a'])) :=
      .lowerUpper (a := [_]) (.bound (.primary .number)) (.bound (.primary .name))
    have hbody : Derives .additive [.openParen, .name ['x'], .closeParen] (.tree (.name ['x'])) :=
      .additive (.term (.factor_of_primary (.group (.relation_of_factor (hname 'x')))))
    have hintegral := Derives.bounded (v := ['x']) hbounds hbody
    exact .of_row (by cbv) (.relation_of_factor (.factor_of_primary (.primary (.integral hintegral))))
      (by cbv)
  · -- The exponent is the second operator with `sin` as its script and `x*y` as its term.
    have hproduct := @Derives.multiplied _ _ .star _ _ (.term (hname 'x')) rfl (hname 'y')
    have hsum := @Derives.bigName .sum
    have hscripted := Derives.bigSubscript hsum (.primary (@Derives.functionName .sin))
    have hexponent := Derives.bigTaking hscripted hproduct
    have hlast := Derives.bigTaking hsum (.term (hname 'z'))
    have hwhole := Derives.bigTaking (.bigPower hsum hexponent) (.term hlast)
    exact .of_row (by cbv) (.relation_of_factor hwhole) (by cbv)

end MathScribe
