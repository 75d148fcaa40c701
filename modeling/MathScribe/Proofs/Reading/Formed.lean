/-
The trees of formulas.

A tree can be put together by hand in many ways that no formula is read as. The tree of a formula has one of
the fourteen operators between operands and a sign in front of one; its numbers are written as numbers, and
its names are words; an integral has an integrand and a variable, and then no bounds or both; a root has its
radicand, and then an index or none (`Formed`). Whoever goes through the tree of a formula meets these nodes
only.

That the tree is so is shown along the grammar: each rule makes such a tree of such trees
(`Derives.allFormed`), when the numbers and the names in the row are what a text can contain
(`Symbol.IsLexical`).
-/
import MathScribe.Proofs.Reading.Grammar
import MathScribe.Proofs.Writing.Spelling

set_option autoImplicit false

namespace MathScribe

/-! ## Symbols of a text -/

/-- A symbol as a text can contain it: a number is written as one, and a name is a word that has no meaning of
its own. -/
def Symbol.IsLexical : Symbol → Prop
  | number digits => digits ≠ [] ∧ NumberText digits
  | name text | differential text => PlainName text
  | _ => True

namespace Symbol

/-- A word becomes a symbol that the lexer can give. -/
theorem ofWord_isLexical {word : Text} (h : IsWord word) : (ofWord word).IsLexical := by
  by_cases hreserved : word ∈ reservedWords
  · simp only [reservedWords, List.mem_cons, List.mem_append, List.mem_map] at hreserved
    rcases hreserved with rfl | rfl | ⟨f, -, rfl⟩ | ⟨op, -, rfl⟩
    · trivial
    · trivial
    · rw [ofWord_function]
      trivial
    · rw [ofWord_bigOperator]
      trivial
  · rw [ofWord_of_unreserved hreserved]
    exact ⟨h, hreserved⟩

/-- Every symbol that is read is one that a text can contain. -/
theorem read?_isLexical {c : Char} {rest : Text} {symbol : Symbol} (h : read? c rest = some symbol) :
    symbol.IsLexical := by
  rcases read?_cases h with ⟨hc, rfl⟩ | ⟨-, hne, rfl⟩ | ⟨-, -, hmark⟩
  · exact ofWord_isLexical ⟨c, _, rfl, hc, List.all_eq_true.mp List.all_takeWhile⟩
  · obtain ⟨_, -, hnumber, -⟩ := numberAt_spec (c :: rest)
    exact ⟨hne, hnumber⟩
  · unfold markAt? at hmark
    split at hmark <;> cases hmark <;> trivial

/-- What calls is a plain name or a function. -/
theorem IsLexical.callee {symbol : Symbol} {function : Text} (h : symbol.IsLexical)
    (hcallee : symbol.callee? = some function) : Callee function := by
  cases symbol with
  | name text =>
    cases hcallee
    exact .plain h
  | function f =>
    cases hcallee
    exact .function f
  | _ => cases hcallee

end Symbol

/-- The symbols of a formula are ones that a text can contain, also when integrals are closed. -/
theorem closedRow?_isLexical {text : Text} {row : List Symbol} (h : closedRow? text = some row) :
    ∀ symbol ∈ row, symbol.IsLexical := by
  refine closedRow?_forall Symbol.read?_isLexical ⟨.letter (by decide), fun _ hname => hname, ?_⟩ h
  intro text v _ hv
  obtain ⟨c, hc, -, rfl⟩ := Nesting.differentialOf?_eq_some hv
  exact .letter hc

/-! ## Trees of formulas -/

/-- **The trees that formulas are read as.** -/
inductive Formed : Expr → Prop
  | number {digits : Text} : digits ≠ [] → Symbol.NumberText digits → Formed (.number digits)
  | name {text : Text} : IsWord text → text ≠ integralWord → Formed (.name text)
  | sign {op : Operator} {operand : Expr} :
      op = .minus ∨ op = .plusMinus → Formed operand → Formed (.unary op operand)
  | operator {op : Operator} {left right : Expr} :
      op ∈ Operator.all → Formed left → Formed right → Formed (.binary op left right false)
  | beside {left right : Expr} : Formed left → Formed right → Formed (.juxtapose left right)
  | call {function : Text} {arguments : List Expr} :
      Callee function → (∀ argument ∈ arguments, Formed argument) → Formed (.call function arguments)
  | rootOne {radicand : Expr} : Formed radicand → Formed (.call rootWord [radicand])
  | rootTwo {index radicand : Expr} :
      Formed index → Formed radicand → Formed (.call rootWord [index, radicand])
  | integral {integrand : Expr} {v : Text} :
      PlainName v → Formed integrand → Formed (.call integralWord [integrand, .name v])
  | integralBounds {integrand lower upper : Expr} {v : Text} :
      PlainName v → Formed integrand → Formed lower → Formed upper →
      Formed (.call integralWord [integrand, .name v, lower, upper])

/-- All trees that a row stands for are trees of formulas. -/
def Meaning.AllFormed : Meaning → Prop
  | tree e => Formed e
  | trees es => ∀ e ∈ es, Formed e
  | bounds lower upper => Formed lower ∧ Formed upper

/-- The operator of a symbol between two operands is one of the fourteen. -/
theorem Symbol.ofText_mem_all {symbol : Symbol}
    (h : symbol.isRelation = true ∨ symbol.isAdditive = true ∨ symbol.isMultiplicative = true) :
    Operator.ofText symbol.text ∈ Operator.all := by
  cases symbol with
  | relation r => cases r <;> decide
  | plusMinus | plus | minus | star | slash => decide
  | _ => rcases h with h | h | h <;> cases h

/-- The operator of a sign. -/
theorem Symbol.ofText_sign {symbol : Symbol} (h : symbol.isSign = true) :
    Operator.ofText symbol.text = .minus ∨ Operator.ofText symbol.text = .plusMinus := by
  cases symbol with
  | plusMinus => exact .inr rfl
  | minus => exact .inl rfl
  | _ => cases h

/-- The name of a function or of a big operator. -/
theorem Formed.function (f : NamedFunction) : Formed (.name f.text) :=
  .name (Callee.function f).word (Callee.function f).ne.1

/-- The name of a big operator is a formed tree. -/
theorem Formed.bigOperator (op : BigOperator) : Formed (.name op.text) := by
  refine .name op.word ?_
  cases op <;> decide

/-- **The grammar derives trees of formulas only.** -/
theorem Derives.allFormed {nonterminal : Nonterminal} {row : List Symbol} {meaning : Meaning}
    (h : Derives nonterminal row meaning) (hrow : ∀ symbol ∈ row, symbol.IsLexical) :
    meaning.AllFormed := by
  -- A row of lexical symbols is cut where the production cuts it, and its parts are lexical again.
  induction h with
  | start _ ih | relation _ ih | additive _ ih | term _ ih | factor _ ih | bigAlone _ ih | powered _ ih
  | scripted _ ih | primary _ ih | integral _ ih | barePowered _ ih | bareScripted _ ih | bound _ ih =>
    exact ih hrow
  | compared _ hsymbol _ ihl ihr =>
    obtain ⟨hleft, hright⟩ := List.forall_mem_append.mp hrow
    exact .operator (Symbol.ofText_mem_all (.inl hsymbol)) (ihl hleft)
      (ihr (List.forall_mem_cons.mp hright).2)
  | added _ hsymbol _ ihl ihr =>
    obtain ⟨hleft, hright⟩ := List.forall_mem_append.mp hrow
    exact .operator (Symbol.ofText_mem_all (.inr (.inl hsymbol))) (ihl hleft)
      (ihr (List.forall_mem_cons.mp hright).2)
  | multiplied _ hsymbol _ ihl ihr =>
    obtain ⟨hleft, hright⟩ := List.forall_mem_append.mp hrow
    exact .operator (Symbol.ofText_mem_all (.inr (.inr hsymbol))) (ihl hleft)
      (ihr (List.forall_mem_cons.mp hright).2)
  | beside _ _ ihl ihr | bigTaking _ _ ihl ihr =>
    obtain ⟨hleft, hright⟩ := List.forall_mem_append.mp hrow
    exact .beside (ihl hleft) (ihr hright)
  | signed hsign _ ih =>
    exact .sign (Symbol.ofText_sign hsign) (ih (List.forall_mem_cons.mp hrow).2)
  | bigName => exact .bigOperator _
  | bigSubscript _ _ ihl ihr | subscript _ _ ihl ihr | bareSubscript _ _ ihl ihr
  | bigPower _ _ ihl ihr | power _ _ ihl ihr | barePower _ _ ihl ihr =>
    obtain ⟨hleft, hright⟩ := List.forall_mem_append.mp hrow
    exact .operator (by decide) (ihl hleft) (ihr (List.forall_mem_cons.mp hright).2)
  | group _ ih =>
    exact ih (List.forall_mem_cons.mp (List.forall_mem_append.mp hrow).1).2
  | number =>
    obtain ⟨hne, hnumber⟩ : Symbol.IsLexical (.number _) := hrow _ List.mem_cons_self
    exact .number hne hnumber
  | name =>
    have hplain : PlainName _ := hrow _ List.mem_cons_self
    exact .name hplain.word (Callee.plain hplain).ne.1
  | callEmpty hcallee => exact .call ((hrow _ List.mem_cons_self).callee hcallee) (by simp)
  | call hcallee _ ih =>
    obtain ⟨hsymbol, hinside⟩ := List.forall_mem_cons.mp (List.forall_mem_append.mp hrow).1
    exact .call (hsymbol.callee hcallee) (ih (List.forall_mem_cons.mp hinside).2)
  | @functionTaking _ f _ _ ih =>
    exact .call (.function f) (List.forall_mem_singleton.mpr (ih (List.forall_mem_cons.mp hrow).2))
  | functionName => exact .function _
  | rootOne _ ih =>
    obtain ⟨-, hinside⟩ := List.forall_mem_cons.mp (List.forall_mem_append.mp hrow).1
    exact .rootOne (ih (List.forall_mem_cons.mp hinside).2)
  | rootTwo _ _ ihi ihr =>
    simp only [List.cons_append, List.append_assoc, List.forall_mem_cons, List.forall_mem_append] at hrow
    exact .rootTwo (ihi hrow.2.2.1) (ihr hrow.2.2.2.2.2.1)
  | rootName => exact .name isWord_rootWord (by decide)
  | argument _ ih => exact List.forall_mem_singleton.mpr (ih hrow)
  | arguments _ _ ihfirst ihmore =>
    obtain ⟨hfirst, hmore⟩ := List.forall_mem_append.mp hrow
    exact List.forall_mem_cons.mpr ⟨ihfirst hfirst, ihmore (List.forall_mem_cons.mp hmore).2⟩
  | unbounded _ ih =>
    obtain ⟨hinside, hvariable⟩ := List.forall_mem_append.mp hrow
    exact .integral (hvariable _ List.mem_cons_self) (ih (List.forall_mem_cons.mp hinside).2)
  | bounded _ _ ihbounds ihintegrand =>
    obtain ⟨hinside, hvariable⟩ := List.forall_mem_append.mp hrow
    obtain ⟨hbounds, hintegrand⟩ := List.forall_mem_append.mp hinside
    obtain ⟨hlower, hupper⟩ := ihbounds (List.forall_mem_cons.mp hbounds).2
    exact .integralBounds (hvariable _ List.mem_cons_self) (ihintegrand hintegrand) hlower hupper
  | lowerUpper _ _ ihfirst ihsecond =>
    obtain ⟨hfirst, hsecond⟩ := List.forall_mem_append.mp hrow
    exact ⟨ihfirst (List.forall_mem_cons.mp hfirst).2, ihsecond (List.forall_mem_cons.mp hsecond).2⟩
  | upperLower _ _ ihfirst ihsecond =>
    obtain ⟨hfirst, hsecond⟩ := List.forall_mem_append.mp hrow
    exact ⟨ihsecond (List.forall_mem_cons.mp hsecond).2, ihfirst (List.forall_mem_cons.mp hfirst).2⟩
  | boundMinus _ ih => exact .sign (.inl rfl) (ih (List.forall_mem_cons.mp hrow).2)

/-- **What a text is read as is the tree of a formula.** -/
theorem formed_of_parse {text : Text} {tree : Expr} (h : parse text = .ok tree) : Formed tree := by
  obtain ⟨row, hclosed, hreads⟩ := parse_eq_ok_iff.mp h
  obtain ⟨taken, htaken, hexplains⟩ := hreads.derives
  rw [List.append_nil] at htaken
  exact Derives.allFormed hexplains (htaken ▸ closedRow?_isLexical hclosed)

end MathScribe
