/-
Big operators take the term behind them.

The reader gives a big operator whatever a term can start with, and that term goes on as far as it can. So what
has to be seen is that it ends where the text of the term ends. A term that is read to the end of its row is
read the same in front of a plus or a relation (`Reads.in_front`): no phrase inside a term goes on with one of
them, and what such a phrase reads of other kinds, in parentheses or as an integrand, ends within the row. In
front of a minus this would be wrong, since a big operator at the end of the term takes what is subtracted.
-/
import MathScribe.Proofs.Reading.Span

set_option autoImplicit false

namespace MathScribe

/-! ## In front of a plus or a relation -/

/-- A row that is empty or starts with a plus or a relation. -/
def EndsTerm : List Symbol → Prop
  | [] => True
  | symbol :: _ => symbol = .plus ∨ symbol.isRelation = true

section

variable {kind : Symbol → Bool} {row k : List Symbol} (hk : EndsTerm k) (hplus : kind .plus = false)
  (hrelation : ∀ r, kind (.relation r) = false)
include hk hplus hrelation

/-- What ends a term goes on with no kind of symbols without plus and relations. -/
theorem EndsTerm.not_goesOn : MathScribe.goesOn kind k = false := by
  cases k with
  | nil => rfl
  | cons symbol k =>
    rcases hk with rfl | hsymbol
    · exact hplus
    · cases symbol with
      | relation r => exact hrelation r
      | _ => cases hsymbol

/-- How a row goes on does not change in front of what ends a term. -/
theorem EndsTerm.goesOn {b : Bool} (h : MathScribe.goesOn kind row = b) :
    MathScribe.goesOn kind (row ++ k) = b := by
  subst h
  cases row with
  | nil => exact hk.not_goesOn hplus hrelation
  | cons symbol row => rfl

end

/-- The phrases that lie inside a term, and are not in parentheses there. -/
def Phrase.inTerm : Phrase → Bool
  | relation | moreRelation _ | additive | moreAdditive _ | bound => false
  | _ => true

/-- **A phrase inside a term is read the same in front of a plus or a relation.** -/
theorem Reads.in_front {phrase : Phrase} {input rest k : List Symbol} {tree : Expr}
    (h : Reads phrase input tree rest) (hphrase : phrase.inTerm = true) (hk : EndsTerm k) :
    Reads phrase (input ++ k) tree (rest ++ k) := by
  have hsame : ∀ {kind : Symbol → Bool} {row : List Symbol} {b : Bool}, kind .plus = false →
      (∀ r, kind (.relation r) = false) → goesOn kind row = b → goesOn kind (row ++ k) = b :=
    fun hplus hrelation h => hk.goesOn hplus hrelation h
  -- A part inside the term may end with it. A relation or a sum is a part as well, but something of the row
  -- is left behind it, so that it does not see what follows the row.
  induction h with
  | term _ _ ih₁ ih₂ => exact .term (ih₁ rfl) (ih₂ rfl)
  | termNext hop _ _ ih₁ ih₂ => exact .termNext hop (ih₁ rfl) (ih₂ rfl)
  | termBeside hstart _ _ ih₁ ih₂ =>
    exact .termBeside (hsame rfl (fun _ => rfl) hstart) (ih₁ rfl) (ih₂ rfl)
  | termEnd h₁ h₂ => exact .termEnd (hsame rfl (fun _ => rfl) h₁) (hsame rfl (fun _ => rfl) h₂)
  | sign hop _ ih => exact .sign hop (ih rfl)
  | bigOperator _ ih => exact .bigOperator (ih rfl)
  | factor h₁ h₂ _ ih =>
    exact .factor (hsame rfl (fun _ => rfl) h₁) (hsame rfl (fun _ => rfl) h₂) (ih rfl)
  | bigSubscript _ _ ih₁ ih₂ => exact .bigSubscript (ih₁ rfl) (ih₂ rfl)
  | bigPower _ _ ih₁ ih₂ => exact .bigPower (ih₁ rfl) (ih₂ rfl)
  | bigTerm hstart _ ih => exact .bigTerm (hsame rfl (fun _ => rfl) hstart) (ih rfl)
  | bigAlone h₁ h₂ => exact .bigAlone (hsame rfl (fun _ => rfl) h₁) (hsame rfl (fun _ => rfl) h₂)
  | powered _ _ ih₁ ih₂ => exact .powered (ih₁ rfl) (ih₂ rfl)
  | subscript _ _ ih₁ ih₂ => exact .subscript (ih₁ rfl) (ih₂ rfl)
  | power _ ih => exact .power (ih rfl)
  | poweredEnd h => exact .poweredEnd (hsame rfl (fun _ => rfl) h)
  | operand _ _ ih₁ ih₂ => exact .operand (ih₁ rfl) (ih₂ rfl)
  | group hinside _ => exact .group (hinside.up_to k)
  | primary h _ ih => exact .primary (hsame rfl (fun _ => rfl) h) (ih rfl)
  | number => exact .number
  | name h => exact .name (hsame rfl (fun _ => rfl) h)
  | callEmpty hcallee => exact .callEmpty hcallee
  | call hcallee hclose _ ih => exact .call hcallee (hsame rfl (fun _ => rfl) hclose) (ih rfl)
  | functionOperand hstart _ ih => exact .functionOperand (hsame rfl (fun _ => rfl) hstart) (ih rfl)
  | functionAlone h => exact .functionAlone (hsame rfl (fun _ => rfl) h)
  | rootAlone h => exact .rootAlone (hsame rfl (fun _ => rfl) h)
  | rootOne hfirst h _ => exact .rootOne (hfirst.up_to k) (hsame rfl (fun _ => rfl) h)
  | rootTwo hfirst hsecond _ _ => exact .rootTwo (hfirst.up_to k) (hsecond.up_to k)
  | integral hmark hbody _ => exact .integral (hsame rfl (fun _ => rfl) hmark) (hbody.up_to k)
  | integralLower hlower hupper hbody _ _ _ =>
    exact .integralLower (hlower.up_to k) (hupper.append_right (hbody.ne_nil rfl) k) (hbody.up_to k)
  | integralUpper hupper hlower hbody _ _ _ =>
    exact .integralUpper (hupper.up_to k) (hlower.append_right (hbody.ne_nil rfl) k) (hbody.up_to k)
  | argumentsNext hargument _ _ ih₂ => exact .argumentsNext (hargument.up_to k) (ih₂ rfl)
  | argumentsEnd hargument _ => exact .argumentsEnd (hargument.up_to k)
  | _ => cases hphrase

/-! ## The rows -/

section Rows

variable {row lower upper k : List Symbol} {operand l u : Expr} (hrow : Reads .term row operand [])
  (hk : EndsTerm k)
include hrow hk

/-- What has been read of a big operator takes the term behind it. -/
theorem Reads.takes_term (head : Expr) :
    Reads (.bigOperator head) (row ++ k) (.juxtapose head operand) k := by
  have hterm : Reads .term (row ++ k) operand k := hrow.in_front rfl hk
  exact .bigTerm (hterm.starts _ rfl) hterm

/-- A big operator and the term behind it. -/
theorem Reads.bigOperator_term (op : BigOperator) :
    Reads .term (.bigOperator op :: (row ++ k)) (.juxtapose (.name op.text) operand) k :=
  .term (.bigOperator (hrow.takes_term hk _))
    (.termEnd (hk.not_goesOn rfl fun _ => rfl) (hk.not_goesOn rfl fun _ => rfl))

/-- A big operator with its scripts in parentheses and the term behind it. -/
theorem Reads.scripted_term (op : BigOperator) (hl : Reads .relation lower l [])
    (hu : Reads .relation upper u []) :
    Reads .term (.bigOperator op :: .underscore :: (encloseIf true lower
      ++ Symbol.caret :: (encloseIf true upper ++ (row ++ k)))) (.juxtapose (.scripted op l u) operand) k := by
  have hterm : Reads .term (row ++ k) operand k := hrow.in_front rfl hk
  -- The exponent is a factor, and it ends in front of the term, which starts with no script.
  obtain ⟨-, hmark⟩ := not_goesOn_of_startsTerm (hterm.starts _ rfl)
  have hexponent := (Reads.powered (hu.group_before _) (.poweredEnd hmark)).factor_of_powered
  exact .term (.bigOperator (.bigSubscript (hl.group_before _) (.bigPower hexponent (hrow.takes_term hk _))))
    (.termEnd (hk.not_goesOn rfl fun _ => rfl) (hk.not_goesOn rfl fun _ => rfl))

end Rows

/-- A term with a formula in parentheses added to it or related to it. -/
theorem Reads.join_group {input w : List Symbol} {left W : Expr} {o : Operator}
    (ho : o = .plus ∨ ∃ r, o = .relation r)
    (hterm : Reads .term input left (o.symbol :: encloseIf true w)) (hw : Reads .relation w W []) :
    Reads .relation input (.binary o left W false) [] := by
  have hgroup := hw.group_before []
  rw [List.append_nil] at hgroup
  have hright : Reads .term (encloseIf true w) W [] := .term hgroup.factor_of_primary (.termEnd rfl rfl)
  rcases ho with rfl | ⟨r, rfl⟩
  · exact .relation (.additive hterm (.additiveNext rfl hright (.additiveEnd rfl))) (.relationEnd rfl)
  · exact .relation (.additive hterm (.additiveEnd rfl)) (.relationNext hright.additive_of_term (.relationEnd rfl))

/-! ## The texts -/

/-- A big operator with its scripts in parentheses, and what stands behind a blank. -/
def scriptedText (op : BigOperator) (lower upper behind : Text) : Text :=
  op.text ++ '_' :: (grouped lower ++ '^' :: (grouped upper ++ ' ' :: behind))

/-- The word of a big operator. -/
theorem Ending.bigOperator (op : BigOperator) {first : Char} {text : Text} {row : List Symbol}
    (h : Ending [] (first :: text) row) (hfirst : first.isAlphanum = false) :
    Ending [] (op.text ++ first :: text) (.bigOperator op :: row) :=
  h.word op.word (Symbol.ofWord_bigOperator op) hfirst rfl rfl rfl

/-- A big operator with two scripts in parentheses can stand in front of a text that ends a formula. -/
theorem Ending.scripted (op : BigOperator) {lower upper behind : Text} {lowerRow upperRow row : List Symbol}
    (hl : Stretch 99 lower lowerRow) (hu : Stretch 99 upper upperRow) (h : Ending [] behind row) :
    Ending [] (scriptedText op lower upper behind) (.bigOperator op :: .underscore :: (encloseIf true lowerRow
      ++ Symbol.caret :: (encloseIf true upperRow ++ row))) :=
  ((h.blank.script (.inr rfl) hu rfl).script (.inl rfl) hl rfl).bigOperator op (by decide)

/-! ## Big operators -/

/-- **A big operator takes exactly the term behind it**, whatever text that is one term stands there: alone,
behind scripts that are any formulas in parentheses, and in front of a plus or a relation. -/
theorem parse_bigOperator (op : BigOperator) {u : Text} {row : List Symbol} {U : Expr}
    (hu : Spans .term u row U) :
    parse u = .ok U
      ∧ parse (op.text ++ ' ' :: u) = .ok (.juxtapose (.name op.text) U)
      ∧ ∀ a A b B, Nested a A → Nested b B →
        parse (scriptedText op a b u) = .ok (.juxtapose (.scripted op A B) U)
          ∧ ∀ o, (o = .plus ∨ ∃ r, o = .relation r) → ∀ w W, Nested w W →
            parse (scriptedText op a b (u ++ ' ' :: (o.text ++ ' ' :: grouped w)))
              = .ok (.binary o (.juxtapose (.scripted op A B) U) W false) := by
  have hbody := hu.formula_of_term.ending
  have halone : Reads .term (.bigOperator op :: row) (.juxtapose (.name op.text) U) [] := by
    have hterm := hu.reads.bigOperator_term (k := []) trivial op
    rwa [List.append_nil] at hterm
  refine ⟨parse_eq_ok_iff_formula.mpr ⟨row, hu.formula_of_term⟩, ?_, fun a A b B ha hb => ?_⟩
  · exact (hbody.blank.bigOperator op (by decide)).parse halone.additive_of_term.relation_of_additive
  · obtain ⟨rowA, hstretchA, hreadsA⟩ := ha.stretch
    obtain ⟨rowB, hstretchB, hreadsB⟩ := hb.stretch
    refine ⟨?_, fun o ho w W hw => ?_⟩
    · have hterm := hu.reads.scripted_term (k := []) trivial op hreadsA hreadsB
      rw [List.append_nil] at hterm
      exact (hbody.scripted op hstretchA hstretchB).parse hterm.additive_of_term.relation_of_additive
    · obtain ⟨rowW, hstretchW, hreadsW⟩ := hw.stretch
      -- The sign behind the term ends it, so the whole is one operation with the group on its right.
      have hall : o ∈ Operator.all ∧ EndsTerm (o.symbol :: encloseIf true rowW) := by
        rcases ho with rfl | ⟨r, rfl⟩
        · exact ⟨by decide, .inl rfl⟩
        · exact ⟨by cases r <;> decide, .inr rfl⟩
      have hright := Ending.of_stretch (hstretchW.group (by decide)) (by decide)
      have hwhole := hbody.spaced (hright.spacedOperator hall.1)
      exact (Ending.scripted op hstretchA hstretchB hwhole).parse
        (Reads.join_group ho (hu.reads.scripted_term hall.2 op hreadsA hreadsB) hreadsW)

/-- A term with a sign and another big operator in it, in front of a relation. -/
theorem parse_bigOperator_sample :
    Spans .term "-x/lim f(y)".toList
        [.minus, .name ['x'], .slash, .bigOperator .lim, .name ['f'], .openParen, .name ['y'], .closeParen]
        (.binary .dividedBy (.unary .minus (.name ['x']))
          (.juxtapose (.name "lim".toList) (.call ['f'] [.name ['y']])) false)
      ∧ parse "sum_(i=1)^(n) -x/lim f(y) <= (2z)".toList
        = .ok (.binary (.relation .atMost)
          (.juxtapose (.scripted .sum (.binary (.relation .equal) (.name ['i']) (.number ['1']) false) (.name ['n']))
            (.binary .dividedBy (.unary .minus (.name ['x']))
              (.juxtapose (.name "lim".toList) (.call ['f'] [.name ['y']])) false))
          (.juxtapose (.number ['2']) (.name ['z'])) false) := by
  have hterm : Spans .term "-x/lim f(y)".toList
      [.minus, .name ['x'], .slash, .bigOperator .lim, .name ['f'], .openParen, .name ['y'], .closeParen]
      (.binary .dividedBy (.unary .minus (.name ['x']))
        (.juxtapose (.name "lim".toList) (.call ['f'] [.name ['y']])) false) :=
    ⟨⟨_, rfl, rfl⟩, by decide +kernel⟩
  have hlower : Nested "i=1".toList (.binary (.relation .equal) (.name ['i']) (.number ['1']) false) :=
    ⟨by decide +kernel, by decide⟩
  have hupper : Nested "n".toList (.name ['n']) := ⟨by decide +kernel, by decide⟩
  have hright : Nested "2z".toList (.juxtapose (.number ['2']) (.name ['z'])) :=
    ⟨by decide +kernel, by decide⟩
  exact ⟨hterm, ((parse_bigOperator .sum hterm).2.2 _ _ _ _ hlower hupper).2 _ (.inr ⟨.atMost, rfl⟩) _ _ hright⟩

end MathScribe
