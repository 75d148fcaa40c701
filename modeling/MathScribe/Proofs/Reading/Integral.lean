/-
Integrals of any sum, with and without bounds.

An integral is closed by a pass of its own, which looks for a name that can be a differential and knows of a
formula only how many parentheses and integrals are open. So an integral is understood as it is meant only if
two things agree: where the pass closes it, and where the reader ends the integrand.

The pass is the delicate one. A row that is put behind an open integral is closed as it is alone, unless one of
its names passes for the differential of the integral outside. That can only be a name outside of all
parentheses (`outermost`), and only one that is shaped like a differential (`Symbol.mayClose`): inside
parentheses the integral is at another depth, and inside an inner integral a name passes for the differential
of that one, or stays a name because of what follows it in the row itself (`Closes.inIntegral`). Bounds in
parentheses are closed as they are alone in any case.
-/
import MathScribe.Proofs.Reading.Span

set_option autoImplicit false

namespace MathScribe

/-! ## Names that could close an integral outside -/

/-- The symbols of a row that stand outside of all parentheses, for a row at some depth. -/
def outermost : Int → List Symbol → List Symbol
  | _, [] => []
  | depth, symbol :: row =>
    if depth = 0 then symbol :: outermost (depth + symbol.weight) row
    else outermost (depth + symbol.weight) row

/-- A name that is `d` or a `d` with a letter, as the differential of an integral is. -/
def Symbol.mayClose : Symbol → Bool
  | name text => text = ['d'] || (Nesting.differentialOf? text).isSome
  | _ => false

/-- What stands outermost behind a symbol stands outermost in the whole row. -/
theorem mem_outermost_cons {depth depth' : Int} {symbol other : Symbol} {row : List Symbol}
    (hdepth : depth + symbol.weight = depth') (h : other ∈ outermost depth' row) :
    other ∈ outermost depth (symbol :: row) := by
  rw [outermost, hdepth]
  split
  · exact List.mem_cons_of_mem _ h
  · exact h

/-- The first symbol of a row stands outermost. -/
theorem mem_outermost_self (symbol : Symbol) (row : List Symbol) : symbol ∈ outermost 0 (symbol :: row) := by
  rw [outermost, if_pos rfl]
  exact List.mem_cons_self

/-- A name that cannot close an integral passes for no differential. -/
theorem Symbol.not_passesForDifferential_of_mayClose {symbol : Symbol} (h : symbol.mayClose = false)
    (behind : List Symbol) : symbol.passesForDifferential behind = false := by
  cases symbol with
  | name text =>
    simp only [mayClose, Bool.or_eq_false_iff, decide_eq_false_iff_not, Option.isSome_eq_false_iff,
      Option.isNone_iff_eq_none] at h
    exact Closing.not_passesForDifferential h.1 h.2 behind
  | _ => rfl

/-- **Inside one more integral** a row is closed as it is alone, when no name outside of its parentheses can
close the integral. -/
theorem Closes.inIntegral {stack last : List Bracket} {raw row behind out : List Symbol}
    (h : Closes stack raw row [])
    (hfree : ∀ symbol ∈ outermost (Closing.depthOf stack) row, symbol.mayClose = false)
    (hbehind : Closes [.integral] behind out last) :
    Closes (stack ++ [Bracket.integral]) (raw ++ behind) (row ++ out) last := by
  generalize hend : ([] : List Bracket) = inside at h
  -- Behind the row all its own brackets are closed. So a name at its end is outside of them.
  induction h with
  | nil =>
    subst hend
    exact hbehind
  | symbol hname hpass _ ih =>
    exact .symbol hname (Symbol.pass?_append hpass _)
      (ih (fun other hother => hfree other (mem_outermost_cons (Closing.depthOf_of_pass? hpass) hother)) hend)
  | joined _ ih =>
    exact .joined (ih (fun other hother => hfree other (mem_outermost_cons (Int.add_zero _) hother)) hend)
  | differential hv _ ih =>
    exact .differential hv
      (ih (fun other hother => hfree other (mem_outermost_cons (Int.add_zero _) hother)) hend)
  | @name stack _ text raw row hkeep hrest ih =>
    refine .name ?_
      (ih (fun other hother => hfree other (mem_outermost_cons (Int.add_zero _) hother)) hend)
    cases stack with
    | nil =>
      have hclose := Symbol.not_passesForDifferential_of_mayClose (hfree _ (mem_outermost_self _ row))
      exact fun hpasses => Bool.false_ne_true ((hclose _).symm.trans hpasses.2)
    | cons bracket stack =>
      cases raw with
      | nil =>
        cases hrest
        cases hend
      | cons next raw => exact hkeep

/-! ## The texts -/

/-- An integrand with its differential, behind what opens the integral. -/
def withDifferential (integrand v : Text) : Text :=
  ' ' :: (integrand ++ ' ' :: 'd' :: ' ' :: v)

/-- An integrand with its differential closes the integral that is open. -/
theorem Ending.withDifferential {c v : Text} {row : List Symbol} {C : Expr} (hc : Formula c row C)
    (hfree : ∀ symbol ∈ outermost 0 row, symbol.mayClose = false) (hv : PlainName v) :
    Ending [.integral] (MathScribe.withDifferential c v) (row ++ [Symbol.differential v]) := by
  obtain ⟨raw, hraw, hcloses, hdepth⟩ := hc.ending.closes
  have hdifferential : symbolsOf (' ' :: 'd' :: ' ' :: v) = some [.name ['d'], .name v] := by
    have hd : PlainName ['d'] := .letter (by decide)
    exact (symbolsOf_blank (by decide) _).trans ((Spells.name hd).beside (Spells.name hv)).symbols
  have hweights : greatestDepth Symbol.weight 0 [.name ['d'], .name v] = 0 := by
    simp [greatestDepth, Symbol.weight]
  have hsum : (raw.map Symbol.weight).sum = 0 := by simpa [Closing.depthOf] using hcloses.weight
  refine Ending.blank ⟨raw ++ [.name ['d'], .name v], ?_, hcloses.inIntegral hfree (.joined .nil), ?_⟩
  · exact symbolsOf_append_cons (by decide) hraw hdifferential
  · have hzero : Closing.depthOf [.integral] = 0 := rfl
    rw [hzero, greatestDepth_append, hsum, Int.zero_add, hweights]
    exact Int.max_le.mpr ⟨hdepth, by decide⟩

/-- The word of an integral opens it. -/
theorem Ending.integral {first : Char} {text : Text} {row : List Symbol}
    (h : Ending [.integral] (first :: text) row) (hfirst : first.isAlphanum = false) :
    Ending [] (integralWord ++ first :: text) (.integral :: row) :=
  h.word isWord_integralWord Symbol.ofWord_integralWord hfirst rfl rfl rfl

/-! ## The rows -/

section Rows

variable {row lower upper : List Symbol} {integrand l u : Expr} (hrow : Reads .additive row integrand [])
include hrow

/-- A sum ends in front of a differential. -/
theorem Reads.before_last (v : Text) :
    Reads .additive (row ++ [Symbol.differential v]) integrand [.differential v] :=
  hrow.extend (k := [.differential v]) rfl

/-- An integrand with its differential behind an integral is one formula. -/
theorem Reads.integral_of_additive (v : Text) :
    Reads .relation (.integral :: (row ++ [Symbol.differential v])) (.call integralWord [integrand, .name v])
      [] := by
  have hbody := hrow.before_last v
  obtain ⟨-, hmark⟩ := not_goesOn_of_startsTerm (hbody.starts _ rfl)
  exact (Reads.primary rfl (.integral hmark hbody)).factor_of_primary.relation_of_factor

variable (hl : Reads .relation lower l []) (hu : Reads .relation upper u [])
include hl hu

/-- An integral with its bounds in parentheses, the lower one first. -/
theorem Reads.integral_lower_upper (v : Text) :
    Reads .relation (.integral :: .underscore :: (encloseIf true lower
      ++ Symbol.caret :: (encloseIf true upper ++ (row ++ [Symbol.differential v]))))
      (.call integralWord [integrand, .name v, l, u]) [] :=
  (Reads.primary rfl (.integralLower (Reads.bound_of_primary (hl.group_before _))
    (Reads.bound_of_primary (hu.group_before _)) (hrow.before_last v))).factor_of_primary.relation_of_factor

/-- An integral with its bounds in parentheses, the upper one first. -/
theorem Reads.integral_upper_lower (v : Text) :
    Reads .relation (.integral :: .caret :: (encloseIf true upper
      ++ Symbol.underscore :: (encloseIf true lower ++ (row ++ [Symbol.differential v]))))
      (.call integralWord [integrand, .name v, l, u]) [] :=
  (Reads.primary rfl (.integralUpper (Reads.bound_of_primary (hu.group_before _))
    (Reads.bound_of_primary (hl.group_before _)) (hrow.before_last v))).factor_of_primary.relation_of_factor

end Rows

/-! ## Integrals -/

/-- **Integrals are understood as they are meant**, in either order of their bounds. The integrand is any text
that is one sum, complete integrals included, with no name outside of its parentheses that could be the
differential; a text that is read is nested no deeper than it may be here. The bounds are any formulas that
leave room for parentheses around them. -/
theorem parse_integral {c v : Text} {row : List Symbol} {C : Expr} (hc : Spans .additive c row C)
    (hfree : ∀ symbol ∈ outermost 0 row, symbol.mayClose = false) (hv : PlainName v) :
    parse c = .ok C
      ∧ parse (integralWord ++ withDifferential c v) = .ok (.call integralWord [C, .name v])
      ∧ ∀ a A b B, Nested a A → Nested b B →
        parse (integralWord ++ '_' :: (grouped a ++ '^' :: (grouped b ++ withDifferential c v)))
            = .ok (.call integralWord [C, .name v, A, B])
          ∧ parse (integralWord ++ '^' :: (grouped b ++ '_' :: (grouped a ++ withDifferential c v)))
            = .ok (.call integralWord [C, .name v, A, B]) := by
  have hbody := Ending.withDifferential hc.formula_of_additive hfree hv
  refine ⟨parse_eq_ok_iff_formula.mpr ⟨row, hc.formula_of_additive⟩, ?_, fun a A b B ha hb => ?_⟩
  · exact (hbody.integral (by decide)).parse (hc.reads.integral_of_additive v)
  · obtain ⟨rowA, hstretchA, hreadsA⟩ := ha.stretch
    obtain ⟨rowB, hstretchB, hreadsB⟩ := hb.stretch
    have hlowerFirst := (hbody.script (.inr rfl) hstretchB rfl).script (.inl rfl) hstretchA rfl
    have hupperFirst := (hbody.script (.inl rfl) hstretchA rfl).script (.inr rfl) hstretchB rfl
    exact ⟨(hlowerFirst.integral (by decide)).parse
        (hc.reads.integral_lower_upper hreadsA hreadsB v),
      (hupperFirst.integral (by decide)).parse
        (hc.reads.integral_upper_lower hreadsA hreadsB v)⟩

/-- An integral of a sum with a complete integral in it, whose bounds are a relation and a call. -/
theorem parse_integral_sample :
    Spans .additive "f(d x) + int x d x".toList
        [.name ['f'], .openParen, .name ['d'], .name ['x'], .closeParen, .plus, .integral, .name ['x'],
          .differential ['x']]
        (.binary .plus (.call ['f'] [.juxtapose (.name ['d']) (.name ['x'])])
          (.call integralWord [.name ['x'], .name ['x']]) false)
      ∧ parse "int^(b)_(a=0) f(d x) + int x d x d t".toList
        = .ok (.call integralWord [.binary .plus (.call ['f'] [.juxtapose (.name ['d']) (.name ['x'])])
            (.call integralWord [.name ['x'], .name ['x']]) false, .name ['t'],
          .binary (.relation .equal) (.name ['a']) (.number ['0']) false, .name ['b']]) := by
  have hspans : Spans .additive "f(d x) + int x d x".toList
      [.name ['f'], .openParen, .name ['d'], .name ['x'], .closeParen, .plus, .integral, .name ['x'],
        .differential ['x']]
      (.binary .plus (.call ['f'] [.juxtapose (.name ['d']) (.name ['x'])])
        (.call integralWord [.name ['x'], .name ['x']]) false) :=
    ⟨⟨_, rfl, rfl⟩, by decide +kernel⟩
  have hlower : Nested "a=0".toList (.binary (.relation .equal) (.name ['a']) (.number ['0']) false) :=
    ⟨by decide +kernel, by decide⟩
  have hupper : Nested "b".toList (.name ['b']) := ⟨by decide +kernel, by decide⟩
  have hv : PlainName ['t'] := .letter (by decide)
  exact ⟨hspans, ((parse_integral hspans (by decide) hv).2.2 _ _ _ _ hlower hupper).2⟩

end MathScribe
