/-
Reading a row back at the precedence that it was written at.

A tree of some precedence is written so that it can stand wherever a tree of that precedence or a looser
one is looked for. `ReadsAt ends row e p` says what that means for the reader: in front of symbols that bind no
tighter than the precedence `p` and that the end of the row does not take for itself, which are the ones of the
kind `ends`, the row is read as the tree. For the phrases that go on to the left the tree is only the first
part, so these say that whatever is read when the tree is carried on is read of the whole row. Two kinds of
rows are read in part only, the base of scripts (`ReadsAsBase`) and a big operator (`ReadsAsHead`).

The parentheses in a row are exactly the ones that this takes. Every node has one lemma, which asks of its
parts the precedence that the node asks of them and that the left one does not take what follows; a part that
is looser is in parentheses and so a primary, and a part that is tighter can be read at any looser precedence
(`ReadsAt.loosen`). `Unambiguous.readable` puts the nodes together, for the symbols that the end of each tree
takes (`Expr.takes`).
-/
import MathScribe.Proofs.Reading.Summand
import MathScribe.Proofs.Writing.Spelling

set_option autoImplicit false

namespace MathScribe

/-! ## What may stand behind a row -/

/-- How tightly a symbol behind a tree would bind it. -/
def Symbol.binding : Symbol → Nat
  | underscore | caret => 5
  | star | slash | openParen | number _ | name _ | function _ | root | integral => 3
  | plus | minus | plusMinus => 2
  | relation _ => 1
  | _ => 0

/-- The row starts with nothing that binds tighter than the precedence. -/
def Loose (precedence : Nat) (k : List Symbol) : Prop :=
  goesOn (precedence < ·.binding) k = false

/-- A row that starts with nothing tighter than a precedence starts with nothing tighter than a greater
one. -/
theorem Loose.mono {p q : Nat} {k : List Symbol} (h : Loose p k) (hpq : p ≤ q) : Loose q k := by
  cases k with
  | nil => rfl
  | cons symbol k =>
    simp only [Loose, goesOn, decide_eq_false_iff_not] at h ⊢
    omega

/-- What binds no tighter than a precedence is none of the symbols that would go on with a phrase. -/
theorem Loose.not_goesOn {p : Nat} {k : List Symbol} (h : Loose p k) {kind : Symbol → Bool}
    (hkind : ∀ symbol, kind symbol = true → p < symbol.binding) : goesOn kind k = false := by
  cases k with
  | nil => rfl
  | cons symbol k =>
    refine Bool.eq_false_iff.mpr fun hsymbol => ?_
    simp only [Loose, goesOn, decide_eq_false_iff_not] at h
    exact h (hkind symbol hsymbol)

section Kinds

variable {k : List Symbol}

theorem Loose.not_isScriptMark (h : Loose 4 k) : goesOn Symbol.isScriptMark k = false :=
  h.not_goesOn fun symbol => by
    cases symbol <;> simp [Symbol.isScriptMark, Symbol.binding]

theorem Loose.not_isMultiplicative (h : Loose 2 k) : goesOn Symbol.isMultiplicative k = false :=
  h.not_goesOn fun symbol => by
    cases symbol <;> simp [Symbol.isMultiplicative, Symbol.multiplicative?, Symbol.binding]

theorem Loose.not_startsPowered (h : Loose 2 k) : goesOn Symbol.startsPowered k = false :=
  h.not_goesOn fun symbol => by
    cases symbol <;> simp [Symbol.startsPowered, Symbol.startsAtom, Symbol.binding]

theorem Loose.not_isAdditive (h : Loose 1 k) : goesOn Symbol.isAdditive k = false :=
  h.not_goesOn fun symbol => by
    cases symbol <;> simp [Symbol.isAdditive, Symbol.additive?, Symbol.binding]

theorem Loose.not_isRelation (h : Loose 0 k) : goesOn Symbol.isRelation k = false :=
  h.not_goesOn fun symbol => by
    cases symbol <;> simp [Symbol.isRelation, Symbol.binding]

end Kinds

theorem not_goesOn_mono {kind wider : Symbol → Bool} (hwider : ∀ symbol, kind symbol = true → wider symbol = true)
    {k : List Symbol} (h : goesOn wider k = false) : goesOn kind k = false :=
  Bool.eq_false_iff.mpr fun hkind =>
    absurd ((goesOn_mono (hwider _) hkind).symm.trans h) Bool.noConfusion

/-! ## Reading at a precedence -/

/-- In front of symbols that bind no tighter than the precedence and that are not of the given kind, the row is
read as the tree. -/
def ReadsAt (ends : Symbol → Bool) (row : List Symbol) (e : Expr) : Nat → Prop
  | 1 => ∀ k tree rest, goesOn ends k = false → Loose 1 k → Reads (.moreRelation e) k tree rest →
      Reads .relation (row ++ k) tree rest
  | 2 => ∀ k tree rest, goesOn ends k = false → Loose 2 k → Reads (.moreAdditive e) k tree rest →
      Reads .additive (row ++ k) tree rest
  | 3 => ∀ k tree rest, goesOn ends k = false → Loose 4 k → Reads (.moreTerm e) k tree rest →
      Reads .term (row ++ k) tree rest
  | 4 => ∀ k, goesOn ends k = false → Loose 4 k → Reads .factor (row ++ k) e k
  | 5 => ∀ k, goesOn ends k = false → Loose 4 k → Reads .powered (row ++ k) e k
  | _ => ∀ k, goesOn ends k = false → Reads .primary (row ++ k) e k

/-- The row is read as the base of scripts. -/
def ReadsAsBase (ends : Symbol → Bool) (row : List Symbol) (e : Expr) : Prop :=
  ∀ k tree rest, goesOn ends k = false → Reads (.morePowered e) k tree rest →
    Reads .powered (row ++ k) tree rest

/-- The row is read as a big operator, which more scripts or a term may follow. -/
def ReadsAsHead (ends : Symbol → Bool) (row : List Symbol) (e : Expr) : Prop :=
  ∀ k tree rest, goesOn ends k = false → Reads (.bigOperator e) k tree rest →
    Reads .factor (row ++ k) tree rest

section Whole

variable {ends wider : Symbol → Bool} {row k : List Symbol} {e : Expr} {p q : Nat}

/-- What is read in front of some symbols is read in front of fewer. -/
theorem ReadsAt.mono (h : ReadsAt ends row e p) (hwider : ∀ symbol, ends symbol = true → wider symbol = true) :
    ReadsAt wider row e p := by
  match p with
  | 1 | 2 | 3 => exact fun k tree rest hends => h k tree rest (not_goesOn_mono hwider hends)
  | 4 | 5 | 0 | _ + 6 => exact fun k hends => h k (not_goesOn_mono hwider hends)

/-- A base may be asked to end in front of more symbols. -/
theorem ReadsAsBase.mono (h : ReadsAsBase ends row e)
    (hwider : ∀ symbol, ends symbol = true → wider symbol = true) : ReadsAsBase wider row e :=
  fun k tree rest hends => h k tree rest (not_goesOn_mono hwider hends)

/-- The head of a big operator may be asked to end in front of more symbols. -/
theorem ReadsAsHead.mono (h : ReadsAsHead ends row e)
    (hwider : ∀ symbol, ends symbol = true → wider symbol = true) : ReadsAsHead wider row e :=
  fun k tree rest hends => h k tree rest (not_goesOn_mono hwider hends)

/-- A primary is a base. -/
theorem ReadsAt.base (h : ReadsAt ends row e 6) : ReadsAsBase ends row e :=
  fun k _ _ hends hmore => .powered (h k hends) hmore

/-- A base without a script is a power. -/
theorem ReadsAsBase.powered (h : ReadsAsBase ends row e) : ReadsAt ends row e 5 :=
  fun k hends hloose => h k e k hends (.poweredEnd hloose.not_isScriptMark)

/-- A big operator is read alone in front of what starts no term. -/
theorem ReadsAsHead.factor (h : ReadsAsHead ends row e) :
    ReadsAt (fun next => ends next || next.startsTerm) row e 4 := by
  intro k hends hloose
  have hnone : goesOn ends k = false := not_goesOn_mono (fun _ hends => by simp [hends]) hends
  have hterm : goesOn Symbol.startsTerm k = false := not_goesOn_mono (fun _ hterm => by simp [hterm]) hends
  exact h k e k hnone (.bigAlone hloose.not_isScriptMark hterm)

/-- What nothing carries on is read as a whole. -/
theorem ReadsAt.relation (h : ReadsAt ends row e 1) (hends : goesOn ends k = false) (hloose : Loose 0 k) :
    Reads .relation (row ++ k) e k :=
  h k e k hends (hloose.mono (by decide)) (.relationEnd hloose.not_isRelation)

/-- Read as a sum, in front of what no sum goes on with. -/
theorem ReadsAt.additive (h : ReadsAt ends row e 2) (hends : goesOn ends k = false) (hloose : Loose 1 k) :
    Reads .additive (row ++ k) e k :=
  h k e k hends (hloose.mono (by decide)) (.additiveEnd hloose.not_isAdditive)

/-- Read as a term, in front of what no term goes on with. -/
theorem ReadsAt.term (h : ReadsAt ends row e 3) (hends : goesOn ends k = false) (hloose : Loose 2 k) :
    Reads .term (row ++ k) e k :=
  h k e k hends (hloose.mono (by decide))
    (.termEnd hloose.not_isMultiplicative hloose.not_startsPowered)

/-- What is read at a precedence can be read at the next looser one. -/
theorem ReadsAt.loosen_succ (hp : 1 ≤ p) (hp' : p < 6) (h : ReadsAt ends row e (p + 1)) :
    ReadsAt ends row e p := by
  match p with
  | 1 => exact fun k _ _ hends hloose hmore => .relation (ReadsAt.additive h hends hloose) hmore
  | 2 => exact fun k _ _ hends hloose hmore => .additive (ReadsAt.term h hends hloose) hmore
  | 3 => exact fun k _ _ hends hloose hmore => .term (h k hends hloose) hmore
  | 4 => exact fun k hends hloose => (h k hends hloose).factor_of_powered
  | 5 => exact ReadsAsBase.powered (ReadsAt.base h)

/-- What is read at a precedence can be read at every looser one. -/
theorem ReadsAt.loosen (h : ReadsAt ends row e q) (hp : 1 ≤ p) (hpq : p ≤ q) (hq : q ≤ 6) :
    ReadsAt ends row e p := by
  obtain ⟨steps, rfl⟩ := Nat.exists_eq_add_of_le hpq
  -- One precedence at a time.
  induction steps with
  | zero => exact h
  | succ steps ih =>
    exact ih (h.loosen_succ (by omega) (by omega)) (by omega) (by omega)

/-- What is read at a precedence is read alone. -/
theorem ReadsAt.alone (h : ReadsAt ends row e p) (hp : 1 ≤ p) (hp' : p ≤ 6) : Reads .relation row e [] := by
  have hrelation := (h.loosen (Nat.le_refl 1) hp hp').relation (k := []) rfl rfl
  rwa [List.append_nil] at hrelation

end Whole

/-! ## Parentheses -/

/-- **What is in parentheses is a primary**, whatever follows. -/
theorem Reads.group_before {row : List Symbol} {tree : Expr} (h : Reads .relation row tree [])
    (k : List Symbol) : Reads .primary (encloseIf true row ++ k) tree k := by
  have hinside : Reads .relation (row ++ Symbol.closeParen :: k) tree (.closeParen :: k) :=
    h.extend (k := .closeParen :: k) rfl
  have hgroup := Reads.group hinside
  simpa [encloseIf] using hgroup

/-- Parentheses make the tightest phrase of everything, in front of anything. -/
theorem Reads.readsAt_group {row : List Symbol} {tree : Expr} (h : Reads .relation row tree [])
    (ends : Symbol → Bool) : ReadsAt ends (encloseIf true row) tree 6 :=
  fun k _ => h.group_before k

/-! ## One lemma for each node -/

section Nodes

variable {ends ends' : Symbol → Bool} {left right : List Symbol} {a b : Expr}

/-- The operators that are carried on to the left. -/
theorem ReadsAt.operator {op : Operator} (hop : op ∈ Operator.all) (hp : op.precedence ≤ 3)
    (hends : ends op.symbol = false) (hleft : ReadsAt ends left a op.precedence)
    (hright : ReadsAt ends' right b (op.precedence + 1)) :
    ReadsAt ends' (left ++ op.symbol :: right) (.binary op a b false) op.precedence := by
  cases op with
  | relation r =>
    -- The left side is read first, in front of the operator; what is read behind the operator joins it, and
    -- the reader goes on with both as its new left side.
    intro k tree rest hk hloose hmore
    have hnext : Reads .additive (right ++ k) b k := ReadsAt.additive hright hk hloose
    rw [List.append_assoc]
    exact hleft _ tree rest hends rfl (.relationNext hnext hmore)
  | plus | minus | plusMinus =>
    intro k tree rest hk hloose hmore
    have hnext : Reads .term (right ++ k) b k := ReadsAt.term hright hk hloose
    rw [List.append_assoc]
    exact hleft _ tree rest hends rfl (.additiveNext rfl hnext hmore)
  | times | dividedBy =>
    intro k tree rest hk hloose hmore
    have hnext : Reads .factor (right ++ k) b k := hright k hk hloose
    rw [List.append_assoc]
    exact hleft _ tree rest hends rfl (.termNext rfl hnext hmore)
  | power | subscript => exact absurd hp (by decide)
  | other text => simp [Operator.all] at hop

/-- A power takes a base that no caret goes on with and a factor for its exponent. -/
theorem ReadsAt.power (hends : ends .caret = false) (hleft : ReadsAsBase ends left a)
    (hright : ReadsAt ends' right b 4) :
    ReadsAt ends' (left ++ Symbol.caret :: right) (.binary .power a b false) 5 := by
  intro k hk hloose
  rw [List.append_assoc]
  exact hleft _ _ _ hends (.power (hright k hk hloose))

/-- A base with a subscript is a base again, so that more scripts may follow. -/
theorem ReadsAsBase.subscript (hends : ends .underscore = false) (hleft : ReadsAsBase ends left a)
    (hright : ReadsAt ends' right b 6) :
    ReadsAsBase ends' (left ++ Symbol.underscore :: right) (.binary .subscript a b false) := by
  intro k tree rest hk hmore
  rw [List.append_assoc]
  exact hleft _ _ _ hends (.subscript (hright k hk) hmore)

/-- A product without an operator sign: the left side does not take what the right side starts with. -/
theorem ReadsAt.beside (hleft : ReadsAt ends left a 3) (hright : ReadsAt ends' right b 5)
    (hends : goesOn ends right = false) : ReadsAt ends' (left ++ right) (.juxtapose a b) 3 := by
  intro k tree rest hk hloose hmore
  have hnext : Reads .powered (right ++ k) b k := hright k hk hloose
  -- The right side starts a power, which is what the reader looks for behind the left one.
  have hstart := hnext.starts _ rfl
  have hne : right ≠ [] := (hright.alone (by decide) (by decide)).ne_nil rfl
  have hbeside : Loose 4 (right ++ k) := by
    refine goesOn_apart ?_ hstart
    intro symbol hsymbol
    cases symbol <;> first | rfl | cases hsymbol
  rw [List.append_assoc]
  exact hleft _ tree rest ((goesOn_append hne ends k).trans hends) hbeside
    (.termBeside hstart hnext hmore)

/-- A sign and its factor. -/
theorem ReadsAt.sign {op : Operator} (hop : op = .minus ∨ op = .plusMinus) (hright : ReadsAt ends right b 4) :
    ReadsAt ends (op.symbol :: right) (.unary op b) 4 := by
  intro k hk hloose
  have hoperand : Reads .factor (right ++ k) b k := hright k hk hloose
  rcases hop with rfl | rfl <;> exact .sign rfl hoperand

/-- A number is read in front of anything. -/
theorem ReadsAt.number (digits : Text) : ReadsAt ends [.number digits] (.number digits) 6 :=
  fun _ _ => .primary rfl .number

/-- A name is read in front of anything but a parenthesis, which would make a call of it. -/
theorem ReadsAt.name (text : Text) : ReadsAt Symbol.isOpen [.name text] (.name text) 6 :=
  fun _ hends => .primary rfl (.name hends)

/-- A word that can stand alone is read as a name. -/
theorem Symbol.Standing.readsAt {word : Text} {symbol : Symbol} (h : symbol.Standing word) :
    ReadsAt symbol.takes [symbol] (.name word) 6 := by
  cases h with
  | plain => exact .name word
  | function hf => exact fun k hends => hf ▸ .primary rfl (.functionAlone hends)
  | root hroot => exact fun k hends => hroot ▸ .primary rfl (.rootAlone hends)

/-- Arguments behind the ones that have been read, up to the closing parenthesis. Each of them is read alone. -/
theorem Reads.arguments_of_rows {function : Text} {rows : List (List Symbol)} {es : List Expr}
    (h : List.Forall₂ (fun row e => Reads .relation row e []) rows es) (hne : es ≠ [])
    (done : List Expr) (k : List Symbol) :
    Reads (.arguments function done) (commaRow rows ++ Symbol.closeParen :: k)
      (.call function (done ++ es)) k := by
  induction h generalizing done with
  | nil => exact absurd rfl hne
  | @cons row e rows es hrow hrest ih =>
    cases hrest with
    | nil =>
      have hlast : Reads .relation (row ++ Symbol.closeParen :: k) e (.closeParen :: k) :=
        Reads.extend (k := .closeParen :: k) rfl hrow
      exact .argumentsEnd hlast
    | @cons nextRow next rows es =>
      have hmore := ih (List.cons_ne_nil next es) (done ++ [e])
      have hcomma : commaRow (row :: nextRow :: rows) ++ Symbol.closeParen :: k
          = row ++ Symbol.comma :: (commaRow (nextRow :: rows) ++ Symbol.closeParen :: k) := by
        simp [commaRow]
      have hfirst : Reads .relation (row ++ Symbol.comma :: (commaRow (nextRow :: rows) ++ Symbol.closeParen :: k))
          e (.comma :: (commaRow (nextRow :: rows) ++ Symbol.closeParen :: k)) :=
        Reads.extend (k := .comma :: _) rfl hrow
      rw [hcomma, List.append_cons done e]
      exact .argumentsNext hfirst hmore

/-- A call is read in front of anything when each argument is read by itself. -/
theorem ReadsAt.call {symbol : Symbol} {function : Text} (hcallee : symbol.callee? = some function)
    {rows : List (List Symbol)} {es : List Expr}
    (h : List.Forall₂ (fun row e => Reads .relation row e []) rows es) :
    ReadsAt ends (symbol :: encloseIf true (commaRow rows)) (.call function es) 6 := by
  intro k _
  have hopen : goesOn Symbol.isOpen (symbol :: k) = false := by
    cases symbol <;> first | rfl | cases hcallee
  refine .primary hopen ?_
  by_cases hne : es = []
  · subst hne
    cases h
    exact .callEmpty hcallee
  · have harguments : Reads (.arguments function []) _ _ k := Reads.arguments_of_rows h hne [] k
    have hstart := harguments.starts _ rfl
    -- The first argument starts with a term, so the call is not taken for one without arguments.
    have hclose : goesOn Symbol.isClose (commaRow rows ++ Symbol.closeParen :: k) = false := by
      cases hrow : commaRow rows ++ Symbol.closeParen :: k with
      | nil => rfl
      | cons first others =>
        rw [hrow] at hstart
        cases first <;> first | rfl | cases hstart
    have hcall := Reads.call hcallee hclose harguments
    simpa [encloseIf] using hcall

/-- A root with one argument takes another one. -/
theorem ReadsAt.rootOne (h : Reads .relation left a []) :
    ReadsAt Symbol.isOpen (.root :: encloseIf true left) (.call rootWord [a]) 6 := by
  intro k hends
  have hinside : Reads .relation (left ++ Symbol.closeParen :: k) a (.closeParen :: k) :=
    h.extend (k := .closeParen :: k) rfl
  have hroot := Reads.primary rfl (Reads.rootOne hinside hends)
  simpa [encloseIf] using hroot

/-- A root with an index ends with its second parenthesis. -/
theorem ReadsAt.rootTwo (hleft : Reads .relation left a []) (hright : Reads .relation right b []) :
    ReadsAt ends (.root :: (encloseIf true left ++ encloseIf true right)) (.call rootWord [a, b]) 6 := by
  intro k _
  have hsecond : Reads .relation (right ++ Symbol.closeParen :: k) b (.closeParen :: k) :=
    hright.extend (k := .closeParen :: k) rfl
  have hfirst : Reads .relation (left ++ Symbol.closeParen :: .openParen :: (right ++ Symbol.closeParen :: k)) a
      (.closeParen :: .openParen :: (right ++ Symbol.closeParen :: k)) :=
    hleft.extend (k := .closeParen :: .openParen :: (right ++ Symbol.closeParen :: k)) rfl
  have hroot := Reads.primary rfl (Reads.rootTwo hfirst hsecond)
  simpa [encloseIf] using hroot

/-- An integrand with its differential. -/
theorem Reads.integrand (h : Reads .additive left a []) (v : Text) (k : List Symbol) :
    Reads .additive (left ++ Symbol.differential v :: k) a (.differential v :: k) :=
  h.extend (k := .differential v :: k) rfl

/-- An integral ends with the mark of its variable, so anything may follow. -/
theorem ReadsAt.integral (h : Reads .additive left a []) (v : Text) :
    ReadsAt ends (.integral :: (left ++ [Symbol.differential v])) (.call integralWord [a, .name v]) 6 := by
  intro k _
  have hintegrand := h.integrand v k
  -- No term starts with the mark of a bound.
  obtain ⟨-, hmark⟩ := not_goesOn_of_startsTerm (hintegrand.starts _ rfl)
  have hintegral := Reads.primary rfl (Reads.integral hmark hintegrand)
  simpa using hintegral

/-- A primary is a bound. -/
theorem Reads.bound_of_primary {input rest : List Symbol} {tree : Expr}
    (h : Reads .primary input tree rest) : Reads .bound input tree rest := by
  refine .bound (goesOn_apart ?_ (h.starts _ rfl)) h
  intro symbol hsymbol
  cases symbol <;> first | rfl | cases hsymbol

/-- An integral with bounds: the lower one has to end in front of the caret and the upper one in front of
the integrand. -/
theorem ReadsAt.integralBounds {lower upper : List Symbol} {l u : Expr} (h : Reads .additive left a [])
    (hlower : ReadsAt ends lower l 6) (hcaret : ends .caret = false) (hupper : ReadsAt ends' upper u 6)
    (hends : goesOn ends' left = false) (kind : Symbol → Bool) (v : Text) :
    ReadsAt kind
      (.integral :: .underscore :: (lower ++ Symbol.caret :: (upper ++ (left ++ [Symbol.differential v]))))
      (.call integralWord [a, .name v, l, u]) 6 := by
  intro k _
  have hfirst := hlower (.caret :: (upper ++ (left ++ Symbol.differential v :: k))) hcaret
  have hsecond := hupper (left ++ Symbol.differential v :: k)
    ((goesOn_append (h.ne_nil rfl) ends' _).trans hends)
  have hintegral := Reads.primary rfl (Reads.integralLower (Reads.bound_of_primary hfirst)
    (Reads.bound_of_primary hsecond) (h.integrand v k))
  simpa using hintegral

/-! ### Big operators -/

/-- A big operator without scripts. -/
theorem ReadsAsHead.bigOperator (op : BigOperator) : ReadsAsHead ends [.bigOperator op] (.name op.text) :=
  fun _ _ _ _ hmore => .bigOperator hmore

/-- A big operator with one more subscript. -/
theorem ReadsAsHead.subscript (hends : ends .underscore = false) (hleft : ReadsAsHead ends left a)
    (hright : ReadsAt ends' right b 6) :
    ReadsAsHead ends' (left ++ Symbol.underscore :: right) (.binary .subscript a b false) := by
  intro k tree rest hk hmore
  rw [List.append_assoc]
  exact hleft _ _ _ hends (.bigSubscript (hright k hk) hmore)

/-- The exponent of a big operator takes the scripts behind it. -/
theorem ReadsAsHead.power (hends : ends .caret = false) (hleft : ReadsAsHead ends left a)
    (hright : Reads .relation right b []) :
    ReadsAsHead Symbol.isScriptMark (left ++ Symbol.caret :: encloseIf true right) (.binary .power a b false) := by
  intro k tree rest hk hmore
  have hexponent : Reads .factor (encloseIf true right ++ k) b k :=
    (Reads.powered (hright.group_before k) (.poweredEnd hk)).factor_of_powered
  rw [List.append_assoc]
  exact hleft _ _ _ hends (.bigPower hexponent hmore)

/-- A big operator takes the whole term behind it, and the term takes the factors behind it. -/
theorem ReadsAsHead.term (hleft : ReadsAsHead ends left a) (hright : ReadsAt ends' right b 3)
    (hends : goesOn ends right = false) :
    ReadsAt (fun next => ends' next || (next.isMultiplicative || next.startsPowered)) (left ++ right)
      (.juxtapose a b) 4 := by
  intro k hk hloose
  have hkinds : goesOn ends' k = false ∧ goesOn Symbol.isMultiplicative k = false
      ∧ goesOn Symbol.startsPowered k = false := by
    refine ⟨not_goesOn_mono ?_ hk, not_goesOn_mono ?_ hk, not_goesOn_mono ?_ hk⟩ <;> simp +contextual
  have hoperand : Reads .term (right ++ k) b k :=
    hright k b k hkinds.1 hloose (.termEnd hkinds.2.1 hkinds.2.2)
  have hne : right ≠ [] := (hright.alone (by decide) (by decide)).ne_nil rfl
  rw [List.append_assoc]
  exact hleft _ _ _ ((goesOn_append hne ends k).trans hends)
    (.bigTerm (hoperand.starts _ rfl) hoperand)

end Nodes

/-! ## How tightly a tree is read -/

namespace Expr

variable {e : Expr} {p : Nat}

/-- Nothing binds tighter than an atom. -/
theorem precedence_le (e : Expr) : e.precedence ≤ 6 := by
  cases e with
  | binary op => cases op <;> simp [precedence, Operator.precedence]
  | _ => simp [precedence, signPrecedence, atomPrecedence]

/-- A big operator is written like a name or like a name with scripts. -/
theorem le_precedence_of_isBig (h : e.isBig = true) : 5 ≤ e.precedence := by
  cases e with
  | name => simp [precedence, atomPrecedence]
  | binary op => cases op <;> first | cases h | simp [precedence, Operator.precedence]
  | _ => cases h

/-- A big operator with its term is a product. -/
theorem precedence_of_isBigTerm (h : e.isBigTerm = true) : e.precedence = 3 := by
  cases e with
  | binary op _ _ implicit =>
    cases op with
    | times => rfl
    | _ => cases h
  | _ => cases h

/-- A big operator by itself is read as a factor, though its precedence may be that of an atom. -/
theorem tightness_of_isBig (h : e.isBig = true) : e.tightness = 4 := by
  rw [tightness, h]
  rfl

/-- Only big operators bind otherwise than they are written. -/
theorem tightness_of_not_isBig (hbig : e.isBig = false) (hterm : e.isBigTerm = false) :
    e.tightness = e.precedence := by
  rw [tightness, hbig, hterm]
  rfl

/-- Nothing is read as more than an atom. -/
theorem tightness_le (e : Expr) : e.tightness ≤ 6 := by
  unfold tightness
  split
  · exact (by decide : signPrecedence ≤ 6)
  · exact e.precedence_le

/-- Up to the precedence of signs, a tree binds as tightly as it is written. -/
theorem le_tightness (hp : p ≤ 4) (h : p ≤ e.precedence) : p ≤ e.tightness := by
  unfold tightness
  split
  · exact hp
  · exact h

/-- What is written as tightly as scripts is read so, unless it is a big operator. -/
theorem tightness_of_le_precedence (hbig : e.isBig = false) (h : 5 ≤ e.precedence) :
    e.tightness = e.precedence := by
  refine tightness_of_not_isBig hbig (Bool.eq_false_iff.mpr fun hterm => ?_)
  have hprecedence := precedence_of_isBigTerm hterm
  omega

/-! ## What the end of a tree takes -/

/-- What the right side goes on with, the whole goes on with, unless the right side stands in parentheses.
-/
theorem takes_of_right {op : Operator} {left right : Expr} {implicit : Bool} {next : Symbol}
    (h : (!op.enclosesRight right && right.takes next) = true) :
    (binary op left right implicit).takes next = true := by
  simp [takes, h]

/-- What the last script of a big operator takes, the big operator takes. -/
theorem takes_of_scriptTakes {next : Symbol} (h : e.scriptTakes next = true) : e.takes next = true := by
  cases e with
  | binary op left right implicit =>
    rcases Bool.or_eq_true_iff.mp h with hright | hmark
    · exact takes_of_right hright
    · simp only [takes, hmark, Bool.or_true, Bool.true_or]
  | _ => cases h

/-- A big operator without its term goes on with whatever starts one. -/
theorem takes_of_isBig (hbig : e.isBig = true) {next : Symbol} (h : next.startsTerm = true) :
    e.takes next = true := by
  cases e with
  | name text =>
    have hbig : (Symbol.ofWord text).isBigOperator = true := hbig
    change (Symbol.ofWord text).takes next = true
    generalize Symbol.ofWord text = symbol at hbig
    cases symbol <;> first | exact h | cases hbig
  | binary op left right implicit => simp only [takes, hbig, h, Bool.and_self, Bool.or_true, Bool.true_or]
  | _ => cases hbig

/-- A power takes the scripts behind it. -/
theorem not_isPower_of_not_takes {next : Symbol} (hnext : next.isScriptMark = true) (h : e.takes next = false) :
    e.isPower = false := by
  refine Bool.eq_false_iff.mpr fun hpower => ?_
  cases e with
  | binary op =>
    cases op with
    | power => simp [takes, hnext] at h
    | _ => cases hpower
  | _ => cases hpower

/-- No atom takes scripts. -/
theorem not_takes_of_atom (hatom : e.precedence = atomPrecedence) {next : Symbol}
    (hnext : next.isScriptMark = true) : e.takes next = false := by
  have hopen : next.isOpen = false ∧ next.startsPowered = false ∧ next.startsTerm = false := by
    cases next <;> first | exact ⟨rfl, rfl, rfl⟩ | cases hnext
  cases e with
  | name text =>
    change (Symbol.ofWord text).takes next = false
    cases Symbol.ofWord text <;> simp [Symbol.takes, hopen]
  | binary op => cases op <;> simp [precedence, Operator.precedence, atomPrecedence] at hatom
  | unary => cases hatom
  | call => simp [takes, hopen]
  | _ => rfl

end Expr

namespace Operator

variable {op : Operator} {left right : Expr}

/-- What an operator leaves without parentheses on its left binds no looser than it does. -/
theorem le_of_not_enclosesLeft (h : op.enclosesLeft left = false) :
    op.precedence ≤ left.precedence := by
  cases op with
  | dividedBy => cases h
  | power => exact Nat.le_of_not_lt (of_decide_eq_false (Bool.or_eq_false_iff.mp h).1)
  | _ => exact Nat.le_of_not_lt (of_decide_eq_false h)

/-- Neither in parentheses nor without them does the left operand take the operator. -/
theorem Admits.not_takes (h : op.Admits left right) :
    (!op.enclosesLeft left && left.takes op.symbol) = false := by
  cases henclosed : op.enclosesLeft left with
  | true => rfl
  | false => rw [h.leaves henclosed]; rfl

/-- What a big operator does not take, its last script does not take. -/
theorem Admits.not_scriptTakes (h : op.Admits left right) (hbare : op.enclosesLeft left = false) :
    left.scriptTakes op.symbol = false :=
  Bool.eq_false_iff.mpr fun hscript =>
    absurd ((left.takes_of_scriptTakes hscript).symm.trans (h.leaves hbare)) Bool.noConfusion

/-- What a product leaves without parentheses on its right binds no looser than it does. -/
theorem le_of_not_enclosesRight_times (h : times.enclosesRight right = false) : 3 ≤ right.precedence := by
  unfold enclosesRight at h
  by_cases hunary : right.isUnary = true
  · simp [hunary] at h
  · have hloose : decide (right.precedence < times.precedence) = false := by
      simpa [hunary, isNonAssociative] using h
    exact Nat.le_of_not_lt (of_decide_eq_false hloose)

end Operator

/-! ## All nodes together -/

/-- The row of a tree is read as the tree, as tightly as the tree binds; as a base where that is a subscript,
and as the head of what follows where that is a big operator. -/
structure Readable (e : Expr) : Prop where
  pos : 1 ≤ e.tightness
  own : ReadsAt e.takes e.row e e.tightness
  base : e.tightness = 5 → e.isPower = false → ReadsAsBase e.takes e.row e
  head : e.isBig = true → ReadsAsHead e.scriptTakes e.row e

namespace Readable

variable {e : Expr}

/-- A readable row is read by itself. -/
theorem alone (h : Readable e) : Reads .relation e.row e [] :=
  h.own.alone h.pos e.tightness_le

/-- A row is read at a precedence when it is in parentheses wherever that is needed. -/
theorem enclosed (h : Readable e) {p : Nat} {needed : Bool} (hp : 1 ≤ p ∧ p ≤ 6)
    (hneeded : needed = false → p ≤ e.tightness) :
    ReadsAt (fun next => !needed && e.takes next) (encloseIf needed e.row) e p := by
  cases needed with
  | true => exact (h.alone.readsAt_group _).loosen hp.1 hp.2 (Nat.le_refl 6)
  | false => exact h.own.loosen hp.1 (hneeded rfl) e.tightness_le

/-- What is no power and no big operator and binds as tightly as a power is a base. -/
theorem enclosed_base (h : Readable e) {needed : Bool}
    (hneeded : needed = false → 5 ≤ e.precedence ∧ e.isBig = false ∧ e.isPower = false) :
    ReadsAsBase (fun next => !needed && e.takes next) (encloseIf needed e.row) e := by
  cases needed with
  | true => exact (h.alone.readsAt_group _).base
  | false =>
    obtain ⟨hprecedence, hbig, hpower⟩ := hneeded rfl
    have htightness := e.tightness_of_le_precedence hbig hprecedence
    rcases Nat.eq_or_lt_of_le hprecedence with heq | hlt
    · exact h.base (by omega) hpower
    · exact (h.own.loosen (by decide) (by omega) e.tightness_le).base

/-- An integrand has parentheses where a term needs them, so it is read as a sum. -/
theorem integrand (h : Readable e) : Reads .additive e.factorRow e [] := by
  have hsum : ReadsAt _ e.factorRow e 2 := h.enclosed (by decide) fun hneeded =>
    e.le_tightness (by decide) (Nat.le_of_succ_le (Nat.le_of_not_lt (of_decide_eq_false hneeded)))
  have hadditive := hsum.additive (k := []) rfl rfl
  rwa [List.append_nil] at hadditive

/-- A script has parentheses unless it is an atom. -/
theorem script (h : Readable e) (hbig : e.precedence = Expr.atomPrecedence → e.isBig = false) :
    ReadsAt (fun next => !decide (e.precedence < Expr.atomPrecedence) && e.takes next) (scriptRow e e.row) e 6 := by
  refine h.enclosed (by decide) fun hneeded => ?_
  have hle : 6 ≤ e.precedence := Nat.le_of_not_lt (of_decide_eq_false hneeded)
  have hatom : e.precedence = Expr.atomPrecedence := Nat.le_antisymm e.precedence_le hle
  rw [e.tightness_of_le_precedence (hbig hatom) (Nat.le_of_succ_le hle)]
  exact hle

/-- A node that needs no parentheses anywhere. -/
theorem of_atom (hprecedence : e.precedence = 6) (hbig : e.isBig = false) (h : ReadsAt e.takes e.row e 6) :
    Readable e := by
  have htightness : e.tightness = 6 :=
    (e.tightness_of_le_precedence hbig (by omega)).trans hprecedence
  refine ⟨by omega, htightness ▸ h, fun heq => by omega, fun h => ?_⟩
  exact absurd (hbig.symm.trans h) Bool.noConfusion

/-- A big operator is read where a sign is, in front of what starts no term. -/
theorem of_head (hbig : e.isBig = true) (h : ReadsAsHead e.scriptTakes e.row e) : Readable e := by
  have htightness := e.tightness_of_isBig hbig
  refine ⟨by omega, ?_, fun heq => by omega, fun _ => h⟩
  rw [htightness]
  refine h.factor.mono fun next hnext => ?_
  rcases Bool.or_eq_true_iff.mp hnext with hscript | hterm
  · exact e.takes_of_scriptTakes hscript
  · exact e.takes_of_isBig hbig hterm

/-- A name can be one with a meaning of its own. -/
theorem name {text : Text} (h : text ≠ integralWord) : Readable (.name text) := by
  have hrow : (Expr.name text).row = [.ofWord text] := rfl
  rcases Symbol.ofWord_cases text with hword | ⟨op, hword, rfl⟩ | hword
  · have htext := Symbol.ofWord_text text
    rw [hword] at htext
    exact absurd htext.symm h
  · have hbig : (Expr.name op.text).isBig = true := by
      change (Symbol.ofWord op.text).isBigOperator = true
      rw [hword]
      rfl
    refine .of_head hbig ?_
    rw [hrow, hword]
    exact .bigOperator op
  · have hbig : (Expr.name text).isBig = false := by
      change (Symbol.ofWord text).isBigOperator = false
      generalize Symbol.ofWord text = symbol at hword
      cases hword <;> rfl
    exact .of_atom rfl hbig hword.readsAt

/-- The operators that join to the left are read alike. -/
theorem operator_of_le {op : Operator} {left right : Expr} (hl : Readable left) (hr : Readable right)
    (hop : op ∈ Operator.all) (hp : op.precedence ≤ 3) (hadmits : op.Admits left right) :
    Readable (.binary op left right false) := by
  have hpos : 1 ≤ op.precedence := by
    cases op with
    | other text => simp [Operator.all] at hop
    | _ => simp [Operator.precedence]
  have hbig : (Expr.binary op left right false).isBig = false
      ∧ (Expr.binary op left right false).isBigTerm = false := by
    cases op <;> first | exact ⟨rfl, rfl⟩ | exact absurd hp (by decide)
  have htightness : (Expr.binary op left right false).tightness = op.precedence :=
    Expr.tightness_of_not_isBig hbig.1 hbig.2
  have hleft : ReadsAt (fun next => !op.enclosesLeft left && left.takes next)
      (encloseIf (op.enclosesLeft left) left.row) left op.precedence :=
    hl.enclosed ⟨hpos, by omega⟩ fun hbare =>
      left.le_tightness (by omega) (Operator.le_of_not_enclosesLeft hbare)
  have hright : ReadsAt (fun next => !op.enclosesRight right && right.takes next)
      (encloseIf (op.enclosesRight right) right.row) right (op.precedence + 1) :=
    hr.enclosed ⟨by omega, by omega⟩ hadmits.tighter
  have hreads := ReadsAt.operator hop hp hadmits.not_takes hleft hright
  refine ⟨by omega, ?_, fun heq => by omega, fun h => absurd (hbig.1.symm.trans h) Bool.noConfusion⟩
  rw [htightness, Expr.row_binary]
  exact hreads.mono fun _ => Expr.takes_of_right

/-- A power is read with its base, or its exponent as a script of a big operator. -/
theorem power {left right : Expr} (hl : Readable left) (hr : Readable right)
    (hadmits : Operator.power.Admits left right) : Readable (.binary .power left right false) := by
  by_cases hbig : (Expr.binary .power left right false).isBig = true
  · obtain ⟨hpower, hleft⟩ : left.isPower = false ∧ left.isBig = true := by
      simpa [Expr.isBig] using hbig
    have hbare : Operator.power.enclosesLeft left = false := by
      have hprecedence : ¬ left.precedence < Operator.power.precedence :=
        Nat.not_lt.mpr (left.le_precedence_of_isBig hleft)
      simp [Operator.enclosesLeft, hpower, hprecedence]
    refine .of_head hbig ?_
    rw [Expr.row_binary, hbare]
    exact ((hl.head hleft).power (hadmits.not_scriptTakes hbare) hr.alone).mono fun next hmark => by
      simp [Expr.scriptTakes, hmark]
  · have hbig : (Expr.binary .power left right false).isBig = false := Bool.eq_false_iff.mpr hbig
    have htightness : (Expr.binary .power left right false).tightness = 5 :=
      Expr.tightness_of_not_isBig hbig rfl
    have hleft : ReadsAsBase (fun next => !Operator.power.enclosesLeft left && left.takes next)
        (encloseIf (Operator.power.enclosesLeft left) left.row) left := by
      refine hl.enclosed_base fun hbare => ?_
      have hpower : left.isPower = false := (Bool.or_eq_false_iff.mp hbare).2
      exact ⟨Operator.le_of_not_enclosesLeft hbare, by simpa [Expr.isBig, hpower] using hbig, hpower⟩
    have hright : ReadsAt (Expr.binary .power left right false).takes (encloseIf true right.row) right 4 :=
      (hr.alone.readsAt_group _).loosen (by decide) (by decide) (Nat.le_refl 6)
    refine ⟨by omega, ?_, fun _ h => Bool.noConfusion h, fun h => absurd (hbig.symm.trans h) Bool.noConfusion⟩
    rw [htightness, Expr.row_binary]
    exact .power hadmits.not_takes hleft hright

/-- A subscript is read with its base, or as a script of a big operator. -/
theorem subscript {left right : Expr} (hl : Readable left) (hr : Readable right)
    (hadmits : Operator.subscript.Admits left right) : Readable (.binary .subscript left right false) := by
  have hright : ReadsAt (fun next => !Operator.subscript.enclosesRight right && right.takes next)
      (encloseIf (Operator.subscript.enclosesRight right) right.row) right 6 :=
    hr.enclosed (by decide) hadmits.tighter
  by_cases hbig : left.isBig = true
  · have hbare : Operator.subscript.enclosesLeft left = false :=
      decide_eq_false (Nat.not_lt.mpr (left.le_precedence_of_isBig hbig))
    refine .of_head hbig ?_
    rw [Expr.row_binary, hbare]
    exact (ReadsAsHead.subscript (hadmits.not_scriptTakes hbare) (hl.head hbig) hright).mono fun next htakes => by
      simp [Expr.scriptTakes, htakes]
  · have hbig : left.isBig = false := Bool.eq_false_iff.mpr hbig
    have htightness : (Expr.binary .subscript left right false).tightness = 5 :=
      Expr.tightness_of_not_isBig hbig rfl
    have hleft : ReadsAsBase (fun next => !Operator.subscript.enclosesLeft left && left.takes next)
        (encloseIf (Operator.subscript.enclosesLeft left) left.row) left :=
      hl.enclosed_base fun hbare => ⟨Operator.le_of_not_enclosesLeft hbare, hbig,
        left.not_isPower_of_not_takes rfl (hadmits.leaves hbare)⟩
    have hbase : ReadsAsBase (Expr.binary .subscript left right false).takes
        (Expr.binary .subscript left right false).row (.binary .subscript left right false) := by
      rw [Expr.row_binary]
      exact (hleft.subscript hadmits.not_takes hright).mono fun _ => Expr.takes_of_right
    refine ⟨by omega, htightness ▸ hbase.powered, fun _ _ => hbase, fun h => ?_⟩
    exact absurd (hbig.symm.trans h) Bool.noConfusion

/-- An operator with operands that are read as tightly as they bind. -/
theorem operator {op : Operator} {left right : Expr} (hl : Readable left) (hr : Readable right)
    (hop : op ∈ Operator.all) (hadmits : op.Admits left right) :
    Readable (.binary op left right false) := by
  cases op with
  | power => exact hl.power hr hadmits
  | subscript => exact hl.subscript hr hadmits
  | _ => exact hl.operator_of_le hr hop (by simp [Operator.precedence]) hadmits

/-- The right side of a product without an operator sign is read at any precedence that it has without
parentheses. -/
theorem besideRow (h : Readable e) {p : Nat} (hp : 1 ≤ p ∧ p ≤ 6)
    (hbare : Operator.times.enclosesRight e = false → p ≤ e.tightness) :
    ReadsAt (fun next => !Operator.times.enclosesRight e && e.takes next) e.besideRow e p :=
  h.enclosed hp hbare

/-- A product without an operator sign. -/
theorem beside {left right : Expr} (hl : Readable left) (hr : Readable right) (hbig : left.isBig = false)
    (hends : Operator.times.enclosesLeft left = false → goesOn left.takes right.besideRow = false)
    (htighter : Operator.times.enclosesRight right = false → Expr.signPrecedence < right.tightness) :
    Readable (.juxtapose left right) := by
  have htightness : (Expr.juxtapose left right).tightness = 3 := Expr.tightness_of_not_isBig rfl hbig
  have hleft : ReadsAt (fun next => !Operator.times.enclosesLeft left && left.takes next)
      (encloseIf (Operator.times.enclosesLeft left) left.row) left 3 :=
    hl.enclosed (by decide) fun hbare =>
      left.le_tightness (by decide) (Operator.le_of_not_enclosesLeft hbare)
  have hapart : goesOn (fun next => !Operator.times.enclosesLeft left && left.takes next) right.besideRow
      = false := by
    cases henclosed : Operator.times.enclosesLeft left with
    | true => cases right.besideRow <;> rfl
    | false => exact hends henclosed
  have hreads := hleft.beside (hr.besideRow (by decide) htighter) hapart
  refine ⟨by omega, ?_, fun heq => by omega, nofun⟩
  rw [htightness]
  exact hreads.mono fun _ => Expr.takes_of_right

/-- A big operator with its term. -/
theorem bigTerm {head operand : Expr} (hh : Readable head) (ho : Readable operand) (hbig : head.isBig = true)
    (hends : goesOn head.scriptTakes operand.besideRow = false) : Readable (.juxtapose head operand) := by
  have hterm : (Expr.juxtapose head operand).isBigTerm = true := hbig
  have htightness : (Expr.juxtapose head operand).tightness = 4 := by
    rw [Expr.tightness, hterm, Bool.or_true]
    rfl
  have hbare : Operator.times.enclosesLeft head = false :=
    decide_eq_false (Nat.not_lt.mpr (Nat.le_trans (by decide) (head.le_precedence_of_isBig hbig)))
  have hoperand : ReadsAt _ operand.besideRow operand 3 := ho.besideRow (by decide) fun hbare =>
    operand.le_tightness (by decide) (Operator.le_of_not_enclosesRight_times hbare)
  have hreads := (hh.head hbig).term hoperand hends
  refine ⟨by omega, ?_, fun heq => by omega, nofun⟩
  rw [htightness, Expr.row_juxtapose, hbare]
  refine hreads.mono fun next hnext => ?_
  rcases Bool.or_eq_true_iff.mp hnext with hright | hfactor
  · exact Expr.takes_of_right hright
  · simp only [Expr.takes, hterm, hfactor, Bool.and_self, Bool.or_true]

end Readable

/-- **The row of a tree is read as the tree.** -/
theorem Unambiguous.readable {e : Expr} (h : Unambiguous e) : Readable e := by
  -- One lemma for each node, with the parentheses that the node writes around its operands.
  induction h with
  | number => exact .of_atom rfl rfl (.number _)
  | name _ hne => exact .name hne
  | @sign op operand hop _ ih =>
    have hoperand : ReadsAt (fun next => !decide (operand.precedence ≤ Expr.signPrecedence) && operand.takes next)
        (encloseIf (operand.precedence ≤ Expr.signPrecedence) operand.row) operand 4 :=
      ih.enclosed (by decide) fun hneeded =>
        operand.le_tightness (by decide) (Nat.le_of_lt (Nat.lt_of_not_le (of_decide_eq_false hneeded)))
    exact ⟨Nat.le_add_left 1 3, .sign hop hoperand, nofun, nofun⟩
  | operator hop hadmits _ _ ihl ihr => exact ihl.operator ihr hop hadmits
  | beside hbig hends htighter _ _ _ ihl ihr => exact ihl.beside ihr hbig hends htighter
  | bigTerm hbig hends _ _ ihh iho => exact ihh.bigTerm iho hbig hends
  | @call function arguments hcallee _ ih =>
    refine .of_atom rfl rfl ?_
    rw [Expr.row_call hcallee.ne.1 hcallee.ne.2]
    refine .call ?_ ?_
    · cases hcallee with
      | plain h => rw [h.ofWord]; rfl
      | function f => rw [Symbol.ofWord_function]; rfl
    · exact List.forall₂_map_left_iff.mpr (List.forall₂_same.mpr fun e he => (ih e he).alone)
  | rootOne _ ih =>
    refine .of_atom rfl rfl ((ReadsAt.rootOne ih.alone).mono fun next hopen => ?_)
    simp [Expr.takes, hopen]
  | rootTwo _ _ ihi ihr => exact .of_atom rfl rfl (.rootTwo ihi.alone ihr.alone)
  | @integral integrand v _ _ ih => exact .of_atom rfl rfl (.integral ih.integrand v)
  | @integralBounds integrand lower upper v _ _ _ _ hlower hupper ihi ihl ihu =>
    have hcaret : (!decide (lower.precedence < Expr.atomPrecedence) && lower.takes .caret) = false := by
      by_cases hatom : lower.precedence < Expr.atomPrecedence
      · simp [hatom]
      · rw [lower.not_takes_of_atom (Nat.le_antisymm lower.precedence_le (Nat.le_of_not_lt hatom)) rfl,
          Bool.and_false]
    have hends : goesOn (fun next => !decide (upper.precedence < Expr.atomPrecedence) && upper.takes next)
        integrand.factorRow = false := by
      by_cases hatom : upper.precedence < Expr.atomPrecedence
      · cases integrand.factorRow <;> simp [goesOn, hatom]
      · have hbound := (hupper (Nat.le_antisymm upper.precedence_le (Nat.le_of_not_lt hatom))).2
        exact not_goesOn_mono (by simp) hbound
    exact .of_atom rfl rfl (.integralBounds ihi.integrand (ihl.script hlower) hcaret
      (ihu.script fun hatom => (hupper hatom).1) hends _ v)

end MathScribe
