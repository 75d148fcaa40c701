/-
Differentials close integrals like brackets.

The pass that closes integrals sees one token at a time. It counts the parentheses, keeps the depths of the
integrals that are open, and holds a `d` back until the next token shows whether it is a differential. This file
says what the pass does to a whole row of tokens, also to one whose parentheses are not balanced.

First the row is taken apart (`Passage`): a token is kept, or a name of `d` and a letter is made a differential,
or a `d` is joined with the name behind it. `Passes` has one rule for each of these and no state in which
something is held; it agrees with the pass (`exists_passes`).

Then the integrals get their differentials back. The pass remembers depths only, but behind every part of the row
the depths are those of the integrals that are still open there, the innermost first (`History`). An integral is
open at a place (`OpenAt`) when no parenthesis in between closes the group that it stands in and no differential
in front of the place belongs to it. One symbol more keeps the history (`History.plain`, `History.opening`,
`History.closeParen`, `History.differential`), and so the whole row is paired (`Passes.paired`). That a differential
goes to the innermost of the open integrals is what keeps pairs from crossing (`Matching.nested`).
-/
import Mathlib
import MathScribe.Proofs.Reading.Differential
import MathScribe.Proofs.Reading.Place

set_option autoImplicit false

namespace MathScribe

/-! ## What becomes of a token -/

/-- What becomes of a token, or of two that stand next to each other. -/
inductive Passage
  /-- The token stays as it is. -/
  | kept (token : Token)
  /-- A name of `d` and a letter is a differential. -/
  | alone (token : Token) (v : Text)
  /-- A `d` and the name behind it are a differential. -/
  | joined (d token : Token) (v : Text)
  deriving DecidableEq, Repr

namespace Passage

/-- The tokens that are taken. -/
def taken : Passage → List Token
  | kept token | alone token _ => [token]
  | joined d token _ => [d, token]

/-- The token that is delivered, at the place of the first one that is taken. -/
def delivered : Passage → Token
  | kept token => token
  | alone token v => ⟨.differential v, token.start⟩
  | joined d _ v => ⟨.differential v, d.start⟩

/-- Only a name of `d` and one letter is a differential of that letter, and only a `d` is joined with a name. -/
def Allowed : Passage → Prop
  | kept _ => True
  | alone token v => ∃ letter : Char, letter.isAlpha = true ∧ token.symbol = .name ['d', letter] ∧ v = [letter]
  | joined d token v => d.symbol = .name ['d'] ∧ token.symbol = .name v

end Passage

/-- The symbols that are delivered. -/
def deliveredRow (passages : List Passage) : List Symbol :=
  passages.map fun passage => passage.delivered.symbol

/-- Nothing is delivered for no passage. -/
@[simp] theorem deliveredRow_nil : deliveredRow [] = [] :=
  rfl

/-- Each passage delivers one symbol. -/
@[simp] theorem deliveredRow_cons (passage : Passage) (passages : List Passage) :
    deliveredRow (passage :: passages) = passage.delivered.symbol :: deliveredRow passages :=
  rfl

namespace Nesting

/-- An integral is open at the depth of the parentheses. -/
def Inside (state : Nesting) : Prop :=
  state.integrals.head? = some state.depth

/-- The state behind the differential of the innermost integral. -/
def close (state : Nesting) : Nesting :=
  { state with integrals := state.integrals.tail }

/-- The state without the `d` that is held. -/
def released (state : Nesting) : Nesting :=
  { state with held := none }

/-! ### One token -/

section

variable {state next : Nesting} {token : Token} {out : List Token} {text v : Text}

/-- **What a token other than a name does**: the closing parenthesis leaves no integral open that is deeper than what
follows, and an integral is opened at the depth of its place. Any other token changes the depth at most. -/
theorem takeFree_symbol (hname : token.symbol.startsWithName = false)
    (h : state.takeFree token = .ok (out, next)) :
    out = [token] ∧ next.held = state.held
      ∧ ((token.symbol = .closeParen ∧ next.depth = state.depth - 1
            ∧ next.integrals = state.integrals.dropWhile (state.depth - 1 < ·))
        ∨ (token.symbol = .integral ∧ next.depth = state.depth
            ∧ next.integrals = state.depth :: state.integrals)
        ∨ (0 ≤ token.symbol.weight ∧ token.symbol ≠ .integral ∧ next.depth = state.depth + token.symbol.weight
            ∧ next.integrals = state.integrals)) := by
  unfold takeFree at h
  cases hsymbol : token.symbol with
  | name | differential => rw [hsymbol] at hname; cases hname
  | closeParen =>
    rw [hsymbol] at h
    cases h
    exact ⟨rfl, rfl, .inl ⟨rfl, rfl, rfl⟩⟩
  | integral =>
    rw [hsymbol] at h
    cases h
    exact ⟨rfl, rfl, .inr (.inl ⟨rfl, rfl, rfl⟩)⟩
  | openParen =>
    rw [hsymbol] at h
    dsimp only at h
    split at h
    · cases h
    · cases h
      exact ⟨rfl, rfl, .inr (.inr ⟨by decide, nofun, rfl, rfl⟩)⟩
  | _ =>
    rw [hsymbol] at h
    cases h
    exact ⟨rfl, rfl, .inr (.inr ⟨le_rfl, nofun, (Int.add_zero _).symm, rfl⟩)⟩

/-- **What a name does**: directly inside an integral a `d` is held, and a `d` with a letter closes the integral. Any
other name is delivered as it is. -/
theorem takeFree_name (hsymbol : token.symbol = .name text) (h : state.takeFree token = .ok (out, next)) :
    ((state.Inside → text ≠ ['d'] ∧ differentialOf? text = none) ∧ out = [token] ∧ next = state)
      ∨ (state.Inside ∧ text = ['d'] ∧ out = [] ∧ next = { state with held := some token })
      ∨ (state.Inside ∧ ∃ v, differentialOf? text = some v ∧ out = [⟨.differential v, token.start⟩]
          ∧ next = state.close) := by
  unfold takeFree at h
  rw [hsymbol] at h
  dsimp only at h
  split at h
  · next hinside =>
    split at h
    · next hd =>
      cases h
      exact .inr (.inl ⟨hinside, hd, rfl, rfl⟩)
    · next hd =>
      split at h <;> cases h
      · exact .inr (.inr ⟨hinside, _, ‹_›, rfl, rfl⟩)
      · exact .inl ⟨fun _ => ⟨hd, ‹_›⟩, rfl, rfl⟩
  · next houtside =>
    cases h
    exact .inl ⟨fun hinside => absurd hinside houtside, rfl, rfl⟩

/-- Holding a `d` and letting it go again changes nothing. -/
theorem released_of_hold (hfree : state.held = none) (d : Token) :
    ({ state with held := some d } : Nesting).released = state := by
  rw [released, ← hfree]

/-- A name behind a `d` that is held is joined with it. -/
theorem take_joined {d : Token} (hheld : state.held = some d) (hsymbol : token.symbol = .name v) :
    state.take token = ([⟨.differential v, d.start⟩], .ok state.released.close) := by
  unfold take
  rw [hheld]
  dsimp only
  rw [hsymbol]
  rfl

/-- A token other than a name is taken behind a `d` that is held as it is without the `d`, which comes first. -/
theorem take_behind {d : Token} (hheld : state.held = some d) (hname : token.symbol.startsWithName = false) :
    state.take token
      = match state.released.takeFree token with
        | .ok (delivered, next) => (d :: delivered, .ok next)
        | .error e => ([d], .error e) := by
  unfold take
  rw [hheld]
  cases hsymbol : token.symbol with
  | name | differential => rw [hsymbol] at hname; cases hname
  | _ => rfl

/-- While nothing is held, a token is taken as it comes. -/
theorem take_of_free (hfree : state.held = none) :
    state.take token
      = match state.takeFree token with
        | .ok (delivered, next) => (delivered, .ok next)
        | .error e => ([], .error e) := by
  obtain ⟨depth, integrals, held⟩ := state
  obtain rfl : held = none := hfree
  rfl

/-- While nothing is held, taking a token is taking it free. -/
theorem takeFree_of_take (hfree : state.held = none) {delivered : List Token}
    (h : state.take token = (delivered, .ok next)) : state.takeFree token = .ok (delivered, next) := by
  rw [take_of_free hfree] at h
  split at h <;> cases h
  assumption

/-- The row behind a `d` that is held is taken as if nothing were held, behind the `d`, unless it starts with a
name. -/
theorem run_holding {d : Token} {tokens : List Token} (hfree : state.held = none)
    (h : goesOn Symbol.startsWithName (tokens.map Token.symbol) = false) :
    run none { state with held := some d } tokens = (run none state tokens).after [d] := by
  cases tokens with
  | nil => simp [run, hfree, Scan.after]
  | cons token tokens =>
    rw [run, run, take_behind rfl h, released_of_hold hfree, take_of_free hfree]
    cases state.takeFree token <;> rfl

/-- A row is taken when its first token is, and the rest in the state behind that. -/
theorem run_cons_eq {tokens : List Token} (h : (run none state (token :: tokens)).failure = none) :
    ∃ delivered next, state.take token = (delivered, .ok next)
      ∧ (run none next tokens).failure = none
      ∧ (run none state (token :: tokens)).tokens = delivered ++ (run none next tokens).tokens := by
  rw [run] at h ⊢
  cases htake : state.take token with
  | mk delivered outcome =>
    rw [htake] at h
    cases outcome with
    | error e => cases h
    | ok next => exact ⟨delivered, next, rfl, h, rfl⟩

end

end Nesting

/-- **How a row passes**, one rule for each thing that may happen to a token. Nothing is held between two
rules. -/
inductive Passes : Nesting → List Token → List Passage → Prop
  | nil {state : Nesting} : Passes state [] []
  /-- What is no name stays as it is. -/
  | symbol {state next : Nesting} {token : Token} {tokens : List Token} {passages : List Passage} :
      token.symbol.startsWithName = false → state.takeFree token = .ok ([token], next) →
      Passes next tokens passages → Passes state (token :: tokens) (.kept token :: passages)
  /-- A `d` directly inside an integral joins with the name behind it. -/
  | joined {state : Nesting} {d token : Token} {v : Text} {tokens : List Token} {passages : List Passage} :
      state.Inside → d.symbol = .name ['d'] → token.symbol = .name v → Passes state.close tokens passages →
      Passes state (d :: token :: tokens) (.joined d token v :: passages)
  /-- A name of `d` and a letter directly inside an integral is its differential. -/
  | alone {state : Nesting} {token : Token} {text v : Text} {tokens : List Token} {passages : List Passage} :
      state.Inside → token.symbol = .name text → Nesting.differentialOf? text = some v →
      Passes state.close tokens passages → Passes state (token :: tokens) (.alone token v :: passages)
  /-- Any other name stays as it is. -/
  | name {state : Nesting} {token : Token} {text : Text} {tokens : List Token} {passages : List Passage} :
      token.symbol = .name text →
      ¬ (state.Inside ∧ (Symbol.name text).passesForDifferential (tokens.map Token.symbol) = true) →
      Passes state tokens passages → Passes state (token :: tokens) (.kept token :: passages)

/-- A raw symbol is a name, or it does not start with one. -/
theorem Symbol.raw_cases {symbol : Symbol} (h : ∀ v, symbol ≠ .differential v) :
    symbol.startsWithName = false ∨ ∃ text, symbol = .name text := by
  cases symbol with
  | name text => exact .inr ⟨text, rfl⟩
  | differential v => exact absurd rfl (h v)
  | _ => exact .inl rfl

/-- A raw row that starts with a name starts with a token of a name: it holds no differentials. -/
theorem Raw.exists_name {tokens : List Token} (h : Raw tokens)
    (hname : goesOn Symbol.startsWithName (tokens.map Token.symbol) = true) :
    ∃ token behind v, tokens = token :: behind ∧ token.symbol = .name v := by
  cases tokens with
  | nil => cases hname
  | cons token behind =>
    rcases Symbol.raw_cases (h token List.mem_cons_self) with hother | ⟨v, hsymbol⟩
    · exact absurd (hother.symm.trans hname) Bool.noConfusion
    · exact ⟨token, behind, v, rfl, hsymbol⟩

/-- **The rules are those of the pass** on every row that it takes to the end. -/
theorem exists_passes {tokens : List Token} (hraw : Raw tokens) {state : Nesting} (hfree : state.held = none)
    (hrun : (Nesting.run none state tokens).failure = none) :
    ∃ passages, Passes state tokens passages
      ∧ (Nesting.run none state tokens).tokens = passages.map Passage.delivered := by
  -- A `d` and the name behind it are taken together, so the induction is on the length.
  induction hlength : tokens.length using Nat.strongRecOn generalizing tokens state with
  | _ n ih =>
    cases tokens with
    | nil => exact ⟨[], .nil, by simp [Nesting.run, hfree]⟩
    | cons token tokens =>
      rw [List.length_cons] at hlength
      obtain ⟨hfirst, hrest⟩ := List.forall_mem_cons.mp hraw
      obtain ⟨delivered, next, htake, hnext, hout⟩ := Nesting.run_cons_eq hrun
      have hok := Nesting.takeFree_of_take hfree htake
      rw [hout]
      rcases Symbol.raw_cases hfirst with hname | ⟨text, hsymbol⟩
      · obtain ⟨rfl, hheld, -⟩ := Nesting.takeFree_symbol hname hok
        obtain ⟨passages, hpasses, hmore⟩ := ih _ (by omega) hrest (hheld.trans hfree) hnext rfl
        exact ⟨_, .symbol hname hok hpasses, by rw [hmore]; rfl⟩
      · have hkept : ¬ (state.Inside ∧ (Symbol.name text).passesForDifferential (tokens.map Token.symbol)
            = true) → (Nesting.run none state tokens).failure = none →
            ∃ passages, Passes state (token :: tokens) passages
              ∧ token :: (Nesting.run none state tokens).tokens = passages.map Passage.delivered := by
          intro hkeep hnext
          obtain ⟨passages, hpasses, hmore⟩ := ih _ (by omega) hrest hfree hnext rfl
          exact ⟨_, .name hsymbol hkeep hpasses, by rw [hmore]; rfl⟩
        have hclosed : state.close.held = none := hfree
        rcases Nesting.takeFree_name hsymbol hok with
          ⟨hkeep, rfl, rfl⟩ | ⟨hinside, rfl, rfl, rfl⟩ | ⟨hinside, v, hv, rfl, rfl⟩
        · refine hkept ?_ hnext
          rintro ⟨hinside, hpasses⟩
          obtain ⟨hd, hnone⟩ := hkeep hinside
          rw [Closing.not_passesForDifferential hd hnone] at hpasses
          cases hpasses
        · -- The `d` waits for the token behind it.
          cases hname : goesOn Symbol.startsWithName (tokens.map Token.symbol) with
          | false =>
            rw [Nesting.run_holding hfree hname] at hnext ⊢
            exact hkept (by simp [Symbol.passesForDifferential_d, hname]) hnext
          | true =>
            obtain ⟨name, behind, v, rfl, hv⟩ := Raw.exists_name hrest hname
            obtain ⟨out, after, htaken, hafter, hmore⟩ := Nesting.run_cons_eq hnext
            rw [Nesting.take_joined rfl hv, Nesting.released_of_hold hfree] at htaken
            cases htaken
            rw [List.length_cons] at hlength
            obtain ⟨passages, hpasses, hlast⟩ :=
              ih _ (by omega) (List.forall_mem_cons.mp hrest).2 hclosed hafter rfl
            exact ⟨_, .joined hinside hsymbol hv hpasses, by rw [hmore, hlast]; rfl⟩
        · obtain ⟨passages, hpasses, hmore⟩ := ih _ (by omega) hrest hclosed hnext rfl
          exact ⟨_, .alone hinside hsymbol hv hpasses, by rw [hmore]; rfl⟩

namespace Passes

variable {state : Nesting} {tokens : List Token} {passages : List Passage}

/-- The row is what is taken, passage by passage. -/
theorem taken_eq (h : Passes state tokens passages) : passages.flatMap Passage.taken = tokens := by
  induction h with
  | nil => rfl
  | joined _ _ _ _ ih => rw [List.flatMap_cons, ih]; rfl
  | symbol _ _ _ ih | alone _ _ _ _ ih | name _ _ _ ih => rw [List.flatMap_cons, ih]; rfl

/-- Every passage is one of the three kinds: a kept token, a name that is a differential of its own, or a
`d` joined with the name behind it. -/
theorem allowed (h : Passes state tokens passages) : ∀ passage ∈ passages, passage.Allowed := by
  induction h with
  | nil => exact nofun
  | symbol _ _ _ ih | name _ _ _ ih => exact List.forall_mem_cons.mpr ⟨trivial, ih⟩
  | joined _ hd hv _ ih => exact List.forall_mem_cons.mpr ⟨⟨hd, hv⟩, ih⟩
  | alone _ hsymbol hv _ ih =>
    obtain ⟨letter, hletter, rfl, rfl⟩ := Nesting.differentialOf?_eq_some hv
    exact List.forall_mem_cons.mpr ⟨⟨letter, hletter, hsymbol, rfl⟩, ih⟩

end Passes

/-- **The passages of a text** whose tokens do not fail. -/
theorem exists_passages {text : Text} (h : (scanClosed text).failure = none) :
    ∃ passages : List Passage, Splits 0 text (passages.flatMap Passage.taken)
      ∧ (scanClosed text).tokens = passages.map Passage.delivered ∧ ∀ passage ∈ passages, passage.Allowed := by
  unfold scanClosed at h ⊢
  dsimp only at h ⊢
  cases hscan : (scan text).failure with
  | some e =>
    rw [hscan] at h
    exact absurd h (Nesting.run_some_failure e _ _)
  | none =>
    have hsplits : Splits 0 text (scan text).tokens := splits_iff.mpr (congrArg (Scan.mk _) hscan)
    rw [hscan] at h
    obtain ⟨passages, hpasses, hout⟩ := exists_passes hsplits.raw rfl h
    exact ⟨passages, hpasses.taken_eq.symm ▸ hsplits, hout, hpasses.allowed⟩

/-! ## Open integrals and their differentials -/

/-- The depth of the parentheses in front of a place in a row, below zero behind surplus closing ones. -/
def depthAt (row : List Symbol) (place : Nat) : Int :=
  ((row.take place).map Symbol.weight).sum

/-- **The integral at place `i` is open at place `j`**: no parenthesis between them closes the group that it stands
in, and no differential in front of `j` belongs to it. -/
structure OpenAt (row : List Symbol) (pairs : List (Nat × Nat)) (i j : Nat) : Prop where
  before : i < j
  integral : row[i]? = some .integral
  level : ∀ k, i ≤ k → k ≤ j → depthAt row i ≤ depthAt row k
  unpaired : ∀ m, (i, m) ∈ pairs → j ≤ m

/-- **Every differential belongs to the innermost of the integrals that are open at its place**, which stands at
its depth. -/
structure Matching (row : List Symbol) (pairs : List (Nat × Nat)) : Prop where
  isOpen : ∀ i j, (i, j) ∈ pairs → OpenAt row pairs i j
  differential : ∀ i j, (i, j) ∈ pairs → ∃ v, row[j]? = some (.differential v)
  level : ∀ i j, (i, j) ∈ pairs → depthAt row i = depthAt row j
  innermost : ∀ i j, (i, j) ∈ pairs → ∀ k, OpenAt row pairs k j → k ≤ i
  total : ∀ j v, row[j]? = some (.differential v) → ∃ i, (i, j) ∈ pairs

section

variable {front more : List Symbol} {pairs new : List (Nat × Nat)} {symbol : Symbol} {i j k : Nat}

/-- The depth at a place does not depend on what stands behind it. -/
theorem depthAt_append (h : k ≤ front.length) (more : List Symbol) :
    depthAt (front ++ more) k = depthAt front k := by
  rw [depthAt, List.take_append_of_le_length h, depthAt]

/-- A symbol changes the depth by its weight. -/
theorem depthAt_succ (front : List Symbol) (symbol : Symbol) :
    depthAt (front ++ [symbol]) (front.length + 1) = depthAt front front.length + symbol.weight := by
  simp [depthAt]

/-- Whether an integral is open at a place does not depend on what stands behind the place. -/
theorem openAt_append_iff (hj : j ≤ front.length) (hnew : ∀ pair ∈ new, j ≤ pair.2) :
    OpenAt (front ++ more) (pairs ++ new) i j ↔ OpenAt front pairs i j := by
  constructor
  · intro h
    have hi : i < front.length := Nat.lt_of_lt_of_le h.before hj
    refine ⟨h.before, ?_, fun k hik hkj => ?_, fun m hm => h.unpaired m (List.mem_append_left _ hm)⟩
    · rw [← List.getElem?_append_left hi]
      exact h.integral
    · have := h.level k hik hkj
      rwa [depthAt_append hi.le, depthAt_append (hkj.trans hj)] at this
  · intro h
    have hi : i < front.length := Nat.lt_of_lt_of_le h.before hj
    refine ⟨h.before, ?_, fun k hik hkj => ?_, fun m hm => ?_⟩
    · rw [List.getElem?_append_left hi]
      exact h.integral
    · rw [depthAt_append hi.le, depthAt_append (hkj.trans hj)]
      exact h.level k hik hkj
    · rcases List.mem_append.mp hm with hm | hm
      · exact h.unpaired m hm
      · exact hnew _ hm

/-- **What one symbol does to an integral in front of it**: it stays open unless the symbol is a parenthesis that
closes its group or the differential that is given to it. -/
theorem openAt_succ_iff (hpairs : ∀ pair ∈ pairs, pair.2 < front.length)
    (hnew : ∀ pair ∈ new, pair.2 = front.length) (hi : i < front.length) :
    OpenAt (front ++ [symbol]) (pairs ++ new) i (front.length + 1)
      ↔ OpenAt front pairs i front.length ∧ depthAt front i ≤ depthAt front front.length + symbol.weight
        ∧ ∀ pair ∈ new, pair.1 ≠ i := by
  constructor
  · intro h
    refine ⟨(openAt_append_iff le_rfl fun pair hpair => (hnew pair hpair).ge).mp
      (⟨hi, h.integral, fun k hik hk => h.level k hik (hk.trans (Nat.le_succ _)), fun m hm => ?_⟩ :
        OpenAt (front ++ [symbol]) (pairs ++ new) i front.length), ?_, ?_⟩
    · exact (Nat.le_succ _).trans (h.unpaired m hm)
    · have := h.level (front.length + 1) (by omega) le_rfl
      rwa [depthAt_append hi.le, depthAt_succ] at this
    · rintro ⟨_, m⟩ hm rfl
      have := h.unpaired m (List.mem_append_right _ hm)
      have := hnew _ hm
      simp only at this
      omega
  · rintro ⟨h, hlevel, hfree⟩
    refine ⟨by omega, ?_, fun k hik hk => ?_, fun m hm => ?_⟩
    · rw [List.getElem?_append_left hi]
      exact h.integral
    · rw [depthAt_append hi.le]
      rcases Nat.lt_or_eq_of_le hk with hk | rfl
      · rw [depthAt_append (Nat.le_of_lt_succ hk)]
        exact h.level k hik (Nat.le_of_lt_succ hk)
      · rwa [depthAt_succ]
    · rcases List.mem_append.mp hm with hm | hm
      · exact absurd (h.unpaired m hm) (Nat.not_le.mpr (hpairs _ hm))
      · exact absurd rfl (hfree _ hm)

/-- A symbol opens an integral at its own place when it is one. -/
theorem openAt_own_iff (hpairs : ∀ pair ∈ pairs, pair.1 < front.length) :
    OpenAt (front ++ [symbol]) pairs front.length (front.length + 1) ↔ symbol = .integral := by
  constructor
  · intro h
    simpa using h.integral
  · rintro rfl
    refine ⟨Nat.lt_succ_self _, by simp, fun k hlow hhigh => ?_, fun m hm => ?_⟩
    · rw [depthAt_append le_rfl]
      rcases Nat.lt_or_eq_of_le hhigh with hk | rfl
      · obtain rfl : k = front.length := by omega
        rw [depthAt_append le_rfl]
      · rw [depthAt_succ]
        simp [Symbol.weight]
    · exact absurd (hpairs _ hm) (Nat.lt_irrefl _)

end

namespace Matching

variable {row : List Symbol} {pairs : List (Nat × Nat)} {i j i' j' : Nat}

/-- Every pair ends inside the row. -/
theorem snd_lt (h : Matching row pairs) : ∀ pair ∈ pairs, pair.2 < row.length := by
  rintro ⟨i, j⟩ hpair
  obtain ⟨v, hv⟩ := h.differential i j hpair
  exact (List.getElem?_eq_some_iff.mp hv).1

/-- Every pair starts inside the row. -/
theorem fst_lt (h : Matching row pairs) : ∀ pair ∈ pairs, pair.1 < row.length := by
  rintro ⟨i, j⟩ hpair
  exact (h.isOpen i j hpair).before.trans (h.snd_lt _ hpair)

/-- An integral has one differential, and a differential one integral. -/
theorem fst_eq_iff (h : Matching row pairs) (hpair : (i, j) ∈ pairs) (hpair' : (i', j') ∈ pairs) :
    i = i' ↔ j = j' := by
  constructor
  · rintro rfl
    exact Nat.le_antisymm ((h.isOpen i j hpair).unpaired j' hpair')
      ((h.isOpen i j' hpair').unpaired j hpair)
  · rintro rfl
    exact Nat.le_antisymm (h.innermost i' j hpair' i (h.isOpen i j hpair))
      (h.innermost i j hpair i' (h.isOpen i' j hpair'))

/-- **Pairs do not cross.** An integral inside of a pair that is closed behind it would still be open at the
differential of the pair, and further inside than the integral that the differential belongs to. -/
theorem nested (h : Matching row pairs) (hpair : (i, j) ∈ pairs) (hpair' : (i', j') ∈ pairs)
    (hleft : i < i') (hright : i' < j) : j' < j := by
  by_contra hcross
  have hle : j ≤ j' := Nat.not_lt.mp hcross
  have hopen' := h.isOpen i' j' hpair'
  have hopen : OpenAt row pairs i' j :=
    ⟨hright, hopen'.integral, fun k hlow hhigh => hopen'.level k hlow (hhigh.trans hle),
      fun m hm => ((h.fst_eq_iff hpair' hm).mp rfl) ▸ hle⟩
  exact absurd (h.innermost i j hpair i' hopen) (Nat.not_le.mpr hleft)

end Matching

/-! ### The history of the pass -/

/-- **What the state stands for** behind the front of a row: the depth is the one there, and the integrals are those
that are open there, the innermost first, each with the depth of its place. -/
structure History (front : List Symbol) (opened : List Nat) (pairs : List (Nat × Nat)) (state : Nesting) :
    Prop where
  depth : state.depth = depthAt front front.length
  integrals : state.integrals = opened.map (depthAt front)
  sorted : opened.Pairwise (· > ·)
  isOpen : ∀ i, i ∈ opened ↔ OpenAt front pairs i front.length
  matching : Matching front pairs

/-- What is left of a list that falls, when the greater values at its front are dropped. -/
theorem mem_dropWhile_iff {α : Type} {f : α → Int} {bound : Int} {l : List α}
    (h : l.Pairwise fun a b => f b ≤ f a) {a : α} :
    a ∈ l.dropWhile (fun b => bound < f b) ↔ a ∈ l ∧ f a ≤ bound := by
  induction l with
  | nil => simp
  | cons first l ih =>
    obtain ⟨hfirst, hrest⟩ := List.pairwise_cons.mp h
    by_cases hdrop : bound < f first
    · rw [List.dropWhile_cons_of_pos (by simpa using hdrop), ih hrest, List.mem_cons]
      constructor
      · exact fun ⟨hmem, hle⟩ => ⟨.inr hmem, hle⟩
      · rintro ⟨rfl | hmem, hle⟩
        · exact absurd hle (Int.not_le.mpr hdrop)
        · exact ⟨hmem, hle⟩
    · rw [List.dropWhile_cons_of_neg (by simpa using hdrop)]
      refine ⟨fun hmem => ⟨hmem, ?_⟩, And.left⟩
      have hle : f first ≤ bound := Int.not_lt.mp hdrop
      rcases List.mem_cons.mp hmem with rfl | hmem
      · exact hle
      · exact (hfirst a hmem).trans hle

section

variable {front : List Symbol} {opened opened' : List Nat} {pairs new : List (Nat × Nat)} {state next : Nesting}
  {symbol : Symbol}

/-- A row goes on with a symbol. When it is a differential it is given to the innermost open integral, which stands
at its depth. -/
theorem Matching.snoc (h : Matching front pairs)
    (hnew : ∀ pair ∈ new, pair.2 = front.length ∧ OpenAt front pairs pair.1 front.length
      ∧ depthAt front pair.1 = depthAt front front.length
      ∧ ∀ k, OpenAt front pairs k front.length → k ≤ pair.1)
    (hsymbol : (∃ v, symbol = .differential v) ↔ new ≠ []) :
    Matching (front ++ [symbol]) (pairs ++ new) := by
  have hsame : ∀ i j, j ≤ front.length →
      (OpenAt (front ++ [symbol]) (pairs ++ new) i j ↔ OpenAt front pairs i j) := fun i j hj =>
    openAt_append_iff hj fun pair hpair => hj.trans (hnew pair hpair).1.ge
  refine ⟨fun i j hpair => ?_, fun i j hpair => ?_, fun i j hpair => ?_, fun i j hpair k hk => ?_,
    fun j v hv => ?_⟩
  -- The pairs that there are stay as they are, and what is asked of the new one is given.
  · rcases List.mem_append.mp hpair with hpair | hpair
    · exact (hsame i j (h.snd_lt _ hpair).le).mpr (h.isOpen i j hpair)
    · obtain ⟨rfl, hopen, -, -⟩ := hnew _ hpair
      exact (hsame i _ le_rfl).mpr hopen
  · rcases List.mem_append.mp hpair with hpair | hpair
    · rw [List.getElem?_append_left (h.snd_lt _ hpair)]
      exact h.differential i j hpair
    · obtain ⟨rfl, -, -, -⟩ := hnew _ hpair
      obtain ⟨v, rfl⟩ := hsymbol.mpr (List.ne_nil_of_mem hpair)
      exact ⟨v, by simp⟩
  · rcases List.mem_append.mp hpair with hpair | hpair
    · rw [depthAt_append (h.fst_lt _ hpair).le, depthAt_append (h.snd_lt _ hpair).le]
      exact h.level i j hpair
    · obtain ⟨rfl, hopen, hlevel, -⟩ := hnew _ hpair
      rw [depthAt_append hopen.before.le, depthAt_append le_rfl]
      exact hlevel
  · rcases List.mem_append.mp hpair with hpair | hpair
    · exact h.innermost i j hpair k ((hsame k j (h.snd_lt _ hpair).le).mp hk)
    · obtain ⟨rfl, -, -, hinner⟩ := hnew _ hpair
      exact hinner k ((hsame k _ le_rfl).mp hk)
  · obtain ⟨hj, -⟩ := List.getElem?_eq_some_iff.mp hv
    rw [List.length_append, List.length_singleton] at hj
    rcases Nat.lt_or_eq_of_le (Nat.le_of_lt_succ hj) with hj | rfl
    · rw [List.getElem?_append_left hj] at hv
      obtain ⟨i, hi⟩ := h.total j v hv
      exact ⟨i, List.mem_append_left _ hi⟩
    · obtain ⟨⟨i, j⟩, hpair⟩ := List.exists_mem_of_ne_nil _ (hsymbol.mp ⟨v, by simpa using hv⟩)
      obtain ⟨rfl, -⟩ := hnew _ hpair
      exact ⟨i, List.mem_append_right _ hpair⟩

/-- A symbol that is no differential needs no new pair. -/
theorem Matching.push (h : Matching front pairs) (hsymbol : ∀ v, symbol ≠ .differential v) :
    Matching (front ++ [symbol]) (pairs ++ []) :=
  h.snoc (List.forall_mem_nil _) ⟨fun ⟨v, hv⟩ => absurd hv (hsymbol v), fun hne => absurd rfl hne⟩

namespace History

/-- A row goes on with a symbol, when the new state has the integrals that are then open. -/
theorem snoc (h : History front opened pairs state) (hdepth : next.depth = state.depth + symbol.weight)
    (hintegrals : next.integrals = opened'.map (depthAt (front ++ [symbol])))
    (hsorted : opened'.Pairwise (· > ·))
    (hmatching : Matching (front ++ [symbol]) (pairs ++ new))
    (hnew : ∀ pair ∈ new, pair.1 < front.length ∧ pair.2 = front.length)
    (hopened : ∀ i, i ∈ opened' ↔
      (i ∈ opened ∧ depthAt front i ≤ state.depth + symbol.weight ∧ ∀ pair ∈ new, pair.1 ≠ i)
        ∨ (i = front.length ∧ symbol = .integral)) :
    History (front ++ [symbol]) opened' (pairs ++ new) next := by
  have hlength : (front ++ [symbol]).length = front.length + 1 := by simp
  refine ⟨?_, hintegrals, hsorted, fun i => ?_, hmatching⟩
  · rw [hlength, depthAt_succ, hdepth, h.depth]
  · rw [hlength, hopened]
    -- An integral in front of the symbol, the symbol itself, and nothing behind it.
    rcases Nat.lt_trichotomy i front.length with hi | rfl | hi
    · rw [openAt_succ_iff h.matching.snd_lt (fun pair hpair => (hnew pair hpair).2) hi, ← h.isOpen, h.depth]
      exact or_iff_left fun hown => absurd hown.1 hi.ne
    · have hfst : ∀ pair ∈ pairs ++ new, pair.1 < front.length := by
        intro pair hpair
        rcases List.mem_append.mp hpair with hpair | hpair
        · exact h.matching.fst_lt pair hpair
        · exact (hnew pair hpair).1
      rw [openAt_own_iff hfst]
      have hout : front.length ∉ opened := fun hmem => absurd ((h.isOpen _).mp hmem).before (Nat.lt_irrefl _)
      simp [hout]
    · constructor
      · rintro (⟨hmem, -, -⟩ | ⟨rfl, -⟩)
        · exact absurd ((h.isOpen i).mp hmem).before (Nat.lt_asymm hi)
        · exact absurd hi (Nat.lt_irrefl _)
      · intro hopen
        exact absurd hopen.before (by omega)

/-- In front of the row nothing is open. -/
theorem nil (state : Nesting) (hdepth : state.depth = 0) (hintegrals : state.integrals = []) :
    History [] [] [] state :=
  ⟨hdepth, hintegrals, .nil, fun _ => ⟨nofun, fun h => absurd h.before (Nat.not_lt_zero _)⟩,
    ⟨nofun, nofun, nofun, nofun, nofun⟩⟩

/-- The open integrals in front of the end, none of them deeper than the row is there. -/
theorem of_mem (h : History front opened pairs state) {i : Nat} (hi : i ∈ opened) :
    i < front.length ∧ depthAt front i ≤ state.depth := by
  have hopen := (h.isOpen i).mp hi
  exact ⟨hopen.before, h.depth ▸ hopen.level _ hopen.before.le le_rfl⟩

/-- The integrals further inside are at least as deep. -/
theorem deeper (h : History front opened pairs state) :
    opened.Pairwise fun i i' => depthAt front i' ≤ depthAt front i := by
  refine h.sorted.imp_of_mem fun {i i'} hi hi' hlt => ?_
  exact ((h.isOpen i').mp hi').level i (Nat.le_of_lt hlt) ((h.isOpen i).mp hi).before.le

/-- The depths at the open integrals stay what they are when the row goes on. -/
theorem map_depthAt (h : History front opened pairs state) (symbol : Symbol) :
    opened.map (depthAt (front ++ [symbol])) = opened.map (depthAt front) :=
  List.map_congr_left fun _ hi => depthAt_append (h.of_mem hi).1.le _

/-- A symbol that is neither an integral nor a differential, and no closing parenthesis. -/
theorem plain (h : History front opened pairs state) (hweight : 0 ≤ symbol.weight)
    (hintegral : symbol ≠ .integral) (hdifferential : ∀ v, symbol ≠ .differential v)
    (hdepth : next.depth = state.depth + symbol.weight) (hintegrals : next.integrals = state.integrals) :
    History (front ++ [symbol]) opened pairs next := by
  refine List.append_nil pairs ▸ h.snoc hdepth ?_ h.sorted (h.matching.push hdifferential)
    (List.forall_mem_nil _) fun i => ?_
  · rw [hintegrals, h.integrals, h.map_depthAt]
  · constructor
    · exact fun hi => .inl ⟨hi, by have := (h.of_mem hi).2; omega, List.forall_mem_nil _⟩
    · rintro (⟨hi, -, -⟩ | ⟨-, rfl⟩)
      · exact hi
      · exact absurd rfl hintegral

/-- An integral is open behind its place. -/
theorem opening (h : History front opened pairs state) (hdepth : next.depth = state.depth)
    (hintegrals : next.integrals = state.depth :: state.integrals) :
    History (front ++ [.integral]) (front.length :: opened) pairs next := by
  refine List.append_nil pairs ▸ h.snoc (by simp [hdepth, Symbol.weight]) ?_ ?_ (h.matching.push (by simp))
    (List.forall_mem_nil _) fun i => ?_
  · rw [hintegrals, h.integrals, List.map_cons, h.map_depthAt, depthAt_append le_rfl, h.depth]
  · exact .cons (fun i hi => (h.of_mem hi).1) h.sorted
  · simp only [List.mem_cons, and_true]
    constructor
    · rintro (rfl | hi)
      · exact .inr rfl
      · exact .inl ⟨hi, by simpa [Symbol.weight] using (h.of_mem hi).2, List.forall_mem_nil _⟩
    · rintro (⟨hi, -, -⟩ | rfl)
      · exact .inr hi
      · exact .inl rfl

/-- A closing parenthesis leaves the integrals open that are not deeper than what follows. -/
theorem closeParen (h : History front opened pairs state) (hdepth : next.depth = state.depth - 1)
    (hintegrals : next.integrals = state.integrals.dropWhile (state.depth - 1 < ·)) :
    History (front ++ [.closeParen]) (opened.dropWhile fun i => state.depth - 1 < depthAt front i) pairs
      next := by
  have hsuffix := List.dropWhile_suffix (l := opened) fun i => state.depth - 1 < depthAt front i
  refine List.append_nil pairs ▸ h.snoc hdepth ?_ (h.sorted.sublist hsuffix.sublist)
    (h.matching.push (by simp)) (List.forall_mem_nil _) fun i => ?_
  · rw [hintegrals, h.integrals, List.dropWhile_map]
    refine List.map_congr_left fun i hi => ?_
    exact (depthAt_append (h.of_mem (hsuffix.subset hi)).1.le _).symm
  · rw [mem_dropWhile_iff h.deeper]
    simp [Symbol.weight, Int.sub_eq_add_neg]

/-- A differential closes the innermost integral. -/
theorem differential (h : History front opened pairs state) (hinside : state.Inside) (v : Text) :
    ∃ i rest, History (front ++ [.differential v]) rest (pairs ++ [(i, front.length)]) state.close := by
  obtain ⟨i, rest, rfl⟩ : ∃ i rest, opened = i :: rest := by
    cases opened with
    | nil =>
      unfold Nesting.Inside at hinside
      rw [h.integrals] at hinside
      cases hinside
    | cons i rest => exact ⟨i, rest, rfl⟩
  -- The innermost integral is the one that the state has on top, at the depth of the state.
  have hlevel : depthAt front i = state.depth := by
    unfold Nesting.Inside at hinside
    rw [h.integrals] at hinside
    exact Option.some.inj hinside
  obtain ⟨hbelow, hsorted⟩ := List.pairwise_cons.mp h.sorted
  have hmatching : Matching (front ++ [.differential v]) (pairs ++ [(i, front.length)]) := by
    refine h.matching.snoc ?_ ⟨fun _ => List.cons_ne_nil _ _, fun _ => ⟨v, rfl⟩⟩
    rintro pair hpair
    obtain rfl := List.mem_singleton.mp hpair
    refine ⟨rfl, (h.isOpen i).mp List.mem_cons_self, hlevel.trans h.depth, fun k hk => ?_⟩
    rcases List.mem_cons.mp ((h.isOpen k).mpr hk) with rfl | hmem
    · exact le_rfl
    · exact (hbelow k hmem).le
  refine ⟨i, rest, h.snoc (by simp [Nesting.close, Symbol.weight]) ?_ hsorted hmatching ?_ fun k => ?_⟩
  · have := h.map_depthAt (.differential v)
    rw [Nesting.close, h.integrals, List.map_cons, List.tail_cons]
    exact (List.cons.inj this).2.symm
  · rintro pair hpair
    obtain rfl := List.mem_singleton.mp hpair
    exact ⟨(h.of_mem List.mem_cons_self).1, rfl⟩
  · constructor
    · intro hk
      refine .inl ⟨List.mem_cons_of_mem _ hk, ?_, ?_⟩
      · simpa [Symbol.weight] using (h.of_mem (List.mem_cons_of_mem _ hk)).2
      · rintro pair hpair rfl
        obtain rfl := List.mem_singleton.mp hpair
        exact absurd (hbelow i hk) (Nat.lt_irrefl _)
    · rintro (⟨hk, -, hne⟩ | ⟨-, hk⟩)
      · rcases List.mem_cons.mp hk with rfl | hk
        · exact absurd rfl (hne _ List.mem_cons_self)
        · exact hk
      · cases hk

/-- An integral is open at the depth of the state exactly when the pass finds one there. -/
theorem inside_iff (h : History front opened pairs state) :
    state.Inside ↔ ∃ i, OpenAt front pairs i front.length ∧ depthAt front i = depthAt front front.length := by
  unfold Nesting.Inside
  rw [h.integrals, h.depth]
  constructor
  · intro hhead
    cases opened with
    | nil => cases hhead
    | cons i rest => exact ⟨i, (h.isOpen i).mp List.mem_cons_self, Option.some.inj hhead⟩
  · rintro ⟨i, hopen, hlevel⟩
    cases opened with
    | nil => exact nomatch (h.isOpen i).mpr hopen
    | cons first rest =>
      -- The innermost one is at least as deep as this one, and not deeper than the row.
      have hfirst := (h.of_mem List.mem_cons_self).2
      rw [h.depth] at hfirst
      refine congrArg some (le_antisymm hfirst ?_)
      rcases List.mem_cons.mp ((h.isOpen i).mpr hopen) with rfl | hmem
      · exact hlevel.ge
      · exact hlevel ▸ (List.pairwise_cons.mp h.deeper).1 i hmem

end History

end

/-! ### The whole row -/

/-- **A name stays a name only for want of an integral.** Where a name that passes for a differential is kept, no
integral of the same depth is open. The first passage delivers the symbol at the given place. -/
def NamesStay (row : List Symbol) (pairs : List (Nat × Nat)) (place : Nat) (passages : List Passage) : Prop :=
  ∀ k token, passages[k]? = some (.kept token) →
    token.symbol.passesForDifferential (((passages.drop (k + 1)).flatMap Passage.taken).map Token.symbol) = true →
    ∀ i, OpenAt row pairs i (place + k) → depthAt row i ≠ depthAt row (place + k)

/-- What becomes of a row behind the front: its differentials are given to integrals, and its other names stay. -/
def Paired (front : List Symbol) (pairs : List (Nat × Nat)) (passages : List Passage) : Prop :=
  ∃ new, (∀ pair ∈ new, front.length ≤ pair.2)
    ∧ Matching (front ++ deliveredRow passages) (pairs ++ new)
    ∧ NamesStay (front ++ deliveredRow passages) (pairs ++ new) front.length passages

section

variable {front : List Symbol} {pairs new : List (Nat × Nat)} {passage : Passage} {passages : List Passage}

/-- Only a name passes for a differential. -/
theorem Symbol.not_passesForDifferential_of_startsWithName {symbol : Symbol} (h : symbol.startsWithName = false)
    (behind : List Symbol) : symbol.passesForDifferential behind = false := by
  cases symbol with
  | name => cases h
  | _ => rfl

/-- One passage in front of a row. -/
theorem Paired.cons (h : Paired (front ++ [passage.delivered.symbol]) (pairs ++ new) passages)
    (hnew : ∀ pair ∈ new, pair.2 = front.length)
    (hstays : ∀ token, passage = .kept token →
      token.symbol.passesForDifferential ((passages.flatMap Passage.taken).map Token.symbol) = true →
      ∀ i, OpenAt front pairs i front.length → depthAt front i ≠ depthAt front front.length) :
    Paired front pairs (passage :: passages) := by
  obtain ⟨more, hmore, hmatching, hothers⟩ := h
  have hlength : (front ++ [passage.delivered.symbol]).length = front.length + 1 := by simp
  have hrow : front ++ deliveredRow (passage :: passages)
      = front ++ [passage.delivered.symbol] ++ deliveredRow passages := by simp
  rw [hlength] at hmore hothers
  have hbehind : ∀ pair ∈ new ++ more, front.length ≤ pair.2 := by
    intro pair hpair
    rcases List.mem_append.mp hpair with hpair | hpair
    · exact (hnew pair hpair).ge
    · exact (Nat.le_succ _).trans (hmore pair hpair)
  rw [List.append_assoc pairs, ← hrow] at hmatching hothers
  refine ⟨new ++ more, hbehind, hmatching, fun k token hk hpasses i hopen => ?_⟩
  cases k with
  | zero =>
    -- What is open at the end of the front is decided by the front.
    rw [Nat.add_zero] at hopen ⊢
    rw [openAt_append_iff le_rfl hbehind] at hopen
    rw [depthAt_append hopen.before.le, depthAt_append le_rfl]
    exact hstays token (Option.some.inj hk) hpasses i hopen
  | succ k =>
    rw [Nat.add_comm k 1, ← Nat.add_assoc] at hopen ⊢
    exact hothers k token hk hpasses i hopen

/-- What the state remembers of the front is enough to pair the rest of the row. -/
theorem Passes.paired {state : Nesting} {tokens : List Token} {opened : List Nat}
    (h : Passes state tokens passages) (hist : History front opened pairs state) :
    Paired front pairs passages := by
  -- The history grows by one token in every case; only a differential takes an integral off it.
  induction h generalizing front opened pairs with
  | nil =>
    refine ⟨[], nofun, ?_, fun k token hk => nomatch hk⟩
    rw [List.append_nil, deliveredRow_nil, List.append_nil]
    exact hist.matching
  | @symbol state next token tokens passages hname hok hrest ih =>
    have hnext : ∃ opened', History (front ++ [token.symbol]) opened' pairs next := by
      obtain ⟨-, -, ⟨hsymbol, hdepth, hopen⟩ | ⟨hsymbol, hdepth, hopen⟩ | ⟨hweight, hne, hdepth, hopen⟩⟩ :=
        Nesting.takeFree_symbol hname hok
      · exact ⟨_, hsymbol ▸ hist.closeParen hdepth hopen⟩
      · exact ⟨_, hsymbol ▸ hist.opening hdepth hopen⟩
      · exact ⟨_, hist.plain hweight hne (fun v hv => by rw [hv] at hname; cases hname) hdepth hopen⟩
    obtain ⟨opened', hnext⟩ := hnext
    refine @Paired.cons front pairs [] (.kept token) passages ?_ nofun ?_
    · rw [List.append_nil]
      exact ih hnext
    · rintro _ ⟨⟩ hpasses
      rw [Symbol.not_passesForDifferential_of_startsWithName hname] at hpasses
      cases hpasses
  | joined hinside _ _ _ ih =>
    obtain ⟨i, rest, hnext⟩ := hist.differential hinside _
    exact (ih hnext).cons (by simp) nofun
  | alone hinside _ _ _ ih =>
    obtain ⟨i, rest, hnext⟩ := hist.differential hinside _
    exact (ih hnext).cons (by simp) nofun
  | @name state token text tokens passages hsymbol hkeep hrest ih =>
    have hnext : History (front ++ [token.symbol]) opened pairs state :=
      hsymbol ▸ hist.plain (by simp [Symbol.weight]) nofun nofun (by simp [Symbol.weight]) rfl
    refine @Paired.cons front pairs [] (.kept token) passages ?_ nofun ?_
    · rw [List.append_nil]
      exact ih hnext
    · rintro _ ⟨⟩ hpasses i hopen hlevel
      rw [hsymbol, hrest.taken_eq] at hpasses
      exact hkeep ⟨hist.inside_iff.mpr ⟨i, hopen, hlevel⟩, hpasses⟩

end

/-! ## The stack of open integrals -/

namespace Nesting

/-- No open integral is deeper than one further inside or than the place that is reached, and only a `d` directly
inside the innermost one is held. -/
structure Ordered (state : Nesting) : Prop where
  falls : state.integrals.Pairwise (· ≥ ·)
  bounded : ∀ depth ∈ state.integrals, depth ≤ state.depth
  holding : ∀ d, state.held = some d → d.symbol = .name ['d'] ∧ state.Inside

/-- The state behind some tokens, when they are taken. -/
def behind? (state : Nesting) : List Token → Option Nesting
  | [] => some state
  | token :: tokens =>
    match state.take token with
    | (_, .ok next) => next.behind? tokens
    | (_, .error _) => none

/-- In front of the row the stack is in order: it is empty. -/
theorem ordered_initial : initial.Ordered :=
  ⟨.nil, nofun, nofun⟩

/-- An integral is taken from the stack, and it is one of the depth that is reached. -/
def Pops (state next : Nesting) : Prop :=
  state.integrals = state.depth :: next.integrals

section

variable {state next : Nesting} {token : Token} {delivered : List Token}

/-- Directly inside an integral, closing takes the innermost one from the stack. -/
theorem Inside.pops_close (h : state.Inside) : state.Pops state.close := by
  obtain ⟨outside, houtside⟩ := List.head?_eq_some_iff.mp h
  rw [Pops, close, houtside, List.tail_cons]

/-- Closing an integral keeps the stack in order. -/
theorem Ordered.close (h : state.Ordered) (hfree : state.held = none) : state.close.Ordered :=
  ⟨h.falls.tail, fun depth hdepth => h.bounded depth (List.mem_of_mem_tail hdepth),
    fun _ hheld => nomatch hfree.symm.trans hheld⟩

/-- **A token that is taken keeps the stack in order**, and no differential is made of it when the stack is empty. -/
theorem Ordered.takeFree (h : state.Ordered) (hfree : state.held = none)
    (hraw : ∀ v, token.symbol ≠ .differential v) (htake : state.takeFree token = .ok (delivered, next)) :
    next.Ordered ∧ ((∃ d ∈ delivered, ∃ v, d.symbol = .differential v) → state.Pops next) := by
  have hplain : ¬ ∃ d ∈ [token], ∃ v, d.symbol = .differential v := by
    rintro ⟨d, hd, v, hv⟩
    obtain rfl := List.mem_singleton.mp hd
    exact hraw v hv
  rcases Symbol.raw_cases hraw with hname | ⟨text, hsymbol⟩
  · obtain ⟨rfl, hheld, hturn⟩ := takeFree_symbol hname htake
    refine ⟨?_, fun hd => absurd hd hplain⟩
    have hholding : ∀ d, next.held = some d → d.symbol = .name ['d'] ∧ next.Inside :=
      fun _ hd => nomatch (hheld.trans hfree).symm.trans hd
    -- A closing parenthesis, an integral, and any other symbol.
    rcases hturn with ⟨-, hdepth, hopen⟩ | ⟨-, hdepth, hopen⟩ | ⟨hweight, -, hdepth, hopen⟩
    · refine ⟨hopen ▸ h.falls.sublist (List.dropWhile_suffix _).sublist, fun depth hmem => ?_, hholding⟩
      rw [hopen] at hmem
      rw [hdepth]
      exact ((mem_dropWhile_iff (f := id) h.falls).mp hmem).2
    · refine ⟨hopen ▸ .cons h.bounded h.falls, ?_, hholding⟩
      rw [hopen, hdepth]
      exact List.forall_mem_cons.mpr ⟨le_rfl, h.bounded⟩
    · refine ⟨hopen ▸ h.falls, fun depth hmem => ?_, hholding⟩
      have := h.bounded depth (hopen ▸ hmem)
      omega
  · rcases takeFree_name hsymbol htake with
      ⟨-, rfl, rfl⟩ | ⟨hinside, rfl, rfl, rfl⟩ | ⟨hinside, v, -, rfl, rfl⟩
    · exact ⟨h, fun hd => absurd hd hplain⟩
    · refine ⟨⟨h.falls, h.bounded, fun d hd => ?_⟩, nofun⟩
      obtain rfl := Option.some.inj hd
      exact ⟨hsymbol, hinside⟩
    · exact ⟨h.close hfree, fun _ => hinside.pops_close⟩

/-- **The same with a `d` held in front of the token.** It is delivered with the token, or joined with it
to a differential, which closes the integral that the `d` stood in. -/
theorem Ordered.take (h : state.Ordered) (hraw : ∀ v, token.symbol ≠ .differential v)
    (htake : state.take token = (delivered, .ok next)) :
    next.Ordered ∧ ((∃ d ∈ delivered, ∃ v, d.symbol = .differential v) → state.Pops next) := by
  cases hheld : state.held with
  | none => exact h.takeFree hheld hraw (takeFree_of_take hheld htake)
  | some d =>
    obtain ⟨hd, hinside⟩ := h.holding d hheld
    have hfree : state.released.Ordered := ⟨h.falls, h.bounded, nofun⟩
    rcases Symbol.raw_cases hraw with hname | ⟨v, hsymbol⟩
    · -- The `d` is delivered as it is, in front of what is delivered without it.
      rw [take_behind hheld hname] at htake
      obtain ⟨more, hmore, rfl⟩ : ∃ more, state.released.takeFree token = .ok (more, next)
          ∧ delivered = d :: more := by
        split at htake <;> cases htake
        exact ⟨_, ‹_›, rfl⟩
      obtain ⟨hnext, hpops⟩ := hfree.takeFree rfl hraw hmore
      refine ⟨hnext, ?_⟩
      rintro ⟨other, hother, v, hv⟩
      rcases List.mem_cons.mp hother with rfl | hother
      · rw [hd] at hv
        cases hv
      · exact hpops ⟨other, hother, v, hv⟩
    · cases (take_joined hheld hsymbol).symm.trans htake
      exact ⟨hfree.close rfl, fun _ => Inside.pops_close hinside⟩

/-- **Every token of a row that is taken to the end** meets a stack that is in order. -/
theorem Ordered.run {tokens : List Token} (h : state.Ordered) (hraw : Raw tokens)
    (hrun : (Nesting.run none state tokens).failure = none) {before behind : List Token}
    (htokens : tokens = before ++ token :: behind) :
    ∃ current delivered next, state.behind? before = some current
      ∧ current.take token = (delivered, .ok next) ∧ current.Ordered ∧ next.Ordered
      ∧ ((∃ d ∈ delivered, ∃ v, d.symbol = .differential v) → current.Pops next) := by
  induction before generalizing state tokens with
  | nil =>
    subst htokens
    obtain ⟨delivered, next, htake, -, -⟩ := run_cons_eq hrun
    obtain ⟨hnext, hpops⟩ := h.take (List.forall_mem_cons.mp hraw).1 htake
    exact ⟨state, delivered, next, rfl, htake, h, hnext, hpops⟩
  | cons first before ih =>
    subst htokens
    obtain ⟨delivered, next, htake, hrest, -⟩ := run_cons_eq hrun
    obtain ⟨hfirst, hothers⟩ := List.forall_mem_cons.mp hraw
    obtain ⟨current, out, last, hbehind, hlast⟩ := ih (h.take hfirst htake).1 hothers hrest rfl
    refine ⟨current, out, last, ?_, hlast⟩
    rw [behind?, htake]
    exact hbehind

end

end Nesting

/-! ## The pass as a whole -/

/-- **The differentials of a row close its integrals like brackets.** Each belongs to the innermost integral that is
open at its place, no two to the same one, and pairs do not cross. -/
structure Pairing (row : List Symbol) (pairs : List (Nat × Nat)) : Prop extends Matching row pairs where
  distinct : ∀ i j i' j', (i, j) ∈ pairs → (i', j') ∈ pairs → (i = i' ↔ j = j')
  nested : ∀ i j i' j', (i, j) ∈ pairs → (i', j') ∈ pairs → i < i' → i' < j → j' < j

/-- A matching pairs no integral twice, and its pairs do not cross. -/
theorem Matching.pairing {row : List Symbol} {pairs : List (Nat × Nat)} (h : Matching row pairs) :
    Pairing row pairs :=
  ⟨h, fun _ _ _ _ => h.fst_eq_iff, fun _ _ _ _ => h.nested⟩

/-- **Differentials close integrals like brackets.** When the pass takes a row of tokens to the end, it delivers the
row with some single names and some pairs of names replaced by differentials. These are paired with integrals, a
name that is left over stands at a place where no integral of its depth is open, and at every token the open
integrals are in order, so that none is looked for in vain. -/
theorem differentials_close_integrals {tokens out : List Token} (hraw : Raw tokens)
    (hrun : Nesting.initial.run none tokens = ⟨out, none⟩) :
    (∃ passages pairs, passages.flatMap Passage.taken = tokens ∧ passages.map Passage.delivered = out
        ∧ (∀ passage ∈ passages, passage.Allowed)
        ∧ Pairing (out.map Token.symbol) pairs
        ∧ NamesStay (out.map Token.symbol) pairs 0 passages)
      ∧ ∀ before token behind, tokens = before ++ token :: behind →
        ∃ state delivered next, Nesting.initial.behind? before = some state
          ∧ state.take token = (delivered, .ok next) ∧ state.Ordered ∧ next.Ordered
          ∧ ((∃ d ∈ delivered, ∃ v, d.symbol = .differential v) → state.Pops next) := by
  have hend : (Nesting.initial.run none tokens).failure = none := by rw [hrun]
  refine ⟨?_, fun before token behind htokens => Nesting.ordered_initial.run hraw hend htokens⟩
  obtain ⟨passages, hpasses, hout⟩ := exists_passes hraw rfl hend
  rw [hrun] at hout
  obtain ⟨pairs, -, hmatching, hstay⟩ := hpasses.paired (History.nil _ rfl rfl)
  have hrow : deliveredRow passages = out.map Token.symbol := by
    rw [show out = passages.map Passage.delivered from hout, List.map_map]
    rfl
  rw [List.nil_append, hrow] at hmatching hstay
  exact ⟨passages, pairs, hpasses.taken_eq, hout.symm, hpasses.allowed, hmatching.pairing, hstay⟩

/-- The tokens of the text `)int(int x dx)d y`: a parenthesis too many, and an integral with another one in a group
behind it. -/
theorem differentials_close_integrals_of_surplus :
    ∃ pairs, Pairing
      [.closeParen, .integral, .openParen, .integral, .name ['x'], .differential ['x'], .closeParen,
        .differential ['y']] pairs := by
  have hraw : Raw [⟨.closeParen, 0⟩, ⟨.integral, 1⟩, ⟨.openParen, 4⟩, ⟨.integral, 5⟩, ⟨.name ['x'], 9⟩,
      ⟨.name ['d', 'x'], 11⟩, ⟨.closeParen, 13⟩, ⟨.name ['d'], 14⟩, ⟨.name ['y'], 16⟩] := by
    simp [Raw]
  obtain ⟨⟨passages, pairs, -, -, -, hpairing, -⟩, -⟩ := differentials_close_integrals hraw rfl
  exact ⟨pairs, hpairing⟩

end MathScribe
