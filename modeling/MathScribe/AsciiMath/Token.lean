/-
Tokens of a formula.

A token is a symbol with the place where it starts. Tokens are delivered one at a time, and a text
may go wrong only behind tokens that have been delivered already; so reading a text gives the tokens
up to the first failure together with that failure, and whoever consumes the tokens meets the
failure only when nothing before it is wrong.

The second half of the file closes integrals. A name behind an open integral that is shaped like a
differential, such as `dx` or `d x`, becomes a differential when it stands at the parenthesis depth
at which the integral was opened; anywhere else it stays a name. The state of that pass is
`Nesting`, and `Nesting.take` is one step of it.
-/
import MathScribe.AsciiMath.Symbol

set_option autoImplicit false

namespace MathScribe

/-- A symbol at its place in the text. -/
structure Token where
  /-- What the token is. -/
  symbol : Symbol
  /-- Where it starts. -/
  start : Nat
  deriving DecidableEq, Repr

/-- Why a formula is refused. -/
inductive ParseError
  /-- There is nothing but white space. -/
  | empty
  /-- A character or a token cannot stand at this place. -/
  | unexpected (position : Nat)
  /-- The parenthesis at this place opens one level too many. -/
  | tooDeep (position : Nat)
  deriving DecidableEq, Repr

namespace ParseError

/-- The place that the error points at. -/
def position? : ParseError → Option Nat
  | empty => none
  | unexpected position => some position
  | tooDeep position => some position

/-- The error in words. -/
def message : ParseError → String
  | empty => "Empty expression"
  | unexpected position => "Unexpected input at position " ++ toString position
  | tooDeep _ => "Expression is nested too deeply"

end ParseError

/-- The tokens of a text up to the first failure, and the failure. -/
structure Scan where
  /-- The tokens that are delivered. -/
  tokens : List Token
  /-- What goes wrong behind them, if anything does. -/
  failure : Option ParseError
  deriving DecidableEq, Repr

/-- Deliver more tokens first. -/
def Scan.after (first : List Token) (scan : Scan) : Scan :=
  { scan with tokens := first ++ scan.tokens }

/-- Split a text into tokens, white space dropped. The first number counts the characters that an
earlier token covers, the second is the position of the text. -/
def scanFrom : Nat → Nat → Text → Scan
  | _, _, [] => ⟨[], none⟩
  | covered + 1, position, _ :: rest => scanFrom covered (position + 1) rest
  | 0, position, c :: rest =>
    if isBlank c then scanFrom 0 (position + 1) rest
    else
      match Symbol.read? c rest with
      | none => ⟨[], some (.unexpected position)⟩
      | some symbol =>
        (scanFrom (symbol.text.length - 1) (position + 1) rest).after [⟨symbol, position⟩]

/-- The tokens of a text before integrals are closed, as the lexer gives them. -/
def scan (text : Text) : Scan :=
  scanFrom 0 0 text

/-! ## Closing integrals -/

/-- The greatest parenthesis depth that is read. -/
def maxNesting : Int := 100

/-- What has to be remembered between two tokens. -/
structure Nesting where
  /-- The parenthesis depth, below zero behind surplus closing parentheses. -/
  depth : Int
  /-- The depths at which integrals are open, the innermost first. -/
  integrals : List Int
  /-- A name `d` that may still turn out to start a differential. -/
  held : Option Token
  deriving DecidableEq, Repr

namespace Nesting

/-- The state before the first token. -/
def initial : Nesting :=
  ⟨0, [], none⟩

/-- The variable of a differential that is written as one name: the letter behind the `d`. -/
def differentialOf? : Text → Option Text
  | ['d', v] => if v.isAlpha then some [v] else none
  | _ => none

/-- Take a token while none is held: what is delivered, and the state behind it. -/
def takeFree (state : Nesting) (token : Token) : Except ParseError (List Token × Nesting) :=
  match token.symbol with
  | .openParen =>
    if state.depth + 1 > maxNesting then .error (.tooDeep token.start)
    else .ok ([token], { state with depth := state.depth + 1 })
  | .closeParen =>
    let depth := state.depth - 1
    .ok ([token], { state with
      depth := depth, integrals := state.integrals.dropWhile (depth < ·) })
  | .integral => .ok ([token], { state with integrals := state.depth :: state.integrals })
  | .name text =>
    if state.integrals.head? = some state.depth then
      if text = ['d'] then .ok ([], { state with held := some token })
      else
        match differentialOf? text with
        | some v =>
          .ok ([⟨.differential v, token.start⟩], { state with integrals := state.integrals.tail })
        | none => .ok ([token], state)
    else .ok ([token], state)
  | _ => .ok ([token], state)

/-- Take the next token: the tokens that are delivered for it, and the state behind it or the
failure. A held `d` joins with a name that follows and is delivered before anything else. -/
def take (state : Nesting) (token : Token) : List Token × Except ParseError Nesting :=
  match state.held with
  | some d =>
    match token.symbol with
    | .name text =>
      ([⟨.differential text, d.start⟩],
        .ok { state with integrals := state.integrals.tail, held := none })
    | _ =>
      match takeFree { state with held := none } token with
      | .ok (delivered, next) => (d :: delivered, .ok next)
      | .error e => ([d], .error e)
  | none =>
    match takeFree state token with
    | .ok (delivered, next) => (delivered, .ok next)
    | .error e => ([], .error e)

/-- Take all tokens (`DifferentialPostLex.process`). At the end a held `d` is delivered as the name
it is, unless the text goes wrong there. -/
def run (failure : Option ParseError) : Nesting → List Token → Scan
  | state, [] =>
    match failure with
    | none => ⟨state.held.toList, none⟩
    | some e => ⟨[], some e⟩
  | state, token :: rest =>
    match state.take token with
    | (delivered, .ok next) => (run failure next rest).after delivered
    | (delivered, .error e) => ⟨delivered, some e⟩

end Nesting

/-- The tokens of a text with its integrals closed, up to the first failure: the lexer with the pass
`DifferentialPostLex` behind it. -/
def scanClosed (text : Text) : Scan :=
  let raw := scan text
  Nesting.initial.run raw.failure raw.tokens

/-- All tokens of a text, or the reason why there are none (`tokenize`). -/
def tokenize (text : Text) : Except ParseError (List Token) :=
  match scanClosed text with
  | ⟨tokens, none⟩ => .ok tokens
  | ⟨_, some e⟩ => .error e

end MathScribe
