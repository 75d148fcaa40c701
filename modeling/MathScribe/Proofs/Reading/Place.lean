/-
Where the tokens of a text stand.

The reader works on bare symbols, and most of what is said about formulas leaves the places of tokens out. This
file is about the places. `Splits` says that a text falls into tokens, each of them at its place, with rules for
white space and for one symbol; it agrees with the scanner on every text that the scanner takes to the end
(`splits_iff`), and of any other text it describes the part in front of the character that fits nowhere
(`exists_splits`).

The one thing that does not follow from the rules alone is that a text may be cut. A symbol is the longest one,
so in front of less text it could be another one; but what stands behind a symbol does not belong to it, and it
still does not when only a part of that is left (`Symbol.read?_of_front`). So wherever no token is cut in two,
each of the two halves of a text has its own share of the tokens, at the places that they had
(`Splits.cut`).

`Laid` forgets how the symbols are recognized and keeps where they are written. It is also true of the tokens
that are made by closing integrals, where a differential covers a `d`, white space and a name.
-/
import MathScribe.Proofs.Reading.Letters
import MathScribe.Proofs.Reading.Lookahead

set_option autoImplicit false

namespace MathScribe

/-! ## A symbol in front of less text -/

/-- A text starts like every text that it is the front of. -/
theorem head?_of_front {text whole : Text} (h : text <+: whole) : ∀ d ∈ text.head?, d ∈ whole.head? := by
  obtain ⟨rest, rfl⟩ := h
  cases text with
  | nil => exact nofun
  | cons c text => exact fun d hd => hd

namespace Symbol

/-- What ends a number ends it when it is cut short. -/
theorem EndsNumber.of_front {digits left left' : Text} (h : EndsNumber digits left)
    (hfront : left' <+: left) : EndsNumber digits left' := by
  refine ⟨fun d hd => h.1 d (head?_of_front hfront d hd), fun hpoint => ?_⟩
  -- A fraction needs a point and one digit, which would stand in the whole text as well.
  have hnone := h.2 hpoint
  obtain ⟨rest, rfl⟩ := hfront
  unfold fractionDigits
  split
  · next c more =>
    split
    · next hc => simp [fractionDigits, hc] at hnone
    · rfl
  · rfl

/-- **A symbol is read again when the text behind it is cut.** -/
theorem read?_of_front {c : Char} {more left left' : Text} {symbol : Symbol}
    (h : read? c (more ++ left) = some symbol) (htext : symbol.text = c :: more) (hfront : left' <+: left) :
    read? c (more ++ left') = some symbol := by
  rcases read?_cases h with ⟨hc, rfl⟩ | ⟨hc, hnumber, rfl⟩ | ⟨hc, hnumber, hmark⟩
  · rw [ofWord_text] at htext
    have hrun := (List.cons.inj htext).2
    obtain ⟨hletters, hends⟩ := takeWhile_eq_iff.mp hrun
    have hrun' : (more ++ left').takeWhile Char.isAlphanum = more :=
      takeWhile_eq_iff.mpr ⟨hletters, fun d hd => hends d (head?_of_front hfront d hd)⟩
    unfold read?
    rw [if_pos hc, hrun, hrun']
  · have hdigits : numberAt (c :: (more ++ left)) = c :: more := htext
    obtain ⟨behind, hbehind, hspec, hends⟩ := numberAt_spec (c :: (more ++ left))
    rw [hdigits] at hbehind hspec hends ⊢
    have hsame : (c :: more) ++ left = (c :: more) ++ behind := hbehind
    obtain rfl : left = behind := List.append_cancel_left hsame
    have hagain : numberAt (c :: (more ++ left')) = c :: more := numberAt_append hspec (hends.of_front hfront)
    rw [read?_of_number hc (by simp [hagain]), hagain]
  · rw [read?_of_mark hc (numberAt_of_mark hnumber hmark (more ++ left'))]
    rcases markAt?_cases hmark with ⟨hsingle, hnone⟩ | ⟨d, rest, hrest, hpair⟩
    · rw [singleMark?_text hsingle] at htext
      obtain rfl : [] = more := (List.cons.inj htext).2
      exact markAt?_of_single hsingle fun d hd => hnone d (head?_of_front hfront d hd)
    · rw [pairMark?_text hpair] at htext
      obtain rfl : [d] = more := (List.cons.inj htext).2
      show markAt? (c :: d :: left') = some symbol
      rw [markAt?_cons, hpair]
      rfl

/-- White space makes no symbol longer. -/
theorem not_goesOnWith_of_isBlank (symbol : Symbol) {d : Char} (hd : isBlank d = true) :
    symbol.goesOnWith d = false := by
  have hword : d.isAlphanum = false :=
    Bool.eq_false_iff.mpr fun h => absurd ((isBlank_of_isAlphanum h).symm.trans hd) Bool.noConfusion
  have hdigit : isDecimalDigit d = false :=
    Bool.eq_false_iff.mpr fun h => absurd ((isBlank_of_isDecimalDigit h).symm.trans hd) Bool.noConfusion
  have hmark : ∀ mark : Char, isBlank mark = false → (d == mark) = false := by
    intro mark hmark
    refine beq_eq_false_iff_ne.mpr ?_
    rintro rfl
    exact absurd (hmark.symm.trans hd) Bool.noConfusion
  cases symbol with
  | number digits => simp [goesOnWith, hdigit, hmark '.' (by decide)]
  | relation r => cases r <;> first | rfl | exact hmark '=' (by decide)
  | plus => exact hmark '-' (by decide)
  | minus => exact hmark '>' (by decide)
  | name | function | bigOperator | root | integral => exact hword
  | _ => rfl

end Symbol

/-! ## Texts that fall into tokens -/

/-- `tokenize` gives tokens exactly when splitting goes through to the end. -/
theorem tokenize_eq_ok_iff {text : Text} {tokens : List Token} :
    tokenize text = .ok tokens ↔ scanClosed text = ⟨tokens, none⟩ := by
  unfold tokenize
  rcases scanClosed text with ⟨found, _ | e⟩ <;> simp

/-- Otherwise it gives the failure that stopped it. -/
theorem tokenize_eq_error_iff {text : Text} {e : ParseError} :
    tokenize text = .error e ↔ (scanClosed text).failure = some e := by
  unfold tokenize
  rcases scanClosed text with ⟨found, _ | e⟩ <;> simp

/-- **A text falls into tokens**, when it stands at the given position: white space is passed over, and any
other character starts a symbol. -/
inductive Splits : Nat → Text → List Token → Prop
  | nil {position : Nat} : Splits position [] []
  | blank {position : Nat} {c : Char} {text : Text} {tokens : List Token} :
      isBlank c = true → Splits (position + 1) text tokens → Splits position (c :: text) tokens
  | symbol {position : Nat} {c : Char} {more left : Text} {symbol : Symbol} {tokens : List Token} :
      isBlank c = false → Symbol.read? c (more ++ left) = some symbol → symbol.text = c :: more →
      Splits (position + symbol.text.length) left tokens →
      Splits position (c :: (more ++ left)) (⟨symbol, position⟩ :: tokens)

/-- Covered characters are passed over. -/
theorem scanFrom_eq_drop (covered position : Nat) (text : Text) :
    scanFrom covered position text = scanFrom 0 (position + covered) (text.drop covered) := by
  induction text generalizing covered position with
  | nil => cases covered <;> rfl
  | cons c rest ih =>
    cases covered with
    | zero => rfl
    | succ covered =>
      rw [List.drop_succ_cons, scanFrom, ih, Nat.add_right_comm]
      rfl

/-- White space is passed over, and only moves the position. -/
theorem scanFrom_blank {c : Char} (h : isBlank c = true) (position : Nat) (rest : Text) :
    scanFrom 0 position (c :: rest) = scanFrom 0 (position + 1) rest := by
  rw [scanFrom, if_pos h]

/-- A symbol comes first, and the text behind it is split at the place behind the symbol. -/
theorem scanFrom_symbol {c : Char} {more left : Text} {symbol : Symbol} (hc : isBlank c = false)
    (hread : Symbol.read? c (more ++ left) = some symbol) (htext : symbol.text = c :: more) (position : Nat) :
    scanFrom 0 position (c :: (more ++ left))
      = (scanFrom 0 (position + symbol.text.length) left).after [⟨symbol, position⟩] := by
  rw [scanFrom, if_neg (by simp [hc]), hread]
  simp only
  rw [scanFrom_eq_drop, htext, List.length_cons, Nat.add_sub_cancel, List.drop_left, Nat.add_assoc,
    Nat.add_comm 1]

/-- The symbol at the front of a text, with what it is written with and the text behind it. -/
theorem exists_text_of_read? {c : Char} {rest : Text} {symbol : Symbol}
    (h : Symbol.read? c rest = some symbol) :
    ∃ more left, rest = more ++ left ∧ symbol.text = c :: more := by
  have htext := Symbol.read?_eq_append h
  obtain ⟨first, more, hmore⟩ := List.exists_cons_of_ne_nil (Symbol.read?_isPrefix h).2
  rw [hmore, List.cons_append] at htext
  obtain ⟨rfl, hrest⟩ := List.cons.inj htext
  exact ⟨more, _, hrest.symm, hmore⟩

/-- **How far the scanner gets.** The text in front of some place falls into the tokens that are delivered. The
text ends there, or the character there starts no symbol and is what is reported. -/
theorem exists_splits (position : Nat) (text : Text) :
    ∃ front behind, text = front ++ behind ∧ Splits position front (scanFrom 0 position text).tokens
      ∧ ((behind = [] ∧ (scanFrom 0 position text).failure = none)
        ∨ ∃ c rest, behind = c :: rest ∧ isBlank c = false
          ∧ (scanFrom 0 position text).failure = some (.unexpected (position + front.length))) := by
  -- Behind a symbol the text is shorter by more than its first character, so the induction is on the length.
  induction hlength : text.length using Nat.strongRecOn generalizing position text with
  | _ n ih =>
    cases text with
    | nil => exact ⟨[], [], rfl, .nil, .inl ⟨rfl, rfl⟩⟩
    | cons c rest =>
      rw [List.length_cons] at hlength
      by_cases hc : isBlank c = true
      · obtain ⟨front, behind, rfl, hsplits, hend⟩ := ih rest.length (by omega) (position + 1) rest rfl
        rw [scanFrom_blank hc]
        refine ⟨c :: front, behind, rfl, .blank hc hsplits, ?_⟩
        rwa [List.length_cons, Nat.add_comm front.length, ← Nat.add_assoc]
      · have hc : isBlank c = false := Bool.eq_false_iff.mpr hc
        cases hread : Symbol.read? c rest with
        | none =>
          have hscan : scanFrom 0 position (c :: rest) = ⟨[], some (.unexpected position)⟩ := by
            rw [scanFrom, if_neg (by simp [hc]), hread]
          rw [hscan]
          exact ⟨[], c :: rest, rfl, .nil, .inr ⟨c, rest, rfl, hc, rfl⟩⟩
        | some symbol =>
          obtain ⟨more, left, rfl, htext⟩ := exists_text_of_read? hread
          rw [List.length_append] at hlength
          obtain ⟨front, behind, rfl, hsplits, hend⟩ :=
            ih left.length (by omega) (position + symbol.text.length) left rfl
          have hagain : Symbol.read? c (more ++ front) = some symbol :=
            Symbol.read?_of_front hread htext (List.prefix_append ..)
          rw [scanFrom_symbol hc hread htext]
          refine ⟨c :: (more ++ front), behind, by simp, .symbol hc hagain htext hsplits, ?_⟩
          have hplace : position + (c :: (more ++ front)).length
              = position + symbol.text.length + front.length := by
            rw [htext]
            simp only [List.length_cons, List.length_append]
            omega
          rwa [hplace]

/-- **The rules are those of the scanner** on every text that it takes to the end. -/
theorem splits_iff {position : Nat} {text : Text} {tokens : List Token} :
    Splits position text tokens ↔ scanFrom 0 position text = ⟨tokens, none⟩ := by
  constructor
  · intro h
    induction h with
    | nil => rfl
    | blank hc _ ih => rw [scanFrom_blank hc, ih]
    | symbol hc hread htext _ ih =>
      rw [scanFrom_symbol hc hread htext, ih]
      rfl
  · intro h
    obtain ⟨front, behind, rfl, hsplits, ⟨rfl, -⟩ | ⟨c, rest, rfl, -, hfailure⟩⟩ :=
      exists_splits position text
    · rw [h] at hsplits
      rwa [List.append_nil]
    · rw [h] at hfailure
      cases hfailure

/-- The bare symbols of a text that falls into tokens. -/
theorem Splits.symbolsOf {position : Nat} {text : Text} {tokens : List Token}
    (h : Splits position text tokens) : symbolsOf text = some (tokens.map Token.symbol) := by
  have hscan := splits_iff.mp h
  exact (symbolsFrom_eq_some_iff position).mpr ⟨by rw [hscan], by rw [hscan]⟩

/-- **A text that is cut between its tokens.** When the place of the cut lies in no token, the tokens in front of
it are those of the front, and the tokens behind it are those of the rest. -/
theorem Splits.cut {position : Nat} {front behind : Text} {tokens : List Token}
    (h : Splits position (front ++ behind) tokens)
    (hseam : ∀ token ∈ tokens, position + front.length ≤ token.start
      ∨ token.start + token.symbol.text.length ≤ position + front.length) :
    ∃ before after, tokens = before ++ after ∧ Splits position front before
      ∧ Splits (position + front.length) behind after := by
  generalize hwhole : front ++ behind = whole at h
  induction h generalizing front with
  | nil =>
    obtain ⟨rfl, rfl⟩ := List.append_eq_nil_iff.mp hwhole
    exact ⟨[], [], rfl, .nil, .nil⟩
  | @blank position c text tokens hc hrest ih =>
    cases front with
    | nil => exact ⟨[], tokens, rfl, .nil, by rw [List.nil_append] at hwhole; exact hwhole ▸ .blank hc hrest⟩
    | cons d front =>
      obtain ⟨rfl, htext⟩ := List.cons.inj hwhole
      have hplace : position + (d :: front).length = position + 1 + front.length := by
        rw [List.length_cons]
        omega
      rw [hplace] at hseam ⊢
      obtain ⟨before, after, rfl, hbefore, hafter⟩ := ih hseam htext
      exact ⟨before, after, rfl, .blank hc hbefore, hafter⟩
  | @symbol position c more left symbol tokens hc hread htext hrest ih =>
    cases front with
    | nil =>
      rw [List.nil_append] at hwhole
      exact ⟨[], _, rfl, .nil, hwhole ▸ .symbol hc hread htext hrest⟩
    | cons d front =>
      obtain ⟨rfl, hrow⟩ := List.cons.inj hwhole
      obtain ⟨hfirst, hothers⟩ := List.forall_mem_cons.mp hseam
      -- The cut lies behind the first character of the symbol, so it lies behind the whole symbol.
      have hlong : more.length ≤ front.length := by
        have hlength : symbol.text.length = more.length + 1 := by rw [htext, List.length_cons]
        simp only [List.length_cons] at hfirst
        omega
      obtain ⟨rest, rfl⟩ : more <+: front :=
        List.prefix_of_prefix_length_le ⟨left, rfl⟩ ⟨behind, hrow⟩ hlong
      have hrow : more ++ (rest ++ behind) = more ++ left := (List.append_assoc ..).symm.trans hrow
      have hleft : rest ++ behind = left := List.append_cancel_left hrow
      have hplace : position + (d :: (more ++ rest)).length
          = position + symbol.text.length + rest.length := by
        rw [htext]
        simp only [List.length_cons, List.length_append]
        omega
      rw [hplace] at hothers ⊢
      obtain ⟨before, after, rfl, hbefore, hafter⟩ := ih hothers hleft
      have hagain : Symbol.read? d (more ++ rest) = some symbol :=
        Symbol.read?_of_front hread htext ⟨behind, hleft⟩
      exact ⟨_, after, rfl, .symbol hc hagain htext hbefore, hafter⟩

/-- No token is a differential yet. -/
def Raw (tokens : List Token) : Prop :=
  ∀ token ∈ tokens, ∀ v, token.symbol ≠ .differential v

/-- Splitting a text gives no differential: those are made later. -/
theorem Splits.raw {position : Nat} {text : Text} {tokens : List Token} (h : Splits position text tokens) :
    Raw tokens := by
  induction h with
  | nil => exact nofun
  | blank _ _ ih => exact ih
  | symbol _ hread _ _ ih =>
    refine List.forall_mem_cons.mpr ⟨?_, ih⟩
    rintro v rfl
    exact Symbol.read?_ne_differential hread

/-- **The text in front of a token** falls into the tokens in front of it. -/
theorem Splits.in_front {position : Nat} {text : Text} {before after : List Token} {token : Token}
    (h : Splits position text (before ++ token :: after)) :
    ∃ front c behind, text = front ++ c :: behind ∧ token.start = position + front.length
      ∧ isBlank c = false ∧ Splits position front before := by
  generalize hwhole : before ++ token :: after = whole at h
  induction h generalizing before with
  | nil => simp at hwhole
  | @blank position c text tokens hc _ ih =>
    obtain ⟨front, d, behind, rfl, hstart, hd, hfront⟩ := ih hwhole
    refine ⟨c :: front, d, behind, rfl, ?_, hd, .blank hc hfront⟩
    rw [hstart, List.length_cons]
    omega
  | @symbol position c more left symbol tokens hc hread htext _ ih =>
    cases before with
    | nil =>
      cases hwhole
      exact ⟨[], c, _, rfl, rfl, hc, .nil⟩
    | cons first before =>
      obtain ⟨rfl, hrest⟩ := List.cons.inj hwhole
      obtain ⟨front, d, behind, rfl, hstart, hd, hfront⟩ := ih hrest
      have hagain : Symbol.read? c (more ++ front) = some symbol :=
        Symbol.read?_of_front hread htext (List.prefix_append ..)
      refine ⟨c :: (more ++ front), d, behind, by simp, ?_, hd, .symbol hc hagain htext hfront⟩
      rw [hstart, htext]
      simp only [List.length_cons, List.length_append]
      omega

/-! ## What tokens cover -/

/-- A text that starts with a character other than white space. -/
def StartsInk (text : Text) : Prop :=
  ∃ c rest, text = c :: rest ∧ isBlank c = false

/-- What a symbol covers in a text: a differential covers a `d`, white space and its variable, and any other
symbol its own value. -/
def Symbol.Covers : Symbol → Text → Prop
  | differential v, written =>
    StartsInk v ∧ ∃ blanks, isBlankText blanks = true ∧ written = 'd' :: (blanks ++ v)
  | symbol, written => StartsInk written ∧ written = symbol.text

/-- The number of characters that a symbol covers at the front of a text. -/
def Symbol.width (text : Text) : Symbol → Nat
  | differential v => 1 + (text.tail.takeWhile isBlank).length + v.length
  | symbol => symbol.text.length

/-- The place behind a token of the text. -/
def Token.stop (text : Text) (token : Token) : Nat :=
  token.start + token.symbol.width (text.drop token.start)

namespace Symbol

variable {symbol : Symbol} {written : Text}

/-- A symbol is not written with white space in front. -/
theorem Covers.startsInk (h : symbol.Covers written) : StartsInk written := by
  cases symbol with
  | differential v =>
    obtain ⟨-, blanks, -, rfl⟩ := h
    exact ⟨'d', _, rfl, by decide⟩
  | _ => exact h.1

/-- What a symbol covers is as wide as it is written. -/
theorem Covers.width_eq (h : symbol.Covers written) (behind : Text) :
    symbol.width (written ++ behind) = written.length := by
  cases symbol with
  | differential v =>
    obtain ⟨⟨c, rest, rfl, hc⟩, blanks, hblanks, rfl⟩ := h
    -- The white space behind the `d` ends where the variable starts.
    have hrun : (blanks ++ (c :: rest ++ behind)).takeWhile isBlank = blanks :=
      takeWhile_eq_iff.mpr ⟨List.all_eq_true.mp hblanks, by simp [hc]⟩
    simp only [width, List.cons_append, List.append_assoc, List.tail_cons] at hrun ⊢
    rw [hrun]
    simp only [List.length_cons, List.length_append]
    omega
  | _ => exact congrArg List.length h.2.symm

end Symbol

/-- The tokens stand one behind the other in a text at the given position, with nothing but white space around
them. -/
def Laid : Nat → Text → List Token → Prop
  | _, text, [] => isBlankText text = true
  | position, text, token :: tokens =>
    ∃ blanks written behind, text = blanks ++ (written ++ behind) ∧ isBlankText blanks = true
      ∧ token.start = position + blanks.length ∧ token.symbol.Covers written
      ∧ Laid (token.start + written.length) behind tokens

/-- White space in front of tokens. -/
theorem Laid.blank {c : Char} {position : Nat} {text : Text} {tokens : List Token} (hc : isBlank c = true)
    (h : Laid (position + 1) text tokens) : Laid position (c :: text) tokens := by
  have hcons : ∀ blanks, isBlankText blanks = true → isBlankText (c :: blanks) = true := by
    intro blanks hblanks
    simpa [isBlankText, hc] using hblanks
  cases tokens with
  | nil => exact hcons text h
  | cons token tokens =>
    obtain ⟨blanks, written, behind, rfl, hblanks, hstart, hcovers, hbehind⟩ := h
    refine ⟨c :: blanks, written, behind, rfl, hcons blanks hblanks, ?_, hcovers, hbehind⟩
    rw [hstart, List.length_cons]
    omega

/-- A text that falls into tokens is laid out by them. -/
theorem Splits.laid {position : Nat} {text : Text} {tokens : List Token} (h : Splits position text tokens) :
    Laid position text tokens := by
  induction h with
  | nil => rfl
  | blank hc _ ih => exact ih.blank hc
  | @symbol position c more left symbol tokens hc hread htext _ ih =>
    refine ⟨[], c :: more, left, rfl, rfl, rfl, ?_, htext ▸ ih⟩
    have hink : StartsInk (c :: more) := ⟨c, more, rfl, hc⟩
    cases symbol with
    | differential v => exact absurd hread Symbol.read?_ne_differential
    | _ => exact ⟨hink, htext.symm⟩

namespace Laid

variable {position : Nat} {text : Text} {tokens : List Token}

/-- No token starts in front of the text. -/
theorem le_start (h : Laid position text tokens) : ∀ token ∈ tokens, position ≤ token.start := by
  induction tokens generalizing position text with
  | nil => exact nofun
  | cons token tokens ih =>
    obtain ⟨blanks, written, behind, -, -, hstart, -, hbehind⟩ := h
    refine List.forall_mem_cons.mpr ⟨by omega, fun other hother => ?_⟩
    have := ih hbehind other hother
    omega

/-- The place of a token, with what it covers. -/
theorem exists_covers (h : Laid position text tokens) :
    ∀ token ∈ tokens, ∃ front written behind, text = front ++ (written ++ behind)
      ∧ token.start = position + front.length ∧ token.symbol.Covers written := by
  induction tokens generalizing position text with
  | nil => exact nofun
  | cons token tokens ih =>
    obtain ⟨blanks, written, behind, rfl, -, hstart, hcovers, hbehind⟩ := h
    refine List.forall_mem_cons.mpr ⟨⟨blanks, written, behind, rfl, hstart, hcovers⟩, fun other hother => ?_⟩
    obtain ⟨front, written', behind', rfl, hother, hcovers'⟩ := ih hbehind other hother
    refine ⟨blanks ++ (written ++ front), written', behind', by simp, ?_, hcovers'⟩
    rw [hother, hstart]
    simp only [List.length_append]
    omega

/-- What a token covers in a text ends at its stop. -/
theorem stop_eq {front written behind : Text} {token : Token} (hstart : token.start = front.length)
    (hcovers : token.symbol.Covers written) :
    token.stop (front ++ (written ++ behind)) = token.start + written.length := by
  unfold Token.stop
  rw [hstart, List.drop_left, hcovers.width_eq]

/-- What a token covers behind white space ends at its stop. -/
theorem stop_behind {front blanks written behind : Text} {token : Token}
    (hstart : token.start = front.length + blanks.length) (hcovers : token.symbol.Covers written) :
    token.stop (front ++ (blanks ++ (written ++ behind))) = token.start + written.length := by
  rw [← List.append_assoc]
  exact stop_eq (hstart.trans List.length_append.symm) hcovers

/-- The text up to a token's stop has the length of the place behind the token. -/
theorem length_behind {front blanks written : Text} {place : Nat} (hstart : place = front.length + blanks.length) :
    (front ++ (blanks ++ written)).length = place + written.length := by
  simp only [List.length_append]
  omega

/-- **The tokens are in order**, and each ends before the next one starts. The text in front has the length of the
position. -/
theorem ordered {front : Text} (h : Laid front.length text tokens) :
    tokens.Pairwise fun token next => token.stop (front ++ text) ≤ next.start := by
  induction tokens generalizing front text with
  | nil => exact .nil
  | cons token tokens ih =>
    obtain ⟨blanks, written, behind, rfl, -, hstart, hcovers, hbehind⟩ := h
    refine .cons (fun next hnext => stop_behind hstart hcovers ▸ hbehind.le_start next hnext) ?_
    rw [← length_behind hstart] at hbehind
    simpa only [List.append_assoc] using ih hbehind

/-- **Every character is white space or lies in a token.** -/
theorem blank_or_covered {front : Text} (h : Laid front.length text tokens) {place : Nat} {c : Char}
    (hc : (front ++ text)[place]? = some c) (hplace : front.length ≤ place) :
    isBlank c = true ∨ ∃ token ∈ tokens, token.start ≤ place ∧ place < token.stop (front ++ text) := by
  induction tokens generalizing front text with
  | nil =>
    rw [List.getElem?_append_right hplace] at hc
    exact .inl (List.all_eq_true.mp h c (List.mem_of_getElem? hc))
  | cons token tokens ih =>
    obtain ⟨blanks, written, behind, rfl, hblanks, hstart, hcovers, hbehind⟩ := h
    -- The place lies in the white space, in the token, or behind it.
    by_cases hbefore : place < token.start
    · rw [List.getElem?_append_right hplace, List.getElem?_append_left (by omega)] at hc
      exact .inl (List.all_eq_true.mp hblanks c (List.mem_of_getElem? hc))
    · by_cases hinside : place < token.start + written.length
      · exact .inr ⟨token, List.mem_cons_self, by omega, stop_behind hstart hcovers ▸ hinside⟩
      · have hsame : front ++ (blanks ++ (written ++ behind)) = front ++ (blanks ++ written) ++ behind := by
          simp
        rw [hsame] at hc ⊢
        rw [← length_behind hstart] at hbehind hinside
        rcases ih hbehind hc (Nat.not_lt.mp hinside) with hblank | ⟨other, hother, hcovered⟩
        · exact .inl hblank
        · exact .inr ⟨other, List.mem_cons_of_mem _ hother, hcovered⟩

end Laid

end MathScribe
