/-
The tokens of a text cover it.

What the raw tokens cover is plain from how a text falls into them (`Splits.laid`). Closing integrals makes one token
of two where a `d` and a name become a differential, and such a token covers the white space between the two as well;
everything else stays where it is (`Laid.passage`, `Laid.delivered`).

White space may be put wherever no token is cut. That is decided by what the tokens cover after integrals are closed,
but the argument is about the raw tokens: each of them lies within one of the others, so it is not cut either, and the
two halves of the text have the raw tokens that they had (`Splits.cut`). No symbol goes on with white space, so the
halves are split alike with white space between them, and from there on only the symbols matter.
-/
import MathScribe.Proofs.Reading.Pairing

set_option autoImplicit false

namespace MathScribe

/-! ## What a passage covers -/

/-- The value of a token is no longer than the stretch that it covers; a differential written with blanks
has a shorter one. -/
theorem Symbol.Covers.text_length_le {symbol : Symbol} {written : Text} (h : symbol.Covers written) :
    symbol.text.length ≤ written.length := by
  cases symbol with
  | differential v =>
    obtain ⟨-, blanks, -, rfl⟩ := h
    simp only [Symbol.text, List.length_cons, List.length_append]
    omega
  | _ => exact h.2 ▸ le_rfl

/-- A symbol that is no differential covers its own value. -/
theorem Symbol.Covers.eq_text {symbol : Symbol} {written : Text} (h : symbol.Covers written)
    (hsymbol : ∀ v, symbol ≠ .differential v) : written = symbol.text := by
  cases symbol with
  | differential v => exact absurd rfl (hsymbol v)
  | _ => exact h.2

namespace Laid

variable {position : Nat} {text front : Text} {rest : List Token} {first : Passage} {passages : List Passage}

/-- **What one passage covers**: as much as the tokens that are taken, with the white space between them. -/
theorem passage (h : Laid position text (first.taken ++ rest)) (hallowed : first.Allowed) :
    ∃ blanks written behind, text = blanks ++ (written ++ behind) ∧ isBlankText blanks = true
      ∧ first.delivered.start = position + blanks.length ∧ first.delivered.symbol.Covers written
      ∧ Laid (first.delivered.start + written.length) behind rest
      ∧ ∀ token ∈ first.taken, first.delivered.start ≤ token.start
          ∧ token.start + token.symbol.text.length ≤ first.delivered.start + written.length := by
  cases first with
  | kept token =>
    obtain ⟨blanks, written, behind, htext, hblanks, hstart, hcovers, hbehind⟩ := h
    refine ⟨blanks, written, behind, htext, hblanks, hstart, hcovers, hbehind, fun other hother => ?_⟩
    obtain rfl := List.mem_singleton.mp hother
    exact ⟨le_rfl, Nat.add_le_add_left hcovers.text_length_le _⟩
  | alone token v =>
    obtain ⟨blanks, written, behind, htext, hblanks, hstart, hcovers, hbehind⟩ := h
    obtain ⟨letter, hletter, hsymbol, rfl⟩ := hallowed
    -- The letter is part of the differential, so no white space lies between it and the `d`.
    have hwritten : written = ['d', letter] := by
      rw [hcovers.eq_text (by simp [hsymbol]), hsymbol]
      rfl
    subst hwritten
    have hink : StartsInk [letter] := ⟨letter, [], rfl, isBlank_of_isAlphanum (by simp [Char.isAlphanum, hletter])⟩
    refine ⟨blanks, _, behind, htext, hblanks, hstart, ⟨hink, [], rfl, rfl⟩, hbehind, fun other hother => ?_⟩
    obtain rfl := List.mem_singleton.mp hother
    exact ⟨le_rfl, Nat.add_le_add_left hcovers.text_length_le _⟩
  | joined d token v =>
    obtain ⟨blanks, written, behind, rfl, hblanks, hstart, hcovers, hbehind⟩ := h
    obtain ⟨between, written', behind', rfl, hbetween, hstart', hcovers', hbehind'⟩ := hbehind
    obtain ⟨hd, hv⟩ := hallowed
    have hwritten : written = ['d'] := by
      rw [hcovers.eq_text (by simp [hd]), hd]
      rfl
    have hwritten' : written' = v := by
      rw [hcovers'.eq_text (by simp [hv]), hv]
      rfl
    subst hwritten hwritten'
    -- The passage reaches from the `d` to the end of the name, whatever white space lies between the two.
    have hlength : token.start + written'.length = d.start + ('d' :: (between ++ written')).length := by
      rw [hstart']
      simp only [List.length_cons, List.length_append, List.length_nil]
      omega
    have hd' := Nat.add_le_add_left hcovers.text_length_le d.start
    have hv' := Nat.add_le_add_left hcovers'.text_length_le token.start
    refine ⟨blanks, 'd' :: (between ++ written'), behind', by simp, hblanks, hstart,
      ⟨hcovers'.startsInk, between, hbetween, rfl⟩, hlength ▸ hbehind', ?_⟩
    show ∀ other ∈ [d, token], d.start ≤ other.start
      ∧ other.start + other.symbol.text.length ≤ d.start + ('d' :: (between ++ written')).length
    rw [← hlength]
    simp only [List.length_cons, List.length_nil] at hstart' hd'
    exact List.forall_mem_cons.mpr ⟨⟨le_rfl, by omega⟩, List.forall_mem_singleton.mpr ⟨by omega, hv'⟩⟩

/-- **The tokens that are delivered lie where the raw ones lie**, and each raw one lies within one of them. -/
theorem delivered (h : Laid front.length text (passages.flatMap Passage.taken))
    (hallowed : ∀ passage ∈ passages, passage.Allowed) :
    Laid front.length text (passages.map Passage.delivered)
      ∧ ∀ passage ∈ passages, ∀ token ∈ passage.taken, passage.delivered.start ≤ token.start
          ∧ token.start + token.symbol.text.length ≤ passage.delivered.stop (front ++ text) := by
  induction passages generalizing front text with
  | nil => exact ⟨h, nofun⟩
  | cons first passages ih =>
    obtain ⟨hfirst, hothers⟩ := List.forall_mem_cons.mp hallowed
    rw [List.flatMap_cons] at h
    obtain ⟨blanks, written, behind, rfl, hblanks, hstart, hcovers, hbehind, hinside⟩ := h.passage hfirst
    have hlength := @length_behind front blanks written _ hstart
    obtain ⟨hlaid, hrest⟩ := ih (hlength.symm ▸ hbehind) hothers
    refine ⟨⟨blanks, written, behind, rfl, hblanks, hstart, hcovers, hlength ▸ hlaid⟩,
      List.forall_mem_cons.mpr ⟨stop_behind hstart hcovers ▸ hinside, ?_⟩⟩
    simpa only [List.append_assoc] using hrest

end Laid

/-! ## White space between tokens -/

/-- White space in front of a text is dropped. -/
theorem symbolsOf_blanks {blanks : Text} (h : isBlankText blanks = true) (text : Text) :
    symbolsOf (blanks ++ text) = symbolsOf text := by
  induction blanks with
  | nil => rfl
  | cons c blanks ih =>
    simp only [isBlankText, List.all_cons, Bool.and_eq_true] at h
    rw [List.cons_append, symbolsOf_blank h.1, ih h.2]

/-- **White space between the tokens of a text changes no symbol.** -/
theorem symbolsOf_spread {position : Nat} {front blanks behind : Text} {before after : List Token}
    (hfront : Splits 0 front before) (hbehind : Splits position behind after)
    (hblanks : isBlankText blanks = true) (hne : blanks ≠ []) :
    symbolsOf (front ++ (blanks ++ behind)) = some ((before ++ after).map Token.symbol) := by
  have hback : symbolsOf (blanks ++ behind) = some (after.map Token.symbol) := by
    rw [symbolsOf_blanks hblanks, hbehind.symbolsOf]
  obtain ⟨c, blanks, rfl⟩ := List.exists_cons_of_ne_nil hne
  have hc : isBlank c = true := List.all_eq_true.mp hblanks c List.mem_cons_self
  rw [symbolsOf_join hfront.symbolsOf hback, List.map_append]
  rintro symbol - d hd
  obtain rfl : c = d := Option.some.inj hd
  exact symbol.not_goesOnWith_of_isBlank hc

/-- What becomes of a text depends on its symbols only. -/
theorem tokenize_congr {text text' : Text} {tokens : List Token} (hsame : symbolsOf text' = symbolsOf text)
    (h : tokenize text = .ok tokens) :
    ∃ tokens', tokenize text' = .ok tokens' ∧ tokens'.map Token.symbol = tokens.map Token.symbol := by
  have hrow : closedRow? text' = some (tokens.map Token.symbol) := by
    unfold closedRow?
    rw [hsame]
    exact closedRow?_eq_some_iff_tokenize.mpr ⟨tokens, h, rfl⟩
  exact closedRow?_eq_some_iff_tokenize.mp hrow

/-! ## The tokens of a text -/

/-- **Tokens cover the text.** Each token that `tokenize` gives covers a stretch of it in which its value is
written, one behind the other, and around them there is nothing but white space. More white space wherever no
token is cut leaves the symbols as they are. -/
theorem tokens_cover_text {text : Text} {tokens : List Token} (h : tokenize text = .ok tokens) :
    (tokens.Pairwise fun token next => token.stop text ≤ next.start)
      ∧ (∀ token ∈ tokens, token.start < token.stop text
          ∧ ∃ front written behind, text = front ++ (written ++ behind) ∧ front.length = token.start
            ∧ front.length + written.length = token.stop text ∧ token.symbol.Covers written)
      ∧ (∀ (place : Nat) (c : Char), text[place]? = some c →
          isBlank c = true ∨ ∃ token ∈ tokens, token.start ≤ place ∧ place < token.stop text)
      ∧ ∀ front blanks behind, text = front ++ behind → isBlankText blanks = true →
          (∀ token ∈ tokens, front.length ≤ token.start ∨ token.stop text ≤ front.length) →
          ∃ tokens', tokenize (front ++ (blanks ++ behind)) = .ok tokens'
            ∧ tokens'.map Token.symbol = tokens.map Token.symbol := by
  have hscan := tokenize_eq_ok_iff.mp h
  obtain ⟨passages, hsplits, hout, hallowed⟩ := exists_passages (congrArg Scan.failure hscan)
  rw [hscan] at hout
  subst hout
  obtain ⟨hlaid, hinside⟩ := (show Laid ([] : Text).length text _ from hsplits.laid).delivered hallowed
  rw [List.nil_append] at hinside
  refine ⟨hlaid.ordered, fun token htoken => ?_, fun place c hc => hlaid.blank_or_covered hc (Nat.zero_le _), ?_⟩
  · obtain ⟨front, written, behind, rfl, hstart, hcovers⟩ := hlaid.exists_covers token htoken
    rw [List.length_nil, Nat.zero_add] at hstart
    have hstop := @Laid.stop_eq front written behind token hstart hcovers
    refine ⟨?_, front, written, behind, rfl, hstart.symm, ?_, hcovers⟩
    · obtain ⟨c, rest, rfl, -⟩ := hcovers.startsInk
      rw [hstop, List.length_cons]
      omega
    · rw [hstop, hstart]
  · rintro front blanks behind rfl hblanks hseam
    by_cases hne : blanks = []
    · subst hne
      exact ⟨_, h, rfl⟩
    · refine tokenize_congr ?_ h
      -- A raw token lies within one that is delivered, so it is not cut.
      have hraw : ∀ token ∈ passages.flatMap Passage.taken,
          0 + front.length ≤ token.start ∨ token.start + token.symbol.text.length ≤ 0 + front.length := by
        intro token htoken
        obtain ⟨passage, hpassage, htaken⟩ := List.mem_flatMap.mp htoken
        obtain ⟨hlow, hhigh⟩ := hinside passage hpassage token htaken
        rcases hseam passage.delivered (List.mem_map_of_mem hpassage) with hcut | hcut
        · exact .inl (by omega)
        · exact .inr (by omega)
      obtain ⟨before, after, hrow, hfront, hbehind⟩ := hsplits.cut hraw
      rw [symbolsOf_spread hfront hbehind hblanks hne, hsplits.symbolsOf, hrow]

/-- The text `int x d y`, with more white space behind the `x`. -/
theorem tokens_cover_text_of_differential :
    tokenize ['i', 'n', 't', ' ', 'x', ' ', 'd', ' ', 'y']
        = .ok [⟨.integral, 0⟩, ⟨.name ['x'], 4⟩, ⟨.differential ['y'], 6⟩]
      ∧ ∃ tokens, tokenize ['i', 'n', 't', ' ', 'x', '\t', '\n', ' ', 'd', ' ', 'y'] = .ok tokens
        ∧ tokens.map Token.symbol = [.integral, .name ['x'], .differential ['y']] := by
  have htokens : tokenize ['i', 'n', 't', ' ', 'x', ' ', 'd', ' ', 'y']
      = .ok [⟨.integral, 0⟩, ⟨.name ['x'], 4⟩, ⟨.differential ['y'], 6⟩] := by decide
  exact ⟨htokens, (tokens_cover_text htokens).2.2.2 ['i', 'n', 't', ' ', 'x'] ['\t', '\n'] [' ', 'd', ' ', 'y']
    rfl (by decide) (by decide)⟩

end MathScribe
