/-
Where an error points.

The place of an error comes from four sources. A character that starts no symbol is reported by the scanner, a
parenthesis too deep by the pass that closes integrals, and a token that cannot stand where it does by the reader,
which points at the last token when the text ends too early. A differential that is made of two names has the place of
the first of them.

All of these are places where a raw token starts, or the one where the scanner stops, and the pass has taken all
tokens in front of it (`Nesting.start_of_mem_run`, `Nesting.failure_run`). So the text in front of such a place is
split into the tokens that it had, and the pass takes them again (`Splits.reported`). That the reader has a token to
point at needs the text not to be blank: the pass delivers a token when there is one.
-/
import MathScribe.Proofs.Reading.Pairing

set_option autoImplicit false

namespace MathScribe

/-- **What is promised of a place that is reported**: a character other than white space stands there, and the text in
front of it is split into tokens. -/
structure Reported (text : Text) (place : Nat) : Prop where
  char : ∃ c, text[place]? = some c ∧ isBlank c = false
  front : ∃ tokens, tokenize (text.take place) = .ok tokens

/-! ## What the pass delivers and what it refuses -/

namespace Nesting

variable {state next : Nesting} {token : Token} {tokens delivered : List Token} {e : ParseError}

/-- What is delivered starts where the token starts, and so does what is held instead. -/
theorem takeFree_start (hraw : ∀ v, token.symbol ≠ .differential v) (hfree : state.held = none)
    (h : state.takeFree token = .ok (delivered, next)) :
    (∀ other ∈ delivered, other.start = token.start) ∧ ∀ d, next.held = some d → d = token := by
  have hnone : ∀ after : Nesting, after.held = none → ∀ d, after.held = some d → d = token :=
    fun _ hafter d hd => nomatch hafter.symm.trans hd
  rcases Symbol.raw_cases hraw with hname | ⟨text, hsymbol⟩
  · obtain ⟨rfl, hheld, -⟩ := takeFree_symbol hname h
    exact ⟨by simp, hnone next (hheld.trans hfree)⟩
  · rcases takeFree_name hsymbol h with ⟨-, rfl, rfl⟩ | ⟨-, -, rfl, rfl⟩ | ⟨-, v, -, rfl, rfl⟩
    · exact ⟨by simp, hnone _ hfree⟩
    · exact ⟨nofun, fun d hd => (Option.some.inj hd).symm⟩
    · exact ⟨by simp, hnone state.close hfree⟩

/-- Only a parenthesis is refused, and it is reported at its place. -/
theorem takeFree_error (h : state.takeFree token = .error e) : e = .tooDeep token.start := by
  unfold takeFree at h
  split at h
  case h_1 => split at h <;> cases h; rfl
  case h_4 =>
    split at h
    · split at h
      · cases h
      · split at h <;> cases h
    · cases h
  all_goals cases h

/-- **What one token does to the places**: whatever is delivered starts where the token or what was held starts, only
the token itself is held behind it, and only its own place is reported. -/
theorem take_start (hraw : ∀ v, token.symbol ≠ .differential v) :
    (∀ other ∈ (state.take token).1,
        other.start = token.start ∨ ∃ d, state.held = some d ∧ other.start = d.start)
      ∧ (∀ next, (state.take token).2 = .ok next → ∀ d, next.held = some d → d = token)
      ∧ ∀ e, (state.take token).2 = .error e → e = .tooDeep token.start := by
  -- With nothing held the token alone decides; behind a `d` it is either released first or joins with the
  -- name.
  cases hheld : state.held with
  | none =>
    rw [take_of_free hheld]
    cases hfree : state.takeFree token with
    | error e =>
      refine ⟨nofun, nofun, ?_⟩
      rintro _ ⟨⟩
      exact takeFree_error hfree
    | ok out =>
      obtain ⟨hdelivered, hholds⟩ := takeFree_start hraw hheld hfree
      refine ⟨fun other hother => .inl (hdelivered other hother), ?_, nofun⟩
      rintro _ ⟨⟩
      exact hholds
  | some d =>
    rcases Symbol.raw_cases hraw with hname | ⟨v, hsymbol⟩
    · rw [take_behind hheld hname]
      cases hfree : state.released.takeFree token with
      | error e =>
        refine ⟨?_, nofun, ?_⟩
        · rintro other hother
          obtain rfl := List.mem_singleton.mp hother
          exact .inr ⟨_, rfl, rfl⟩
        · rintro _ ⟨⟩
          exact takeFree_error hfree
      | ok out =>
        obtain ⟨hdelivered, hholds⟩ := takeFree_start hraw rfl hfree
        refine ⟨?_, ?_, nofun⟩
        · rintro other hother
          rcases List.mem_cons.mp hother with rfl | hother
          · exact .inr ⟨_, rfl, rfl⟩
          · exact .inl (hdelivered other hother)
        · rintro _ ⟨⟩
          exact hholds
    · rw [take_joined hheld hsymbol]
      refine ⟨?_, ?_, nofun⟩
      · rintro other hother
        obtain rfl := List.mem_singleton.mp hother
        exact .inr ⟨_, rfl, rfl⟩
      · rintro _ ⟨⟩
        exact nofun

/-! ### The whole row -/

/-- A token that is taken delivers first, and the rest of the row follows. -/
theorem run_cons_ok (failure : Option ParseError) (h : (state.take token).2 = .ok next) :
    run failure state (token :: tokens) = (run failure next tokens).after (state.take token).1 := by
  rw [run]
  generalize state.take token = taken at h ⊢
  obtain ⟨delivered, outcome⟩ := taken
  obtain rfl : outcome = .ok next := h
  rfl

/-- A token that cannot be taken ends the row, with what has been delivered in front of it. -/
theorem run_cons_error (failure : Option ParseError) (h : (state.take token).2 = .error e) :
    run failure state (token :: tokens) = ⟨(state.take token).1, some e⟩ := by
  rw [run]
  generalize state.take token = taken at h ⊢
  obtain ⟨delivered, outcome⟩ := taken
  obtain rfl : outcome = .error e := h
  rfl

/-- All tokens in front of the token are taken. -/
def TakenUpTo (state : Nesting) (tokens : List Token) (token : Token) : Prop :=
  ∃ before behind, tokens = before ++ token :: behind ∧ (run none state before).failure = none

/-- The first token is reached. -/
theorem takenUpTo_head (state : Nesting) (token : Token) (tokens : List Token) :
    TakenUpTo state (token :: tokens) token :=
  ⟨[], tokens, rfl, rfl⟩

/-- A token further on is reached when those in front of it are taken. -/
theorem TakenUpTo.cons {other : Token} (h : TakenUpTo next tokens other)
    (htake : (state.take token).2 = .ok next) : TakenUpTo state (token :: tokens) other := by
  obtain ⟨before, behind, rfl, hrun⟩ := h
  refine ⟨token :: before, behind, rfl, ?_⟩
  rw [run_cons_ok none htake]
  exact hrun

/-- **A token that is delivered** starts where a raw one starts, with all tokens in front of that taken, or where what
was held starts. -/
theorem start_of_mem_run {failure : Option ParseError} (hraw : Raw tokens) {other : Token}
    (h : other ∈ (run failure state tokens).tokens) :
    (∃ d, state.held = some d ∧ other.start = d.start)
      ∨ ∃ token, TakenUpTo state tokens token ∧ other.start = token.start := by
  induction tokens generalizing state with
  | nil =>
    cases failure with
    | some e => cases h
    | none => exact .inl ⟨other, Option.mem_toList.mp h, rfl⟩
  | cons token tokens ih =>
    obtain ⟨hfirst, hothers⟩ := List.forall_mem_cons.mp hraw
    obtain ⟨hdelivered, hholds, -⟩ := @take_start state token hfirst
    have hnow : other ∈ (state.take token).1 → (∃ d, state.held = some d ∧ other.start = d.start)
        ∨ ∃ first, TakenUpTo state (token :: tokens) first ∧ other.start = first.start := by
      intro hmem
      rcases hdelivered other hmem with hstart | hheld
      · exact .inr ⟨token, takenUpTo_head .., hstart⟩
      · exact .inl hheld
    cases htake : (state.take token).2 with
    | error e =>
      rw [run_cons_error failure htake] at h
      exact hnow h
    | ok next =>
      rw [run_cons_ok failure htake] at h
      rcases List.mem_append.mp h with hmem | hmem
      · exact hnow hmem
      · rcases ih hothers hmem with ⟨d, hd, hstart⟩ | ⟨first, htaken, hstart⟩
        · exact .inr ⟨token, takenUpTo_head .., hholds next htake d hd ▸ hstart⟩
        · exact .inr ⟨first, htaken.cons htake, hstart⟩

/-- **What the pass reports** is a parenthesis too deep, with all tokens in front of it taken, or the failure behind a
row that is taken to the end. -/
theorem failure_run {failure : Option ParseError} (hraw : Raw tokens)
    (h : (run failure state tokens).failure = some e) :
    (∃ token, TakenUpTo state tokens token ∧ e = .tooDeep token.start)
      ∨ (failure = some e ∧ (run none state tokens).failure = none) := by
  induction tokens generalizing state with
  | nil =>
    cases failure with
    | none => cases h
    | some e =>
      cases h
      exact .inr ⟨rfl, rfl⟩
  | cons token tokens ih =>
    obtain ⟨hfirst, hothers⟩ := List.forall_mem_cons.mp hraw
    cases htake : (state.take token).2 with
    | error e' =>
      rw [run_cons_error failure htake] at h
      cases h
      exact .inl ⟨token, takenUpTo_head .., (take_start hfirst).2.2 _ htake⟩
    | ok next =>
      rw [run_cons_ok failure htake] at h
      rw [run_cons_ok none htake]
      rcases ih hothers h with ⟨first, htaken, he⟩ | hbehind
      · exact .inl ⟨first, htaken.cons htake, he⟩
      · exact .inr hbehind

end Nesting

/-! ## Places in a text -/

/-- A text is split when its raw tokens are taken to the end. -/
theorem Splits.tokenize {text : Text} {tokens : List Token} (h : Splits 0 text tokens)
    (hrun : (Nesting.initial.run none tokens).failure = none) : ∃ out, tokenize text = .ok out := by
  have hscan : scan text = ⟨tokens, none⟩ := splits_iff.mp h
  refine ⟨_, tokenize_eq_ok_iff.mpr (show _ = Scan.mk (scanClosed text).tokens none from ?_)⟩
  unfold scanClosed
  rw [hscan]
  exact congrArg (Scan.mk _) hrun

/-- **The place of a raw token may be reported** when all tokens in front of it are taken. -/
theorem Splits.reported {text front behind : Text} {tokens : List Token} {token : Token}
    (h : Splits 0 front tokens) (htext : text = front ++ behind)
    (htaken : Nesting.initial.TakenUpTo tokens token) : Reported text token.start := by
  obtain ⟨before, after, rfl, hrun⟩ := htaken
  obtain ⟨first, c, rest, rfl, hstart, hc, hfirst⟩ := h.in_front
  rw [Nat.zero_add] at hstart
  subst htext
  rw [hstart]
  refine ⟨⟨c, by simp, hc⟩, ?_⟩
  rw [List.append_assoc, List.take_left]
  exact hfirst.tokenize hrun

section

variable {text : Text}

/-- Every token that is delivered may be pointed at. -/
theorem reported_of_mem {token : Token} (h : token ∈ (scanClosed text).tokens) : Reported text token.start := by
  obtain ⟨front, behind, htext, hsplits, -⟩ := exists_splits 0 text
  rcases Nesting.start_of_mem_run hsplits.raw h with ⟨d, hd, -⟩ | ⟨first, htaken, hstart⟩
  · cases hd
  · rw [hstart]
    exact hsplits.reported htext htaken

/-- **Every failure of the tokens** has a place that may be reported: that of a character that starts no symbol, or of
a parenthesis. -/
theorem reported_of_failure {e : ParseError} (h : (scanClosed text).failure = some e) :
    ∃ place, e.position? = some place ∧ Reported text place := by
  obtain ⟨front, behind, htext, hsplits, hend⟩ := exists_splits 0 text
  rcases Nesting.failure_run hsplits.raw h with ⟨token, htaken, rfl⟩ | ⟨hscan, hrun⟩
  · exact ⟨_, rfl, hsplits.reported htext htaken⟩
  · rcases hend with ⟨-, hnone⟩ | ⟨c, rest, rfl, hc, hfailure⟩
    · cases hscan.symm.trans hnone
    · obtain rfl : ParseError.unexpected (0 + front.length) = e :=
        Option.some.inj (hfailure.symm.trans hscan)
      rw [Nat.zero_add]
      refine ⟨front.length, rfl, ⟨c, by rw [htext]; simp, hc⟩, ?_⟩
      obtain ⟨out, hout⟩ := hsplits.tokenize hrun
      exact ⟨out, by rwa [htext, List.take_left]⟩

/-- A text that is split into no tokens is blank. -/
theorem isBlankText_of_tokens_nil (h : (scanClosed text).tokens = []) (hend : (scanClosed text).failure = none) :
    isBlankText text = true := by
  -- Every raw token is part of a passage, and every passage delivers a token.
  obtain ⟨passages, hsplits, hout, -⟩ := exists_passages hend
  obtain rfl : passages = [] := List.map_eq_nil_iff.mp (hout.symm.trans h)
  exact hsplits.laid

/-- The token that a failure of the reader points at. -/
theorem failurePosition_mem {tokens : List Token} (h : tokens ≠ []) (count : Nat) :
    ∃ token ∈ tokens, failurePosition tokens count = token.start := by
  unfold failurePosition
  cases hleft : tokens.drop (tokens.length - count) with
  | nil =>
    refine ⟨tokens.getLast h, List.getLast_mem h, ?_⟩
    simp [List.getLast?_eq_some_getLast h]
  | cons token rest =>
    refine ⟨token, List.mem_of_mem_drop (hleft ▸ List.mem_cons_self), rfl⟩

/-- **Why a text is not read**: it is blank, the tokens fail, or the reader points at one of them. -/
theorem parse_error_cases {e : ParseError} (h : parse text = .error e) :
    (isBlankText text = true ∧ e = .empty)
      ∨ (isBlankText text = false ∧ ((scanClosed text).failure = some e
        ∨ ∃ token ∈ (scanClosed text).tokens, e = .unexpected token.start)) := by
  unfold parse at h
  by_cases hblank : isBlankText text = true
  · rw [if_pos hblank] at h
    cases h
    exact .inl ⟨hblank, rfl⟩
  · rw [if_neg hblank] at h
    refine .inr ⟨Bool.eq_false_iff.mpr hblank, ?_⟩
    dsimp only at h
    split at h
    · cases h
    · next hfailure =>
      cases h
      exact .inl hfailure
    · next hfailure =>
      cases h
      exact .inl hfailure
    · next left hread hlate =>
      cases h
      have hne : (scanClosed text).tokens ≠ [] := by
        intro hnil
        -- Without tokens the reader leaves nothing, so the text would be split to its end.
        rw [hnil] at hread
        obtain rfl : [] = left := Except.error.inj hread
        cases hend : (scanClosed text).failure with
        | some e => exact hlate e hend rfl
        | none => exact hblank (isBlankText_of_tokens_nil hnil hend)
      obtain ⟨token, hmem, hplace⟩ := failurePosition_mem hne left.length
      exact .inr ⟨token, hmem, by rw [hplace]⟩

end

/-! ## Soundness -/

/-- **Error positions are sound.** A text that is not read has an error without a place exactly when it is
blank. The place of any other error, and of every failure of `tokenize`, is that of a character other than white
space, and in front of it the text is split into tokens. -/
theorem error_positions_sound (text : Text) :
    (∀ e, parse text = .error e →
      (e.position? = none ↔ isBlankText text = true) ∧ ∀ place, e.position? = some place → Reported text place)
    ∧ ∀ e, tokenize text = .error e → ∃ place, e.position? = some place ∧ Reported text place := by
  constructor
  · intro e h
    rcases parse_error_cases h with ⟨hblank, rfl⟩ | ⟨hblank, hfailure | ⟨token, hmem, rfl⟩⟩
    · exact ⟨iff_of_true rfl hblank, nofun⟩
    · obtain ⟨place, hplace, hreported⟩ := reported_of_failure hfailure
      rw [hplace]
      refine ⟨iff_of_false nofun (by simp [hblank]), ?_⟩
      rintro _ ⟨⟩
      exact hreported
    · refine ⟨iff_of_false nofun (by simp [hblank]), ?_⟩
      rintro _ ⟨⟩
      exact reported_of_mem hmem
  · intro e h
    exact reported_of_failure (tokenize_eq_error_iff.mp h)

/-- The text `int x d )`, where the differential that is missing is looked for at the parenthesis. -/
theorem error_positions_sound_of_open_integral :
    parse ['i', 'n', 't', ' ', 'x', ' ', 'd', ' ', ')'] = .error (.unexpected 8)
      ∧ Reported ['i', 'n', 't', ' ', 'x', ' ', 'd', ' ', ')'] 8 := by
  have herror : parse ['i', 'n', 't', ' ', 'x', ' ', 'd', ' ', ')'] = .error (.unexpected 8) := by decide
  exact ⟨herror, ((error_positions_sound _).1 _ herror).2 8 rfl⟩

end MathScribe
