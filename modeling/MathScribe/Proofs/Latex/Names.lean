/-
Names next to each other.

A macro that becomes a word ends where its letters end, and the next macro starts with a backslash. The
normal form has the word and not the backslash, so nothing is left between two macros that are written back
to back: their words become one word, which is read as one token (`tokens_of_names`). A blank between the
macros stays, and then every word is a token of its own.

The first part of this file is about any text: what the passes in front of the normal form leave alone, and
what the normal form makes of a plain character and of a macro that becomes a word.
-/
import MathScribe.Proofs.Latex.Reader
import MathScribe.Proofs.Latex.Replace
import MathScribe.Proofs.Writing.Spelling

set_option autoImplicit false

namespace MathScribe.Latex

/-! ## What the first two passes leave alone -/

/-- A macro of a given name is found only where its name ends. -/
theorem dropMacro?_ends {name text left : Text} (h : dropMacro? name text = some left) :
    startsWithLetter left = false := by
  unfold dropMacro? at h
  split at h
  · split at h
    · cases h
    · next hends =>
      cases h
      exact Bool.eq_false_iff.mpr hends
  · cases h

/-- Another macro than the one at the front of a text is not found there. -/
theorem dropMacro?_of_ne {name other left : Text} (hname : MacroName name left)
    (hother : other ≠ [] ∧ other.all Char.isAlpha = true) (hne : name ≠ other) :
    dropMacro? other ('\\' :: (name ++ left)) = none := by
  refine Option.eq_none_iff_forall_not_mem.mpr fun left' hfound => hne ?_
  have htext := (List.cons.inj (dropMacro?_eq_some hfound)).2
  exact (hname.unique ⟨hother.1, List.all_eq_true.mp hother.2, dropMacro?_ends hfound⟩ htext).1

/-- A macro that neither sets a size nor makes room. -/
def IsPlainMacro (name : Text) : Prop :=
  name ∉ ["left".toList, "right".toList, "quad".toList, "qquad".toList]

instance (name : Text) : Decidable (IsPlainMacro name) :=
  inferInstanceAs (Decidable (_ ∉ _))

section

variable {name left : Text}

/-- The sizing pass does not take a plain macro for one of its own. -/
theorem findSizing_of_macroName (hname : MacroName name left) (hplain : IsPlainMacro name) :
    findSizing ('\\' :: (name ++ left)) = none := by
  simp only [IsPlainMacro, List.mem_cons, List.not_mem_nil, or_false, not_or] at hplain
  unfold findSizing
  rw [dropMacro?_of_ne hname (by decide) hplain.1, dropMacro?_of_ne hname (by decide) hplain.2.1]
  rfl

theorem dropSpacing?_of_macroName (hname : MacroName name left) (hplain : IsPlainMacro name) :
    dropSpacing? ('\\' :: (name ++ left)) = none := by
  simp only [IsPlainMacro, List.mem_cons, List.not_mem_nil, or_false, not_or] at hplain
  have hquad : dropMacro? "quad".toList _ = none :=
    dropMacro?_of_ne hname (by decide) hplain.2.2.1
  have hqquad : dropMacro? "qquad".toList _ = none :=
    dropMacro?_of_ne hname (by decide) hplain.2.2.2
  obtain ⟨c, name, rfl⟩ := List.exists_cons_of_ne_nil hname.ne_nil
  have hc : c.isAlpha = true := hname.letters c List.mem_cons_self
  have hmark : ¬ (c = ',' ∨ c = ';' ∨ c = ':' ∨ c = '!') := by
    rintro (rfl | rfl | rfl | rfl) <;> cases hc
  rw [List.cons_append] at hquad hqquad ⊢
  rw [dropSpacing?_cons, if_neg hmark, hquad, hqquad]
  rfl

/-- The spacing pass does not take a plain macro for one of its own. -/
theorem findSpacing_of_macroName (hname : MacroName name left) (hplain : IsPlainMacro name) :
    findSpacing ('\\' :: (name ++ left)) = none := by
  unfold findSpacing
  rw [List.dropWhile_cons_of_neg (by decide), dropSpacing?_of_macroName hname hplain]
  rfl

end

/-- A pass leaves characters alone that neither start a macro nor pad one. -/
theorem Pass.replaceAll_plain_append {find : Text → Option Text} {replacement : Text} (hp : Pass find)
    {front : Text} (hfront : ∀ c ∈ front, c ≠ '\\' ∧ isPad c = false) (rest : Text) :
    replaceAll find replacement (front ++ rest) = front ++ replaceAll find replacement rest := by
  induction front with
  | nil => rfl
  | cons c front ih =>
    obtain ⟨⟨hslash, hpad⟩, hfront⟩ := List.forall_mem_cons.mp hfront
    rw [List.cons_append, hp.replaceAll_plain hslash hpad, ih hfront, List.cons_append]

/-- A letter or a digit neither starts a macro nor pads one. -/
theorem not_pad_of_isAlphanum {c : Char} (h : c.isAlphanum = true) : c ≠ '\\' ∧ isPad c = false := by
  refine ⟨(by rintro rfl; cases h), ?_⟩
  simp only [isPad, Bool.or_eq_false_iff, beq_eq_false_iff_ne]
  constructor <;> rintro rfl <;> cases h

/-- Letters are passed over one by one: every command starts with a backslash or a space. -/
theorem Pass.replaceAll_letters {find : Text → Option Text} {replacement : Text} (hp : Pass find)
    {front : Text} (hfront : ∀ c ∈ front, c.isAlpha = true) (rest : Text) :
    replaceAll find replacement (front ++ rest) = front ++ replaceAll find replacement rest :=
  hp.replaceAll_plain_append
    (fun c hc => not_pad_of_isAlphanum (by simp [Char.isAlphanum, hfront c hc])) rest

/-- There is nothing to prepare in an empty text. -/
@[simp] theorem prepare_nil : prepare [] = [] := by
  simp [prepare]

/-- The first two passes leave a character alone that neither starts a macro nor pads one. -/
theorem prepare_cons {c : Char} (hslash : c ≠ '\\') (hpad : isPad c = false) (rest : Text) :
    prepare (c :: rest) = c :: prepare rest := by
  unfold prepare
  rw [sizing_pass.replaceAll_plain hslash hpad, spacing_pass.replaceAll_plain hslash hpad]

/-- A text that starts with such a character, so that nothing is found across its start. -/
def StartsPlain (text : Text) : Prop :=
  ∃ c rest, text = c :: rest ∧ c ≠ '\\' ∧ isPad c = false

/-- What stands behind a plain start does not matter. -/
theorem StartsPlain.append {text : Text} (h : StartsPlain text) (behind : Text) :
    StartsPlain (text ++ behind) := by
  obtain ⟨c, rest, rfl, hslash, hpad⟩ := h
  exact ⟨c, rest ++ behind, rfl, hslash, hpad⟩

/-- In front of such a text the name of a macro stays what it is. -/
theorem MacroName.replaceAll {find : Text → Option Text} {replacement name left : Text} (hp : Pass find)
    (hname : MacroName name left) (hleft : StartsPlain left) :
    MacroName name (replaceAll find replacement left) := by
  obtain ⟨c, rest, rfl, hslash, hpad⟩ := hleft
  rw [hp.replaceAll_plain hslash hpad]
  exact ⟨hname.ne_nil, hname.letters, hname.ends⟩

/-- A pass keeps a plain start. -/
theorem StartsPlain.replaceAll {find : Text → Option Text} {replacement text : Text} (hp : Pass find)
    (h : StartsPlain text) : StartsPlain (replaceAll find replacement text) := by
  obtain ⟨c, rest, rfl, hslash, hpad⟩ := h
  exact ⟨c, _, hp.replaceAll_plain hslash hpad rest, hslash, hpad⟩

/-- Where a macro name ended before the preparation, it ends behind it. -/
theorem MacroName.prepare {name left : Text} (hname : MacroName name left) (hleft : StartsPlain left) :
    MacroName name (prepare left) :=
  (hname.replaceAll sizing_pass hleft).replaceAll spacing_pass (hleft.replaceAll sizing_pass)

/-- The first two passes leave the name of a macro alone. -/
theorem prepare_command {name left : Text} (hname : MacroName name left) (hplain : IsPlainMacro name)
    (hleft : StartsPlain left) : prepare ('\\' :: (name ++ left)) = '\\' :: (name ++ prepare left) := by
  have hsized : MacroName name (replaceAll findSizing [] left) := hname.replaceAll sizing_pass hleft
  unfold Latex.prepare
  rw [replaceAll_of_none (findSizing_of_macroName hname hplain),
    sizing_pass.replaceAll_letters hname.letters,
    replaceAll_of_none (findSpacing_of_macroName hsized hplain),
    spacing_pass.replaceAll_letters hname.letters]

/-! ## The normal form of plain characters and of words -/

section

variable (levels : Nat)

/-- A character that starts no command and no group is its own normal form. -/
theorem normalTo_plain {c : Char} (hslash : c ≠ '\\') (hopen : c ≠ '{') (rest : Text) :
    normalTo (levels + 1) (c :: rest) = c :: normalTo (levels + 1) rest := by
  rw [normalTo_cons, Piece.read_plain hslash hopen]
  rfl

/-- A row of characters that start no command and no group is its own normal form. -/
theorem normalTo_plain_append {front : Text} (hfront : ∀ c ∈ front, c ≠ '\\' ∧ c ≠ '{') (rest : Text) :
    normalTo (levels + 1) (front ++ rest) = front ++ normalTo (levels + 1) rest := by
  induction front with
  | nil => rfl
  | cons c front ih =>
    obtain ⟨hc, hfront⟩ := List.forall_mem_cons.mp hfront
    rw [List.cons_append, normalTo_plain levels hc.1 hc.2, ih hfront, List.cons_append]

/-- A macro that becomes a word, in front of any text that does not lengthen its name. -/
theorem normalTo_word {name left word : Text} (hname : MacroName name left)
    (hword : wordOf? name = some word) :
    normalTo (levels + 1) ('\\' :: (name ++ left)) = word ++ normalTo (levels + 1) left := by
  have hmade : Piece.ofMacro? name left = some (.word word, left) := by
    simp only [Piece.ofMacro?, hword]
  rw [normalTo_command levels hname hmade]
  rfl

end

/-! ## Macros that become words -/

/-- The macros that become a word: those that keep their name, and two with a name of their own. -/
def wordMacros : List Text :=
  "infty".toList :: "partial".toList :: namedMacros

/-- The word of such a macro. -/
def wordOf (name : Text) : Text :=
  (wordOf? name).getD []

/-- What the macros and their words are made of. -/
theorem wordMacros_spec : ∀ name ∈ wordMacros, name ≠ [] ∧ (∀ c ∈ name, c.isAlpha = true)
    ∧ IsPlainMacro name ∧ wordOf? name = some (wordOf name) ∧ wordOf name ≠ []
    ∧ (∀ c ∈ wordOf name, c.isAlpha = true) ∧ Nesting.differentialOf? (wordOf name) = none
    ∧ wordOf name ≠ ['d'] := by
  -- Read as checks of a list, or deciding them would run over every character there is.
  simp only [← List.all_eq_true]
  decide +kernel

/-- Names of macros as they are written, each with its backslash, with or without a blank in front. -/
def namesSource (blank : Bool) (names : List Text) : Text :=
  names.flatMap fun name => (if blank then [' '] else []) ++ '\\' :: name

/-- The words of macros, with or without a blank in front. -/
def wordsText (blank : Bool) (names : List Text) : Text :=
  names.flatMap fun name => (if blank then [' '] else []) ++ wordOf name

section

variable {blank : Bool} {first : Text} {names : List Text}

/-- Macros in a row start with a backslash or a blank, and not with a letter. -/
theorem startsWithLetter_namesSource (blank : Bool) (names : List Text) :
    startsWithLetter (namesSource blank names) = false := by
  cases names with
  | nil => rfl
  | cons name names => cases blank <;> rfl

/-- In front of such a row the name of a macro ends where it should. -/
theorem macroName_of_wordMacros {name : Text} (h : name ∈ wordMacros) (blank : Bool)
    (names : List Text) : MacroName name (namesSource blank names) :=
  ⟨(wordMacros_spec name h).1, (wordMacros_spec name h).2.1, startsWithLetter_namesSource blank names⟩

/-- A pass leaves names alone when it finds none of them, with a blank in front or without. -/
theorem Pass.replaceAll_names {find : Text → Option Text} {replacement : Text} (hp : Pass find)
    (hfind : ∀ name left, MacroName name left → IsPlainMacro name →
      find ('\\' :: (name ++ left)) = none ∧ find (' ' :: '\\' :: (name ++ left)) = none)
    (hnames : ∀ name ∈ names, name ∈ wordMacros) :
    replaceAll find replacement (namesSource blank names) = namesSource blank names := by
  -- Nothing is found at a backslash or at the blank in front of it, and letters are never looked at.
  induction names with
  | nil => exact replaceAll_nil
  | cons name names ih =>
    obtain ⟨hname, hnames⟩ := List.forall_mem_cons.mp hnames
    have hmacro := macroName_of_wordMacros hname blank names
    obtain ⟨-, hletters, hplain, -⟩ := wordMacros_spec name hname
    obtain ⟨hslash, hblank⟩ := hfind name _ hmacro hplain
    have hbare : replaceAll find replacement ('\\' :: (name ++ namesSource blank names))
        = '\\' :: (name ++ namesSource blank names) := by
      rw [replaceAll_of_none hslash, hp.replaceAll_letters hletters, ih hnames]
    cases blank with
    | false => exact hbare
    | true =>
      change replaceAll find replacement (' ' :: '\\' :: (name ++ namesSource true names)) = _
      rw [replaceAll_of_none hblank, hbare]
      rfl

/-- A blank is no sizing command. -/
theorem findSizing_blank (rest : Text) : findSizing (' ' :: rest) = none := by
  simp [findSizing, dropMacro?, dropStart?_cons]

/-- A blank belongs to a spacing command that stands behind it, if there is one. -/
theorem findSpacing_blank (text : Text) : findSpacing (' ' :: text) = findSpacing text := by
  unfold findSpacing
  rw [List.dropWhile_cons_of_pos (by decide)]

/-- The first two passes leave a row of names alone. -/
theorem prepare_names (hfirst : ∀ c ∈ first, c.isAlpha = true)
    (hnames : ∀ name ∈ names, name ∈ wordMacros) :
    prepare (first ++ namesSource blank names) = first ++ namesSource blank names := by
  have hsizing : replaceAll findSizing [] (namesSource blank names) = namesSource blank names :=
    sizing_pass.replaceAll_names (fun name left hname hplain =>
      ⟨findSizing_of_macroName hname hplain, findSizing_blank _⟩) hnames
  have hspacing : replaceAll findSpacing [' '] (namesSource blank names) = namesSource blank names :=
    spacing_pass.replaceAll_names (fun name left hname hplain =>
      ⟨findSpacing_of_macroName hname hplain, (findSpacing_blank _).trans (findSpacing_of_macroName hname hplain)⟩)
      hnames
  rw [prepare, sizing_pass.replaceAll_letters hfirst, hsizing, spacing_pass.replaceAll_letters hfirst,
    hspacing]

/-- The normal form of macros in a row is the row of their words, joined as the macros are: without blanks
nothing keeps two words apart. -/
theorem normalTo_names (levels : Nat) (hnames : ∀ name ∈ names, name ∈ wordMacros) :
    normalTo (levels + 1) (namesSource blank names) = wordsText blank names := by
  induction names with
  | nil => exact normalTo_nil _
  | cons name names ih =>
    obtain ⟨hname, hnames⟩ := List.forall_mem_cons.mp hnames
    have hmacro := macroName_of_wordMacros hname blank names
    have hword := (wordMacros_spec name hname).2.2.2.1
    have hbare := normalTo_word levels hmacro hword
    rw [ih hnames] at hbare
    cases blank with
    | false => exact hbare
    | true =>
      change normalTo (levels + 1) (' ' :: '\\' :: (name ++ namesSource true names)) = _
      rw [normalTo_plain levels (by decide) (by decide), hbare]
      rfl

/-- The normal form of a row of names has their words, and the blanks. -/
theorem normalize_names (hfirst : ∀ c ∈ first, c.isAlpha = true)
    (hnames : ∀ name ∈ names, name ∈ wordMacros) :
    normalize (first ++ namesSource blank names) = first ++ wordsText blank names := by
  have hplain : ∀ c ∈ first, c ≠ '\\' ∧ c ≠ '{' := by
    intro c hc
    have halpha := hfirst c hc
    constructor <;> rintro rfl <;> cases halpha
  rw [normalize_eq, prepare_names hfirst hnames, maxLevels, normalTo_plain_append 64 hplain,
    normalTo_names 64 hnames]

end

/-! ## The tokens of words -/

section

variable {words : List Text}

/-- A word is one symbol: a bracket if it opens an integral, and a name only if it is that word. -/
theorem ofWord_spec (word : Text) :
    (Symbol.ofWord word).raw = [Symbol.ofWord word] ∧ (Symbol.ofWord word).weight = 0
      ∧ (∀ stack, ∃ stack', (Symbol.ofWord word).pass? stack = some stack')
      ∧ ∀ text, Symbol.ofWord word = .name text → text = word := by
  unfold Symbol.ofWord
  repeat' split
  all_goals
    refine ⟨rfl, rfl, fun stack => ⟨_, rfl⟩, ?_⟩
    simp

/-- A word is no differential, so a row of words is delivered as it is. -/
theorem rawRow_words (words : List Text) :
    rawRow (words.map Symbol.ofWord) = words.map Symbol.ofWord := by
  induction words with
  | nil => rfl
  | cons word words ih =>
    rw [List.map_cons, rawRow_cons, (ofWord_spec word).1, ih, List.singleton_append]

/-- Words open no parenthesis. -/
theorem greatestDepth_words (words : List Text) :
    greatestDepth Symbol.weight 0 (words.map Symbol.ofWord) = 0 := by
  induction words with
  | nil => rfl
  | cons word words ih =>
    rw [List.map_cons, greatestDepth, (ofWord_spec word).2.1, Int.add_zero, ih]
    rfl

/-- Words close nothing that is not open. -/
theorem bracketsFrom_words (stack : List Bracket) (words : List Text) :
    ∃ last, bracketsFrom stack (words.map Symbol.ofWord) = some last := by
  induction words generalizing stack with
  | nil => exact ⟨stack, rfl⟩
  | cons word words ih =>
    obtain ⟨stack', hpass⟩ := (ofWord_spec word).2.2.1 stack
    obtain ⟨last, hlast⟩ := ih stack'
    exact ⟨last, by rw [List.map_cons, bracketsFrom, hpass, Option.bind_some, hlast]⟩

/-- Words that do not start with a `d` are never taken for a differential. -/
theorem keepsNames_words (stack : List Bracket)
    (hwords : ∀ word ∈ words, Nesting.differentialOf? word = none ∧ word ≠ ['d']) :
    keepsNames stack (words.map Symbol.ofWord) = true := by
  induction words generalizing stack with
  | nil => rfl
  | cons word words ih =>
    obtain ⟨⟨hnone, hd⟩, hwords⟩ := List.forall_mem_cons.mp hwords
    obtain ⟨-, -, hpass, hname⟩ := ofWord_spec word
    obtain ⟨stack', hpass⟩ := hpass stack
    refine (keepsNames_cons hpass).mpr ⟨fun hpasses => ?_, ih stack' hwords⟩
    cases hsymbol : Symbol.ofWord word with
    | name text =>
      obtain rfl := hname text hsymbol
      simp [hsymbol, Symbol.passesForDifferential, hnone, hd] at hpasses
    | _ => simp [hsymbol, Symbol.passesForDifferential] at hpasses

/-- Words are tokens as they are, if none behind the first passes for a differential. -/
theorem closeRow?_words (words : List Text)
    (hwords : ∀ word ∈ words.tail, Nesting.differentialOf? word = none ∧ word ≠ ['d']) :
    closeRow? (words.map Symbol.ofWord) = some (words.map Symbol.ofWord) := by
  have hkeep : keepsNames [] (words.map Symbol.ofWord) = true := by
    cases words with
    | nil => rfl
    | cons word words =>
      obtain ⟨stack', hpass⟩ := (ofWord_spec word).2.2.1 []
      -- No integral is open in front of the first word.
      exact (keepsNames_cons hpass).mpr ⟨nofun, keepsNames_words stack' hwords⟩
  obtain ⟨last, hlast⟩ := bracketsFrom_words [] words
  have hclose := Closing.close?_rawRow hlast hkeep
    (Int.le_trans (Int.le_of_eq (greatestDepth_words words)) (by decide))
  rwa [rawRow_words] at hclose

end

/-- Letters in front of a text that does not go on with a word are one symbol. -/
theorem symbolsOf_letters {word text : Text} {row : List Symbol} (hne : word ≠ [])
    (hletters : ∀ c ∈ word, c.isAlpha = true) (htext : symbolsOf text = some row)
    (hends : ∀ d ∈ text.head?, d.isAlphanum = false) :
    symbolsOf (word ++ text) = some (Symbol.ofWord word :: row) := by
  obtain ⟨c, rest, rfl⟩ := List.exists_cons_of_ne_nil hne
  obtain ⟨hc, hrest⟩ := List.forall_mem_cons.mp hletters
  exact symbolsOf_word ⟨c, rest, rfl, hc, fun d hd => by simp [Char.isAlphanum, hrest d hd]⟩ htext hends

/-- Words with blanks in front are one symbol each. -/
theorem symbolsOf_wordsText {names : List Text} (hnames : ∀ name ∈ names, name ∈ wordMacros) :
    symbolsOf (wordsText true names) = some ((names.map wordOf).map Symbol.ofWord)
      ∧ ∀ d ∈ (wordsText true names).head?, d.isAlphanum = false := by
  induction names with
  | nil => exact ⟨rfl, nofun⟩
  | cons name names ih =>
    obtain ⟨hname, hnames⟩ := List.forall_mem_cons.mp hnames
    obtain ⟨hrow, hends⟩ := ih hnames
    obtain ⟨-, -, -, -, hne, hletters, -⟩ := wordMacros_spec name hname
    constructor
    · change symbolsOf (' ' :: (wordOf name ++ wordsText true names)) = _
      rw [symbolsOf_blank (by decide), symbolsOf_letters hne hletters hrow hends]
      rfl
    · intro d hd
      cases hd
      decide

/-- **Names that are written back to back become one name.** Take letters, possibly none, with macros behind
them that become words. Written back to back they are one token, whose value is all the words run together,
and with a blank in front of each macro they are one token each. -/
theorem tokens_of_names {first : Text} {names : List Text} (hfirst : ∀ c ∈ first, c.isAlpha = true)
    (hnames : ∀ name ∈ names, name ∈ wordMacros) (hne : first ≠ [] ∨ names ≠ []) :
    (∃ tokens, tokenize (normalize (first ++ namesSource false names)) = .ok tokens
        ∧ tokens.map Token.symbol = [.ofWord (first ++ names.flatMap wordOf)])
      ∧ ∃ tokens, tokenize (normalize (first ++ namesSource true names)) = .ok tokens
        ∧ tokens.map Token.symbol
          = ((if first = [] then [] else [first]) ++ names.map wordOf).map Symbol.ofWord := by
  -- The words are runs of letters, and none of them passes for a differential.
  have hspec : ∀ word ∈ names.map wordOf, word ≠ [] ∧ (∀ c ∈ word, c.isAlpha = true)
      ∧ Nesting.differentialOf? word = none ∧ word ≠ ['d'] := by
    intro word hword
    obtain ⟨name, hname, rfl⟩ := List.mem_map.mp hword
    obtain ⟨-, -, -, -, hspec⟩ := wordMacros_spec name (hnames name hname)
    exact hspec
  rw [normalize_names hfirst hnames, normalize_names hfirst hnames,
    ← closedRow?_eq_some_iff_tokenize, ← closedRow?_eq_some_iff_tokenize]
  constructor
  · -- Back to back: all of it is one run of letters.
    have hwhole : first ++ wordsText false names ≠ [] := by
      rcases hne with hne | hne
      · simp [hne]
      · obtain ⟨name, others, rfl⟩ := List.exists_cons_of_ne_nil hne
        have hword := (hspec (wordOf name) (List.mem_map_of_mem List.mem_cons_self)).1
        simp [wordsText, hword]
    have hletters : ∀ c ∈ first ++ wordsText false names, c.isAlpha = true := by
      intro c hc
      rcases List.mem_append.mp hc with hmem | hmem
      · exact hfirst c hmem
      · obtain ⟨name, hname, hc⟩ := List.mem_flatMap.mp hmem
        exact (hspec (wordOf name) (List.mem_map_of_mem hname)).2.1 c hc
    have hsymbols := symbolsOf_letters hwhole hletters symbolsOf_nil nofun
    rw [List.append_nil] at hsymbols
    have hclose := closeRow?_words [first ++ wordsText false names] nofun
    rw [closedRow?, hsymbols, Option.bind_some]
    exact hclose
  · -- With blanks: the letters in front are a word of their own, if there are any.
    obtain ⟨hrow, hends⟩ := symbolsOf_wordsText hnames
    have hdifferential : ∀ word ∈ names.map wordOf,
        Nesting.differentialOf? word = none ∧ word ≠ ['d'] :=
      fun word hword => (hspec word hword).2.2
    by_cases hempty : first = []
    · subst hempty
      have hclose := closeRow?_words (names.map wordOf) fun word hword =>
        hdifferential word (List.mem_of_mem_tail hword)
      rw [closedRow?, List.nil_append, hrow, Option.bind_some]
      exact hclose
    · have hclose := closeRow?_words (first :: names.map wordOf) hdifferential
      rw [closedRow?, symbolsOf_letters hempty hfirst hrow hends, Option.bind_some, if_neg hempty]
      exact hclose

/-- The sine of an angle without a blank is one name, and with a blank it is the sine of the angle. -/
theorem tokens_of_names_sine :
    (∃ tokens, tokenize (normalize "\\sin\\theta".toList) = .ok tokens
        ∧ tokens.map Token.symbol = [.name "sintheta".toList])
      ∧ ∃ tokens, tokenize (normalize " \\sin \\theta".toList) = .ok tokens
        ∧ tokens.map Token.symbol = [.function .sin, .name "theta".toList] := by
  have hnames : ∀ name ∈ ["sin".toList, "theta".toList], name ∈ wordMacros := by decide
  exact tokens_of_names (List.forall_mem_nil _) hnames (.inr (List.cons_ne_nil _ _))

end MathScribe.Latex
