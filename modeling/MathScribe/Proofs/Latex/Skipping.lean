/-
Skipping the arguments of a command.

Where a fragment of a page ends, and how much of an unknown command is kept, is decided by the arguments that
follow the command: they are skipped one after another as long as one can be read. `ArgumentAt` says in terms of
the readers of groups and scripts alone what it is for one argument to stand between two positions of a text.
Skipping is a run of such steps (`ArgumentAt.skipArguments_eq` is one step, `skipArguments_eq_of_run` a whole
run).

`skipArguments_maximal` says where the run ends: inside the text, at the only position that can be reached and at
which no further argument stands. Every step goes forward, so no run goes on forever. Malformed arguments need
no case of their own. An unclosed group and a script mark without an argument are no steps, and the
run ends in front of them.
-/
import MathScribe.Proofs.Latex.Depth

set_option autoImplicit false

namespace MathScribe.Latex

/-! ## One argument -/

/-- **One argument stands between two positions of a text**: a group in brackets or in braces or, where scripts
count, a script mark with its argument behind it. -/
inductive ArgumentAt (scripts : Bool) (text : Text) (start stop : Nat) : Prop
  | option (inside : Text) :
      readAt readBrackets text start = some (inside, stop) → ArgumentAt scripts text start stop
  | group (inside : Text) :
      readAt readBraces text start = some (inside, stop) → ArgumentAt scripts text start stop
  | script (mark : Char) (body : Script) : scripts = true → mark = '_' ∨ mark = '^' →
      text[start]? = some mark → readAt Script.read? text (start + 1) = some (body, stop) →
      ArgumentAt scripts text start stop

/-- `read_script` leaves an end of the text, so it can be asked at a position: there is a place where it
stops. -/
theorem leavesEnd_script : LeavesEnd Script.read? := by
  intro text script left h
  rw [(Script.read?_eq_some_iff.mp h).1]
  exact List.suffix_append _ _

/-- What `read_script` reads at a position, told without the reader: the script as it is written stands
there, and what follows allows it to end there. -/
theorem readAt_script_iff {text : Text} {pos stop : Nat} {script : Script} :
    readAt Script.read? text pos = some (script, stop)
      ↔ stop ≤ text.length ∧ text.drop pos = script.source ++ text.drop stop
        ∧ script.Stands (text.drop stop) := by
  rw [readAt_eq_some_iff leavesEnd_script, Script.read?_eq_some_iff]

/-- The text has a character at a position exactly when the rest of the text from that position on starts
with it. A position may be given either way: `skip_arguments` looks at one character, and the readers take
what stands in front of them. -/
theorem getElem?_eq_some_iff_drop {text : Text} {pos : Nat} {c : Char} :
    text[pos]? = some c ↔ text.drop pos = c :: text.drop (pos + 1) := by
  rw [← List.head?_drop, ← List.tail_drop]
  cases text.drop pos <;> simp

section

variable {scripts : Bool} {text : Text} {start stop : Nat}

/-- One argument between two positions, told by what is written there and by what follows, for groups,
brackets and scripts alike. -/
theorem argumentAt_iff :
    ArgumentAt scripts text start stop
      ↔ stop ≤ text.length ∧ ∃ argument : Argument, text.drop start = argument.source ++ text.drop stop
        ∧ argument.Stands scripts (text.drop stop) := by
  constructor
  · intro h
    cases h with
    | option inside hread =>
      obtain ⟨hstop, htext, hinside⟩ := (readAt_readGroup_iff delimiters_brackets).mp hread
      exact ⟨hstop, .option inside, by simp [htext, Argument.source], hinside⟩
    | group inside hread =>
      obtain ⟨hstop, htext, hinside⟩ := (readAt_readGroup_iff delimiters_braces).mp hread
      exact ⟨hstop, .group inside, by simp [htext, Argument.source], hinside⟩
    | script mark body hscripts hmark hat hread =>
      obtain ⟨hstop, htext, hbody⟩ := readAt_script_iff.mp hread
      refine ⟨hstop, .script mark body, ?_, hscripts, hmark, hbody⟩
      rw [getElem?_eq_some_iff_drop.mp hat, htext]
      rfl
  · rintro ⟨hstop, argument, htext, hstands⟩
    cases argument with
    | option inside =>
      refine .option inside ((readAt_readGroup_iff delimiters_brackets).mpr ⟨hstop, ?_, hstands⟩)
      simpa [Argument.source] using htext
    | group inside =>
      refine .group inside ((readAt_readGroup_iff delimiters_braces).mpr ⟨hstop, ?_, hstands⟩)
      simpa [Argument.source] using htext
    | script mark body =>
      obtain ⟨hscripts, hmark, hbody⟩ := hstands
      -- The mark is the first character of the source, and the body follows it.
      have hrest : text.drop (start + 1) = body.source ++ text.drop stop := by
        rw [← List.tail_drop, htext]
        rfl
      have hat : text[start]? = some mark := by
        rw [← List.head?_drop, htext]
        rfl
      exact .script mark body hscripts hmark hat (readAt_script_iff.mpr ⟨hstop, hrest, hbody⟩)

/-- An argument takes at least one character. This is why going over arguments comes to an end. -/
theorem Argument.source_ne_nil (argument : Argument) : argument.source ≠ [] := by
  cases argument <;> simp [source]

/-- Reading an argument makes the text shorter by what the argument is written with. -/
theorem Argument.length_of_read? {text left : Text} {argument : Argument}
    (h : Argument.read? scripts text = some (argument, left)) :
    text.length = argument.source.length + left.length ∧ 0 < argument.source.length := by
  rw [(Argument.read?_eq_some_iff.mp h).1, List.length_append]
  exact ⟨rfl, List.length_pos_iff.mpr argument.source_ne_nil⟩

/-- An argument stands where the reader of arguments takes one, and it is as long as its source. -/
theorem argumentAt_iff_read? :
    ArgumentAt scripts text start stop
      ↔ ∃ argument : Argument, Argument.read? scripts (text.drop start) = some (argument, text.drop stop)
        ∧ stop = start + argument.source.length := by
  rw [argumentAt_iff]
  constructor
  · rintro ⟨hstop, argument, hsource⟩
    have hread := Argument.read?_eq_some_iff.mpr hsource
    obtain ⟨hlength, hpositive⟩ := Argument.length_of_read? hread
    rw [List.length_drop, List.length_drop] at hlength
    exact ⟨argument, hread, by omega⟩
  · rintro ⟨argument, hread, hstop⟩
    obtain ⟨hlength, hpositive⟩ := Argument.length_of_read? hread
    rw [List.length_drop, List.length_drop] at hlength
    exact ⟨by omega, argument, Argument.read?_eq_some_iff.mp hread⟩

/-- An argument goes forward, and not beyond the text. -/
theorem ArgumentAt.forward (h : ArgumentAt scripts text start stop) : start < stop ∧ stop ≤ text.length := by
  obtain ⟨argument, hread, hstop⟩ := argumentAt_iff_read?.mp h
  obtain ⟨hlength, hpositive⟩ := Argument.length_of_read? hread
  rw [List.length_drop, List.length_drop] at hlength
  omega

/-- Only a command can be longer where more letters follow, so a script that is read is one without them. -/
theorem Script.Stands.alone {script : Script} {left : Text} (h : script.Stands left) : script.Stands [] := by
  cases script with
  | group inside => exact h
  | command name => exact ⟨h.ne_nil, h.letters, rfl⟩
  | letter c => exact h

/-- Where an argument may end in front of something, it may end at the end of the text. -/
theorem Argument.Stands.alone {argument : Argument} {left : Text} (h : argument.Stands scripts left) :
    argument.Stands scripts [] := by
  cases argument with
  | option inside => exact h
  | group inside => exact h
  | script mark body => exact ⟨h.1, h.2.1, h.2.2.alone⟩

/-- The stretch of an argument is an argument by itself, from its first character to its last one. -/
theorem ArgumentAt.alone (h : ArgumentAt scripts text start stop) :
    ArgumentAt scripts (text.extract start stop) 0 (text.extract start stop).length := by
  obtain ⟨argument, hread, hstop⟩ := argumentAt_iff_read?.mp h
  obtain ⟨htext, hstands⟩ := Argument.read?_eq_some_iff.mp hread
  have hsource : text.extract start stop = argument.source := by
    rw [List.extract_eq_take_drop, htext]
    exact List.take_left' (by omega)
  rw [hsource]
  exact argumentAt_iff.mpr ⟨Nat.le_refl _, argument, by simp, by simpa using hstands.alone⟩

/-! ## A run of arguments -/

/-- Two neighbouring stretches of a text make one. -/
theorem extract_append_extract {first middle last : Nat} (hfirst : first ≤ middle) (hlast : middle ≤ last) :
    text.extract first middle ++ text.extract middle last = text.extract first last := by
  have hspan : last - first = (middle - first) + (last - middle) := by omega
  simp only [List.extract_eq_take_drop]
  rw [hspan, List.take_add, List.drop_drop, Nat.add_sub_cancel' hfirst]

section

variable (h : Relation.ReflTransGen (ArgumentAt scripts text) start stop)
include h

/-- A run of arguments never goes back: it stops where it starts or further on. -/
theorem le_of_run : start ≤ stop := by
  induction h with
  | refl => exact Nat.le_refl _
  | tail _ hstep ih => exact ih.trans hstep.forward.1.le

/-- A run that starts inside the text stops inside it. -/
theorem stop_le_of_run (hstart : start ≤ text.length) : stop ≤ text.length := by
  cases h with
  | refl => exact hstart
  | tail _ hstep => exact hstep.forward.2

/-- The stretch of a run is made of arguments. -/
theorem exists_sources_of_run :
    ∃ sources : List Text, text.extract start stop = sources.flatten
      ∧ ∀ source ∈ sources, ArgumentAt scripts source 0 source.length := by
  induction h using Relation.ReflTransGen.head_induction_on with
  | refl => exact ⟨[], by simp, nofun⟩
  | @head first next hstep hrun ih =>
    obtain ⟨sources, hsources, hwhole⟩ := ih
    refine ⟨text.extract first next :: sources, ?_, List.forall_mem_cons.mpr ⟨hstep.alone, hwhole⟩⟩
    rw [List.flatten_cons, ← hsources, extract_append_extract hstep.forward.1.le (le_of_run hrun)]

end

/-- No run of arguments goes on forever. -/
theorem wellFounded_argumentAt (scripts : Bool) (text : Text) :
    WellFounded (Function.swap (ArgumentAt scripts text)) := by
  have hcloser : Subrelation (Function.swap (ArgumentAt scripts text))
      (InvImage (· < ·) fun pos => text.length - pos) := by
    intro stop start h
    have hforward := ArgumentAt.forward h
    show text.length - stop < text.length - start
    omega
  exact hcloser.wf (measure fun pos => text.length - pos).wf

end

/-! ## Skipping -/

/-- The position behind all the arguments that follow a position of a text. -/
def skipArguments (scripts : Bool) (text : Text) (pos : Nat) : Nat :=
  pos + (argumentsSource scripts (text.drop pos)).length

/-- The bound on the number of arguments makes no difference once it reaches the length of the text. -/
theorem readArgumentsUpTo_congr {scripts : Bool} {bound more : Nat} {text : Text}
    (hbound : text.length ≤ bound) (hmore : text.length ≤ more) :
    readArgumentsUpTo scripts bound text = readArgumentsUpTo scripts more text := by
  induction bound generalizing more text with
  | zero =>
    obtain rfl : text = [] := List.length_eq_zero_iff.mp (Nat.le_zero.mp hbound)
    cases more <;> rfl
  | succ bound ih =>
    cases more with
    | zero =>
      obtain rfl : text = [] := List.length_eq_zero_iff.mp (Nat.le_zero.mp hmore)
      rfl
    | succ more =>
      unfold readArgumentsUpTo
      split
      · rfl
      · next argument left hread =>
        obtain ⟨hlength, hpositive⟩ := Argument.length_of_read? hread
        have hothers : readArgumentsUpTo scripts bound left = readArgumentsUpTo scripts more left :=
          ih (by omega) (by omega)
        rw [hothers]

/-- Taking the arguments at the front of a text takes the first one and then those behind it. -/
theorem argumentsSource_of_read? {scripts : Bool} {text left : Text} {argument : Argument}
    (h : Argument.read? scripts text = some (argument, left)) :
    argumentsSource scripts text = argument.source ++ argumentsSource scripts left := by
  obtain ⟨hlength, hpositive⟩ := Argument.length_of_read? h
  cases text with
  | nil => cases h
  | cons c rest =>
    rw [List.length_cons] at hlength
    have hothers : readArgumentsUpTo scripts rest.length left = readArgumentsUpTo scripts left.length left :=
      readArgumentsUpTo_congr (by omega) (Nat.le_refl _)
    simp only [argumentsSource, readArguments, List.length_cons, readArgumentsUpTo, h, hothers,
      List.flatMap_cons]

/-- Where no argument starts, nothing is taken. -/
theorem argumentsSource_of_none {scripts : Bool} {text : Text} (h : Argument.read? scripts text = none) :
    argumentsSource scripts text = [] := by
  cases text with
  | nil => rfl
  | cons c rest =>
    simp only [argumentsSource, readArguments, List.length_cons, readArgumentsUpTo, h, List.flatMap_nil]

section

variable {scripts : Bool} {text : Text} {start stop : Nat}

/-- Skipping goes on behind an argument. -/
theorem ArgumentAt.skipArguments_eq (h : ArgumentAt scripts text start stop) :
    skipArguments scripts text start = skipArguments scripts text stop := by
  obtain ⟨argument, hread, hstop⟩ := argumentAt_iff_read?.mp h
  rw [skipArguments, skipArguments, argumentsSource_of_read? hread, List.length_append, ← Nat.add_assoc,
    ← hstop]

/-- Skipping ends where no argument stands. -/
theorem skipArguments_eq_self (h : ∀ next, ¬ ArgumentAt scripts text start next) :
    skipArguments scripts text start = start := by
  have hnone : Argument.read? scripts (text.drop start) = none := by
    by_contra hsome
    obtain ⟨⟨argument, left⟩, hread⟩ := Option.ne_none_iff_exists'.mp hsome
    have hleft : text.drop (start + argument.source.length) = left := by
      rw [← List.drop_drop, (Argument.read?_eq_some_iff.mp hread).1, List.drop_left]
    rw [← hleft] at hread
    exact h _ (argumentAt_iff_read?.mpr ⟨argument, hread, rfl⟩)
  rw [skipArguments, argumentsSource_of_none hnone, List.length_nil, Nat.add_zero]

/-- Skipping ends at the same position from everywhere along a run. -/
theorem skipArguments_eq_of_run (h : Relation.ReflTransGen (ArgumentAt scripts text) start stop) :
    skipArguments scripts text start = skipArguments scripts text stop := by
  induction h with
  | refl => rfl
  | tail _ hstep ih => exact ih.trans hstep.skipArguments_eq

/-- Skipping is a run of arguments behind which no further argument stands. -/
theorem run_skipArguments (scripts : Bool) (text : Text) (pos : Nat) :
    Relation.ReflTransGen (ArgumentAt scripts text) pos (skipArguments scripts text pos)
      ∧ ∀ next, ¬ ArgumentAt scripts text (skipArguments scripts text pos) next := by
  induction pos using (wellFounded_argumentAt scripts text).induction with
  | _ pos ih =>
    by_cases hnext : ∃ next, ArgumentAt scripts text pos next
    · obtain ⟨next, hstep⟩ := hnext
      obtain ⟨hrun, hends⟩ := ih next hstep
      rw [hstep.skipArguments_eq]
      exact ⟨.head hstep hrun, hends⟩
    · have hends : ∀ next, ¬ ArgumentAt scripts text pos next := not_exists.mp hnext
      rw [skipArguments_eq_self hends]
      exact ⟨.refl, hends⟩

end

/-- **The arguments behind a position of a text** are skipped up to another position. -/
structure Skipped (scripts : Bool) (text : Text) (pos stop : Nat) : Prop where
  le_stop : pos ≤ stop
  stop_le : stop ≤ text.length
  /-- What is skipped is made of arguments, each of them whole. -/
  sources : ∃ sources : List Text, text.extract pos stop = sources.flatten
    ∧ ∀ source ∈ sources, ArgumentAt scripts source 0 source.length
  /-- They are read in the text one behind the other. -/
  run : Relation.ReflTransGen (ArgumentAt scripts text) pos stop
  /-- Nothing more can be skipped. -/
  ends : ∀ next, ¬ ArgumentAt scripts text stop next

/-- **Skipping takes all arguments and nothing else.** `skip_arguments` ends inside the text, at the only
position that a run of arguments reaches and at which none stands, so skipping again changes nothing. Every
argument goes forward, so no run of them goes on forever. -/
theorem skipArguments_maximal (scripts : Bool) {text : Text} {pos : Nat} (hpos : pos ≤ text.length) :
    Skipped scripts text pos (skipArguments scripts text pos)
    ∧ (∀ stop, Skipped scripts text pos stop → stop = skipArguments scripts text pos)
    ∧ skipArguments scripts text (skipArguments scripts text pos) = skipArguments scripts text pos
    ∧ (∀ start stop, ArgumentAt scripts text start stop → start < stop)
    ∧ WellFounded (Function.swap (ArgumentAt scripts text)) := by
  obtain ⟨hrun, hends⟩ := run_skipArguments scripts text pos
  have hskipped : Skipped scripts text pos (skipArguments scripts text pos) :=
    ⟨le_of_run hrun, stop_le_of_run hrun hpos, exists_sources_of_run hrun, hrun, hends⟩
  have hunique : ∀ stop, Skipped scripts text pos stop → stop = skipArguments scripts text pos := by
    intro stop h
    rw [skipArguments_eq_of_run h.run, skipArguments_eq_self h.ends]
  exact ⟨hskipped, hunique, skipArguments_eq_self hends, fun _ _ h => h.forward.1,
    wellFounded_argumentAt scripts text⟩

/-- An option, a group and two scripts, in front of a group that is never closed. -/
def unclosedArguments : Text :=
  'f' :: '[' :: 'a' :: ']' :: '{' :: 'b' :: '}' :: "_\\alpha^2".toList ++ ['{', 'c']

/-- Behind the first character stand an option, a group and two scripts, and then a group that is never
closed. `skip_arguments` stops in front of that group, or in front of the first script mark when scripts
do not count. -/
theorem skipArguments_maximal_unclosed :
    1 ≤ unclosedArguments.length
    ∧ skipArguments true unclosedArguments 1 = 16 ∧ Skipped true unclosedArguments 1 16
    ∧ skipArguments false unclosedArguments 1 = 7 ∧ Skipped false unclosedArguments 1 7 := by
  have hpos : 1 ≤ unclosedArguments.length := by decide
  have hscripts : skipArguments true unclosedArguments 1 = 16 := by decide
  have hgroups : skipArguments false unclosedArguments 1 = 7 := by decide
  have hskipped := (skipArguments_maximal true hpos).1
  have hskippedGroups := (skipArguments_maximal false hpos).1
  rw [hscripts] at hskipped
  rw [hgroups] at hskippedGroups
  exact ⟨hpos, hscripts, hskipped, hgroups, hskippedGroups⟩

end MathScribe.Latex
