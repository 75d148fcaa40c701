/-
Groups have a normal form of their own.

The normal form of a command with groups is made of the normal forms that the texts in the groups have alone
(`normalize_enclosed`). Two things stand in the way. The first two passes run over the whole formula before
any group is read, so they must not reach over a brace, and what they leave must be groups again. And the
inside of a group has one level less than the same text alone, which it may not notice.

Nothing is said about what the texts mean. They may have commands in them that are unknown, groups that are
never closed, and scripts without an argument: whatever the normal form makes of them, it makes the same of
them in the group.
-/
import MathScribe.Proofs.Latex.Bounds
import MathScribe.Proofs.Latex.Preparation

set_option autoImplicit false

namespace MathScribe.Latex

/-- A text that braces enclose: it is read back whole between them, no two backslashes in it stand next to
each other, and its groups are nested in fewer than sixty levels. -/
structure Enclosable (text : Text) : Prop where
  reads : readBraces (braced text) = some (text, [])
  apart : BackslashesApart text
  nests : nestsBelow 60 text = true

namespace Enclosable

variable {text : Text}

/-- What the preparation makes of an enclosable text is balanced, so that a group in braces around it is
read to its end. -/
theorem balanced (h : Enclosable text) : Balanced (prepare text) :=
  balanced_prepare h.apart (of_readBraces h.reads).2

/-- In a group the text has one level less, which is enough. -/
theorem normalTo (h : Enclosable text) : normalTo 64 (prepare text) = normalize text :=
  (normalTo_succ_of_nestsBelow (nestsBelow_prepare h.apart h.nests) (by decide : 60 ≤ 63)).symm

/-- The normal form of a group is the normal form of its inside, in parentheses. -/
theorem normalize_braced (h : Enclosable text) :
    normalize (braced text) = parenthesized (normalize text) := by
  rw [normalize_braced_eq h.balanced, h.normalTo]

end Enclosable

/-! ## Commands with groups -/

/-- A balanced text in braces is read back as a group, and what stands behind it is left. -/
theorem readPaddedBraces_braced_append {inside : Text} (h : Balanced inside) (behind : Text) :
    readPaddedBraces (braced inside ++ behind) = some (inside, behind) :=
  readPaddedBraces_eq_some_iff.mpr ⟨[], nofun, braced_append inside behind, h⟩

theorem readPaddedBraces_braced {inside : Text} (h : Balanced inside) :
    readPaddedBraces (braced inside) = some (inside, []) := by
  have happend := readPaddedBraces_braced_append h []
  rwa [List.append_nil] at happend

/-- A balanced text in braces behind a mark is read back as a script. -/
theorem readMarked_braced {mark : Char} {inside : Text} (h : Balanced inside) :
    readMarked mark (mark :: braced inside) = some (inside, []) :=
  readMarked_group h []

/-- A brace is neither a backslash nor a space, so no pass looks across it. -/
theorem startsPlain_braced (text : Text) : StartsPlain (braced text) :=
  ⟨'{', _, rfl, by decide, by decide⟩

/-- The normal form of a command is that of the piece which it makes with what is prepared behind it. -/
theorem normalize_command {name after : Text} {piece : Piece} (hname : MacroName name after)
    (hplain : IsPlainMacro name) (hafter : StartsPlain after)
    (hmade : Piece.ofMacro? name (prepare after) = some (piece, [])) :
    normalize ('\\' :: (name ++ after)) = piece.normal (normalTo 64) := by
  rw [normalize_eq, prepare_command hname hplain hafter, maxLevels,
    normalTo_command 64 (hname.prepare hafter) hmade, normalTo_nil, List.append_nil]

/-- The macros of a fraction, of a root and of a style make no words. -/
theorem groupMacros_spec : ∀ name ∈ fractionMacros ++ rootMacro :: styleMacros,
    name ≠ [] ∧ (∀ c ∈ name, c.isAlpha = true) ∧ IsPlainMacro name ∧ wordOf? name = none := by
  simp only [← List.all_eq_true]
  decide +kernel

/-- The style macros are none of the macros that take other arguments. The rows of the table are gone
through. -/
theorem styleMacros_spec : ∀ name ∈ styleMacros,
    name ∉ fractionMacros ∧ name ≠ rootMacro ∧ name ∉ bigOperatorMacros ∧ name ≠ limitMacro := by
  decide +kernel

section

variable {name A B : Text}

/-- A fraction becomes the quotient of two parenthesized normal forms. -/
theorem normalize_fraction (hname : name ∈ fractionMacros) (hA : Enclosable A) (hB : Enclosable B) :
    normalize ('\\' :: (name ++ (braced A ++ braced B)))
      = parenthesized (normalize A) ++ '/' :: parenthesized (normalize B) := by
  obtain ⟨hne, hletters, hplain, hword⟩ := groupMacros_spec name (List.mem_append_left _ hname)
  have hmade : Piece.ofMacro? name (prepare (braced A ++ braced B))
      = some (.fraction (prepare A) (prepare B), []) := by
    rw [prepare_braced_append, prepare_braced]
    simp [Piece.ofMacro?, hword, hname, readPaddedBraces_braced_append hA.balanced,
      readPaddedBraces_braced hB.balanced]
  have hstart := (startsPlain_braced A).append (braced B)
  rw [normalize_command ⟨hne, hletters, rfl⟩ hplain hstart hmade, Piece.normal, hA.normalTo, hB.normalTo]

/-- A square root becomes a root with its radicand in parentheses. -/
theorem normalize_squareRoot (hA : Enclosable A) :
    normalize ('\\' :: (rootMacro ++ braced A)) = rootMacro ++ parenthesized (normalize A) := by
  obtain ⟨hne, hletters, hplain, hword⟩ := groupMacros_spec rootMacro (by simp)
  have hfraction : rootMacro ∉ fractionMacros := by decide
  have hindex : readBrackets (braced (prepare A)) = none := rfl
  have hmade : Piece.ofMacro? rootMacro (prepare (braced A)) = some (.squareRoot (prepare A), []) := by
    rw [prepare_braced]
    simp [Piece.ofMacro?, hword, hfraction, hindex, readPaddedBraces_braced hA.balanced]
  have hstart := startsPlain_braced A
  rw [normalize_command ⟨hne, hletters, rfl⟩ hplain hstart hmade, Piece.normal, hA.normalTo]

/-- A style leaves nothing but the normal form of its argument, without parentheses. -/
theorem normalize_styled (hname : name ∈ styleMacros) (hA : Enclosable A) :
    normalize ('\\' :: (name ++ braced A)) = normalize A := by
  obtain ⟨hne, hletters, hplain, hword⟩ := groupMacros_spec name (by simp [hname])
  obtain ⟨hfraction, hroot, hbig, hlimit⟩ := styleMacros_spec name hname
  have hmade : Piece.ofMacro? name (prepare (braced A)) = some (.styled (prepare A), []) := by
    rw [prepare_braced]
    simp [Piece.ofMacro?, hword, hfraction, hroot, hbig, hlimit, hname,
      readPaddedBraces_braced hA.balanced]
  have hstart := startsPlain_braced A
  rw [normalize_command ⟨hne, hletters, rfl⟩ hplain hstart hmade, Piece.normal, hA.normalTo]

/-- A big operator keeps its name and both scripts, the lower one first and without parentheses of their
own. -/
theorem normalize_bigOperator (hname : name ∈ bigOperatorMacros) (hA : Enclosable A) (hB : Enclosable B) :
    normalize ('\\' :: (name ++ '_' :: (braced A ++ '^' :: braced B)))
      = name ++ '_' :: (normalize A ++ '^' :: normalize B) := by
  have hsource := scriptsSource_eq name A B []
  rw [List.append_nil] at hsource
  have hnothing : normalize [] = [] := by
    rw [normalize_eq, prepare_nil, normalTo_nil]
  rw [← hsource, normalize_scripts_eq hname hA.balanced hB.balanced, hA.normalTo, hB.normalTo, hnothing,
    List.append_nil]

/-- A superscript in front of a subscript changes nothing. -/
theorem normalize_bigOperator_swap (hname : name ∈ bigOperatorMacros) (hA : Enclosable A)
    (hB : Enclosable B) :
    normalize ('\\' :: (name ++ '^' :: (braced B ++ '_' :: braced A)))
      = name ++ '_' :: (normalize A ++ '^' :: normalize B) := by
  obtain ⟨hne, hletters, hplain, hword, hfraction, hroot⟩ := bigOperatorMacros_spec name hname
  have hscripts : readScripts ('^' :: (braced (prepare B) ++ '_' :: braced (prepare A)))
      = (⟨some (prepare A), some (prepare B)⟩, []) := by
    have hnone : readMarked '_' ('^' :: (braced (prepare B) ++ '_' :: braced (prepare A))) = none := rfl
    unfold readScripts
    rw [hnone, braced_append, readMarked_group hB.balanced]
    dsimp only
    rw [readMarked_braced hA.balanced]
  have hmade : Piece.ofMacro? name (prepare ('^' :: (braced B ++ '_' :: braced A)))
      = some (.bigOperator name ⟨some (prepare A), some (prepare B)⟩, []) := by
    rw [prepare_cons (by decide) (by decide), prepare_braced_append, prepare_cons (by decide) (by decide),
      prepare_braced]
    simp only [Piece.ofMacro?, hword, hfraction, hroot, hname, if_false, if_true, hscripts]
  rw [normalize_command ⟨hne, hletters, rfl⟩ hplain ⟨'^', _, rfl, by decide, by decide⟩ hmade]
  simp [Piece.normal, hA.normalTo, hB.normalTo]

end

/-- **The normal form of a group is the normal form of what it holds.** Under `normalize`, the sides of a
fraction and what stands under a root or between bare braces are put in parentheses. A style is dropped with its
braces, and so are the braces of a script, in either order. -/
theorem normalize_enclosed {A B : Text} (hA : Enclosable A) (hB : Enclosable B) :
    (∀ name ∈ fractionMacros, normalize ('\\' :: (name ++ (braced A ++ braced B)))
        = parenthesized (normalize A) ++ '/' :: parenthesized (normalize B))
      ∧ normalize ('\\' :: (rootMacro ++ braced A)) = rootMacro ++ parenthesized (normalize A)
      ∧ normalize (braced A) = parenthesized (normalize A)
      ∧ (∀ name ∈ styleMacros, normalize ('\\' :: (name ++ braced A)) = normalize A)
      ∧ ∀ op ∈ bigOperatorMacros,
        normalize ('\\' :: (op ++ '_' :: (braced A ++ '^' :: braced B)))
            = op ++ '_' :: (normalize A ++ '^' :: normalize B)
          ∧ normalize ('\\' :: (op ++ '^' :: (braced B ++ '_' :: braced A)))
            = op ++ '_' :: (normalize A ++ '^' :: normalize B) := by
  refine ⟨?fraction, normalize_squareRoot hA, hA.normalize_braced, ?style, ?operator⟩
  case fraction => exact fun name hname => normalize_fraction hname hA hB
  case style => exact fun name hname => normalize_styled hname hA
  case operator =>
    exact fun op hop => ⟨normalize_bigOperator hop hA hB, normalize_bigOperator_swap hop hA hB⟩

/-- A power with a sized parenthesis and some room, and an unknown command with a bracket that is never
closed: `\left(x^{2}\right)\,` and `\foo[n`. -/
theorem normalize_enclosed_sample :
    Enclosable ("\\left(x^".toList ++ braced ['2'] ++ "\\right)\\,".toList)
      ∧ Enclosable "\\foo[n".toList
      ∧ normalize ('\\' :: ("frac".toList
          ++ (braced ("\\left(x^".toList ++ braced ['2'] ++ "\\right)\\,".toList)
            ++ braced "\\foo[n".toList)))
        = "((x^(2)) )/(\\foo[n)".toList := by
  have hpower : Enclosable ("\\left(x^".toList ++ braced ['2'] ++ "\\right)\\,".toList) :=
    ⟨by decide, by unfold BackslashesApart; decide, by decide⟩
  have hunknown : Enclosable "\\foo[n".toList :=
    ⟨by decide, by unfold BackslashesApart; decide, by decide⟩
  refine ⟨hpower, hunknown, ?_⟩
  rw [(normalize_enclosed hpower hunknown).1 _ (by decide)]
  cbv

end MathScribe.Latex
