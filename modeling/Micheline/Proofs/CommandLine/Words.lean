import Mathlib.Data.List.TakeWhile
import Micheline.CommandLine.Words

/-!
Arguments that are read apart from what follows them. An option that is given a value is one such
stretch, in either of the ways to write it, whatever characters the value has if an equals sign
stands in front of it; and stretches may be put one behind another.
-/

namespace Micheline.CommandLine

/-- Arguments that come to the same words whatever stands behind them. -/
def Scans (forms : List OptionForm) (commands arguments : List String) (words : List Word) : Prop :=
  ∀ rest, scan forms commands (arguments ++ rest) = (scan forms commands rest).behind words

/-- The arguments that give an option a value: one with an equals sign, or the option and its value
if that cannot be mistaken for an option. -/
inductive Spelled (form : OptionForm) (value : String) : List String → Prop
  | attached : Spelled form value ["--" ++ form.long ++ "=" ++ value]
  | separate (h : looksLikeOption value = false) : Spelled form value ["--" ++ form.long, value]

/-- An option that takes a value, found by its name among the forms. -/
structure Offered (forms : List OptionForm) (form : OptionForm) : Prop where
  found : forms.find? (fun f => f.long == form.long) = some form
  valued : form.valued = true
  named : form.long.toList ≠ []
  unbroken : '=' ∉ form.long.toList

/-- Names that no option can be mistaken for. -/
def Plain (commands : List String) : Prop :=
  ∀ name ∈ commands, name.toList.head? ≠ some '-'

instance : DecidablePred Plain := fun commands =>
  inferInstanceAs (Decidable (∀ name ∈ commands, name.toList.head? ≠ some '-'))

section

variable {forms : List OptionForm} {commands : List String} {form : OptionForm}

theorem scans_nil : Scans forms commands [] [] :=
  fun _ => rfl

theorem Scans.append {arguments arguments' : List String} {words words' : List Word}
    (h : Scans forms commands arguments words) (h' : Scans forms commands arguments' words') :
    Scans forms commands (arguments ++ arguments') (words ++ words') := by
  intro rest
  rw [List.append_assoc, h, h']
  simp only [Scan.behind, List.append_assoc]

theorem scan_end (operands : List String) :
    scan forms commands ("--" :: operands) = ⟨operands.map .operand, .complete⟩ := by
  rw [scan]
  rfl

theorem scan_command {name : String} (h : name ∈ commands) (hname : name ≠ "--")
    (rest : List String) : scan forms commands (name :: rest) = ⟨[], .command name rest⟩ := by
  rw [scan, beq_eq_false_iff_ne.mpr hname, List.contains_eq_mem, decide_eq_true h]
  rfl

theorem Offered.ne_equals (h : Offered forms form) : ∀ c ∈ form.long.toList, (c != '=') = true :=
  fun _ hc => bne_iff_ne.mpr fun heq => h.unbroken (heq ▸ hc)

theorem Offered.readLong_attached (h : Offered forms form) (value : List Char) :
    readLong forms (form.long.toList ++ '=' :: value) =
      ([.valued form.name (String.ofList value)], .complete) := by
  have htake : (form.long.toList ++ '=' :: value).takeWhile (· != '=') = form.long.toList := by
    rw [List.takeWhile_append_of_pos h.ne_equals]
    simp
  have hdrop : (form.long.toList ++ '=' :: value).dropWhile (· != '=') = '=' :: value := by
    rw [List.dropWhile_append_of_pos h.ne_equals]
    simp
  simp only [readLong, htake, hdrop, String.ofList_toList, h.found, h.valued]

theorem Offered.readLong_separate (h : Offered forms form) :
    readLong forms form.long.toList = ([], .awaiting form.name) := by
  have htake : form.long.toList.takeWhile (· != '=') = form.long.toList :=
    List.takeWhile_eq_self_iff.mpr h.ne_equals
  have hdrop : form.long.toList.dropWhile (· != '=') = [] :=
    List.dropWhile_eq_nil_iff.mpr h.ne_equals
  simp only [readLong, htake, hdrop, String.ofList_toList, h.found, h.valued]

theorem readArgument_long {argument : String} {text : List Char}
    (h : argument.toList = '-' :: '-' :: text) :
    readArgument forms argument = readLong forms text := by
  simp only [readArgument, h]

/-- An argument of two hyphens and more is neither the end of the options nor a command. -/
theorem not_end_not_command (hcommands : Plain commands) {argument : String} {text : List Char}
    (hargument : argument.toList = '-' :: '-' :: text) (htext : text ≠ []) :
    (argument == "--") = false ∧ commands.contains argument = false := by
  constructor
  · rw [beq_eq_false_iff_ne]
    rintro rfl
    exact htext (List.cons.inj (List.cons.inj hargument).2).2.symm
  · rw [List.contains_eq_mem, decide_eq_false_iff_not]
    intro hmem
    exact hcommands argument hmem (by rw [hargument]; rfl)

theorem Spelled.scans {value : String} {arguments : List String}
    (h : Spelled form value arguments) (hform : Offered forms form) (hcommands : Plain commands) :
    Scans forms commands arguments [.valued form.name value] := by
  intro rest
  cases h with
  | attached =>
      have hargument : ("--" ++ form.long ++ "=" ++ value).toList =
          '-' :: '-' :: (form.long.toList ++ '=' :: value.toList) := by
        simp
      have hread := hform.readLong_attached value.toList
      rw [String.ofList_toList, ← readArgument_long hargument] at hread
      obtain ⟨hend, hcommand⟩ := not_end_not_command hcommands hargument (by simp)
      rw [List.singleton_append, scan, hend, hcommand, hread]
      simp only [Bool.false_eq_true, if_false]
  | separate hvalue =>
      have hargument : ("--" ++ form.long).toList = '-' :: '-' :: form.long.toList := by
        simp
      have hread := hform.readLong_separate
      rw [← readArgument_long hargument] at hread
      obtain ⟨hend, hcommand⟩ := not_end_not_command hcommands hargument hform.named
      rw [List.cons_append, List.singleton_append, scan, hend, hcommand, hread]
      simp only [Bool.false_eq_true, if_false, hvalue, List.nil_append]

end

end Micheline.CommandLine
