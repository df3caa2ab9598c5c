import Mathlib.Control.Monad.Basic
import Mathlib.Logic.Function.Iterate
import Micheline.Proofs.Expr.Json
import Micheline.Proofs.Json.Nesting

/-!
Normal texts. What was read from a text can be written and read again, although the reader bounds
the nesting of a text and the new one is written without regard to the old: each array that is
written stood in the text that was read, whatever else stood there.
-/

namespace Micheline.Expr

open Json (Value bracketDepth)

/-- How a value was read as an expression: as a sequence, as a literal, or as an application whose
arguments stand under their key or are left out. -/
inductive Form : Value → Expr → Prop
  | seq {values : List Value} {items : List Expr} (hitems : ofItems? values = some items) :
      Form (.array values) (.seq items)
  | int (members : List (String × Value)) (text : String) : Form (.object members) (.int text)
  | string (members : List (String × Value)) (text : String) :
      Form (.object members) (.string text)
  | bytes (members : List (String × Value)) (text : String) : Form (.object members) (.bytes text)
  | app {members : List (String × Value)} {args : List Expr} {annots : List String} (name : String)
      (hargs : args = [] ∨ some args ∈ argsUnder members)
      (hannots : annotsOf? members = some annots) : Form (.object members) (.app name args annots)

theorem form_of_ofJson {value : Value} {e : Expr} (h : ofJson? value = some e) : Form value e := by
  unfold ofJson? at h
  split at h
  next values =>
    obtain ⟨items, hitems, rfl⟩ := Option.map_eq_some_iff.mp h
    exact .seq hitems
  next members =>
    simp only [Option.orElse_eq_orElse, Option.orElse_eq_or, Option.or_eq_some_iff] at h
    obtain h | ⟨-, h | ⟨-, h | ⟨-, h⟩⟩⟩ := h
    · obtain ⟨text, -, rfl⟩ := Option.map_eq_some_iff.mp h
      exact .int members text
    · obtain ⟨text, -, rfl⟩ := Option.map_eq_some_iff.mp h
      exact .string members text
    · obtain ⟨text, -, rfl⟩ := Option.map_eq_some_iff.mp h
      exact .bytes members text
    · obtain ⟨name, -, h⟩ := Option.bind_eq_some_iff.mp h
      split at h <;> simp only [bind, pure, Option.bind_eq_some_iff, Option.some.injEq] at h
      · obtain ⟨_, rfl, annots, hannots, rfl⟩ := h
        exact .app name (.inl rfl) hannots
      next hunder =>
        obtain ⟨args, rfl, annots, hannots, rfl⟩ := h
        exact .app name (.inr (hunder ▸ List.mem_singleton_self _)) hannots
      · obtain ⟨_, hargs, -⟩ := h
        cases hargs
  · cases h

/-- Every part of what is read from a list of values was read from one of them. -/
theorem deepest_le_of_ofItems {values : List Value} {items : List Expr}
    (hread : ofItems? values = some items)
    (h : ∀ e ∈ items, ∀ value, ofJson? value = some e → e.jsonNesting ≤ value.nesting) :
    deepest items ≤ Value.nestingItems values := by
  induction values generalizing items with
  | nil =>
      cases hread
      exact Nat.le_refl _
  | cons value values ih =>
      rw [ofItems?] at hread
      split at hread
      next e he =>
        obtain ⟨rest, hrest, rfl⟩ := Option.map_eq_some_iff.mp hread
        have hhead := h e (List.mem_cons_self ..) value he
        have htail := ih hrest fun f hf => h f (List.mem_cons_of_mem _ hf)
        rw [deepest, Value.nestingItems]
        omega
      · cases hread

theorem mem_of_argsUnder {members : List (String × Value)} {args : List Expr}
    (h : some args ∈ argsUnder members) :
    ∃ values, ("args", .array values) ∈ members ∧ ofItems? values = some args := by
  induction members with
  | nil => cases h
  | cons m members ih =>
      obtain ⟨key, value⟩ := m
      have hlater (h : some args ∈ argsUnder members) :
          ∃ values, ("args", .array values) ∈ (key, value) :: members ∧
            ofItems? values = some args := by
        obtain ⟨values, hvalues, hargs⟩ := ih h
        exact ⟨values, List.mem_cons_of_mem _ hvalues, hargs⟩
      unfold argsUnder at h
      split at h
      next hkey =>
        obtain heq | h := List.mem_cons.mp h
        · cases value with
          | array values => exact ⟨values, hkey ▸ List.mem_cons_self .., heq.symm⟩
          | null | bool _ | number _ | string _ | object _ => cases heq
        · exact hlater h
      · exact hlater h

theorem mem_of_underKey {key : String} {members : List (String × Value)} {value : Value}
    (h : value ∈ underKey key members) : (key, value) ∈ members := by
  obtain ⟨⟨k, v⟩, hm, h⟩ := List.mem_filterMap.mp h
  simp only [Option.ite_none_right_eq_some, Option.some.injEq] at h
  obtain ⟨rfl, rfl⟩ := h
  exact hm

theorem mem_of_annotsOf {members : List (String × Value)} {annots : List String}
    (h : annotsOf? members = some annots) (hannots : annots ≠ []) :
    ∃ values, ("annots", .array values) ∈ members := by
  unfold annotsOf? at h
  split at h
  · cases h
    exact absurd rfl hannots
  next values hunder =>
    have hvalues : Value.array values ∈ underKey "annots" members :=
      hunder ▸ List.mem_singleton_self _
    exact ⟨values, mem_of_underKey hvalues⟩
  · cases h

/-- Nothing is written deeper than what it was read from. -/
theorem jsonNesting_le_nesting {e : Expr} {value : Value} (h : ofJson? value = some e) :
    e.jsonNesting ≤ value.nesting := by
  induction e generalizing value with
  | int _ | string _ | bytes _ =>
      cases form_of_ofJson h
      exact Nat.le_add_left ..
  | seq items ih =>
      cases form_of_ofJson h with
      | seq hitems =>
          have hdeepest := deepest_le_of_ofItems hitems fun e he _ => ih e he
          rw [jsonNesting, Value.nesting]
          omega
  | app name args annots ih =>
      cases form_of_ofJson h with
      | @app members _ _ _ hargs hannots =>
          -- Only the arrays under the two keys matter; ignored members may be nested deeper.
          have hdeepest : args ≠ [] → 1 + deepest args ≤ Value.nestingMembers members := by
            intro hne
            obtain ⟨values, hmem, hread⟩ := mem_of_argsUnder (hargs.resolve_left hne)
            have hle := Value.nesting_le_of_mem_members hmem
            have hitems := deepest_le_of_ofItems hread fun e he _ => ih e he
            rw [Value.nesting] at hle
            omega
          have hannotated : annots ≠ [] → 1 ≤ Value.nestingMembers members := by
            intro hne
            obtain ⟨values, hmem⟩ := mem_of_annotsOf hannots hne
            have hle := Value.nesting_le_of_mem_members hmem
            rw [Value.nesting] at hle
            omega
          rw [jsonNesting, Value.nesting]
          split <;> split <;> simp_all <;> omega

theorem exists_value_of_ofJsonText {text : String} {e : Expr} (h : ofJsonText text = .ok e) :
    ∃ value rest, Value.read text.toList = .ok (value, rest) ∧ ofJson? value = some e ∧
      rest.all Json.isBlank := by
  unfold ofJsonText at h
  split at h
  · cases h
  next value rest hread =>
    split at h
    · cases h
    next he =>
      split at h
      next hblank =>
        cases h
        exact ⟨value, rest, hread, he, hblank⟩
      · cases h

theorem bracketDepth_jsonText {e : Expr} (h : e.jsonNesting ≤ 127) :
    bracketDepth e.jsonText = e.jsonNesting := by
  have hread := Value.read_onto (textual_toJson e) []
  rw [nesting_toJson, if_pos h] at hread
  have hprinted : Value.read e.jsonText.toList = .ok (e.toJson, []) := by
    rw [jsonText, Value.print, String.toList_ofList, hread]
  rw [Value.bracketDepth_of_read hprinted rfl, nesting_toJson]

/-- Reads a text and writes the expression that it denotes. -/
def normalize (text : String) : Except ReadError String :=
  (ofJsonText text).map jsonText

/-- The expression of an accepted text can be written and read for ever: its own text is accepted
as the same expression, is nested no deeper than the text that it came from, and is written again
as it is. -/
theorem normalize_stable {text : String} {e : Expr} (h : ofJsonText text = .ok e) :
    ofJsonText e.jsonText = .ok e ∧
    bracketDepth e.jsonText ≤ bracketDepth text ∧ bracketDepth text ≤ 127 ∧
    ∀ n : Nat, (fun result => result.bind normalize)^[n] (normalize text) = .ok e.jsonText := by
  obtain ⟨value, rest, hread, he, hblank⟩ := exists_value_of_ofJsonText h
  have hdepth : bracketDepth text = value.nesting := Value.bracketDepth_of_read hread hblank
  have hle : e.jsonNesting ≤ value.nesting := jsonNesting_le_nesting he
  have hroom : value.nesting ≤ 127 := Value.nesting_le_of_read hread
  have hfit : e.jsonNesting ≤ 127 := Nat.le_trans hle hroom
  have hback : ofJsonText e.jsonText = .ok e := by rw [ofJsonText_jsonText, if_pos hfit]
  refine ⟨hback, ?_, hdepth ▸ hroom, ?_⟩
  · rw [bracketDepth_jsonText hfit, hdepth]
    exact hle
  · intro n
    have hfirst : normalize text = .ok e.jsonText := by rw [normalize, h]; rfl
    have hagain : normalize e.jsonText = .ok e.jsonText := by rw [normalize, hback]; rfl
    rw [hfirst]
    exact Function.iterate_fixed hagain n

/-- An application written with blanks and escapes, its name last, with empty annotations and a
member that is ignored although it is nested deepest. -/
def untidy : String :=
  " \x7b\"x\": [[\"]\\u005b\"], 1e5], \"annots\": [], \"args\": [\x7b\"int\": \"\\u0035\"\x7d], " ++
    "\"prim\": \"P\\u0061ir\"\x7d \n"

theorem normalize_stable_untidy :
    ofJsonText untidy = .ok (.app "Pair" [.int "5"] []) ∧ bracketDepth untidy = 3 ∧
    bracketDepth (jsonText (.app "Pair" [.int "5"] [])) ≤ bracketDepth untidy ∧
    normalize untidy =
      .ok "\x7b\"prim\":\"Pair\",\"args\":[\x7b\"int\":\"5\"\x7d]\x7d" := by
  have hread : ofJsonText untidy = .ok (.app "Pair" [.int "5"] []) := by decide +kernel
  obtain ⟨-, hdepth, -, hnormal⟩ := normalize_stable hread
  exact ⟨hread, by decide +kernel, hdepth, hnormal 0⟩

end Micheline.Expr
