import Micheline.Expr.Json
import Micheline.Proofs.Expr.Traversal
import Micheline.Proofs.Json.Distinct
import Micheline.Proofs.Json.Ending

/-!
The JSON text of an expression. Nothing of an expression is lost in its text, whatever its nesting
and whatever the texts in it; but a text is read back only up to the nesting that the reader admits,
and what counts there are the arrays and objects of the text and not the levels of the expression.
No front of a text is taken for a text of another expression.
-/

namespace Micheline.Expr

open Json (Value)

mutual
/-- How many containers lie within each other in the text of an expression. Arguments and
annotations stand in an array of their own, which is left out if it is empty. -/
def jsonNesting : Expr → Nat
  | .int _ | .string _ | .bytes _ => 1
  | .seq items => 1 + deepest items
  | .app _ args annots =>
      1 + max (if annots = [] then 0 else 1) (if args = [] then 0 else 1 + deepest args)

def deepest : List Expr → Nat
  | [] => 0
  | e :: rest => max e.jsonNesting (deepest rest)
end

theorem itemsToJson_eq_map (es : List Expr) : itemsToJson es = es.map toJson := by
  induction es with
  | nil => rfl
  | cons e es ih => rw [itemsToJson, ih, List.map_cons]

/-- The members that an application is written with. -/
def appMembers (name : String) (args : List Expr) (annots : List String) : List (String × Value) :=
  ("prim", .string name)
    :: ((if args.isEmpty then [] else [("args", .array (itemsToJson args))])
      ++ (if annots.isEmpty then [] else [("annots", .array (annots.map .string))]))

theorem toJson_app (name : String) (args : List Expr) (annots : List String) :
    (app name args annots).toJson = .object (appMembers name args annots) := by
  rw [toJson, appMembers]

section

variable (name : String) (args : List Expr) (annots : List String)

theorem textUnder?_prim : textUnder? "prim" (appMembers name args annots) = some name := by
  cases args <;> cases annots <;> simp [textUnder?, underKey, appMembers]

theorem textUnder?_of_ne (key : String) (hprim : "prim" ≠ key) (hargs : "args" ≠ key)
    (hannots : "annots" ≠ key) : textUnder? key (appMembers name args annots) = none := by
  cases args <;> cases annots <;>
    simp [textUnder?, underKey, appMembers, hprim, hargs, hannots]

theorem argsUnder_appMembers :
    argsUnder (appMembers name args annots) =
      if args = [] then [] else [ofItems? (itemsToJson args)] := by
  cases args <;> cases annots <;> simp [argsUnder, appMembers]

theorem texts?_map_string (texts : List String) : texts? (texts.map Value.string) = some texts := by
  induction texts with
  | nil => rfl
  | cons text texts ih => rw [List.map_cons, texts?, ih, Option.map_some]

theorem annotsOf?_appMembers : annotsOf? (appMembers name args annots) = some annots := by
  have htexts := texts?_map_string annots
  cases args <;> cases annots <;> simp_all [annotsOf?, underKey, appMembers]

end

theorem ofItems?_itemsToJson {es : List Expr} (h : ∀ e ∈ es, ofJson? e.toJson = some e) :
    ofItems? (itemsToJson es) = some es := by
  induction es with
  | nil => rfl
  | cons e es ih =>
      rw [itemsToJson, ofItems?, h e (List.mem_cons_self ..),
        ih fun f hf => h f (List.mem_cons_of_mem _ hf)]
      rfl

/-- The JSON value of an expression is read as that expression: no form that is tried earlier fits
it. -/
theorem ofJson?_toJson (e : Expr) : ofJson? e.toJson = some e := by
  induction e with
  | int _ | string _ | bytes _ => rfl
  | seq items ih =>
      rw [toJson, ofJson?, ofItems?_itemsToJson ih]
      rfl
  | app name args annots ih =>
      have hint := textUnder?_of_ne name args annots "int" (by decide) (by decide) (by decide)
      have hstring := textUnder?_of_ne name args annots "string" (by decide) (by decide) (by decide)
      have hbytes := textUnder?_of_ne name args annots "bytes" (by decide) (by decide) (by decide)
      rw [toJson_app, ofJson?, hint, hstring, hbytes, textUnder?_prim, argsUnder_appMembers,
        annotsOf?_appMembers, ofItems?_itemsToJson ih]
      cases args <;> rfl

theorem textual_itemsToJson {es : List Expr} (h : ∀ e ∈ es, e.toJson.Textual) :
    (Value.array (itemsToJson es)).Textual := by
  apply Value.Textual.array
  intro value hvalue
  rw [itemsToJson_eq_map] at hvalue
  obtain ⟨e, he, rfl⟩ := List.mem_map.mp hvalue
  exact h e he

theorem textual_texts (texts : List String) : (Value.array (texts.map Value.string)).Textual := by
  apply Value.Textual.array
  intro value hvalue
  obtain ⟨text, -, rfl⟩ := List.mem_map.mp hvalue
  exact .string text

theorem textual_toJson (e : Expr) : e.toJson.Textual := by
  induction e with
  | int text | string text | bytes text =>
      apply Value.Textual.object
      intro m hm
      obtain rfl := List.mem_singleton.mp hm
      exact .string text
  | seq items ih => exact textual_itemsToJson ih
  | app name args annots ih =>
      rw [toJson_app]
      apply Value.Textual.object
      intro m hm
      rw [appMembers, List.mem_cons, List.mem_append, List.mem_ite_nil_left,
        List.mem_ite_nil_left] at hm
      obtain rfl | ⟨-, hm⟩ | ⟨-, hm⟩ := hm
      · exact .string name
      · obtain rfl := List.mem_singleton.mp hm
        exact textual_itemsToJson ih
      · obtain rfl := List.mem_singleton.mp hm
        exact textual_texts annots

theorem nestingItems_itemsToJson {es : List Expr}
    (h : ∀ e ∈ es, e.toJson.nesting = e.jsonNesting) :
    Value.nestingItems (itemsToJson es) = deepest es := by
  induction es with
  | nil => rfl
  | cons e es ih =>
      rw [itemsToJson, Value.nestingItems, deepest, h e (List.mem_cons_self ..),
        ih fun f hf => h f (List.mem_cons_of_mem _ hf)]

theorem nestingItems_texts (texts : List String) :
    Value.nestingItems (texts.map Value.string) = 0 := by
  induction texts with
  | nil => rfl
  | cons text texts ih => rw [List.map_cons, Value.nestingItems, ih]; rfl

theorem nestingMembers_appMembers (name : String) (args : List Expr) (annots : List String) :
    Value.nestingMembers (appMembers name args annots) =
      max (if annots = [] then 0 else 1)
        (if args = [] then 0 else Value.nestingItems (itemsToJson args) + 1) := by
  have htexts := nestingItems_texts annots
  cases args <;> cases annots <;>
    simp_all [appMembers, Value.nestingMembers, Value.nesting]

theorem nesting_toJson (e : Expr) : e.toJson.nesting = e.jsonNesting := by
  induction e with
  | int _ | string _ | bytes _ => rfl
  | seq items ih =>
      rw [toJson, Value.nesting, nestingItems_itemsToJson ih, jsonNesting, Nat.add_comm]
  | app name args annots ih =>
      rw [toJson_app, Value.nesting, nestingMembers_appMembers, nestingItems_itemsToJson ih,
        jsonNesting, Nat.add_comm, Nat.add_comm 1 (deepest args)]

theorem toJson_inj {e f : Expr} (h : e.toJson = f.toJson) : e = f := by
  have hread := ofJson?_toJson e
  rw [h, ofJson?_toJson] at hread
  exact (Option.some.inj hread).symm

theorem jsonText_inj {e f : Expr} (h : e.jsonText = f.jsonText) : e = f :=
  toJson_inj ((textual_toJson e).print_inj (textual_toJson f) h)

theorem ofJsonText_jsonText (e : Expr) :
    ofJsonText e.jsonText =
      if e.jsonNesting ≤ 127 then .ok e else .error (.json .syntaxError) := by
  have hread := Value.read_onto (textual_toJson e) []
  rw [nesting_toJson] at hread
  rw [ofJsonText, jsonText, Value.print, String.toList_ofList, hread]
  by_cases hfit : e.jsonNesting ≤ 127
  · simp only [if_pos hfit, ofJson?_toJson]
    rfl
  · simp only [if_neg hfit]

/-- The text of an expression that breaks off is refused for having ended. -/
theorem ofJsonText_front {e : Expr} (hnesting : e.jsonNesting ≤ 127) {text more : String}
    (h : text ++ more = e.jsonText) (hmore : more ≠ "") :
    ofJsonText text = .error (.json .endedEarly) := by
  have hfront : text.toList ++ more.toList = e.toJson.onto [] := by
    rw [← String.toList_append, h, jsonText, Value.print, String.toList_ofList]
  have hmissing : more.toList ≠ [] := fun hnil => hmore (String.toList_eq_nil_iff.mp hnil)
  have hread := Value.read_front (textual_toJson e) (nesting_toJson e ▸ hnesting) hfront hmissing
  rw [ofJsonText, hread]

/-- No two expressions have one text. A text is read back as the expression it was written for if
at most 127 containers lie within each other in it, and is a syntax error otherwise. -/
theorem jsonText_lossless :
    (∀ e f : Expr, e.jsonText = f.jsonText ↔ e = f) ∧
    (∀ e : Expr, ofJsonText e.jsonText = .ok e ↔ e.jsonNesting ≤ 127) ∧
    ∀ e : Expr, ofJsonText e.jsonText = .error (.json .syntaxError) ↔ 127 < e.jsonNesting := by
  refine ⟨?_, ?_, ?_⟩
  · intro e f
    exact ⟨jsonText_inj, congrArg jsonText⟩
  · intro e
    rw [ofJsonText_jsonText]
    split <;> simp_all
  · intro e
    rw [ofJsonText_jsonText]
    split <;> simp_all

end Micheline.Expr
