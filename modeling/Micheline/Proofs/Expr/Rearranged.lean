import Mathlib.Logic.Relation
import Micheline.Expr.Json

/-!
Members in another order, and members that no form has a key for. Reading looks for the members
under six keys and counts them, so an object may be rearranged in between as one likes; and since
objects stand within objects, this has to be said of every place of a value at once.
-/

namespace Micheline

open Json (Value)

/-- The value of a text, behind which only blanks stand. -/
def Json.Value.StandsIn (value : Value) (text : String) : Prop :=
  ∃ rest, Value.read text.toList = .ok (value, rest) ∧ rest.all isBlank

namespace Expr

/-- The keys of the forms of an expression. -/
def ownKeys : List String :=
  ["int", "string", "bytes", "prim", "args", "annots"]

/-- One rearrangement of one object, which may stand anywhere within a value. -/
inductive Rearranged : Value → Value → Prop
  | permute {members others : List (String × Value)} (h : members.Perm others) :
      Rearranged (.object members) (.object others)
  | insert {key : String} (hkey : key ∉ ownKeys) (value : Value)
      (before after : List (String × Value)) :
      Rearranged (.object (before ++ after)) (.object (before ++ (key, value) :: after))
  | remove {key : String} (hkey : key ∉ ownKeys) (value : Value)
      (before after : List (String × Value)) :
      Rearranged (.object (before ++ (key, value) :: after)) (.object (before ++ after))
  | item {value other : Value} (before after : List Value) (h : Rearranged value other) :
      Rearranged (.array (before ++ value :: after)) (.array (before ++ other :: after))
  | member {value other : Value} (key : String) (before after : List (String × Value))
      (h : Rearranged value other) :
      Rearranged (.object (before ++ (key, value) :: after))
        (.object (before ++ (key, other) :: after))

/-- The only one of some values, if there is just one and it is present. -/
def only? {α : Type} : List (Option α) → Option α
  | [value] => value
  | _ => none

/-- The only one of some values, or what stands for them if there are none. -/
def onlyOr? {α : Type} (absent : α) : List (Option α) → Option α
  | [] => some absent
  | values => only? values

section

variable {α : Type} {values others : List (Option α)}

theorem only?_of_perm (h : values.Perm others) : only? values = only? others := by
  match values, others, h.length_eq with
  | [], [], _ => rfl
  | [value], [other], _ => rw [List.perm_singleton.mp h]
  | _ :: _ :: _, _ :: _ :: _, _ => rfl

theorem onlyOr?_of_perm (absent : α) (h : values.Perm others) :
    onlyOr? absent values = onlyOr? absent others := by
  cases values with
  | nil => rw [List.nil_perm.mp h]
  | cons value values =>
      cases others with
      | nil => exact absurd h List.not_perm_cons_nil
      | cons other others => exact only?_of_perm h

end

def textOf? : Value → Option String
  | .string text => some text
  | _ => none

def argsOf? : Value → Option (List Expr)
  | .array items => ofItems? items
  | _ => none

def annotTexts? : Value → Option (List String)
  | .array items => texts? items
  | _ => none

/-- What a value may be looked at for: an expression, a text, arguments and annotations. -/
structure Aspects where
  expr : Option Expr
  text : Option String
  args : Option (List Expr)
  annots : Option (List String)

def aspects (value : Value) : Aspects :=
  ⟨ofJson? value, textOf? value, argsOf? value, annotTexts? value⟩

/-- The aspects of what stands under a key. -/
def aspectsUnder (key : String) (members : List (String × Value)) : List Aspects :=
  (underKey key members).map aspects

theorem textUnder?_eq (key : String) (members : List (String × Value)) :
    textUnder? key members = only? ((aspectsUnder key members).map Aspects.text) := by
  rw [textUnder?, aspectsUnder, List.map_map]
  match underKey key members with
  | [] => rfl
  | [value] => cases value <;> rfl
  | _ :: _ :: _ => simp [only?]

theorem annotsOf?_eq (members : List (String × Value)) :
    annotsOf? members = onlyOr? [] ((aspectsUnder "annots" members).map Aspects.annots) := by
  rw [annotsOf?, aspectsUnder, List.map_map]
  match underKey "annots" members with
  | [] => rfl
  | [value] => cases value <;> rfl
  | _ :: _ :: _ => simp [onlyOr?, only?]

theorem aspectsUnder_cons (key other : String) (value : Value) (members : List (String × Value)) :
    aspectsUnder key ((other, value) :: members) =
      if other = key then aspects value :: aspectsUnder key members
      else aspectsUnder key members := by
  by_cases h : other = key <;> simp [aspectsUnder, underKey, h]

theorem argsUnder_eq (members : List (String × Value)) :
    argsUnder members = (aspectsUnder "args" members).map Aspects.args := by
  induction members with
  | nil => rw [argsUnder]; rfl
  | cons m members ih =>
      obtain ⟨key, value⟩ := m
      rw [argsUnder.eq_def, aspectsUnder_cons]
      dsimp only
      rw [ih]
      by_cases h : key = "args"
      · rw [if_pos h, if_pos h]
        cases value <;> rfl
      · rw [if_neg h, if_neg h]

/-- An object is read by what stands under the keys of the forms. -/
theorem ofJson?_object (members : List (String × Value)) :
    ofJson? (.object members) =
      ((textUnder? "int" members).map .int <|> (textUnder? "string" members).map .string <|>
        (textUnder? "bytes" members).map .bytes <|> do
          let name ← textUnder? "prim" members
          let args ← onlyOr? [] (argsUnder members)
          return .app name args (← annotsOf? members)) := by
  rw [ofJson?]
  cases argsUnder members with
  | nil => rfl
  | cons args more => cases more <;> rfl

theorem ofJson?_object_congr {members others : List (String × Value)}
    (h : ∀ key ∈ ownKeys, (aspectsUnder key members).Perm (aspectsUnder key others)) :
    ofJson? (.object members) = ofJson? (.object others) := by
  have htext : ∀ key ∈ ownKeys, textUnder? key members = textUnder? key others := by
    intro key hkey
    rw [textUnder?_eq, textUnder?_eq]
    exact only?_of_perm ((h key hkey).map _)
  have hargs : onlyOr? [] (argsUnder members) = onlyOr? [] (argsUnder others) := by
    rw [argsUnder_eq, argsUnder_eq]
    exact onlyOr?_of_perm [] ((h "args" (by decide)).map _)
  have hannots : annotsOf? members = annotsOf? others := by
    rw [annotsOf?_eq, annotsOf?_eq]
    exact onlyOr?_of_perm [] ((h "annots" (by decide)).map _)
  rw [ofJson?_object, ofJson?_object, htext "int" (by decide), htext "string" (by decide),
    htext "bytes" (by decide), htext "prim" (by decide), hargs, hannots]

/-- An object has no aspect but the expression. -/
theorem aspects_object_congr {members others : List (String × Value)}
    (h : ∀ key ∈ ownKeys, (aspectsUnder key members).Perm (aspectsUnder key others)) :
    aspects (.object members) = aspects (.object others) := by
  simp only [aspects, textOf?, argsOf?, annotTexts?, ofJson?_object_congr h]

section

variable {value other : Value}

theorem ofItems?_congr (h : ofJson? value = ofJson? other) (before after : List Value) :
    ofItems? (before ++ value :: after) = ofItems? (before ++ other :: after) := by
  induction before with
  | nil => simp only [List.nil_append, ofItems?, h]
  | cons first before ih => simp only [List.cons_append, ofItems?, ih]

theorem texts?_cons (value : Value) (rest : List Value) :
    texts? (value :: rest) = (textOf? value).bind fun text => (texts? rest).map (text :: ·) := by
  cases value <;> rfl

theorem texts?_congr (h : textOf? value = textOf? other) (before after : List Value) :
    texts? (before ++ value :: after) = texts? (before ++ other :: after) := by
  induction before with
  | nil => simp only [List.nil_append, texts?_cons, h]
  | cons first before ih => simp only [List.cons_append, texts?_cons, ih]

theorem aspects_array_congr (h : aspects value = aspects other) (before after : List Value) :
    aspects (.array (before ++ value :: after)) = aspects (.array (before ++ other :: after)) := by
  have hitems := ofItems?_congr (congrArg Aspects.expr h) before after
  have htexts := texts?_congr (congrArg Aspects.text h) before after
  simp only [aspects, ofJson?, textOf?, argsOf?, annotTexts?, hitems, htexts]

theorem aspectsUnder_append (key : String) (before after : List (String × Value)) :
    aspectsUnder key (before ++ after) = aspectsUnder key before ++ aspectsUnder key after := by
  simp [aspectsUnder, underKey]

theorem aspectsUnder_insert {key own : String} (hkey : key ∉ ownKeys) (hown : own ∈ ownKeys)
    (value : Value) (before after : List (String × Value)) :
    aspectsUnder own (before ++ (key, value) :: after) = aspectsUnder own (before ++ after) := by
  have hne : key ≠ own := fun h => hkey (h ▸ hown)
  rw [aspectsUnder_append, aspectsUnder_append, aspectsUnder_cons, if_neg hne]

/-- A rearrangement within a value shows in none of its aspects, so it does not show further out. -/
theorem Rearranged.aspects_eq (h : Rearranged value other) : aspects value = aspects other := by
  induction h with
  | permute h => exact aspects_object_congr fun _ _ => (h.filterMap _).map _
  | insert hkey value before after =>
      apply aspects_object_congr
      intro own hown
      rw [aspectsUnder_insert hkey hown]
  | remove hkey value before after =>
      apply aspects_object_congr
      intro own hown
      rw [aspectsUnder_insert hkey hown]
  | item before after _ ih => exact aspects_array_congr ih before after
  | member key before after _ ih =>
      apply aspects_object_congr
      intro own _
      rw [aspectsUnder_append, aspectsUnder_append, aspectsUnder_cons, aspectsUnder_cons, ih]

theorem aspects_eq_of_rearranged (h : Relation.ReflTransGen Rearranged value other) :
    aspects value = aspects other := by
  induction h with
  | refl => rfl
  | tail _ hstep ih => rw [ih, hstep.aspects_eq]

end

theorem ofJsonText_of_standsIn {value : Value} {text : String} (h : value.StandsIn text) :
    ofJsonText text = (ofJson? value).elim (.error .data) .ok := by
  obtain ⟨rest, hread, hblank⟩ := h
  rw [ofJsonText, hread]
  cases hvalue : ofJson? value with
  | none => simp [hvalue]
  | some e => simp [hvalue, hblank]

/-- Values that come from each other by rearrangements are read alike, and so are their texts: they
are refused for what they say, or they denote one expression. -/
theorem rearranged_read_alike {value other : Value}
    (h : Relation.ReflTransGen Rearranged value other) :
    ofJson? value = ofJson? other ∧
    ∀ text text', value.StandsIn text → other.StandsIn text' →
      (ofJsonText text = .error .data ∧ ofJsonText text' = .error .data) ∨
      ∃ e, ofJsonText text = .ok e ∧ ofJsonText text' = .ok e := by
  have hsame : ofJson? value = ofJson? other := congrArg Aspects.expr (aspects_eq_of_rearranged h)
  refine ⟨hsame, ?_⟩
  intro text text' htext htext'
  rw [ofJsonText_of_standsIn htext, ofJsonText_of_standsIn htext', hsame]
  cases ofJson? other with
  | none => exact .inl ⟨rfl, rfl⟩
  | some e => exact .inr ⟨e, rfl, rfl⟩

/-- An application to one argument that fits two forms, has the key of another one twice and a
member of its own besides. -/
def crowded : Value :=
  .object [("args", .array [.object [("int", .string "1"), ("string", .string "a"),
    ("int", .string "2"), ("note", .array [.number "0"])]]), ("prim", .string "Pair")]

def rearrangedCrowded : Value :=
  .object [("prim", .string "Pair"), ("args", .array [.object [("string", .string "a"),
    ("int", .string "2"), ("int", .string "1")]])]

def crowdedText : String :=
  "\x7b\"args\": [\x7b\"int\": \"1\", \"string\": \"a\", \"int\": \"2\", \"note\": [0]\x7d], " ++
    "\"prim\": \"Pair\"\x7d\n"

def rearrangedCrowdedText : String :=
  "\x7b\"prim\":\"Pair\",\"args\":[\x7b\"string\":\"a\",\"int\":\"2\",\"int\":\"1\"\x7d]\x7d"

theorem rearranged_crowded : Relation.ReflTransGen Rearranged crowded rearrangedCrowded := by
  have hnote := Rearranged.remove (by decide : "note" ∉ ownKeys) (.array [.number "0"])
    [("int", .string "1"), ("string", .string "a"), ("int", .string "2")] []
  have hfront : [("int", Value.string "1"), ("string", .string "a"), ("int", .string "2")].Perm
      [("string", .string "a"), ("int", .string "2"), ("int", .string "1")] :=
    List.perm_append_singleton ..|>.symm
  refine .head (.member "args" [] _ (.item [] [] hnote)) ?_
  refine .head (.member "args" [] _ (.item [] [] (.permute hfront))) ?_
  exact .single (.permute (List.Perm.swap ..))

theorem rearranged_read_alike_crowded :
    Relation.ReflTransGen Rearranged crowded rearrangedCrowded ∧
      crowded.StandsIn crowdedText ∧ rearrangedCrowded.StandsIn rearrangedCrowdedText ∧
      ofJsonText crowdedText = .ok (.app "Pair" [.string "a"] []) ∧
      ofJsonText rearrangedCrowdedText = .ok (.app "Pair" [.string "a"] []) := by
  have htext : crowded.StandsIn crowdedText := ⟨['\n'], by with_unfolding_all rfl, by decide⟩
  have htext' : rearrangedCrowded.StandsIn rearrangedCrowdedText :=
    ⟨[], by with_unfolding_all rfl, by decide⟩
  have hvalue : ofJson? crowded = some (.app "Pair" [.string "a"] []) := by decide +kernel
  have hread : ofJsonText crowdedText = .ok (.app "Pair" [.string "a"] []) := by
    rw [ofJsonText_of_standsIn htext, hvalue]
    rfl
  refine ⟨rearranged_crowded, htext, htext', hread, ?_⟩
  obtain ⟨hrefused, -⟩ | ⟨e, he, he'⟩ :=
    (rearranged_read_alike rearranged_crowded).2 _ _ htext htext'
  · rw [hread] at hrefused
    cases hrefused
  · rw [he', ← he, hread]

end Expr
end Micheline
