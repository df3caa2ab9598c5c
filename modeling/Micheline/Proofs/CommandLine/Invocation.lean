import Micheline.CommandLine.Invocation
import Micheline.Proofs.CommandLine.Words
import Micheline.Proofs.Decimal.Denotation

/-!
Command lines that are understood. The depth limit may be stated in front of the name of a command
or behind it, by any decimal text for a number of 64 bits; what follows asks for the command and is
understood in the same way wherever the limit stands.
-/

namespace Micheline.CommandLine

/-- The limit that a text denotes: a number of 64 bits in decimal digits, perhaps behind a plus
sign. -/
def DenotesLimit (text : String) (limit : Nat) : Prop :=
  ∃ sign ∈ [[], ['+']], ∃ digits, text.toList = sign ++ digits ∧ Decimal.IsDigits digits ∧
    Decimal.digitsValue digits = limit ∧ limit < 2 ^ 64

theorem denotesLimit_print {limit : Nat} (h : limit < 2 ^ 64) :
    DenotesLimit (Decimal.print limit) limit := by
  refine ⟨[], by simp, Decimal.ofNat limit, ?_, Decimal.isDigits_ofNat limit,
    Decimal.digitsValue_ofNat limit, h⟩
  simp [Decimal.print]

namespace Settings

theorem unsigned_of_head?_ne {digits : List Char} (h : digits.head? ≠ some '+') :
    unsigned digits = digits := by
  rw [unsigned]
  rintro rest rfl
  exact h rfl

theorem exists_sign (cs : List Char) : ∃ sign ∈ [[], ['+']], cs = sign ++ unsigned cs := by
  by_cases hplus : cs.head? = some '+'
  · obtain ⟨digits, rfl⟩ := List.head?_eq_some_iff.mp hplus
    exact ⟨['+'], by simp, rfl⟩
  · exact ⟨[], by simp, (unsigned_of_head?_ne hplus).symm⟩

/-- What is read as a limit is the limit that the text denotes. -/
theorem depth?_eq_some_iff {text : String} {limit : Nat} :
    depth? text = some limit ↔ DenotesLimit text limit := by
  have hread : depth? text = some limit ↔ Decimal.IsDigits (unsigned text.toList) ∧
      Decimal.digitsValue (unsigned text.toList) = limit ∧ limit < 2 ^ 64 := by
    rw [depth?, Option.filter_eq_some_iff, Decimal.natural?_eq_some_iff, and_assoc,
      decide_eq_true_iff]
    rfl
  rw [hread]
  constructor
  · intro h
    obtain ⟨sign, hsign, htext⟩ := exists_sign text.toList
    exact ⟨sign, hsign, _, htext, h⟩
  · rintro ⟨sign, hsign, digits, htext, hdigits, hvalue⟩
    have hplus : digits.head? ≠ some '+' := hdigits.head?_ne (by decide)
    simp only [List.mem_cons, List.not_mem_nil, or_false] at hsign
    obtain rfl | rfl := hsign
    · rw [htext, List.nil_append, unsigned_of_head?_ne hplus]
      exact ⟨hdigits, hvalue⟩
    · rw [htext]
      exact ⟨hdigits, hvalue⟩

theorem addAll_append (capacity : Nat) (s : Settings) (words words' : List Word) :
    s.addAll capacity (words ++ words') =
      s.addAll capacity words >>= fun s => s.addAll capacity words' :=
  List.foldlM_append

end Settings

def maxDepthForm : OptionForm :=
  ⟨.maxDepth, "max-depth", none, true⟩

def fileForm : OptionForm :=
  ⟨.file, "file", some 'f', true⟩

def idForm : OptionForm :=
  ⟨.id, "id", none, true⟩

def amountForm : OptionForm :=
  ⟨.amount, "amount", none, true⟩

/-- What a level of the command line states as the depth limit, and by which arguments. -/
inductive States : Option Nat → List String → Prop
  | nothing : States none []
  | limit {text : String} {arguments : List String} {limit : Nat}
      (hspelled : Spelled maxDepthForm text arguments) (hlimit : DenotesLimit text limit) :
      States (some limit) arguments

/-- The depth limit that arguments in front of the command's name and behind it come to. The inner
one counts, and without any it is 1024. -/
def LimitGiven (limit : Nat) (outer inner : List String) : Prop :=
  ∃ outside inside, States outside outer ∧ States inside inner ∧
    (inside <|> outside).getD 1024 = limit

theorem States.lt {stated : Nat} {arguments : List String} (h : States (some stated) arguments) :
    stated < 2 ^ 64 := by
  cases h with
  | limit _ hlimit =>
      obtain ⟨_, _, _, _, _, _, hlt⟩ := hlimit
      exact hlt

theorem LimitGiven.lt {limit : Nat} {outer inner : List String}
    (h : LimitGiven limit outer inner) : limit < 2 ^ 64 := by
  obtain ⟨outside, inside, houter, hinner, rfl⟩ := h
  cases inside with
  | some stated => exact hinner.lt
  | none =>
      cases outside with
      | some stated => exact houter.lt
      | none => decide

theorem limitGiven_outside {limit : Nat} (h : limit < 2 ^ 64) :
    LimitGiven limit ["--max-depth=" ++ Decimal.print limit] [] := by
  have hspelled : Spelled maxDepthForm (Decimal.print limit)
      ["--max-depth=" ++ Decimal.print limit] := .attached
  exact ⟨some limit, none, .limit hspelled (denotesLimit_print h), .nothing, rfl⟩

theorem limitGiven_inside {limit : Nat} (h : limit < 2 ^ 64) :
    LimitGiven limit [] ["--max-depth=" ++ Decimal.print limit] := by
  have hspelled : Spelled maxDepthForm (Decimal.print limit)
      ["--max-depth=" ++ Decimal.print limit] := .attached
  exact ⟨none, some limit, .nothing, .limit hspelled (denotesLimit_print h), rfl⟩

theorem limitGiven_default : LimitGiven 1024 [] [] :=
  ⟨none, none, .nothing, .nothing, rfl⟩

theorem States.scans {stated : Option Nat} {arguments commands : List String}
    {forms : List OptionForm} (h : States stated arguments) (hform : Offered forms maxDepthForm)
    (hcommands : Plain commands) :
    ∃ words, Scans forms commands arguments words ∧
      ∀ capacity, Settings.blank.addAll capacity words =
        .ok { Settings.blank with maxDepth := stated } := by
  cases h with
  | nothing => exact ⟨[], scans_nil, fun _ => rfl⟩
  | @limit text _ _ hspelled hlimit =>
      have hdepth := Settings.depth?_eq_some_iff.mpr hlimit
      refine ⟨[.valued .maxDepth text], hspelled.scans hform hcommands, ?_⟩
      intro capacity
      simp [Settings.addAll, Settings.add, hdepth, Settings.once, Settings.blank]

theorem offered_maxDepth_common : Offered commonForms maxDepthForm :=
  ⟨rfl, rfl, by decide, by decide⟩

theorem offered_maxDepth (c : CommandName) : Offered c.forms maxDepthForm := by
  cases c <;> exact ⟨rfl, rfl, by decide, by decide⟩

theorem plain_commandWords : Plain commandWords := by
  decide

theorem plain_nil : Plain [] := by
  decide

/-- Arguments that ask for a command, whatever depth limit is stated in front of them. -/
def Asks (c : CommandName) (arguments : List String) (command : Command) : Prop :=
  ∃ words, scan c.forms [] arguments = ⟨words, .complete⟩ ∧
    ∀ stated, ∃ settings,
      Settings.addAll c.capacity { Settings.blank with maxDepth := stated } words = .ok settings ∧
        settings.maxDepth = stated ∧ c.complete settings = .ok command

theorem CommandName.mem_commandWords (c : CommandName) : c.name ∈ commandWords := by
  cases c <;> decide

theorem CommandName.ofName?_name (c : CommandName) : ofName? c.name = some c := by
  cases c <;> decide

theorem CommandName.name_ne_end (c : CommandName) : c.name ≠ "--" := by
  cases c <;> decide

theorem Asks.parse {c : CommandName} {command : Command} {limit : Nat}
    {outer inner arguments : List String} (h : Asks c arguments command)
    (hlimit : LimitGiven limit outer inner) :
    parse (outer ++ c.name :: (inner ++ arguments)) = .ok ⟨limit, command⟩ := by
  obtain ⟨outside, inside, houter, hinner, hgiven⟩ := hlimit
  obtain ⟨outerWords, houterScan, houterSettings⟩ :=
    houter.scans offered_maxDepth_common plain_commandWords
  obtain ⟨innerWords, hinnerScan, hinnerSettings⟩ := hinner.scans (offered_maxDepth c) plain_nil
  obtain ⟨words, hscan, hwords⟩ := h
  -- The command's arguments are added to what the inner level states, not to the outer settings.
  obtain ⟨settings, hsettings, hstated, hcommand⟩ := hwords inside
  have hparse : parseCommand { Settings.blank with maxDepth := outside } c (inner ++ arguments) =
      .ok ⟨limit, command⟩ := by
    have hall : Settings.blank.addAll c.capacity (innerWords ++ words) = .ok settings := by
      rw [Settings.addAll_append, hinnerSettings]
      exact hsettings
    have hdefault : Pack.defaultLimit = 1024 := rfl
    rw [parseCommand, hinnerScan, hscan, hdefault]
    simp only [Scan.behind, hall, hcommand, hstated, bind, Except.bind, pure, Except.pure, hgiven]
  rw [CommandLine.parse, houterScan, scan_command c.mem_commandWords c.name_ne_end]
  simp only [Scan.behind, List.append_nil, houterSettings, c.ofName?_name, bind, Except.bind,
    hparse]

theorem asks_pack_argument (text : String) :
    Asks .pack ["--", text] (.pack (.argument text)) :=
  ⟨[.operand text], scan_end [text], fun _ => ⟨_, rfl, rfl, rfl⟩⟩

theorem asks_pack_input : Asks .pack [] (.pack .standardInput) :=
  ⟨[], rfl, fun _ => ⟨_, rfl, rfl, rfl⟩⟩

theorem asks_pack_file {path : String} {file : List String} (h : Spelled fileForm path file)
    (hpath : path ≠ "") : Asks .pack file (.pack (.file path)) := by
  have hform : Offered CommandName.pack.forms fileForm := ⟨rfl, rfl, by decide, by decide⟩
  have hscan := h.scans hform plain_nil []
  have hread : Settings.path? path = some path := by
    rw [Settings.path?, String.isEmpty_eq_false_iff.mpr hpath]
    rfl
  rw [List.append_nil] at hscan
  refine ⟨[.valued .file path], hscan, fun stated => ?_⟩
  refine ⟨{ Settings.blank with maxDepth := stated, file := some path }, ?_, rfl, rfl⟩
  simp [Settings.addAll, Settings.add, hread, Settings.once, Settings.blank]

theorem asks_demo {id amount : String} {ids amounts : List String} (hid : Spelled idForm id ids)
    (hamount : Spelled amountForm amount amounts) (target : String) :
    Asks .demo (ids ++ (amounts ++ ["--", target])) (.demo target id amount) := by
  have hidForm : Offered CommandName.demo.forms idForm := ⟨rfl, rfl, by decide, by decide⟩
  have hamountForm : Offered CommandName.demo.forms amountForm := ⟨rfl, rfl, by decide, by decide⟩
  have hoptions : Scans CommandName.demo.forms [] (ids ++ amounts)
      [.valued .id id, .valued .amount amount] :=
    (hid.scans hidForm plain_nil).append (hamount.scans hamountForm plain_nil)
  refine ⟨[.valued .id id, .valued .amount amount, .operand target], ?_, ?_⟩
  · rw [← List.append_assoc, hoptions, scan_end]
    rfl
  · intro stated
    exact ⟨_, rfl, rfl, rfl⟩

end Micheline.CommandLine
