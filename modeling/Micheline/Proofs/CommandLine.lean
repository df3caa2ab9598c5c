import Micheline.Proofs.CommandLine.Invocation
import Micheline.Proofs.CommandLine.Report
import Micheline.Proofs.Expr.Json
import Micheline.Proofs.Pack.Layout
import Micheline.Proofs.Text.Utf8

/-!
Runs of the program that pack an expression. Where its text comes from makes no difference to what
is printed and how the run ends, and an expression that is put together from options is packed like
its JSON text.
-/

namespace Micheline.CommandLine

theorem exists_limitGiven_iff {limit : Nat} :
    (∃ outer inner, LimitGiven limit outer inner) ↔ limit < 2 ^ 64 := by
  constructor
  · rintro ⟨_, _, h⟩
    exact h.lt
  · intro h
    exact ⟨_, _, limitGiven_outside h⟩

theorem textOf_toUTF8 (what text : String) : textOf what (.ok text.toUTF8) = .ok text := by
  simp only [textOf, Text.Utf8.fromUTF8?_toUTF8]

section

variable {limit : Nat} {outer inner : List String} {s : Surroundings}

theorem run_of_parse {arguments : List String} {invocation : Invocation}
    (h : parse arguments = .ok invocation) :
    run s arguments = reportOf (invocation.perform s) := by
  simp only [run, h]
  rfl

theorem run_pack {source : Source} {arguments : List String} {text : String}
    (harguments : Asks .pack arguments (.pack source)) (hlimit : LimitGiven limit outer inner)
    (hread : source.read s = .ok text) :
    run s (outer ++ "pack" :: (inner ++ arguments)) = textReport s.wording limit text := by
  have hparse : parse (outer ++ "pack" :: (inner ++ arguments)) = .ok ⟨limit, .pack source⟩ :=
    harguments.parse hlimit
  rw [run_of_parse hparse, textReport]
  simp only [Invocation.perform, hread, bind, Except.bind]
  cases Expr.ofJsonText text with
  | ok e => exact reportOf_packed limit e
  | error error => exact reportOf_failure "invalid Micheline JSON" (s.wording.refusal text error)

theorem run_demo {target id amount : String} {arguments : List String} {octets : Bytes}
    (harguments : Asks .demo arguments (.demo target id amount))
    (hlimit : LimitGiven limit outer inner) (htarget : Address.encode target = .ok octets) :
    run s (outer ++ "demo" :: (inner ++ arguments)) =
      packingReport ((demoExpr octets id amount).packWithin limit) := by
  have hparse : parse (outer ++ "demo" :: (inner ++ arguments)) =
      .ok ⟨limit, .demo target id amount⟩ := harguments.parse hlimit
  have hperform : Invocation.perform s ⟨limit, .demo target id amount⟩ =
      packed limit (demoExpr octets id amount) := by
    simp only [Invocation.perform, htarget, Except.mapError, bind, Except.bind]
  rw [run_of_parse hparse, hperform, reportOf_packed]

end

/-- The text of an expression is packed in the same way whether it stands behind hyphens, in a file
or on standard input, under each limit of 64 bits: what was packed is printed on a line of its own,
as hexadecimal text in lower case, and a failure says on which of the two stages it arose and what
the very error was, and prints nothing. -/
theorem sources_lead_to_one_report (limit : Nat) (text : String) :
    ((∃ outer inner, LimitGiven limit outer inner) ↔ limit < 2 ^ 64) ∧
    (limit < 2 ^ 64 → LimitGiven limit ["--max-depth=" ++ Decimal.print limit] [] ∧
      LimitGiven limit [] ["--max-depth=" ++ Decimal.print limit]) ∧
    LimitGiven 1024 [] [] ∧
    (∀ outer inner, LimitGiven limit outer inner →
      (∀ s, run s (outer ++ "pack" :: (inner ++ ["--", text])) = textReport s.wording limit text) ∧
      (∀ s path file, s.file path = .ok text.toUTF8 → path ≠ "" → Spelled fileForm path file →
        run s (outer ++ "pack" :: (inner ++ file)) = textReport s.wording limit text) ∧
      ∀ s, s.standardInput = text.toUTF8 →
        run s (outer ++ "pack" :: inner) = textReport s.wording limit text) ∧
    (∀ e octets, e.packWithin limit = .ok octets →
      (∃ bytes, Pack.Layout e bytes ∧ octets = 0x05 :: bytes) ∧
      Hex.encode octets = (Hex.encode octets).toLower ∧
      Hex.decode (Hex.encode octets) = .ok octets) ∧
    Function.Injective packingReport := by
  refine ⟨exists_limitGiven_iff, fun h => ⟨limitGiven_outside h, limitGiven_inside h⟩,
    limitGiven_default, ?_, ?_, packingReport_injective⟩
  · intro outer inner hlimit
    refine ⟨?_, ?_, ?_⟩
    · intro s
      exact run_pack (asks_pack_argument text) hlimit rfl
    · intro s path file hcontent hpath hfile
      apply run_pack (asks_pack_file hfile hpath) hlimit
      rw [Source.read, hcontent, textOf_toUTF8]
    · intro s hinput
      have hrun : run s (outer ++ "pack" :: (inner ++ [])) = textReport s.wording limit text := by
        apply run_pack asks_pack_input hlimit
        rw [Source.read, hinput, textOf_toUTF8]
      rwa [List.append_nil] at hrun
  · intro e octets hpack
    have hback := Hex.decode_encode octets
    exact ⟨Pack.layout_of_encodeBehind hpack, Hex.encode_of_decode hback, hback⟩

/-- What the reader of JSON says about three texts that are not expressions. -/
def sampleWording : Wording where
  refusal text _ :=
    if text = "[" then "EOF while parsing a list at line 1 column 1"
    else if text = "[[],]" then "trailing comma at line 1 column 5"
    else "data did not match any variant of untagged enum Repr"
  stop _ _ := ""

/-- An integer that is packed, three errors of the packing, and each way to refuse a text. -/
theorem sources_lead_to_one_report_int :
    let failed (message cause : String) : Report :=
      ⟨1, "", "Error: " ++ message ++ "\n\nCaused by:\n    " ++ cause ++ "\n"⟩
    let runs : List (String × Report) :=
      [("\x7b\"int\": \"-64\"\x7d", ⟨0, "0500c001\n", ""⟩),
        ("[[]]", failed "packing failed" "expression is nested deeper than 1 levels"),
        ("\x7b\"int\": \"1\\n2\"\x7d", failed "packing failed" "invalid int literal: 1\n    2"),
        ("\x7b\"bytes\": \"00g\"\x7d",
          failed "packing failed" "can't parse hex byte \"g\" at offset 2"),
        ("[", failed "invalid Micheline JSON" "EOF while parsing a list at line 1 column 1"),
        ("[[],]", failed "invalid Micheline JSON" "trailing comma at line 1 column 5"),
        ("\x7b\x7d", failed "invalid Micheline JSON"
          "data did not match any variant of untagged enum Repr")]
    let s (text : String) : Surroundings :=
      ⟨text.toUTF8, fun path => if path = "e.json" then .ok text.toUTF8 else .error .notFound,
        sampleWording⟩
    LimitGiven 1 ["--max-depth", "1"] [] ∧ ∀ r ∈ runs,
      run (s r.1) ["--max-depth", "1", "pack", "--", r.1] = r.2 ∧
      run (s r.1) ["--max-depth", "1", "pack", "--file", "e.json"] = r.2 ∧
      run (s r.1) ["--max-depth", "1", "pack"] = r.2 := by
  intro failed runs s
  have hone : DenotesLimit "1" 1 := Settings.depth?_eq_some_iff.mp (by decide +kernel)
  have hlimit : LimitGiven 1 ["--max-depth", "1"] [] :=
    ⟨some 1, none, .limit (.separate rfl) hone, .nothing, rfl⟩
  have hreports : ∀ r ∈ runs, textReport sampleWording 1 r.1 = r.2 := by decide +kernel
  refine ⟨hlimit, fun r hr => ?_⟩
  obtain ⟨-, -, -, hsources, -⟩ := sources_lead_to_one_report 1 r.1
  obtain ⟨hargument, hfile, hinput⟩ := hsources _ _ hlimit
  have hread : (s r.1).file "e.json" = .ok r.1.toUTF8 := by simp only [s, if_true]
  refine ⟨?_, ?_, ?_⟩
  · exact (hargument (s r.1)).trans (hreports r hr)
  · exact (hfile (s r.1) "e.json" _ hread (by decide) (.separate rfl)).trans (hreports r hr)
  · exact (hinput (s r.1) rfl).trans (hreports r hr)

/-- The expression that is put together from options is packed like its JSON text on standard input,
under the same limit: both runs end alike, whatever the options say. -/
theorem demo_runs_like_pack {limit : Nat} {outer inner outer' inner' : List String}
    (hlimit : LimitGiven limit outer inner) (hlimit' : LimitGiven limit outer' inner')
    {target : String} {octets : Bytes} (htarget : Address.encode target = .ok octets)
    (id amount : String) (s s' : Surroundings) :
    let e : Expr := .pair (.pair (.string id) (.bytes (Hex.encode octets))) (.int amount)
    s'.standardInput = e.jsonText.toUTF8 →
      run s (outer ++ "demo" ::
        (inner ++ ["--id=" ++ id, "--amount=" ++ amount, "--", target])) =
          run s' (outer' ++ "pack" :: inner') ∧
      run s' (outer' ++ "pack" :: inner') = packingReport (e.packWithin limit) := by
  intro e hinput
  have hnesting : e.jsonNesting ≤ 127 := by
    simp [e, Expr.pair, Expr.prim, Expr.jsonNesting, Expr.deepest]
  have hread : Expr.ofJsonText e.jsonText = .ok e := by
    rw [Expr.ofJsonText_jsonText, if_pos hnesting]
  have hid : Spelled idForm id ["--id=" ++ id] := .attached
  have hamount : Spelled amountForm amount ["--amount=" ++ amount] := .attached
  have hdemo : run s (outer ++ "demo" ::
      (inner ++ ["--id=" ++ id, "--amount=" ++ amount, "--", target])) =
        packingReport (e.packWithin limit) :=
    run_demo (asks_demo hid hamount target) hlimit htarget
  have hpack : run s' (outer' ++ "pack" :: (inner' ++ [])) =
      textReport s'.wording limit e.jsonText := by
    apply run_pack asks_pack_input hlimit'
    rw [Source.read, hinput, textOf_toUTF8]
  rw [List.append_nil, textReport, hread] at hpack
  exact ⟨hdemo.trans hpack.symm, hpack⟩

/-- A text that has to be escaped, an entrypoint, and the limit stated in two places; then an amount
that is no integer, and a limit that is too small. -/
theorem demo_runs_like_pack_escaped :
    let target := "KT1Ni4pYV3UGWcDp7MgR5prgcD4NCK1MpXiR%a"
    let octets : Bytes := [1, 154, 243, 19, 135, 99, 236, 9, 221, 233, 9, 38, 245, 166, 182, 7, 131,
      162, 22, 7, 213, 0, 97]
    let id := "\"\\\né"
    let e (amount : String) : Expr :=
      .pair (.pair (.string id) (.bytes (Hex.encode octets))) (.int amount)
    let s : Surroundings := ⟨.empty, fun _ => .error .notFound, sampleWording⟩
    let s' (amount : String) : Surroundings :=
      ⟨(e amount).jsonText.toUTF8, fun _ => .error .notFound, sampleWording⟩
    let failed (cause : String) : Report :=
      ⟨1, "", "Error: packing failed\n\nCaused by:\n    " ++ cause ++ "\n"⟩
    let runs : List (String × Report) :=
      [("-64", ⟨0, "05070707070100000005225c0ac3a90a00000017" ++
          "019af3138763ec09dde90926f5a6b60783a21607d5006100c001\n", ""⟩),
        ("6 4", failed "invalid int literal: 6 4")]
    let tooDeep := failed "expression is nested deeper than 2 levels"
    Address.encode target = .ok octets ∧
      LimitGiven 3 ["--max-depth=3"] [] ∧ LimitGiven 3 [] ["--max-depth", "+3"] ∧
      LimitGiven 2 ["--max-depth=2"] [] ∧
      (∀ r ∈ runs,
        run s ["--max-depth=3", "demo", "--id=" ++ id, "--amount=" ++ r.1, "--", target] = r.2 ∧
        run (s' r.1) ["pack", "--max-depth", "+3"] = r.2) ∧
      ∀ amount ∈ runs.map Prod.fst,
        run s ["--max-depth=2", "demo", "--id=" ++ id, "--amount=" ++ amount, "--", target] =
          tooDeep ∧
        run (s' amount) ["--max-depth=2", "pack"] = tooDeep := by
  intro target octets id e s s' failed runs tooDeep
  have htarget : Address.encode target = .ok octets := by decide +kernel
  have hthree : Spelled maxDepthForm "3" ["--max-depth=3"] := .attached
  have htwo : Spelled maxDepthForm "2" ["--max-depth=2"] := .attached
  have hlimit : LimitGiven 3 ["--max-depth=3"] [] :=
    ⟨some 3, none, .limit hthree (Settings.depth?_eq_some_iff.mp (by decide +kernel)), .nothing,
      rfl⟩
  have hlimit' : LimitGiven 3 [] ["--max-depth", "+3"] :=
    ⟨none, some 3, .nothing,
      .limit (.separate rfl) (Settings.depth?_eq_some_iff.mp (by decide +kernel)), rfl⟩
  have hsmall : LimitGiven 2 ["--max-depth=2"] [] :=
    ⟨some 2, none, .limit htwo (Settings.depth?_eq_some_iff.mp (by decide +kernel)), .nothing, rfl⟩
  have hinput (amount : String) : (s' amount).standardInput = (e amount).jsonText.toUTF8 := by
    simp only [s']
  refine ⟨htarget, hlimit, hlimit', hsmall, ?_, ?_⟩
  · have hreports : ∀ r ∈ runs, packingReport ((e r.1).packWithin 3) = r.2 := by decide +kernel
    intro r hr
    obtain ⟨hsame, hpack⟩ :=
      demo_runs_like_pack hlimit hlimit' htarget id r.1 s (s' r.1) (hinput r.1)
    rw [hreports r hr] at hpack
    exact ⟨hsame.trans hpack, hpack⟩
  · have hreports : ∀ amount ∈ runs.map Prod.fst,
        packingReport ((e amount).packWithin 2) = tooDeep := by decide +kernel
    intro amount hamount
    obtain ⟨hsame, hpack⟩ :=
      demo_runs_like_pack hsmall hsmall htarget id amount s (s' amount) (hinput amount)
    rw [hreports amount hamount] at hpack
    exact ⟨hsame.trans hpack, hpack⟩

end Micheline.CommandLine
