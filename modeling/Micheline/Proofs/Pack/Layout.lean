import Mathlib.Data.List.Forall2
import Mathlib.Data.Nat.Digits.Lemmas
import Micheline.Proofs.Buffer
import Micheline.Proofs.Decimal.Denotation
import Micheline.Proofs.Expr.Traversal
import Micheline.Proofs.Hex
import Micheline.Proofs.Pack.Number
import Micheline.Proofs.Pack.Write

/-!
The octets of an expression, built from the octets of its parts. Each part is laid out on its own,
and only then is its length known to the field in front of it; a literal is laid out as what its
text denotes, and a primitive as the place of its name. The encoder writes into one buffer and
patches lengths afterwards; whenever it succeeds, it has appended exactly this layout.
-/

namespace Micheline.Pack

/-- The octets of groups of bits. In each octet but the last the top bit is set. -/
def groupsLayout : List Nat → Bytes
  | [] => []
  | [group] => [UInt8.ofNat group]
  | group :: next :: rest => UInt8.ofNat (0x80 + group) :: groupsLayout (next :: rest)

/-- An integer by its magnitude: the six low bits, with the sign above them, and then seven bits at
a time. -/
def numberLayout (n : Int) : Bytes :=
  groupsLayout (((if n < 0 then 0x40 else 0) + n.natAbs % 64) :: Nat.digits 128 (n.natAbs / 64))

/-- Annotations behind up to two arguments: framed, or left out if there are none. -/
def annotsLayout (annots : List String) : Bytes :=
  if annots = [] then [] else Bytes.framed (Bytes.ofText (" ".intercalate annots))

/-- An application with its arguments laid out. Up to two of them are counted by the first octet,
which also tells whether annotations follow; more of them are framed, and so are annotations even
if there are none. -/
def applicationLayout (code : UInt8) (arity : Nat) (parts : Bytes) (annots : List String) :
    Bytes :=
  if arity < 3 then
    UInt8.ofNat (0x03 + 2 * arity + if annots = [] then 0 else 1) :: code ::
      (parts ++ annotsLayout annots)
  else
    0x09 :: code ::
      (Bytes.framed parts ++ Bytes.framed (Bytes.ofText (" ".intercalate annots)))

/-- The octets of an expression. There are none if a literal or a name in it means nothing. -/
inductive Layout : Expr → Bytes → Prop
  | int {text : String} {n : Int} (h : Decimal.Denotes text n) :
      Layout (.int text) (0x00 :: numberLayout n)
  | string (text : String) : Layout (.string text) (0x01 :: Bytes.framed (Bytes.ofText text))
  | bytes {text : String} {content : Bytes} (h : Hex.Spells text content) :
      Layout (.bytes text) (0x0a :: Bytes.framed content)
  | app {name : String} {args : List Expr} {parts : List Bytes} (hname : name ∈ vocabulary)
      (hargs : List.Forall₂ Layout args parts) (annots : List String) :
      Layout (.app name args annots)
        (applicationLayout (Primitive.codeOf name) args.length parts.flatten annots)
  | seq {items : List Expr} {parts : List Bytes} (hitems : List.Forall₂ Layout items parts) :
      Layout (.seq items) (0x02 :: Bytes.framed parts.flatten)

theorem parts_unique {es : List Expr}
    (ih : ∀ e ∈ es, ∀ {b c : Bytes}, Layout e b → Layout e c → b = c) {parts parts' : List Bytes}
    (h : List.Forall₂ Layout es parts) (h' : List.Forall₂ Layout es parts') : parts = parts' := by
  induction h generalizing parts' with
  | nil =>
      cases h'
      rfl
  | cons hhead _ ihtail =>
      cases h' with
      | cons hhead' htail' =>
          obtain rfl := ih _ (List.mem_cons_self ..) hhead hhead'
          rw [ihtail (fun e he => ih e (List.mem_cons_of_mem _ he)) htail']

theorem Layout.unique {e : Expr} {b c : Bytes} (h : Layout e b) (h' : Layout e c) : b = c := by
  induction e generalizing b c with
  | int _ =>
      cases h with
      | int hn =>
          cases h' with
          | int hm => rw [hn.unique hm]
  | string _ =>
      cases h
      cases h'
      rfl
  | bytes _ =>
      cases h with
      | bytes hs =>
          cases h' with
          | bytes ht => rw [hs.unique ht]
  | app _ _ _ ih =>
      cases h with
      | app _ hargs =>
          cases h' with
          | app _ hargs' => rw [parts_unique ih hargs hargs']
  | seq _ ih =>
      cases h with
      | seq hitems =>
          cases h' with
          | seq hitems' => rw [parts_unique ih hitems hitems']

theorem groups_eq (group above : Nat) :
    Number.groups group above = groupsLayout (group :: Nat.digits 128 above) := by
  induction group, above using Number.groups.induct with
  | case1 group => rw [Number.groups_last, Nat.digits_zero, groupsLayout]
  | case2 group above habove ih =>
      rw [Number.groups_more habove, ih, Nat.digits_def' (by decide) (Nat.pos_of_ne_zero habove),
        groupsLayout, Nat.add_comm]
      rfl

theorem encode_eq_numberLayout (n : Int) : Number.encode n = numberLayout n :=
  groups_eq _ _

variable {limit depth : Nat}

theorem toList_writeFront (out : Buffer) (p : Primitive) (args : List Expr)
    (annots : List String) :
    (writeFront out p args annots).toList =
      out.toList ++ [applicationTag args.length !annots.isEmpty, p.code] := by
  simp [writeFront]

/-- Completing the arguments of an application gives its layout, in one form and the other. -/
theorem toList_write_app {name : String} {p : Primitive} {args : List Expr}
    {annots : List String} {out out' : Buffer} (hname : Primitive.ofName? name = some p)
    (h : write limit depth out (.app name args annots) = .ok out')
    (ih : ∀ start inner, writeAll limit depth start args = .ok inner →
      ∃ parts, List.Forall₂ Layout args parts ∧ inner.toList = start.toList ++ parts.flatten) :
    ∃ parts, List.Forall₂ Layout args parts ∧
      out'.toList = out.toList ++ applicationLayout p.code args.length parts.flatten annots := by
  have hle := depth_le_of_write h
  by_cases hargs : args.length < 3
  · rw [write_app_short hle hname hargs, map_eq_ok_iff] at h
    obtain ⟨inner, hinner, rfl⟩ := h
    obtain ⟨parts, hparts, hlist⟩ := ih _ _ hinner
    refine ⟨parts, hparts, ?_⟩
    rw [toList_writeFront] at hlist
    by_cases hannots : annots = []
    · simp [hlist, hannots, applicationLayout, annotsLayout, applicationTag, hargs]
    · have hbit : (!annots.isEmpty) = true := by simpa using hannots
      simp [hlist, hannots, hbit, applicationLayout, annotsLayout, applicationTag, hargs,
        writeAnnots, annotBytes]
  · rw [write_app_long hle hname hargs, map_eq_ok_iff] at h
    obtain ⟨inner, hinner, rfl⟩ := h
    obtain ⟨parts, hparts, hlist⟩ := ih _ _ hinner
    refine ⟨parts, hparts, ?_⟩
    have hclosed := Buffer.toList_closeBlock hlist
    rw [toList_writeFront] at hclosed
    simp [hclosed, applicationLayout, applicationTag, longApplicationTag, hargs, writeAnnots,
      annotBytes]

theorem toList_writeAll {items : List Expr}
    (ih : ∀ e ∈ items, ∀ out out', write limit (depth + 1) out e = .ok out' →
      ∃ bytes, Layout e bytes ∧ out'.toList = out.toList ++ bytes)
    {out out' : Buffer} (h : writeAll limit depth out items = .ok out') :
    ∃ parts, List.Forall₂ Layout items parts ∧ out'.toList = out.toList ++ parts.flatten := by
  induction items generalizing out with
  | nil =>
      rw [writeAll_nil] at h
      cases h
      exact ⟨[], .nil, (List.append_nil _).symm⟩
  | cons e rest ihrest =>
      rw [writeAll_cons, bind_eq_ok_iff] at h
      obtain ⟨next, hfirst, hrest⟩ := h
      obtain ⟨first, hlayout, hnext⟩ := ih e (List.mem_cons_self ..) out next hfirst
      obtain ⟨others, hothers, hout⟩ :=
        ihrest (fun e he => ih e (List.mem_cons_of_mem _ he)) hrest
      refine ⟨first :: others, .cons hlayout hothers, ?_⟩
      rw [hout, hnext, List.flatten_cons, List.append_assoc]

/-- What was in the buffer stays in front, and what is appended does not depend on it. -/
theorem toList_write {e : Expr} {out out' : Buffer} (h : write limit depth out e = .ok out') :
    ∃ bytes, Layout e bytes ∧ out'.toList = out.toList ++ bytes := by
  have hle := depth_le_of_write h
  induction e generalizing depth out out' with
  | int text =>
      rw [write_int hle, writeInt] at h
      cases hread : Decimal.parse? text with
      | none => simp [hread] at h
      | some n =>
          simp only [hread, Except.ok.injEq] at h
          subst h
          refine ⟨_, .int (Decimal.parse?_eq_some_iff.mp hread), ?_⟩
          simp [intTag, encode_eq_numberLayout]
  | string text =>
      rw [write_string hle, Except.ok.injEq] at h
      subst h
      exact ⟨_, .string text, by simp [writeString, stringTag]⟩
  | bytes text =>
      rw [write_bytes hle, writeBytes] at h
      cases hread : Hex.decode text with
      | error malformed => simp [hread] at h
      | ok content =>
          simp only [hread, Except.ok.injEq] at h
          subst h
          exact ⟨_, .bytes (Hex.decode_eq_ok_iff.mp hread), by simp [bytesTag]⟩
  | app name args annots ih =>
      cases hname : Primitive.ofName? name with
      | none =>
          rw [write_app_unknown hle hname] at h
          cases h
      | some p =>
          obtain ⟨parts, hparts, hlist⟩ := toList_write_app hname h fun _ _ hargs =>
            toList_writeAll (fun e he _ _ hw => ih e he hw (depth_le_of_write hw)) hargs
          rw [Primitive.code_of_ofName? hname] at hlist
          exact ⟨_, .app (Primitive.mem_vocabulary_of_ofName? hname) hparts annots, hlist⟩
  | seq items ih =>
      rw [write_seq hle, map_eq_ok_iff] at h
      obtain ⟨inner, hinner, rfl⟩ := h
      obtain ⟨parts, hparts, hlist⟩ :=
        toList_writeAll (fun e he _ _ hw => ih e he hw (depth_le_of_write hw)) hinner
      refine ⟨_, .seq hparts, ?_⟩
      rw [Buffer.toList_closeBlock hlist]
      simp [seqTag]

theorem layout_of_encodeBehind {e : Expr} {start packed : Bytes}
    (h : encodeBehind start limit e = .ok packed) :
    ∃ bytes, Layout e bytes ∧ packed = start ++ bytes := by
  rw [encodeBehind, map_eq_ok_iff] at h
  obtain ⟨out, hout, rfl⟩ := h
  obtain ⟨bytes, hlayout, hlist⟩ := toList_write hout
  exact ⟨bytes, hlayout, by simpa using hlist⟩

theorem layout_of_encode {e : Expr} {raw : Bytes} (h : e.encode = .ok raw) : Layout e raw := by
  obtain ⟨bytes, hlayout, rfl⟩ := layout_of_encodeBehind h
  exact hlayout

/-- An expression has at most one layout, and writing in place is laying out: limit, depth and
earlier octets decide at most whether it succeeds. -/
theorem write_refines_layout (e : Expr) :
    (∀ bytes bytes', Layout e bytes → Layout e bytes' → bytes = bytes') ∧
    (∀ limit depth out out', write limit depth out e = .ok out' →
      ∃ bytes, Layout e bytes ∧ out'.toList = out.toList ++ bytes) ∧
    (∀ limit packed, e.packWithin limit = .ok packed →
      ∃ bytes, Layout e bytes ∧ packed = 0x05 :: bytes) ∧
    ∀ raw, e.encode = .ok raw → Layout e raw :=
  ⟨fun _ _ h h' => h.unique h', fun _ _ _ _ h => toList_write h,
    fun _ _ h => layout_of_encodeBehind h, fun _ h => layout_of_encode h⟩

/-- Blocks inside blocks, behind octets that were there before; integers of both signs in one octet
and in more, and applications in each of their forms. -/
theorem write_refines_layout_nested :
    let e : Expr := .seq
      [.int "-100", .int "+0064", .int "0", .int "9000", .app "Unit" [] [],
        .app "LAMBDA" [] ["%a"], .app "Some" [.int "-1"] [], .app "PACK" [.app "int" [] []] ["%b"],
        .app "Elt" [.bytes "cAFe", .string "é"] [],
        .app "ADD" [.seq [], .string ""] [":t"],
        .app "Pair" [.bytes "", .int "7", .seq [.int "8"]] ["%a", "%b"],
        .app "DIP" [.string "a", .string "b", .string "c"] []]
    let bytes : Bytes := [0x02, 0, 0, 0, 0x7f, 0, 0xe4, 0x01, 0, 0x80, 0x01, 0, 0, 0, 0xa8, 0x8c,
      0x01, 0x03, 0x0b, 0x04, 0x31, 0, 0, 0, 0x02, 0x25, 0x61, 0x05, 0x09, 0, 0x41, 0x06, 0x0c,
      0x03, 0x5b, 0, 0, 0, 0x02, 0x25, 0x62, 0x07, 0x04, 0x0a, 0, 0, 0, 0x02, 0xca, 0xfe, 0x01, 0,
      0, 0, 0x02, 0xc3, 0xa9, 0x08, 0x12, 0x02, 0, 0, 0, 0, 0x01, 0, 0, 0, 0, 0, 0, 0, 0x02, 0x3a,
      0x74, 0x09, 0x07, 0, 0, 0, 0x0e, 0x0a, 0, 0, 0, 0, 0, 0x07, 0x02, 0, 0, 0, 0x02, 0, 0x08, 0,
      0, 0, 0x05, 0x25, 0x61, 0x20, 0x25, 0x62, 0x09, 0x1f, 0, 0, 0, 0x12, 0x01, 0, 0, 0, 0x01,
      0x61, 0x01, 0, 0, 0, 0x01, 0x62, 0x01, 0, 0, 0, 0x01, 0x63, 0, 0, 0, 0]
    let out := Buffer.empty.append [0xde, 0xad]
    (∃ out', write 4 1 out e = .ok out' ∧ out'.toList = [0xde, 0xad] ++ bytes) ∧
      e.packWithin 4 = .ok (0x05 :: bytes) ∧ Layout e bytes := by
  intro e bytes out
  have hrun : (write 4 1 out e).map Buffer.toList = .ok ([0xde, 0xad] ++ bytes) :=
    toOption_eq_some_iff.mp (by decide +kernel)
  have hpack : e.packWithin 4 = .ok (0x05 :: bytes) :=
    toOption_eq_some_iff.mp (by decide +kernel)
  obtain ⟨out', hout, hlist⟩ := map_eq_ok_iff.mp hrun
  obtain ⟨laidOut, hlayout, hwritten⟩ := (write_refines_layout e).2.1 4 1 out out' hout
  have hsame : bytes = laidOut := by
    rw [hlist] at hwritten
    exact List.append_cancel_left hwritten
  exact ⟨⟨out', hout, hlist⟩, hpack, hsame ▸ hlayout⟩

end Micheline.Pack
