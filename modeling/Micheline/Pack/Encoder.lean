import Micheline.Buffer
import Micheline.Expr
import Micheline.Pack.Error
import Micheline.Pack.Number

/-!
Packing expressions. All of an expression is written into one buffer: a sequence and the
arguments of a long application open a block, write their parts behind it and close it. A node is
refused before its parts are, and its nesting is looked at before anything else of it.
-/

namespace Micheline
namespace Pack

/-! Each node begins with an octet that tells what it is. -/

def intTag : UInt8 := 0x00

def stringTag : UInt8 := 0x01

def seqTag : UInt8 := 0x02

def bytesTag : UInt8 := 0x0a

/-- The octet in front of an application whose arguments stand in a block of their own. -/
def longApplicationTag : UInt8 := 0x09

/-- The octet in front of an application. Below three arguments it tells their number and
whether annotations follow. -/
def applicationTag (arity : Nat) (annotated : Bool) : UInt8 :=
  if arity < 3 then UInt8.ofNat (0x03 + 2 * arity + annotated.toNat) else longApplicationTag

/-- The octets of annotations: one text, with spaces between them. -/
def annotBytes (annots : List String) : Bytes :=
  Bytes.ofText (" ".intercalate annots)

def writeInt (out : Buffer) (text : String) : Except Error Buffer :=
  match Decimal.parse? text with
  | some n => .ok ((out.push intTag).append (Number.encode n))
  | none => .error (.invalidInt text)

def writeString (out : Buffer) (text : String) : Buffer :=
  (out.push stringTag).appendPrefixed (Bytes.ofText text)

def writeBytes (out : Buffer) (text : String) : Except Error Buffer :=
  match Hex.decode text with
  | .ok bytes => .ok ((out.push bytesTag).appendPrefixed bytes)
  | .error malformed => .error (.malformedHex malformed)

def writeAnnots (out : Buffer) (annots : List String) : Buffer :=
  out.appendPrefixed (annotBytes annots)

mutual
/-- Writes an expression that stands at the given depth. -/
def write (limit depth : Nat) (out : Buffer) (e : Expr) : Except Error Buffer :=
  if limit < depth then
    .error (.depthExceeded limit)
  else
    match e with
    | .int text => writeInt out text
    | .string text => .ok (writeString out text)
    | .bytes text => writeBytes out text
    | .seq items => do
      let (out, mark) := (out.push seqTag).openBlock
      let out ← writeAll limit depth out items
      return out.closeBlock mark
    | .app name args annots => do
      let p ← (Primitive.ofName name).mapError .unknownPrimitive
      let out := (out.push (applicationTag args.length !annots.isEmpty)).push p.code
      if args.length < 3 then
        let out ← writeAll limit depth out args
        return if annots.isEmpty then out else writeAnnots out annots
      else
        let (out, mark) := out.openBlock
        let out ← writeAll limit depth out args
        return writeAnnots (out.closeBlock mark) annots

/-- Writes the parts of a node that stands at the given depth, one level below it. -/
def writeAll (limit depth : Nat) (out : Buffer) : List Expr → Except Error Buffer
  | [] => .ok out
  | e :: rest => do
    let out ← write limit (depth + 1) out e
    writeAll limit depth out rest
end

section

variable {limit depth : Nat}

theorem write_of_exceeded (h : limit < depth) (out : Buffer) (e : Expr) :
    write limit depth out e = .error (.depthExceeded limit) := by
  rw [write.eq_def, if_pos h]

theorem write_int (h : depth ≤ limit) (out : Buffer) (text : String) :
    write limit depth out (.int text) = writeInt out text := by
  rw [write, if_neg (Nat.not_lt.mpr h)]

theorem write_string (h : depth ≤ limit) (out : Buffer) (text : String) :
    write limit depth out (.string text) = .ok (writeString out text) := by
  rw [write, if_neg (Nat.not_lt.mpr h)]

theorem write_bytes (h : depth ≤ limit) (out : Buffer) (text : String) :
    write limit depth out (.bytes text) = writeBytes out text := by
  rw [write, if_neg (Nat.not_lt.mpr h)]

theorem writeAll_nil (out : Buffer) : writeAll limit depth out [] = .ok out := by
  rw [writeAll]

theorem writeAll_cons (out : Buffer) (e : Expr) (rest : List Expr) :
    writeAll limit depth out (e :: rest) =
      (write limit (depth + 1) out e).bind fun out => writeAll limit depth out rest := by
  rw [writeAll]
  rfl

end

def defaultLimit : Nat := 1024

def versionMark : UInt8 := 0x05

/-- The octets of an expression behind octets that are already there. -/
def encodeBehind (start : Bytes) (limit : Nat) (e : Expr) : Except Error Bytes :=
  (write limit 1 (Buffer.empty.append start) e).map Buffer.toList

end Pack

namespace Expr

def encode (e : Expr) : Except Pack.Error Bytes :=
  Pack.encodeBehind [] Pack.defaultLimit e

def packWithin (limit : Nat) (e : Expr) : Except Pack.Error Bytes :=
  Pack.encodeBehind [Pack.versionMark] limit e

def pack (e : Expr) : Except Pack.Error Bytes :=
  packWithin Pack.defaultLimit e

end Expr
end Micheline
