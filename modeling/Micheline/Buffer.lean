import Micheline.Bytes

/-!
An append-only octet buffer with length blocks patched in place. A block is opened by four zero
octets; closing it overwrites them with the number of octets appended since, modulo 2^32. Nothing
else that was written is ever changed, which is why a block left open keeps a zero length.
-/

namespace Micheline

structure Buffer where
  octets : Array UInt8

namespace Buffer

def empty : Buffer := ⟨#[]⟩

def toList (buffer : Buffer) : Bytes :=
  buffer.octets.toList

def size (buffer : Buffer) : Nat :=
  buffer.octets.size

def isEmpty (buffer : Buffer) : Bool :=
  buffer.octets.isEmpty

def push (buffer : Buffer) (octet : UInt8) : Buffer :=
  ⟨buffer.octets.push octet⟩

def append (buffer : Buffer) (bytes : Bytes) : Buffer :=
  ⟨buffer.octets.appendList bytes⟩

def appendWord (buffer : Buffer) (width : Nat) (value : Int) : Buffer :=
  buffer.append (Bytes.word width value)

def lengthWidth : Nat := 4

/-- Appends a length, reduced modulo 2^32. -/
def appendLength (buffer : Buffer) (length : Int) : Buffer :=
  buffer.appendWord lengthWidth length

def appendPrefixed (buffer : Buffer) (bytes : Bytes) : Buffer :=
  (buffer.appendLength bytes.length).append bytes

/-- Where the content of an open block starts. Its length stands just before. -/
structure Mark where
  start : Nat

/-- Opens a block, whose length is zero until it is closed. -/
def openBlock (buffer : Buffer) : Buffer × Mark :=
  let opened := buffer.appendLength 0
  (opened, ⟨opened.size⟩)

/-- Overwrites octets from `place` on; the size does not change. -/
def overwrite (buffer : Buffer) (place : Nat) : Bytes → Buffer
  | [] => buffer
  | b :: rest => overwrite ⟨buffer.octets.setIfInBounds place b⟩ (place + 1) rest

/-- Closes a block by patching the length of what was appended since it was opened. -/
def closeBlock (buffer : Buffer) (mark : Mark) : Buffer :=
  buffer.overwrite (mark.start - lengthWidth)
    (Bytes.word lengthWidth (buffer.size - mark.start : Nat))

@[simp]
theorem toList_empty : empty.toList = [] := rfl

@[simp]
theorem length_toList (buffer : Buffer) : buffer.toList.length = buffer.size := by
  simp [toList, size]

@[simp]
theorem toList_push (buffer : Buffer) (octet : UInt8) :
    (buffer.push octet).toList = buffer.toList ++ [octet] := by
  simp [push, toList]

@[simp]
theorem toList_append (buffer : Buffer) (bytes : Bytes) :
    (buffer.append bytes).toList = buffer.toList ++ bytes := by
  simp [append, toList]

@[simp]
theorem toList_appendWord (buffer : Buffer) (width : Nat) (value : Int) :
    (buffer.appendWord width value).toList = buffer.toList ++ Bytes.word width value :=
  toList_append ..

end Buffer
end Micheline
