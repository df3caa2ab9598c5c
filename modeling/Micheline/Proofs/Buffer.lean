import Micheline.Buffer
import Micheline.Proofs.Bytes

/-!
Closing a block. Whatever was appended behind an open block is framed by closing it, and the
octets in front of the block stay as they were, however many blocks are still open around it.
-/

namespace Micheline.Buffer

theorem toList_inj {a b : Buffer} : a.toList = b.toList ↔ a = b := by
  cases a
  cases b
  simp [toList]

@[simp]
theorem toList_appendPrefixed (buffer : Buffer) (content : Bytes) :
    (buffer.appendPrefixed content).toList = buffer.toList ++ Bytes.framed content := by
  simp [appendPrefixed, appendLength, lengthWidth, Bytes.word_four, Bytes.framed]

@[simp]
theorem toList_openBlock (buffer : Buffer) :
    buffer.openBlock.1.toList = buffer.toList ++ Bytes.lengthField 0 := by
  simp [openBlock, appendLength, lengthWidth, ← Bytes.word_four]

@[simp]
theorem start_openBlock (buffer : Buffer) : buffer.openBlock.2.start = buffer.size + 4 := by
  have h : buffer.openBlock.1.toList.length = buffer.size + 4 := by
    rw [toList_openBlock, List.length_append, length_toList, Bytes.length_lengthField]
  rwa [length_toList] at h

/-- Octets written over as many others take their place, and nothing around them moves. -/
theorem toList_overwrite {buffer : Buffer} {front old behind : Bytes} (new : Bytes)
    (h : buffer.toList = front ++ old ++ behind) (hlen : new.length = old.length) :
    (buffer.overwrite front.length new).toList = front ++ new ++ behind := by
  induction new generalizing buffer front old with
  | nil =>
      have hold : old = [] := List.eq_nil_of_length_eq_zero hlen.symm
      simpa [overwrite, hold] using h
  | cons b rest ih =>
      obtain ⟨a, old, rfl⟩ := List.exists_cons_of_length_eq_add_one hlen.symm
      have hset : (Buffer.mk (buffer.octets.setIfInBounds front.length b)).toList =
          (front ++ [b]) ++ old ++ behind := by
        have hb : buffer.octets.toList = front ++ a :: (old ++ behind) := by
          simpa [toList] using h
        simp [toList, hb]
      have hrest := ih hset (by simpa using hlen)
      simpa [overwrite] using hrest

theorem toList_closeBlock {outer inner : Buffer} {content : Bytes}
    (h : inner.toList = outer.openBlock.1.toList ++ content) :
    (inner.closeBlock outer.openBlock.2).toList = outer.toList ++ Bytes.framed content := by
  have hsize : inner.size - (outer.size + 4) = content.length := by
    rw [← length_toList, h]
    simp [Bytes.length_lengthField]
    omega
  have hplace : outer.size + 4 - lengthWidth = outer.toList.length := by
    simp [lengthWidth]
  rw [toList_openBlock] at h
  have hpatched := toList_overwrite (Bytes.lengthField content.length) h rfl
  simp only [closeBlock, start_openBlock, hsize, hplace]
  rw [lengthWidth, Bytes.word_four, hpatched, Bytes.framed, List.append_assoc]

end Micheline.Buffer
