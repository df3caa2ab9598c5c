import Mathlib.Tactic.IntervalCases
import Micheline.Proofs.Bytes
import Micheline.Text.Utf8

/-!
Reading of well-formed octets. A text is read as it was written, strictly or leniently. If its
octets break off, lenient reading ends with them, and one replacement character stands for the
character that is not complete.
-/

namespace Micheline.Text.Utf8

theorem fromUTF8?_toUTF8 (text : String) : String.fromUTF8? text.toUTF8 = some text := by
  simp only [String.fromUTF8?, String.toUTF8_eq_toByteArray, dif_pos text.isValidUTF8]
  rfl

theorem decodeFrom_none_cons (b : UInt8) (rest : Bytes) :
    decodeFrom none (b :: rest) = (begin b).1 ++ decodeFrom (begin b).2 rest := rfl

theorem decodeFrom_some_cons (p : Pending) (b : UInt8) (rest : Bytes) :
    decodeFrom (some p) (b :: rest) = (resume p b).1 ++ decodeFrom (resume p b).2 rest := rfl

/-- Octets that continue an unfinished sequence up to its end, and the character they complete. -/
inductive Completes : Pending → Bytes → Char → Prop
  | last {bits : Nat} {low high octet : UInt8} : low ≤ octet → octet ≤ high →
      Completes ⟨bits, low, high, 0⟩ [octet] (Char.ofNat (64 * bits + (octet.toNat - 0x80)))
  | more {bits missing : Nat} {low high octet : UInt8} {rest : Bytes} {c : Char} :
      low ≤ octet → octet ≤ high →
      Completes ⟨64 * bits + (octet.toNat - 0x80), 0x80, 0xbf, missing⟩ rest c →
      Completes ⟨bits, low, high, missing + 1⟩ (octet :: rest) c

theorem Completes.decodeFrom_append {p : Pending} {octets : Bytes} {c : Char}
    (h : Completes p octets c) (rest : Bytes) :
    decodeFrom (some p) (octets ++ rest) = c :: decodeFrom none rest := by
  induction h with
  | last hlow hhigh =>
      rw [List.singleton_append, decodeFrom_some_cons, resume, if_pos ⟨hlow, hhigh⟩]
      rfl
  | more hlow hhigh _ ih =>
      rw [List.cons_append, decodeFrom_some_cons, resume, if_pos ⟨hlow, hhigh⟩]
      exact ih

theorem Completes.decodeFrom_take {p : Pending} {octets : Bytes} {c : Char}
    (h : Completes p octets c) {n : Nat} (hn : n < octets.length) :
    decodeFrom (some p) (octets.take n) = [replacement] := by
  induction h generalizing n with
  | last hlow hhigh =>
      obtain rfl : n = 0 := by simpa using hn
      rfl
  | more hlow hhigh _ ih =>
      cases n with
      | zero => rfl
      | succ n =>
          rw [List.take_succ_cons, decodeFrom_some_cons, resume, if_pos ⟨hlow, hhigh⟩]
          exact ih (Nat.lt_of_succ_lt_succ hn)

theorem begin_of_two {x : Nat} (hlow : 2 ≤ x) (hhigh : x < 32) :
    begin (UInt8.ofNat (x + 192)) = ([], some ⟨x, 0x80, 0xbf, 0⟩) := by
  interval_cases x <;> rfl

theorem begin_of_three {x : Nat} (h : x < 16) :
    begin (UInt8.ofNat (x + 224)) =
      ([], some ⟨x, if x = 0 then 0xa0 else 0x80, if x = 13 then 0x9f else 0xbf, 1⟩) := by
  interval_cases x <;> rfl

theorem begin_of_four {x : Nat} (h : x < 5) :
    begin (UInt8.ofNat (x + 240)) =
      ([], some ⟨x, if x = 0 then 0x90 else 0x80, if x = 4 then 0x8f else 0xbf, 2⟩) := by
  interval_cases x <;> rfl

/-- The octet that carries the low six bits of a number. -/
def tail (v : Nat) : UInt8 :=
  UInt8.ofNat (v % 64 + 128)

theorem toNat_tail (v : Nat) : (tail v).toNat = v % 64 + 128 := by
  rw [tail, UInt8.toNat_ofNat']
  omega

theorem le_tail {low : UInt8} {v : Nat} (h : low.toNat ≤ v % 64 + 128) : low ≤ tail v := by
  rw [UInt8.le_iff_toNat_le, toNat_tail]
  exact h

theorem tail_le {high : UInt8} {v : Nat} (h : v % 64 + 128 ≤ high.toNat) : tail v ≤ high := by
  rw [UInt8.le_iff_toNat_le, toNat_tail]
  exact h

theorem bits_tail (v : Nat) : 64 * (v / 64) + ((tail v).toNat - 0x80) = v := by
  rw [toNat_tail]
  omega

theorem completes_tail (v : Nat) :
    Completes ⟨v / 64, 0x80, 0xbf, 0⟩ [tail v] (Char.ofNat v) := by
  have hhigh : v % 64 + 128 ≤ 191 := by omega
  have h := @Completes.last (v / 64) 0x80 0xbf (tail v) (le_tail (Nat.le_add_left _ _))
    (tail_le hhigh)
  rwa [bits_tail] at h

theorem Completes.cons_tail {v missing : Nat} {low high : UInt8} {rest : Bytes} {c : Char}
    (hlow : low.toNat ≤ v % 64 + 128) (hhigh : v % 64 + 128 ≤ high.toNat)
    (h : Completes ⟨v, 0x80, 0xbf, missing⟩ rest c) :
    Completes ⟨v / 64, low, high, missing + 1⟩ (tail v :: rest) c := by
  apply Completes.more (le_tail hlow) (tail_le hhigh)
  rwa [bits_tail]

section

variable {c : Char}

theorem encodeChar_one (h : c.toNat < 0x80) :
    String.utf8EncodeChar c = [UInt8.ofNat c.toNat] := by
  have hif : c.val.toNat ≤ 127 := Nat.le_of_lt_succ h
  rw [String.utf8EncodeChar, if_pos hif]
  rfl

theorem encodeChar_two (hlow : 0x80 ≤ c.toNat) (hhigh : c.toNat < 0x800) :
    String.utf8EncodeChar c = [UInt8.ofNat (c.toNat / 64 + 192), tail c.toNat] := by
  have hlead : c.toNat / 64 % 32 = c.toNat / 64 := by omega
  change 0x80 ≤ c.val.toNat at hlow
  change c.val.toNat < 0x800 at hhigh
  rw [String.utf8EncodeChar, if_neg (by omega), if_pos (by omega), ← hlead]
  rfl

theorem encodeChar_three (hlow : 0x800 ≤ c.toNat) (hhigh : c.toNat < 0x10000) :
    String.utf8EncodeChar c =
      [UInt8.ofNat (c.toNat / 4096 + 224), tail (c.toNat / 64), tail c.toNat] := by
  have hlead : c.toNat / 4096 % 16 = c.toNat / 4096 := by omega
  change 0x800 ≤ c.val.toNat at hlow
  change c.val.toNat < 0x10000 at hhigh
  rw [String.utf8EncodeChar, if_neg (by omega), if_neg (by omega), if_pos (by omega), ← hlead]
  rfl

theorem toNat_lt (c : Char) : c.toNat < 0x110000 := by
  obtain h | h := c.valid
  · exact Nat.lt_trans h (by decide)
  · exact h.2

theorem encodeChar_four (hlow : 0x10000 ≤ c.toNat) :
    String.utf8EncodeChar c =
      [UInt8.ofNat (c.toNat / 262144 + 240), tail (c.toNat / 4096), tail (c.toNat / 64),
        tail c.toNat] := by
  have hhigh := toNat_lt c
  have hlead : c.toNat / 262144 % 8 = c.toNat / 262144 := by omega
  change 0x10000 ≤ c.val.toNat at hlow
  rw [String.utf8EncodeChar, if_neg (by omega), if_neg (by omega), if_neg (by omega), ← hlead]
  rfl

end

theorem begin_single (c : Char) (h : c.toNat < 0x80) :
    begin (UInt8.ofNat c.toNat) = ([c], none) := by
  have htoNat : (UInt8.ofNat c.toNat).toNat = c.toNat := by
    rw [UInt8.toNat_ofNat']
    omega
  have hlt : UInt8.ofNat c.toNat < 0x80 := by
    rw [UInt8.lt_iff_toNat_lt, htoNat]
    exact h
  rw [begin, if_pos hlt, htoNat, Char.ofNat_toNat]

/-- The octets of a character are a single one, or a lead octet and those that complete the sequence
it begins. -/
theorem encodeChar_reading (c : Char) :
    (∃ octet, String.utf8EncodeChar c = [octet] ∧ begin octet = ([c], none)) ∨
      ∃ lead p octets, String.utf8EncodeChar c = lead :: octets ∧ begin lead = ([], some p) ∧
        Completes p octets c := by
  have hlast := completes_tail c.toNat
  rw [Char.ofNat_toNat] at hlast
  by_cases hone : c.toNat < 0x80
  · exact .inl ⟨_, encodeChar_one hone, begin_single c hone⟩
  right
  by_cases htwo : c.toNat < 0x800
  · exact ⟨_, _, _, encodeChar_two (by omega) htwo, begin_of_two (by omega) (by omega), hlast⟩
  by_cases hthree : c.toNat < 0x10000
  · refine ⟨_, _, _, encodeChar_three (by omega) hthree, begin_of_three (by omega), ?_⟩
    have hdiv : c.toNat / 4096 = c.toNat / 64 / 64 := by omega
    have hvalid : c.toNat < 0xd800 ∨ 0xdfff < c.toNat ∧ c.toNat < 0x110000 := c.valid
    rw [hdiv]
    apply hlast.cons_tail <;> split <;> simp only [UInt8.reduceToNat] <;> omega
  · refine ⟨_, _, _, encodeChar_four (by omega), begin_of_four (by have := toNat_lt c; omega), ?_⟩
    have hdiv : c.toNat / 262144 = c.toNat / 4096 / 64 := by omega
    have hdiv' : c.toNat / 4096 = c.toNat / 64 / 64 := by omega
    have hmiddle :
        Completes ⟨c.toNat / 4096, 0x80, 0xbf, 1⟩ [tail (c.toNat / 64), tail c.toNat] c := by
      rw [hdiv']
      apply hlast.cons_tail <;> simp only [UInt8.reduceToNat] <;> omega
    have hlt := toNat_lt c
    rw [hdiv]
    apply hmiddle.cons_tail <;> split <;> simp only [UInt8.reduceToNat] <;> omega

theorem decodeFrom_encodeChar (c : Char) (rest : Bytes) :
    decodeFrom none (String.utf8EncodeChar c ++ rest) = c :: decodeFrom none rest := by
  obtain ⟨octet, hoctets, hbegin⟩ | ⟨lead, p, octets, hoctets, hbegin, hcompletes⟩ :=
    encodeChar_reading c
  · rw [hoctets, List.singleton_append, decodeFrom_none_cons, hbegin]
    rfl
  · rw [hoctets, List.cons_append, decodeFrom_none_cons, hbegin]
    exact hcompletes.decodeFrom_append rest

theorem decodeFrom_take_encodeChar {c : Char} {n : Nat} (hpos : n ≠ 0)
    (hn : n < (String.utf8EncodeChar c).length) :
    decodeFrom none ((String.utf8EncodeChar c).take n) = [replacement] := by
  obtain ⟨n, rfl⟩ := Nat.exists_eq_succ_of_ne_zero hpos
  obtain ⟨octet, hoctets, -⟩ | ⟨lead, p, octets, hoctets, hbegin, hcompletes⟩ :=
    encodeChar_reading c
  · simp [hoctets] at hn
  · rw [hoctets] at hn ⊢
    rw [List.take_succ_cons, decodeFrom_none_cons, hbegin]
    exact hcompletes.decodeFrom_take (Nat.lt_of_succ_lt_succ hn)

theorem decodeFrom_ofText (cs : List Char) :
    decodeFrom none (cs.flatMap String.utf8EncodeChar) = cs := by
  induction cs with
  | nil => rfl
  | cons c cs ih => rw [List.flatMap_cons, decodeFrom_encodeChar, ih]

/-- The characters that fit into so many octets. One that is cut by the end is replaced. -/
def cut : Nat → List Char → List Char
  | _, [] => []
  | 0, _ => []
  | room + 1, c :: cs =>
      if c.utf8Size ≤ room + 1 then c :: cut (room + 1 - c.utf8Size) cs else [replacement]

theorem decodeFrom_take (cs : List Char) (n : Nat) :
    decodeFrom none ((cs.flatMap String.utf8EncodeChar).take n) = cut n cs := by
  induction cs generalizing n with
  | nil => simp [decodeFrom, cut]
  | cons c cs ih =>
      have hsize : (String.utf8EncodeChar c).length = c.utf8Size := String.length_utf8EncodeChar c
      cases n with
      | zero => rfl
      | succ n =>
          rw [List.flatMap_cons, List.take_append, hsize, cut]
          by_cases hfit : c.utf8Size ≤ n + 1
          · rw [List.take_of_length_le (by omega), decodeFrom_encodeChar, ih, if_pos hfit]
          · have hnone : n + 1 - c.utf8Size = 0 := by omega
            rw [hnone, List.take_zero, List.append_nil, if_neg hfit]
            exact decodeFrom_take_encodeChar (Nat.succ_ne_zero n) (by omega)

/-- The first octets of a text are read as its characters, up to one that is cut. -/
theorem decodeLossy_take (text : String) (n : Nat) :
    decodeLossy ((Bytes.ofText text).take n) = String.ofList (cut n text.toList) := by
  rw [← decodeFrom_take, decodeLossy, ← Bytes.ofText_ofList, String.ofList_toList]

theorem decodeFrom_append {front : Bytes} (h : ∀ b ∈ front, b < 0x80) (back : Bytes) :
    decodeFrom none (front ++ back) = front.map Bytes.charOf ++ decodeFrom none back := by
  induction front with
  | nil => rfl
  | cons b front ih =>
      have hbegin : begin b = ([Bytes.charOf b], none) := by
        rw [begin, if_pos (h b (List.mem_cons_self ..)), Bytes.charOf]
      rw [List.cons_append, decodeFrom_none_cons, hbegin]
      exact congrArg _ (ih fun c hc => h c (List.mem_cons_of_mem _ hc))

/-- Behind octets that are characters of their own, the octets of a text are those of the characters
that are left. -/
theorem exists_rest_of_ofText {text : String} {front back : Bytes}
    (htext : Bytes.ofText text = front ++ back) (h : ∀ b ∈ front, b < 0x80) :
    ∃ rest, text.toList = front.map Bytes.charOf ++ rest ∧
      back = Bytes.ofText (String.ofList rest) := by
  have hchars : text.toList = front.map Bytes.charOf ++ decodeFrom none back := by
    rw [← decodeFrom_append h, ← htext, ← String.ofList_toList (s := text), Bytes.ofText_ofList,
      decodeFrom_ofText, String.ofList_toList]
  refine ⟨decodeFrom none back, hchars, ?_⟩
  have hfront := Bytes.ofText_charOf h
  rw [Bytes.ofText_ofList] at hfront
  rw [← String.ofList_toList (s := text), Bytes.ofText_ofList, hchars, List.flatMap_append,
    hfront] at htext
  rw [Bytes.ofText_ofList]
  exact (List.append_cancel_left htext).symm

end Micheline.Text.Utf8
