import Micheline.Base58.Check
import Micheline.Proofs.Radix

/-!
Base-58 text and octet strings correspond one to one, and so do payloads and the texts that carry
them with their checksum: a text is accepted only as the rendering of what is read from it. The
digest behind the checksum is never looked into.
-/

namespace Micheline.Base58

theorem symbol_of_digit? {c : Char} {d : Nat} (h : digit? c = some d) : symbol d = c ∧ d < 58 := by
  obtain ⟨hd, hc, -⟩ := List.idxOf?_eq_some_iff.mp h
  exact ⟨by simp [symbol, List.getElem?_eq_getElem hd, hc], hd⟩

theorem digit?_symbol {d : Nat} (h : d < 58) : digit? (symbol d) = some d := by
  have hall : ∀ i : Fin 58, digit? (symbol i) = some i.val := by decide
  exact hall ⟨d, h⟩

theorem mapM_digit?_map_symbol {ds : List Nat} (h : ∀ d ∈ ds, d < 58) :
    (ds.map symbol).mapM digit? = some ds := by
  induction ds with
  | nil => rfl
  | cons d ds ih =>
      have hrest := ih fun e he => h e (List.mem_cons_of_mem _ he)
      simp [digit?_symbol (h d (List.mem_cons_self ..)), hrest]

theorem map_symbol_of_mapM_digit? {cs : List Char} {ds : List Nat} (h : cs.mapM digit? = some ds) :
    ds.map symbol = cs ∧ ∀ d ∈ ds, d < 58 := by
  induction cs generalizing ds with
  | nil =>
      obtain rfl : [] = ds := Option.some.inj h
      exact ⟨rfl, by simp⟩
  | cons c cs ih =>
      simp only [List.mapM_cons, Option.pure_def, Option.bind_eq_bind, Option.bind_eq_some_iff,
        Option.some.injEq] at h
      obtain ⟨d, hd, rest, hrest, rfl⟩ := h
      obtain ⟨hsymbol, hlt⟩ := symbol_of_digit? hd
      obtain ⟨hmap, hall⟩ := ih hrest
      refine ⟨by rw [List.map_cons, hsymbol, hmap], ?_⟩
      rintro e (_ | ⟨_, he⟩)
      · exact hlt
      · exact hall e he

theorem map_ofNat_toNat (bytes : Bytes) : (bytes.map UInt8.toNat).map UInt8.ofNat = bytes := by
  have hid : UInt8.ofNat ∘ UInt8.toNat = id := funext fun byte => UInt8.ofNat_toNat
  rw [List.map_map, hid, List.map_id]

theorem map_toNat_ofNat {ds : List Nat} (h : ∀ d ∈ ds, d < 256) :
    (ds.map UInt8.ofNat).map UInt8.toNat = ds := by
  have hid : ∀ d ∈ ds, (UInt8.toNat ∘ UInt8.ofNat) d = id d := fun d hd =>
    UInt8.toNat_ofNat_of_lt (h d hd)
  rw [List.map_map, List.map_congr_left hid, List.map_id]

theorem decode?_encode (bytes : Bytes) : decode? (encode bytes) = some bytes := by
  have hbytes : ∀ d ∈ bytes.map UInt8.toNat, d < 256 := by
    intro d hd
    obtain ⟨byte, -, rfl⟩ := List.mem_map.mp hd
    exact byte.toNat_lt
  rw [decode?, encode, String.toList_ofList,
    mapM_digit?_map_symbol fun d hd => Radix.lt_of_mem_convert (by decide) hd, Option.map_some,
    Radix.convert_convert (by decide) (by decide) hbytes, map_ofNat_toNat]

theorem encode_of_decode? {text : String} {bytes : Bytes} (h : decode? text = some bytes) :
    encode bytes = text := by
  rw [decode?, Option.map_eq_some_iff] at h
  obtain ⟨ds, hds, rfl⟩ := h
  obtain ⟨hmap, hlt⟩ := map_symbol_of_mapM_digit? hds
  rw [encode, map_toNat_ofNat fun d hd => Radix.lt_of_mem_convert (by decide) hd,
    Radix.convert_convert (by decide) (by decide) hlt, hmap, String.ofList_toList]

namespace Check

theorem decode_encode (payload : Bytes) : decode (encode payload) = .ok payload := by
  have hlen : (payload ++ checksum payload).length - checksumSize = payload.length := by
    simp
  rw [decode, encode, decode?_encode]
  simp only [hlen, List.take_left, List.drop_left, if_true]
  rw [if_neg (by simp)]

theorem encode_of_decode {text : String} {payload : Bytes} (h : decode text = .ok payload) :
    encode payload = text := by
  rw [decode] at h
  split at h
  · cases h
  next bytes hbytes =>
    split at h
    · cases h
    · dsimp only at h
      split at h
      next hsum =>
        obtain rfl := Except.ok.inj h
        rw [encode, hsum, List.take_append_drop, encode_of_decode? hbytes]
      · cases h

end Check
end Micheline.Base58
