import Mathlib.Data.List.Basic
import Micheline.Primitive

/-!
Looking names up in the vocabulary. A look-up succeeds exactly on the names of the vocabulary, and
the code of what it finds is the place of the name, which no other name has.
-/

namespace Micheline.Primitive

theorem mem_all (p : Primitive) : p ∈ all :=
  List.mem_map.mpr ⟨p.index, List.mem_finRange _, rfl⟩

theorem name_of_ofName? {name : String} {p : Primitive} (h : ofName? name = some p) :
    p.name = name := by
  simpa using List.find?_some h

theorem mem_vocabulary_of_ofName? {name : String} {p : Primitive} (h : ofName? name = some p) :
    name ∈ vocabulary := by
  rw [← name_of_ofName? h]
  exact List.get_mem _ _

theorem ofName?_eq_none_iff (name : String) : ofName? name = none ↔ name ∉ vocabulary := by
  have hmem : name ∈ vocabulary ↔ ∃ p : Primitive, p.name = name := by
    rw [List.mem_iff_get]
    exact ⟨fun ⟨i, hi⟩ => ⟨⟨i⟩, hi⟩, fun ⟨p, hp⟩ => ⟨p.index, hp⟩⟩
  rw [hmem, ofName?, List.find?_eq_none]
  constructor
  · rintro h ⟨p, hp⟩
    exact h p (mem_all p) (by simpa using hp)
  · intro h p _ hp
    exact h ⟨p, by simpa using hp⟩

/-- The place of a name in the vocabulary, as an octet. -/
def codeOf (name : String) : UInt8 :=
  UInt8.ofNat (vocabulary.idxOf name)

theorem index_getElem_all {i : Nat} (h : i < all.length) : all[i].index.val = i := by
  simp only [all, List.getElem_map, List.getElem_finRange, Fin.val_cast]

theorem name_eq_getElem (p : Primitive) : p.name = vocabulary[p.index.val] :=
  rfl

/-- A name is looked up at its first place. -/
theorem index_of_ofName? {name : String} {p : Primitive} (h : ofName? name = some p) :
    p.index.val = vocabulary.idxOf name := by
  obtain ⟨hname, i, hi, hp, hearlier⟩ := List.find?_eq_some_iff_getElem.mp h
  have hindex : p.index.val = i := by rw [← hp, index_getElem_all hi]
  have hfirst : List.findIdx (· == name) vocabulary = p.index.val := by
    refine (List.findIdx_eq p.index.isLt).mpr ⟨hname, fun j hj => ?_⟩
    have hother := hearlier j (hindex ▸ hj)
    rw [name_eq_getElem] at hother
    simpa only [index_getElem_all, Bool.not_eq_true'] using hother
  exact hfirst.symm

theorem code_of_ofName? {name : String} {p : Primitive} (h : ofName? name = some p) :
    p.code = codeOf name := by
  rw [code, codeOf, index_of_ofName? h]

theorem codeOf_inj {name name' : String} (h : name ∈ vocabulary) (h' : name' ∈ vocabulary)
    (hcode : codeOf name = codeOf name') : name = name' := by
  have hlt := List.idxOf_lt_length_iff.mpr h
  have hlt' := List.idxOf_lt_length_iff.mpr h'
  rw [length_vocabulary] at hlt hlt'
  simp only [codeOf, ← UInt8.toNat_inj, UInt8.toNat_ofNat'] at hcode
  exact (List.idxOf_inj h).mp (by omega)

-- The vocabulary is a long list: the match is taken apart by hand, before anything evaluates it.
theorem ofName_of_none {name : String} (h : ofName? name = none) :
    ofName name = .error ⟨name⟩ := by
  unfold ofName
  rw [h]

theorem ofName_of_some {name : String} {p : Primitive} (h : ofName? name = some p) :
    ofName name = .ok p := by
  unfold ofName
  rw [h]

end Micheline.Primitive
