import Micheline.Proofs.Expr.Similar
import Micheline.Proofs.Pack.Layout
import Micheline.Proofs.Pack.Number

/-!
Packed expressions can be read in one way only. Similar expressions are packed alike, and layouts
below 2^32 octets determine the expression up to similarity and end where they end, whatever
follows. At 2^32 a length field wraps, and nothing is claimed.
-/

namespace Micheline.Pack

variable {limit depth : Nat}

theorem isEmpty_congr {annots annots' : List String} (h : annots = [] ↔ annots' = []) :
    annots.isEmpty = annots'.isEmpty := by
  rw [Bool.eq_iff_iff, List.isEmpty_iff, List.isEmpty_iff]
  exact h

theorem writeFront_congr (out : Buffer) (p : Primitive) {args args' : List Expr}
    {annots annots' : List String} (hlen : args.length = args'.length)
    (hnone : args.length < 3 → (annots = [] ↔ annots' = [])) :
    writeFront out p args annots = writeFront out p args' annots' := by
  have htag : applicationTag args.length (!annots.isEmpty) =
      applicationTag args'.length (!annots'.isEmpty) := by
    by_cases hshort : args.length < 3
    · rw [hlen, isEmpty_congr (hnone hshort)]
    · rw [applicationTag, applicationTag, if_neg hshort, if_neg (hlen ▸ hshort)]
  rw [writeFront, writeFront, htag]

theorem writeAnnots_congr (out : Buffer) {annots annots' : List String}
    (h : " ".intercalate annots = " ".intercalate annots') :
    writeAnnots out annots = writeAnnots out annots' := by
  rw [writeAnnots, writeAnnots, annotBytes, annotBytes, h]

theorem writeAll_congr {es fs : List Expr}
    (h : List.Forall₂ (fun e f => ∀ depth out, write limit depth out e = write limit depth out f)
      es fs) (out : Buffer) :
    writeAll limit depth out es = writeAll limit depth out fs := by
  induction h generalizing out with
  | nil => rfl
  | cons hhead _ ih =>
      rw [writeAll_cons, writeAll_cons, hhead]
      exact congrArg _ (funext ih)

theorem write_congr_of_le {e f : Expr} {out : Buffer}
    (h : depth ≤ limit → write limit depth out e = write limit depth out f) :
    write limit depth out e = write limit depth out f := by
  by_cases hd : limit < depth
  · rw [write_of_exceeded hd, write_of_exceeded hd]
  · exact h (Nat.le_of_not_lt hd)

theorem write_similar {e f : Expr} (h : e.Similar f) (out : Buffer) :
    write limit depth out e = write limit depth out f := by
  induction e generalizing f depth out with
  | int s =>
      cases h with
      | refl => rfl
      | int hs ht =>
          refine write_congr_of_le fun hle => ?_
          rw [write_int hle, write_int hle, writeInt, writeInt, Decimal.parse?_eq_some_iff.mpr hs,
            Decimal.parse?_eq_some_iff.mpr ht]
  | string s =>
      cases h with
      | refl => rfl
  | bytes s =>
      cases h with
      | refl => rfl
      | bytes hs ht =>
          refine write_congr_of_le fun hle => ?_
          rw [write_bytes hle, write_bytes hle, writeBytes, writeBytes,
            Hex.decode_eq_ok_iff.mpr hs, Hex.decode_eq_ok_iff.mpr ht]
  | app name args annots ih =>
      cases h with
      | refl => rfl
      | @app _ _ args' _ annots' hargs hjoined hnone =>
          refine write_congr_of_le fun hle => ?_
          have hall := @writeAll_congr limit depth _ _
            (Expr.forall₂_of_similar (fun e he f hf _ out => ih e he hf out) hargs)
          cases hname : Primitive.ofName? name with
          | none => rw [write_app_unknown hle hname, write_app_unknown hle hname]
          | some p =>
              have hfront := fun out => writeFront_congr out p hargs.length_eq hnone
              by_cases hshort : args.length < 3
              · have hshort' : args'.length < 3 := hargs.length_eq ▸ hshort
                rw [write_app_short hle hname hshort, write_app_short hle hname hshort',
                  hfront, hall, isEmpty_congr (hnone hshort)]
                exact congrArg (Except.map · _) (funext fun inner => by
                  rw [writeAnnots_congr inner hjoined])
              · have hlong' : ¬ args'.length < 3 := hargs.length_eq ▸ hshort
                rw [write_app_long hle hname hshort, write_app_long hle hname hlong',
                  hfront, hall]
                exact congrArg (Except.map · _) (funext fun inner =>
                  writeAnnots_congr _ hjoined)
  | seq items ih =>
      cases h with
      | refl => rfl
      | seq hitems =>
          refine write_congr_of_le fun hle => ?_
          rw [write_seq hle, write_seq hle, writeAll_congr
            (Expr.forall₂_of_similar (fun e he f hf _ out => ih e he hf out) hitems)]

/-! The other way round, from octets to expressions. -/

/-- What the first octet of a layout tells. -/
def form : Expr → Nat
  | .int _ => 0
  | .string _ => 1
  | .seq _ => 2
  | .bytes _ => 10
  | .app _ args annots =>
      if args.length < 3 then 3 + 2 * args.length + if annots = [] then 0 else 1 else 9

theorem Layout.eq_cons {e : Expr} {b : Bytes} (h : Layout e b) :
    ∃ rest, b = UInt8.ofNat (form e) :: rest := by
  cases h with
  | int _ | string _ | bytes _ | seq _ => exact ⟨_, rfl⟩
  | app _ _ _ =>
      rw [applicationLayout, form]
      split <;> exact ⟨_, rfl⟩

theorem form_app_bounds (name : String) (args : List Expr) (annots : List String) :
    3 ≤ form (.app name args annots) ∧ form (.app name args annots) ≤ 9 := by
  rw [form]
  split
  · split <;> omega
  · omega

theorem form_le (e : Expr) : form e ≤ 10 := by
  cases e with
  | int _ | string _ | bytes _ | seq _ => simp [form]
  | app name args annots => exact Nat.le_succ_of_le (form_app_bounds name args annots).2

theorem form_ne_app {e : Expr} {name : String} {args : List Expr} {annots : List String}
    (he : form e ∈ [0, 1, 2, 10]) : form e ≠ form (.app name args annots) := by
  intro h
  have hbounds := form_app_bounds name args annots
  rw [← h] at hbounds
  simp only [List.mem_cons, List.not_mem_nil, or_false] at he
  omega

theorem form_eq_of_append_eq {e f : Expr} {b c r s : Bytes} (hb : Layout e b) (hc : Layout f c)
    (h : b ++ r = c ++ s) : form e = form f := by
  obtain ⟨_, rfl⟩ := hb.eq_cons
  obtain ⟨_, rfl⟩ := hc.eq_cons
  have hoctet := (List.cons.inj h).1
  rw [← UInt8.toNat_inj, UInt8.toNat_ofNat', UInt8.toNat_ofNat'] at hoctet
  have he := form_le e
  have hf := form_le f
  omega

theorem form_app_inj {name name' : String} {args args' : List Expr} {annots annots' : List String}
    (h : form (.app name args annots) = form (.app name' args' annots')) :
    (args.length < 3 ↔ args'.length < 3) ∧
      (args.length < 3 → args.length = args'.length ∧ (annots = [] ↔ annots' = [])) := by
  simp only [form] at h
  by_cases ha : annots = [] <;> by_cases ha' : annots' = [] <;>
    simp only [ha, ha', if_true, if_false, iff_true, iff_false, not_true, and_true,
      and_false] at h ⊢ <;>
    split at h <;> split at h <;> omega

theorem numberLayout_append_inj {n m : Int} {r s : Bytes}
    (h : numberLayout n ++ r = numberLayout m ++ s) : n = m ∧ r = s := by
  rw [← encode_eq_numberLayout, ← encode_eq_numberLayout] at h
  exact Number.encode_append_inj h

/-- Whatever stands behind it, the layout of an expression is not the layout of a dissimilar one. -/
def ReadsBack (e : Expr) : Prop :=
  ∀ {f : Expr} {b c r s : Bytes}, Layout e b → Layout f c →
    b.length < 2 ^ 32 → c.length < 2 ^ 32 → b ++ r = c ++ s → e.Similar f ∧ r = s

/-- Parts are told apart if it is known how many there are, or that nothing follows them. -/
theorem readsBack_all {es : List Expr} (ih : ∀ e ∈ es, ReadsBack e) {fs : List Expr}
    {parts parts' : List Bytes} {r s : Bytes} (hes : List.Forall₂ Layout es parts)
    (hfs : List.Forall₂ Layout fs parts') (hl : parts.flatten.length < 2 ^ 32)
    (hl' : parts'.flatten.length < 2 ^ 32) (hend : es.length = fs.length ∨ r = [] ∧ s = [])
    (h : parts.flatten ++ r = parts'.flatten ++ s) : List.Forall₂ Expr.Similar es fs ∧ r = s := by
  induction hes generalizing fs parts' with
  | nil =>
      cases hfs with
      | nil => exact ⟨.nil, h⟩
      | cons hf _ =>
          obtain ⟨rest, rfl⟩ := hf.eq_cons
          obtain hcount | ⟨rfl, rfl⟩ := hend
          · cases hcount
          · cases h
  | cons he _ ihes =>
      cases hfs with
      | nil =>
          obtain ⟨rest, rfl⟩ := he.eq_cons
          obtain hcount | ⟨rfl, rfl⟩ := hend
          · cases hcount
          · cases h
      | cons hf hfs =>
          simp only [List.flatten_cons, List.append_assoc] at h
          simp only [List.flatten_cons, List.length_append] at hl hl'
          obtain ⟨hsimilar, hrest⟩ := ih _ (List.mem_cons_self ..) he hf (by omega) (by omega) h
          have hend' := hend.imp_left Nat.succ.inj
          obtain ⟨hall, hrs⟩ := ihes (fun e he => ih e (List.mem_cons_of_mem _ he)) hfs
            (by omega) (by omega) hend' hrest
          exact ⟨.cons hsimilar hall, hrs⟩

theorem annotsLayout_append_inj {annots annots' : List String} {r s : Bytes}
    (hnone : annots = [] ↔ annots' = []) (hl : (annotsLayout annots).length < 2 ^ 32)
    (hl' : (annotsLayout annots').length < 2 ^ 32)
    (h : annotsLayout annots ++ r = annotsLayout annots' ++ s) :
    " ".intercalate annots = " ".intercalate annots' ∧ r = s := by
  by_cases ha : annots = []
  · have ha' := hnone.mp ha
    subst ha ha'
    exact ⟨rfl, h⟩
  · have ha' : annots' ≠ [] := fun h' => ha (hnone.mpr h')
    simp only [annotsLayout, if_neg ha, if_neg ha', Bytes.length_framed] at h hl hl'
    obtain ⟨hjoined, hrs⟩ := Bytes.framed_append_inj (by omega) (by omega) h
    exact ⟨Bytes.ofText_inj hjoined, hrs⟩

theorem readsBack_app (name : String) {args : List Expr} (annots : List String)
    (ih : ∀ e ∈ args, ReadsBack e) : ReadsBack (.app name args annots) := by
  intro f b c r s hb hc hlb hlc h
  have hform := form_eq_of_append_eq hb hc h
  cases f with
  | int _ | string _ | bytes _ | seq _ =>
      exact absurd hform.symm (form_ne_app (by simp [form]))
  | app name' args' annots' =>
      obtain ⟨hshort_iff, hshort_eq⟩ := form_app_inj hform
      cases hb with
      | app hname hargs =>
          cases hc with
          | app hname' hargs' =>
              by_cases hshort : args.length < 3
              · obtain ⟨hcount, hnone⟩ := hshort_eq hshort
                simp only [applicationLayout, if_pos hshort, if_pos (hshort_iff.mp hshort),
                  List.cons_append, List.append_assoc, List.length_cons, List.length_append,
                  List.cons.injEq] at h hlb hlc
                obtain ⟨-, hcode, hrest⟩ := h
                obtain ⟨hall, hslot⟩ := readsBack_all ih hargs hargs' (by omega) (by omega)
                  (.inl hcount) hrest
                obtain ⟨hjoined, hrs⟩ := annotsLayout_append_inj hnone (by omega) (by omega) hslot
                obtain rfl := Primitive.codeOf_inj hname hname' hcode
                exact ⟨.app hall hjoined fun _ => hnone, hrs⟩
              · have hlong := fun hshort' => hshort (hshort_iff.mpr hshort')
                simp only [applicationLayout, if_neg hshort, if_neg hlong, List.cons_append,
                  List.append_assoc, List.length_cons, List.length_append, Bytes.length_framed,
                  List.cons.injEq, true_and] at h hlb hlc
                obtain ⟨hcode, hrest⟩ := h
                obtain ⟨hparts, hbehind⟩ := Bytes.framed_append_inj (by omega) (by omega) hrest
                obtain ⟨hall, -⟩ := readsBack_all ih hargs hargs' (by omega) (by omega)
                  (.inr ⟨rfl, rfl⟩) (congrArg (· ++ []) hparts)
                obtain ⟨hjoined, hrs⟩ := Bytes.framed_append_inj (by omega) (by omega) hbehind
                obtain rfl := Primitive.codeOf_inj hname hname' hcode
                exact ⟨.app hall (Bytes.ofText_inj hjoined) fun hlt => absurd hlt hshort, hrs⟩

theorem readsBack (e : Expr) : ReadsBack e := by
  induction e with
  | app name args annots ih => exact readsBack_app name annots ih
  | int s =>
      intro f b c r t hb hc _ _ h
      have hform := form_eq_of_append_eq hb hc h
      cases hb with
      | int hs =>
          cases hc with
          | int ht =>
              obtain ⟨rfl, hrt⟩ := numberLayout_append_inj (List.cons.inj h).2
              exact ⟨.int hs ht, hrt⟩
          | app => exact absurd hform (form_ne_app (by simp [form]))
          | string | bytes | seq => cases hform
  | string s =>
      intro f b c r t hb hc hlb hlc h
      have hform := form_eq_of_append_eq hb hc h
      cases hb with
      | string =>
          cases hc with
          | string =>
              obtain ⟨htext, hrt⟩ := Bytes.cons_framed_append_inj hlb hlc h
              obtain rfl := Bytes.ofText_inj htext
              exact ⟨.refl _, hrt⟩
          | app => exact absurd hform (form_ne_app (by simp [form]))
          | int | bytes | seq => cases hform
  | bytes s =>
      intro f b c r t hb hc hlb hlc h
      have hform := form_eq_of_append_eq hb hc h
      cases hb with
      | bytes hs =>
          cases hc with
          | bytes ht =>
              obtain ⟨rfl, hrt⟩ := Bytes.cons_framed_append_inj hlb hlc h
              exact ⟨.bytes hs ht, hrt⟩
          | app => exact absurd hform (form_ne_app (by simp [form]))
          | int | string | seq => cases hform
  | seq items ih =>
      intro f b c r t hb hc hlb hlc h
      have hform := form_eq_of_append_eq hb hc h
      cases hb with
      | seq hitems =>
          cases hc with
          | seq hitems' =>
              obtain ⟨hparts, hrt⟩ := Bytes.cons_framed_append_inj hlb hlc h
              simp only [List.length_cons, Bytes.length_framed] at hlb hlc
              obtain ⟨hall, -⟩ := readsBack_all ih hitems hitems' (by omega) (by omega)
                (.inr ⟨rfl, rfl⟩) (congrArg (· ++ []) hparts)
              exact ⟨.seq hall, hrt⟩
          | app => exact absurd hform (form_ne_app (by simp [form]))
          | int | string | bytes => cases hform

/-- Similar expressions are packed alike, and no others are; nor does one packed expression begin
like another and go on. -/
theorem encode_uniquely_readable :
    Equivalence Expr.Similar ∧
    (∀ e f : Expr, e.Similar f → e.encode = f.encode) ∧
    ∀ (e f : Expr) (b c : Bytes), e.encode = .ok b → f.encode = .ok c →
      b.length < 2 ^ 32 → c.length < 2 ^ 32 →
      (∀ r s, b ++ r = c ++ s → r = s ∧ e.Similar f) ∧
      (b = c ↔ e.Similar f) ∧ (b <+: c → b = c) := by
  refine ⟨Expr.similar_equivalence, ?_, ?_⟩
  · intro e f h
    rw [Expr.encode, Expr.encode, encodeBehind, encodeBehind, write_similar h]
  · intro e f b c he hf hlb hlc
    have hread : ∀ r s, b ++ r = c ++ s → r = s ∧ e.Similar f := by
      intro r s h
      exact (readsBack e (layout_of_encode he) (layout_of_encode hf) hlb hlc h).symm
    refine ⟨hread, ⟨fun h => ?_, fun h => ?_⟩, ?_⟩
    · exact (hread [] [] (by rw [h])).2
    · rw [Expr.encode, encodeBehind, write_similar h] at he
      exact Except.ok.inj (he.symm.trans hf)
    · rintro ⟨r, hr⟩
      have hnil := (hread r [] (by rw [hr, List.append_nil])).1
      rw [← hr, hnil, List.append_nil]

/-- Signs, zeros, the case of digits, a space between annotations and an empty annotation behind
three arguments are spelling. The value of an integer and the name of a primitive are not. -/
theorem encode_uniquely_readable_spelling :
    let e : Expr := .app "Pair" [.int "+5", .bytes "cAFe", .app "Some" [.int "-64"] ["%a %b"]] []
    let f : Expr :=
      .app "Pair" [.int "005", .bytes "CafE", .app "Some" [.int "-064"] ["%a", "%b"]] [""]
    let g : Expr := .app "Pair" [.int "+5", .bytes "cAFe", .app "Some" [.int "-65"] ["%a %b"]] []
    let h : Expr := .app "Pair" [.int "+5", .bytes "cAFe", .app "Left" [.int "-64"] ["%a %b"]] []
    let octets (code low : UInt8) : Bytes := [0x09, 0x07, 0, 0, 0, 23, 0x00, 0x05, 0x0a, 0, 0, 0, 2,
      0xca, 0xfe, 0x06, code, 0x00, low, 0x01, 0, 0, 0, 5, 0x25, 0x61, 0x20, 0x25, 0x62, 0, 0, 0, 0]
    e.encode = .ok (octets 0x09 0xc0) ∧ f.encode = .ok (octets 0x09 0xc0) ∧
      g.encode = .ok (octets 0x09 0xc1) ∧ h.encode = .ok (octets 0x05 0xc0) ∧
      (∀ code low, (octets code low).length < 2 ^ 32) ∧
      e.Similar f ∧ ¬ e.Similar g ∧ ¬ e.Similar h ∧
      ∀ r s, octets 0x09 0xc0 ++ r = octets 0x09 0xc0 ++ s → r = s := by
  intro e f g h octets
  have he : e.encode = .ok (octets 0x09 0xc0) := toOption_eq_some_iff.mp (by decide +kernel)
  have hf : f.encode = .ok (octets 0x09 0xc0) := toOption_eq_some_iff.mp (by decide +kernel)
  have hg : g.encode = .ok (octets 0x09 0xc1) := toOption_eq_some_iff.mp (by decide +kernel)
  have hh : h.encode = .ok (octets 0x05 0xc0) := toOption_eq_some_iff.mp (by decide +kernel)
  have hlen : ∀ code low, (octets code low).length < 2 ^ 32 := fun _ _ => by simp [octets]
  obtain ⟨-, -, hread⟩ := encode_uniquely_readable
  obtain ⟨hend, hsame, -⟩ := hread e f _ _ he hf (hlen _ _) (hlen _ _)
  obtain ⟨-, hother, -⟩ := hread e g _ _ he hg (hlen _ _) (hlen _ _)
  obtain ⟨-, hother', -⟩ := hread e h _ _ he hh (hlen _ _) (hlen _ _)
  refine ⟨he, hf, hg, hh, hlen, hsame.mp rfl, ?_, ?_, fun r s hrs => (hend r s hrs).1⟩
  · intro hsimilar
    exact absurd (hother.mpr hsimilar) (by decide)
  · intro hsimilar
    exact absurd (hother'.mpr hsimilar) (by decide)

end Micheline.Pack
