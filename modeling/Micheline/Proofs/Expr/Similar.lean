import Mathlib.Data.List.Forall2
import Micheline.Proofs.Decimal.Denotation
import Micheline.Proofs.Expr.Traversal
import Micheline.Proofs.Hex

/-!
Expressions that differ only in spelling: in how a literal writes its value, in where annotations
are cut at spaces, and, from three arguments on, in whether an empty annotation is there at all.
-/

namespace Micheline.Expr

/-- The least relation that respects applications and sequences and holds between literals of one
value. A literal without a value is similar to itself alone. -/
inductive Similar : Expr → Expr → Prop
  | refl (e : Expr) : Similar e e
  | int {s t : String} {n : Int} (hs : Decimal.Denotes s n) (ht : Decimal.Denotes t n) :
      Similar (.int s) (.int t)
  | bytes {s t : String} {content : Bytes} (hs : Hex.Spells s content)
      (ht : Hex.Spells t content) : Similar (.bytes s) (.bytes t)
  | app {name : String} {args args' : List Expr} {annots annots' : List String}
      (hargs : List.Forall₂ Similar args args')
      (hjoined : " ".intercalate annots = " ".intercalate annots')
      (hnone : args.length < 3 → (annots = [] ↔ annots' = [])) :
      Similar (.app name args annots) (.app name args' annots')
  | seq {items items' : List Expr} (hitems : List.Forall₂ Similar items items') :
      Similar (.seq items) (.seq items')

/-- What follows from similarity for every member of a list follows along the list. -/
theorem forall₂_of_similar {R : Expr → Expr → Prop} {es fs : List Expr}
    (ih : ∀ e ∈ es, ∀ f, Similar e f → R e f) (h : List.Forall₂ Similar es fs) :
    List.Forall₂ R es fs := by
  induction h with
  | nil => exact .nil
  | cons hhead _ ihtail =>
      exact .cons (ih _ (List.mem_cons_self ..) _ hhead)
        (ihtail fun e he => ih e (List.mem_cons_of_mem _ he))

theorem Similar.symm {e f : Expr} (h : Similar e f) : Similar f e := by
  induction e generalizing f with
  | int _ =>
      cases h with
      | refl => exact .refl _
      | int hs ht => exact .int ht hs
  | string _ =>
      cases h with
      | refl => exact .refl _
  | bytes _ =>
      cases h with
      | refl => exact .refl _
      | bytes hs ht => exact .bytes ht hs
  | app name args annots ih =>
      cases h with
      | refl => exact .refl _
      | app hargs hjoined hnone =>
          have hback := forall₂_of_similar (fun e he f hf => ih e he hf) hargs
          refine .app hback.flip hjoined.symm fun hlen => ?_
          rw [← hargs.length_eq] at hlen
          exact (hnone hlen).symm
  | seq items ih =>
      cases h with
      | refl => exact .refl _
      | seq hitems =>
          have hback := forall₂_of_similar (fun e he f hf => ih e he hf) hitems
          exact .seq hback.flip

theorem forall₂_similar_trans {es fs gs : List Expr}
    (ih : ∀ e ∈ es, ∀ {f g}, Similar e f → Similar f g → Similar e g)
    (h : List.Forall₂ Similar es fs) (k : List.Forall₂ Similar fs gs) :
    List.Forall₂ Similar es gs := by
  induction h generalizing gs with
  | nil =>
      cases k
      exact .nil
  | cons hhead _ ihtail =>
      cases k with
      | cons hhead' htail' =>
          exact .cons (ih _ (List.mem_cons_self ..) hhead hhead')
            (ihtail (fun e he => ih e (List.mem_cons_of_mem _ he)) htail')

theorem Similar.trans {e f g : Expr} (h : Similar e f) (k : Similar f g) : Similar e g := by
  induction e generalizing f g with
  | int _ =>
      cases h with
      | refl => exact k
      | int hs ht =>
          cases k with
          | refl => exact .int hs ht
          | int hs' ht' =>
              obtain rfl := ht.unique hs'
              exact .int hs ht'
  | string _ =>
      cases h with
      | refl => exact k
  | bytes _ =>
      cases h with
      | refl => exact k
      | bytes hs ht =>
          cases k with
          | refl => exact .bytes hs ht
          | bytes hs' ht' =>
              obtain rfl := ht.unique hs'
              exact .bytes hs ht'
  | app name args annots ih =>
      cases h with
      | refl => exact k
      | app hargs hjoined hnone =>
          cases k with
          | refl => exact .app hargs hjoined hnone
          | app hargs' hjoined' hnone' =>
              refine .app (forall₂_similar_trans ih hargs hargs') (hjoined.trans hjoined')
                fun hlen => ?_
              exact (hnone hlen).trans (hnone' (hargs.length_eq ▸ hlen))
  | seq items ih =>
      cases h with
      | refl => exact k
      | seq hitems =>
          cases k with
          | refl => exact .seq hitems
          | seq hitems' => exact .seq (forall₂_similar_trans ih hitems hitems')

theorem similar_equivalence : Equivalence Similar :=
  ⟨.refl, .symm, .trans⟩

end Micheline.Expr
