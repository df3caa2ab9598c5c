import Micheline.Proofs.Expr.Normal
import Micheline.Proofs.Pack.Fault
import Micheline.Proofs.Pack.Layout

/-!
How far the limit of a packing matters. Raising it can only lift a refusal for nesting, since what
is written does not depend on it and no other fault does; and the limit that the JSON reader has of
its own keeps every expression that was read from a text below the default one.
-/

namespace Micheline

namespace Expr

theorem mem_nodesAll_iff {depth : Nat} {node : Nat × Expr} {es : List Expr} :
    node ∈ nodesAll depth es ↔ ∃ e ∈ es, node ∈ e.nodes depth := by
  induction es with
  | nil => simp [nodesAll]
  | cons e es ih => simp [nodesAll, ih]

theorem jsonNesting_le_deepest {e : Expr} {es : List Expr} (h : e ∈ es) :
    e.jsonNesting ≤ deepest es := by
  induction es with
  | nil => cases h
  | cons first es ih =>
      rw [deepest]
      obtain rfl | h := List.mem_cons.mp h
      · exact Nat.le_max_left ..
      · exact Nat.le_trans (ih h) (Nat.le_max_right ..)

end Expr

namespace Pack

variable {limit limit' : Nat}

/-- A node that is in order under one limit and not under a lower one is nested too deep there. -/
theorem fault?_of_le (h : limit ≤ limit') (node : Nat × Expr) :
    fault? limit node = some (.depthExceeded limit) ∨ fault? limit node = fault? limit' node := by
  obtain ⟨depth, e⟩ := node
  by_cases hdepth : limit < depth
  · left
    simp only [fault?, if_pos hdepth]
  · right
    have hdepth' : ¬ limit' < depth := fun h' => hdepth (Nat.lt_of_le_of_lt h h')
    simp only [fault?, if_neg hdepth, if_neg hdepth']

theorem findSome?_fault?_of_le (h : limit ≤ limit') (nodes : List (Nat × Expr)) :
    nodes.findSome? (fault? limit) = some (.depthExceeded limit) ∨
      nodes.findSome? (fault? limit) = nodes.findSome? (fault? limit') := by
  induction nodes with
  | nil => exact .inr rfl
  | cons node nodes ih =>
      rw [List.findSome?_cons, List.findSome?_cons]
      obtain hfault | hfault := fault?_of_le h node
      · exact .inl (by rw [hfault])
      · rw [hfault]
        cases fault? limit' node with
        | none => exact ih
        | some error => exact .inr rfl

theorem failure?_packWithin (limit : Nat) (e : Expr) :
    failure? (e.packWithin limit) = (e.nodes 1).findSome? (fault? limit) := by
  rw [Expr.packWithin, encodeBehind, failure?_map, failure?_write]

/-- Whatever the limits, two packings that both succeed give the same octets. -/
theorem packWithin_congr {e : Expr}
    (h : failure? (e.packWithin limit) = failure? (e.packWithin limit')) :
    e.packWithin limit = e.packWithin limit' := by
  cases hpack : e.packWithin limit with
  | error error =>
      rw [hpack] at h
      exact ((failure?_eq_some_iff _ error).mp h.symm).symm
  | ok packed =>
      rw [hpack] at h
      obtain ⟨packed', hpack'⟩ := (failure?_eq_none_iff _).mp h.symm
      obtain ⟨bytes, hlayout, rfl⟩ := layout_of_encodeBehind hpack
      obtain ⟨bytes', hlayout', rfl⟩ := layout_of_encodeBehind hpack'
      obtain rfl := hlayout.unique hlayout'
      exact hpack'.symm

theorem packWithin_of_le (h : limit ≤ limit') (e : Expr) :
    e.packWithin limit = .error (.depthExceeded limit) ∨
      e.packWithin limit = e.packWithin limit' := by
  obtain hfault | hfault := findSome?_fault?_of_le h (e.nodes 1)
  · left
    rwa [← failure?_packWithin, failure?_eq_some_iff] at hfault
  · right
    apply packWithin_congr
    rw [failure?_packWithin, failure?_packWithin, hfault]

theorem fault?_eq_depthExceeded_iff {node : Nat × Expr} {n : Nat} :
    fault? limit node = some (.depthExceeded n) ↔ limit < node.1 ∧ limit = n := by
  obtain ⟨depth, e⟩ := node
  by_cases hdepth : limit < depth
  · simp [fault?, hdepth]
  · refine iff_of_false ?_ fun h => hdepth h.1
    simp only [fault?, if_neg hdepth]
    cases e with
    | int _ | app _ _ _ | bytes _ =>
        dsimp only
        split <;> simp
    | string _ | seq _ => simp

/-- Each level of an expression has a container of its own in the JSON text. -/
theorem depth_lt_of_mem_nodes {e : Expr} {depth : Nat} {node : Nat × Expr}
    (h : node ∈ e.nodes depth) : node.1 < depth + e.jsonNesting := by
  induction e generalizing depth with
  | int _ | string _ | bytes _ =>
      obtain rfl := List.mem_singleton.mp h
      exact Nat.lt_succ_self depth
  | app name args annots ih =>
      rw [Expr.jsonNesting]
      obtain rfl | h := List.mem_cons.mp h
      · omega
      · obtain ⟨e, he, hnode⟩ := Expr.mem_nodesAll_iff.mp h
        have hlt := ih e he hnode
        have hle := Expr.jsonNesting_le_deepest he
        rw [if_neg (List.ne_nil_of_mem he)]
        omega
  | seq items ih =>
      rw [Expr.jsonNesting]
      obtain rfl | h := List.mem_cons.mp h
      · omega
      · obtain ⟨e, he, hnode⟩ := Expr.mem_nodesAll_iff.mp h
        have hlt := ih e he hnode
        have hle := Expr.jsonNesting_le_deepest he
        omega

theorem packWithin_ne_depthExceeded {e : Expr} (h : e.jsonNesting ≤ limit) (n : Nat) :
    e.packWithin limit ≠ .error (.depthExceeded n) := by
  intro hpack
  rw [← failure?_eq_some_iff, failure?_packWithin] at hpack
  obtain ⟨node, hmem, hfault⟩ := List.exists_of_findSome?_eq_some hpack
  have hnode := depth_lt_of_mem_nodes hmem
  have hdepth := (fault?_eq_depthExceeded_iff.mp hfault).1
  omega

/-- The limit of the reader is as good as any higher limit of the packing: what was read from a text
is never too deep for it. A lower limit can do no more than refuse. -/
theorem limit_never_binds_read {text : String} {e : Expr} (h : Expr.ofJsonText text = .ok e) :
    (∀ limit ≥ 127, e.packWithin limit = e.packWithin 127 ∧
      ∀ n, e.packWithin limit ≠ .error (.depthExceeded n)) ∧
    e.pack = e.packWithin 127 ∧
    ∀ limit < 127, e.packWithin limit = e.packWithin 127 ∨
      e.packWithin limit = .error (.depthExceeded limit) := by
  obtain ⟨value, rest, hread, he, -⟩ := Expr.exists_value_of_ofJsonText h
  have hnesting : e.jsonNesting ≤ 127 :=
    Nat.le_trans (Expr.jsonNesting_le_nesting he) (Json.Value.nesting_le_of_read hread)
  have hhigher : ∀ limit ≥ 127, e.packWithin limit = e.packWithin 127 := by
    intro limit hlimit
    exact ((packWithin_of_le hlimit e).resolve_left (packWithin_ne_depthExceeded hnesting 127)).symm
  refine ⟨?_, hhigher 1024 (by decide), ?_⟩
  · intro limit hlimit
    exact ⟨hhigher limit hlimit, packWithin_ne_depthExceeded (Nat.le_trans hnesting hlimit)⟩
  · intro limit hlimit
    exact (packWithin_of_le (Nat.le_of_lt hlimit) e).symm

/-- A sequence that is at fault on its second level, in front of what is nested deeper. -/
theorem limit_never_binds_read_faulty :
    let e : Expr := .seq [.app "Foo" [] [], .seq [.seq []]]
    Expr.ofJsonText "[\x7b\"prim\": \"Foo\"\x7d, [[]]]" = .ok e ∧
      e.packWithin 1 = .error (.depthExceeded 1) ∧
      e.packWithin 2 = .error (.unknownPrimitive ⟨"Foo"⟩) ∧
      e.packWithin 5000 = .error (.unknownPrimitive ⟨"Foo"⟩) ∧
      e.pack = .error (.unknownPrimitive ⟨"Foo"⟩) := by
  intro e
  have hread : Expr.ofJsonText "[\x7b\"prim\": \"Foo\"\x7d, [[]]]" = .ok e := by decide +kernel
  have hfault : e.packWithin 2 = .error (.unknownPrimitive ⟨"Foo"⟩) := by decide +kernel
  obtain ⟨hhigher, hdefault, hlower⟩ := limit_never_binds_read hread
  have hhighest : e.packWithin 127 = .error (.unknownPrimitive ⟨"Foo"⟩) := by
    cases hlower 2 (by decide) with
    | inl hsame => exact hsame.symm.trans hfault
    | inr hdepth => cases hfault.symm.trans hdepth
  refine ⟨hread, ?_, hfault, (hhigher 5000 (by decide)).1.trans hhighest, hdefault.trans hhighest⟩
  refine (hlower 1 (by decide)).resolve_left ?_
  rw [hhighest]
  decide +kernel

end Pack
end Micheline
