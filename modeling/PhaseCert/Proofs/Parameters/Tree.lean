/-
  PhaseCert.Proofs.Parameters.Tree — parameters as a tree, and parameters from one.

  The tree of a parameter does not say which kind it is of, so the kind is found again by trying.
  It is the kind that it was (`decode?_toTree_iff`): a whole float and a negative zero are floats
  in the tree too, and a text stays a text whatever it spells. Only a float that is not finite has
  no tree of its own. It becomes null, which is of no kind, and the whole store is lost with it.

  From a tree the way back is open too, but for integers past the signed range: these are stored
  as floats and come back as floats (`toTree_of_decode?`). A store has the keys of its tree in
  their order, so what holds of single values holds of stores (`toTree_faithful`).
-/
import PhaseCert.Proofs.Protocol.Store

namespace PhaseCert

/-! ## Single values -/

namespace ParamValue

theorem toTree_of_not_finite {v : ParamValue} (hv : ¬v.IsFinite) : v.toTree = .null := by
  unfold IsFinite at hv
  push Not at hv
  obtain ⟨x, rfl, hx⟩ := hv
  exact Tree.ofReal_of_not_finite (Bool.eq_false_of_not_eq_true hx)

/-- A value is found again in its tree, if it is not a float without one. -/
theorem decode?_toTree_iff {v w : ParamValue} : decode? v.toTree = some w ↔ v.IsFinite ∧ v = w := by
  by_cases hv : v.IsFinite
  · rw [decode?_eq, ofTree?_toTree hv, Option.some.injEq, and_iff_right hv]
  · rw [toTree_of_not_finite hv]
    constructor
    · intro h
      cases h
    · rintro ⟨hfinite, -⟩
      exact absurd hfinite hv

/-- A tree that is decoded is the tree of its value, if it is no integer past the signed range. -/
theorem toTree_of_decode? {t : Tree} {v : ParamValue} (h : decode? t = some v) :
    v.toTree = t ↔ ∀ n, t = .int n → n.val ≤ 9223372036854775807 := by
  rw [decode?_eq] at h
  cases t with
  | null => cases h
  | seq items => cases h
  | map entries => cases h
  | int n =>
    simp only [Tree.int.injEq, forall_eq']
    rw [ofTree?, Whole.signed?] at h
    by_cases hn : n.val < 9223372036854775808
    · rw [dif_pos hn] at h
      cases h
      exact iff_of_true rfl (Int.le_of_lt_add_one hn)
    · -- what is left of it is a float, which has no integer for a tree
      rw [dif_neg hn] at h
      cases h
      refine iff_of_false ?_ (by omega)
      rw [toTree, Tree.ofReal]
      cases (Binary64.ofInt n.val).finite? <;> simp
  | float x =>
    cases h
    exact iff_of_true (Tree.ofReal_of_isFinite x.property) (by simp)
  | bool b =>
    cases h
    exact iff_of_true rfl (by simp)
  | text s =>
    cases h
    exact iff_of_true rfl (by simp)

end ParamValue

/-! ## Whole stores -/

namespace Parameters

/-- Every float of the store is finite. -/
def IsFinite (p : Parameters) : Prop := ∀ key x, p.get? key = some (.float x) → x.isFinite = true

theorem isFinite_iff {p : Parameters} : p.IsFinite ↔ ∀ e ∈ p.entries, e.2.IsFinite := by
  constructor
  · rintro h ⟨key, v⟩ he x rfl
    exact h key x (Entries.get?_of_mem p.keysGrow.keysDiffer he)
  · intro h key x hx
    exact h _ (Entries.mem_of_get? hx) x rfl

/-- An entry of a tree, and the parameter that it is decoded as. -/
def Decoded (e : String × Tree) (e' : String × ParamValue) : Prop := e'.1 = e.1 ∧ ParamValue.decode? e.2 = some e'.2

theorem decoded_of_mapM {entries : List (String × Tree)} {values : List (String × ParamValue)}
    (h : (entries.mapM fun e => (ParamValue.decode? e.2).map fun v => (e.1, v)) = some values) :
    List.Forall₂ Decoded entries values := by
  induction entries generalizing values with
  | nil =>
    rw [List.mapM_nil] at h
    cases h
    exact .nil
  | cons e entries ih =>
    rw [List.mapM_cons] at h
    obtain ⟨e', he', h⟩ := Option.bind_eq_some_iff.1 h
    obtain ⟨rest, hrest, h⟩ := Option.bind_eq_some_iff.1 h
    obtain ⟨v, hv, rfl⟩ := Option.map_eq_some_iff.1 he'
    cases h
    exact .cons ⟨rfl, hv⟩ (ih hrest)

theorem mapM_of_decoded {entries : List (String × Tree)} {values : List (String × ParamValue)}
    (h : List.Forall₂ Decoded entries values) :
    (entries.mapM fun e => (ParamValue.decode? e.2).map fun v => (e.1, v)) = some values := by
  induction h with
  | nil => rfl
  | @cons e e' entries values he _ ih =>
    obtain ⟨hkey, hvalue⟩ := he
    rw [List.mapM_cons, hvalue, ih, ← hkey]
    rfl

theorem ofTree?_eq_some {t : Tree} {p : Parameters} (h : ofTree? t = some p) :
    ∃ entries values, t = .map entries ∧ List.Forall₂ Decoded entries values ∧ p = .ofList values := by
  cases t with
  | map entries =>
    obtain ⟨values, hvalues, rfl⟩ := Option.map_eq_some_iff.1 h
    exact ⟨entries, values, rfl, decoded_of_mapM hvalues, rfl⟩
  | _ => cases h

/-- The keys of what is decoded are the keys that there were, in their order. -/
theorem keysGrow_of_decoded {entries : List (String × Tree)} {values : List (String × ParamValue)}
    (h : List.Forall₂ Decoded entries values) (hg : KeysGrow entries) : KeysGrow values := by
  have hkeys : values.map Prod.fst = entries.map Prod.fst := by
    induction h with
    | nil => rfl
    | cons he _ ih => rw [List.map_cons, List.map_cons, he.1, ih hg.of_cons]
  have hpairwise : (entries.map Prod.fst).Pairwise (· < ·) := List.pairwise_map.2 hg
  rw [← hkeys] at hpairwise
  exact List.pairwise_map.1 hpairwise

/-- The store that a tree in key order is decoded as. -/
theorem entries_of_ofTree? {entries : List (String × Tree)} {p : Parameters} (hg : KeysGrow entries)
    (h : ofTree? (.map entries) = some p) : List.Forall₂ Decoded entries p.entries := by
  obtain ⟨entries', values, ht, hd, rfl⟩ := ofTree?_eq_some h
  cases ht
  have hlist : KeyMap.ofList values = ⟨values, keysGrow_of_decoded hd hg⟩ :=
    KeyMap.ofList_entries ⟨values, keysGrow_of_decoded hd hg⟩
  rw [hlist]
  exact hd

theorem ofTree?_toTree {p : Parameters} (hp : p.IsFinite) : ofTree? p.toTree = some p := by
  have hd : List.Forall₂ Decoded (p.entries.map fun e => (e.1, e.2.toTree)) p.entries := by
    rw [List.forall₂_map_left_iff, List.forall₂_same]
    exact fun e he => ⟨rfl, ParamValue.decode?_toTree_iff.2 ⟨isFinite_iff.1 hp e he, rfl⟩⟩
  rw [toTree, ofTree?, mapM_of_decoded hd, Option.map_some, KeyMap.ofList_entries]

/-- One float that is not finite is enough for the tree to be no store. -/
theorem ofTree?_toTree_of_not_finite {p : Parameters} (hp : ¬p.IsFinite) : ofTree? p.toTree = none := by
  rw [Option.eq_none_iff_forall_ne_some]
  intro q hq
  obtain ⟨entries, values, ht, hd, -⟩ := ofTree?_eq_some hq
  cases ht
  refine hp (isFinite_iff.2 fun e he => ?_)
  obtain ⟨i, hi, rfl⟩ := List.getElem_of_mem he
  obtain ⟨hlength, hget⟩ := List.forall₂_iff_get.1 hd
  rw [List.length_map] at hlength
  obtain ⟨-, hdecode⟩ := hget i (by rwa [List.length_map]) (hlength ▸ hi)
  simp only [List.get_eq_getElem, List.getElem_map] at hdecode
  exact (ParamValue.decode?_toTree_iff.1 hdecode).1

theorem toTree_of_decoded {entries : List (String × Tree)} {values : List (String × ParamValue)}
    (h : List.Forall₂ Decoded entries values) :
    (values.map fun e => (e.1, e.2.toTree)) = entries ↔
      ∀ e ∈ entries, ∀ n, e.2 = .int n → n.val ≤ 9223372036854775807 := by
  induction h with
  | nil => simp
  | cons he _ ih =>
    rw [List.map_cons, List.cons.injEq, List.forall_mem_cons, ih, Prod.ext_iff, ← ParamValue.toTree_of_decode? he.2]
    simp only [he.1, true_and]

/-- A store comes back from its tree, kind by kind and bit by bit, if all its floats are finite, and
    nothing comes back if one is not. A tree that a store is read from is the tree of that store, if
    it has no integer past the signed range; one that has is not. -/
theorem toTree_faithful :
    (∀ p : Parameters, (ofTree? p.toTree = some p ↔ p.IsFinite) ∧ (ofTree? p.toTree = none ↔ ¬p.IsFinite)) ∧
      ∀ (t : Tree) (p : Parameters), t.Canonical → ofTree? t = some p →
        (p.toTree = t ↔ ∀ key n, t.get? key = some (.int n) → n.val ≤ 9223372036854775807) := by
  constructor
  · intro p
    by_cases hp : p.IsFinite
    · simp [ofTree?_toTree hp, hp]
    · simp [ofTree?_toTree_of_not_finite hp, hp]
  · intro t p hc h
    obtain ⟨entries, -, rfl, -⟩ := ofTree?_eq_some h
    have hd := entries_of_ofTree? hc.1 h
    rw [toTree, Tree.map.injEq, toTree_of_decoded hd]
    constructor
    · intro hn key n hget
      exact hn _ (Entries.mem_of_get? hget) n rfl
    · rintro hn ⟨key, v⟩ he n rfl
      exact hn key n (Entries.get?_of_mem hc.1.keysDiffer he)

/-- Scalars at the edges of their kinds come back, all but an integer past the signed range; and a
    store with an infinite float has no tree. -/
theorem toTree_faithful_edge :
    (∃ p, ofTree? (Tree.map (Entries.erase "past" Protocol.edgeParameters)).sorted = some p ∧
        p.toTree = (Tree.map (Entries.erase "past" Protocol.edgeParameters)).sorted ∧ ofTree? p.toTree = some p) ∧
      (∃ p, ofTree? (Tree.map Protocol.edgeParameters).sorted = some p ∧ p.toTree ≠ (Tree.map Protocol.edgeParameters).sorted) ∧
        ofTree? (toTree (.ofList [("N", .float (.infinite false)), ("p_psi0", .float .half)])) = none := by
  refine ⟨⟨_, rfl, ?_, rfl⟩, ⟨_, rfl, ?_⟩, ?_⟩
  · have hdiffer : KeysDiffer (Entries.erase "past" Protocol.edgeParameters) := by
      simp [KeysDiffer, Entries.erase, Protocol.edgeParameters]
    rw [toTree_faithful.2 _ _ (Tree.canonical_sorted (.map (Entries.erase "past" Protocol.edgeParameters))) rfl]
    intro key n hget
    rw [Tree.get?_sorted hdiffer] at hget
    obtain ⟨t, ht, hsorted⟩ := Option.map_eq_some_iff.1 hget
    have hmem : (key, t) ∈ Entries.erase "past" Protocol.edgeParameters := Entries.mem_of_get? ht
    simp only [Entries.erase, ne_eq, decide_not, Protocol.edgeParameters, String.reduceEq, decide_false, Bool.not_false,
      List.filter_cons_of_pos, decide_true, Bool.not_true, Bool.false_eq_true, not_false_eq_true,
      List.filter_cons_of_neg, List.filter_nil, List.mem_cons, Prod.mk.injEq, List.not_mem_nil, or_false] at hmem
    rcases hmem with ⟨-, rfl⟩ | ⟨-, rfl⟩ | ⟨-, rfl⟩ | ⟨-, rfl⟩ <;> cases hsorted
    exact le_rfl
  · rw [Ne, toTree_faithful.2 _ _ (Tree.canonical_sorted (.map Protocol.edgeParameters)) rfl]
    intro h
    exact absurd (h "past" _ rfl) (by decide)
  · refine (toTree_faithful.1 _).2.2 fun h => ?_
    exact absurd (h "N" (.infinite false) rfl) (by decide)

end Parameters

end PhaseCert
