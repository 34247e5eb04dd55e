/-
  PhaseCert.Proofs.Protocol.Store — parameters read in a document, and decoded on their own.

  The reader of documents tells a scalar's kind by what the tree is. The decoder of parameters is
  told no kind and tries one after the other. Both come to the same value (`decode?_eq`): the only
  trees of two kinds are the integers of the signed range, and an integer is tried first. A float
  that is whole stays a float, an integer past the range becomes one, and a text stays a text
  whatever it spells.

  So a document that is valid but for its parameters is loaded with a mapping there exactly if the
  mapping is decoded, and with the parameters that it is decoded as (`ofDocument_parameters`).
-/
import PhaseCert.Proofs.Protocol.Document
import PhaseCert.Proofs.Protocol.Replacement

namespace PhaseCert

/-- Trying the kinds in turn finds the kind that the tree is. -/
theorem ParamValue.decode?_eq (t : Tree) : decode? t = ofTree? t := by
  cases t with
  | int n =>
    rw [decode?, ofTree?, Tree.integer?]
    cases n.signed? <;> rfl
  | _ => rfl

namespace Located

theorem toOption_parameter (t : Located) : t.parameter.toOption = ParamValue.decode? t.tree := by
  rw [ParamValue.decode?_eq, parameter]
  cases ParamValue.ofTree? t.tree <;> rfl

/-- A section of parameters is read as it is decoded, and not read if it is not decoded. -/
theorem toOption_parameters {t : Located} {m : Tree} (h : t.tree.value? "parameters" = some m) :
    t.parameters.toOption = Parameters.ofTree? m := by
  have hs : t.optional "parameters" = some (t.child "parameters" m) := by rw [optional_eq, h, Option.map_some]
  rw [parameters, hs]
  cases m with
  | map entries =>
    show Except.toOption (_ >>= fun values => pure (KeyMap.ofList values)) = _
    rw [Outcome.toOption_map, Outcome.toOption_mapM, Parameters.ofTree?]
    simp only [Outcome.toOption_map, toOption_parameter, child]
  | _ => rfl

end Located

/-- Only mappings of scalars are decoded. -/
theorem Parameters.table_of_ofTree? {m : Tree} {p : Parameters} (h : ofTree? m = some p) :
    (Schema.table Schema.scalar).Valid m := by
  have hm : m.isNull = false := by
    cases m with
    | null => cases h
    | _ => rfl
  have hv : (Tree.map [("parameters", m)]).value? "parameters" = some m := by
    simp [Tree.value?, Tree.get?, Entries.get?, hm]
  -- a document with that section alone: its parameters are read, so their checks hold
  have hread : Located.parameters ⟨[], .map [("parameters", m)]⟩ = .ok p := by
    rw [← Outcome.toOption_eq_some, Located.toOption_parameters hv, h]
  have hchecks := (Located.parameters_reports ⟨[], .map [("parameters", m)]⟩).isOk_iff.1 ⟨p, hread⟩
  exact (Schema.valid_iff_checks _ _).2 hchecks m hv

namespace Protocol

theorem takes_parameters {m : Tree} (h : (Schema.table Schema.scalar).Valid m) :
    Schema.protocol.Takes m [.key "parameters"] := by
  simp [Schema.protocol, Schema.record, Schema.all, Schema.identity, Schema.required, Schema.Takes, h]

/-- The parameters of a document that is loaded are what its section is decoded as. -/
theorem ReadFrom.ofTree?_parameters {p : Protocol} {document m : Tree} (h : p.ReadFrom ⟨[], document⟩)
    (hm : document.value? "parameters" = some m) : Parameters.ofTree? m = some p.parameters := by
  rw [← Located.toOption_parameters (t := ⟨[], document⟩) hm, Outcome.toOption_eq_some]
  exact h.parameters

/-- In a document that is valid but for its parameters, a mapping is loaded as the parameters that
    it is decoded as, and is at fault where it is not decoded. -/
theorem ofDocument_parameters (document : Tree) (hd : ValidBut document [.key "parameters"])
    (entries : List (String × Tree)) :
    (∀ p, (∃ c, ofDocument (document.put [.key "parameters"] (.map entries)) = .ok c ∧ c.parameters = p) ↔
        Parameters.ofTree? (.map entries) = some p) ∧
      ((∃ e, ofDocument (document.put [.key "parameters"] (.map entries)) = .error e) ↔
        Parameters.ofTree? (.map entries) = none) := by
  have hvalue : (document.put [.key "parameters"] (.map entries)).value? "parameters" = some (.map entries) := by
    obtain ⟨v, hv⟩ := Option.ne_none_iff_exists'.1 hd.stands
    obtain ⟨u, hu, -⟩ := Option.bind_eq_some_iff.1 hv
    rw [Tree.value?, Tree.get?_put_key, hu, Option.map_some, if_pos rfl, Tree.put_nil]
    rfl
  have hsound : ∀ c, ofDocument (document.put [.key "parameters"] (.map entries)) = .ok c →
      Parameters.ofTree? (.map entries) = some c.parameters := by
    intro c hc
    exact (ofDocument_ok_iff.1 hc).ofTree?_parameters hvalue
  have hcomplete : ∀ p, Parameters.ofTree? (.map entries) = some p →
      ∃ c, ofDocument (document.put [.key "parameters"] (.map entries)) = .ok c := by
    intro p hp
    exact hd.loads rfl (takes_parameters (Parameters.table_of_ofTree? hp))
  constructor
  · intro p
    constructor
    · rintro ⟨c, hc, rfl⟩
      exact hsound c hc
    · intro hp
      obtain ⟨c, hc⟩ := hcomplete p hp
      refine ⟨c, hc, ?_⟩
      rw [hsound c hc, Option.some.injEq] at hp
      exact hp
  · constructor
    · rintro ⟨e, he⟩
      rw [Option.eq_none_iff_forall_ne_some]
      intro p hp
      obtain ⟨c, hc⟩ := hcomplete p hp
      rw [he] at hc
      cases hc
    · intro hnone
      cases hc : ofDocument (document.put [.key "parameters"] (.map entries)) with
      | error e => exact ⟨e, rfl⟩
      | ok c =>
        rw [hsound c hc] at hnone
        cases hnone

theorem validBut_twoState {place : Place} (h : (twoState.document.at? place).isSome = true) :
    ValidBut twoState.document place := by
  have hloaded : ofDocument twoState.document = .ok twoState :=
    Outcome.mapError_eq_ok.2 (ofTree_document twoState_wellFormed)
  exact .of_loaded (Tree.canonical_sorted twoState.written) hloaded (Option.isSome_iff_ne_none.1 h)

/-- Scalars at the edges of their kinds. -/
def edgeParameters : List (String × Tree) :=
  [("last", .int ⟨9223372036854775807, by decide⟩), ("past", .int ⟨9223372036854775808, by decide⟩),
    ("whole", .float ⟨.one, rfl⟩), ("zero", .float ⟨.neg .zero, rfl⟩), ("numeral", .text "1")]

/-- The integer past 2^63 is stored as a float, the others as what they are; with a null among them
    nothing is. -/
theorem ofDocument_parameters_edge :
    ValidBut twoState.document [.key "parameters"] ∧
      (∃ c, ofDocument (twoState.document.put [.key "parameters"] (.map edgeParameters)) = .ok c ∧
        c.parameters = .ofList
          [("last", .integer ⟨9223372036854775807, by decide⟩), ("past", .float (.ofInt 9223372036854775808)),
            ("whole", .float .one), ("zero", .float (.neg .zero)), ("numeral", .text "1")]) ∧
      ∃ e, ofDocument (twoState.document.put [.key "parameters"] (.map (("none", .null) :: edgeParameters))) =
        .error e := by
  have hd : ValidBut twoState.document [.key "parameters"] := validBut_twoState rfl
  exact ⟨hd, ((ofDocument_parameters _ hd edgeParameters).1 _).2 rfl,
    (ofDocument_parameters _ hd (("none", .null) :: edgeParameters)).2.2 rfl⟩

end Protocol

end PhaseCert
