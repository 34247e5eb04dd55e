/-
  PhaseCert.Proofs.Instance.Count — the number of signals, from a document to a text.

  A parameter holds an integer of 64 bits with its sign, or a double. A document's integer below
  2^63 is kept; one from 2^63 on becomes the double nearest to it, a multiple of 2048, and counts
  as at most 2^64 - 1 (`StoredCount`). The count under `N` is that number whatever the default, and it is what the
  text defines `N` as (`count_of_document`). An integer that is no double is lost on the way:
  2^63 + 1 signals are written as 2^63 (`count_drops_a_signal`).
-/
import PhaseCert.Proofs.Binary64.Whole
import PhaseCert.Proofs.Instance.Lookups

namespace PhaseCert

/-! ## Counts that are stored -/

/-- The count that a document's integer is stored as. -/
structure StoredCount (k n : Nat) : Prop where
  kept : k < 9223372036854775808 → n = k
  rounded : 9223372036854775808 ≤ k → k < 18446744073709550592 → n = Binary64.nearestWhole k
  exact : Binary64.wholeStep ∣ k → n = k
  saturated : 18446744073709550592 ≤ k → n = 18446744073709551615
  near : n ≤ k + 1024 ∧ k ≤ n + 1024

namespace StoredCount

theorem ofKept {k : Nat} (h : k < 9223372036854775808) : StoredCount k k where
  kept _ := rfl
  rounded h' := by omega
  exact _ := rfl
  saturated h' := by omega
  near := by omega

/-- A rounded integer, cut at the largest one of 64 bits. -/
theorem ofRounded {k : Nat} (h1 : 9223372036854775808 ≤ k) (h2 : k < 18446744073709551616) :
    StoredCount k (min (Binary64.nearestWhole k) 18446744073709551615) := by
  have hnear := Binary64.nearestWhole_near k
  constructor
  · intro h
    omega
  · intro _ h
    have := Binary64.nearestWhole_lt h
    omega
  · intro h
    rw [Binary64.nearestWhole_of_dvd h]
    omega
  · intro h
    have := Binary64.le_nearestWhole h
    omega
  · omega

end StoredCount

namespace ParamValue

/-- An integer of a document has a count once it is a parameter. -/
theorem count?_int {k : Whole} (h0 : 0 ≤ k.val) :
    ∃ v n, ofTree? (.int k) = some v ∧ v.count? = some n ∧ StoredCount k.val.toNat n := by
  obtain ⟨m, hm⟩ := Int.eq_ofNat_of_zero_le h0
  have hlt := k.property.2
  by_cases h : k.val < 9223372036854775808
  · have hs : k.signed? = some ⟨k.val, k.property.1, h⟩ := dif_pos h
    refine ⟨.integer ⟨k.val, k.property.1, h⟩, k.val.toNat, ?_, ?_, .ofKept (by omega)⟩
    · simp only [ofTree?, hs]
    · exact if_pos h0
  · have hs : k.signed? = none := dif_neg h
    have hto := Binary64.toInt?_ofInt (k := m) (by omega) (by omega)
    have hnear := Binary64.nearestWhole_near m
    refine ⟨.float (.ofInt k.val), min (Binary64.nearestWhole m) 18446744073709551615, ?_, ?_, ?_⟩
    · simp only [ofTree?, hs]
    · rw [hm, count?]
      simp only [hto]
      have hle := Binary64.nearestWhole_le (k := m) (by omega)
      rw [if_pos ⟨Int.natCast_nonneg _, by omega⟩, Int.toNat_natCast]
    · rw [hm, Int.toNat_natCast]
      exact .ofRounded (by omega) (by omega)

end ParamValue

theorem Parameters.countOr_of_get? {ps : Parameters} {key : String} {v : ParamValue} {n : Nat} (h : ps.get? key = some v)
    (hv : v.count? = some n) (default : Nat) : ps.countOr key default = .ok n := by
  simp only [countOr, h, hv]

namespace Instance

/-! ## The definition of the count -/

/-- The line defines `N`. -/
def DefinesCount (line : String) : Prop := "Definition N ".toList <+: line.toList

/-- The text has this one line that defines `N`. -/
def CountLine (text line : String) : Prop :=
  line ∈ sourceLines text ∧ ∀ l ∈ sourceLines text, DefinesCount l → l = line

theorem not_definesCount_plain {s : String} {l : List Char} (h : s = String.ofList l) (hp : isPlain l = true) :
    ¬DefinesCount s := by
  rintro ⟨rest, hrest⟩
  have hl : s.toList = l := by rw [h, String.toList_ofList]
  rw [hl] at hrest
  rw [← hrest] at hp
  simp [isPlain] at hp

/-- The name of a real does not begin as the count's does. -/
theorem head_of_mem_reals {v : InstanceValues} {r : String × Binary64} (hr : r ∈ reals v) :
    ∃ c cs, r.1.toList = c :: cs ∧ c ≠ 'N' := by
  have hn : r.1 ∈ ["p_psi0", "p_psi1", "delta_ph_lower", "delta_ph_upper", "epsilon"] :=
    List.mem_map_of_mem (f := Prod.fst) hr
  generalize r.1 = name at hn
  simp only [List.mem_cons, List.not_mem_nil, or_false] at hn
  rcases hn with rfl | rfl | rfl | rfl | rfl <;> exact ⟨_, _, rfl, by decide⟩

theorem not_definesCount_real {v : InstanceValues} {r : String × Binary64} (hr : r ∈ reals v) :
    ¬DefinesCount (definition r.1 "R" (realLiteral r.2)) := by
  rintro ⟨rest, hrest⟩
  obtain ⟨c, cs, hc, hne⟩ := head_of_mem_reals hr
  rw [toList_definition, hc] at hrest
  simp at hrest
  exact hne hrest.1.symm

/-- The text of values defines `N` as their count. -/
theorem countLine_lines {v : InstanceValues} (hf : ∀ r ∈ reals v, r.2.isFinite = true) :
    CountLine (joinLines (lines v)) (definition "N" "Z" (intLiteral v.n)) := by
  unfold CountLine
  rw [sourceLines_joinLines (newline_not_mem_lines hf)]
  constructor
  · simp only [lines, List.mem_cons, true_or, or_true]
  · refine forall_lines (P := fun l => DefinesCount l → l = _) v ?_ ?_ ?_
    · intro s l h hp hd
      exact absurd hd (not_definesCount_plain h hp)
    · exact fun _ => rfl
    · intro r hr hd
      exact absurd hd (not_definesCount_real hr)

theorem definition_count (n : Nat) :
    definition "N" "Z" (intLiteral n) = "Definition N : Z := (" ++ toString n ++ ")%Z." := by
  rw [← String.toList_inj, toList_definition, intLiteral]
  simp

/-- The text of a protocol defines `N` as the count that was looked up. -/
theorem countLine_source {p : Protocol} {c : Certificate} {text : String} {n : Nat}
    (hn : p.parameters.countOr "N" defaultN = .ok n) (h : source p c = .ok text) :
    CountLine text ("Definition N : Z := (" ++ toString n ++ ")%Z.") := by
  obtain ⟨m, x, y, hl, hr⟩ := looked_of_source h
  have hm : m = n := by
    have hm := hl.count.symm.trans hn
    rwa [Except.ok.injEq] at hm
  subst hm
  obtain ⟨rfl, hf⟩ := render_eq_ok hr
  rw [← definition_count]
  exact countLine_lines hf

/-! ## From a document to a text -/

/-- The count of a document is stored, and is there whatever the default. -/
theorem countOr_of_document {document : Tree} {p : Protocol} {k : Whole} (hc : document.Canonical)
    (hk : (document.get? "parameters").bind (Tree.get? "N") = some (.int k)) (h0 : 0 ≤ k.val)
    (hp : Protocol.ofDocument document = .ok p) :
    ∃ n, StoredCount k.val.toNat n ∧ ∀ default, p.parameters.countOr "N" default = .ok n := by
  obtain ⟨v, n, hv, hn, hs⟩ := ParamValue.count?_int h0
  refine ⟨n, hs, ?_⟩
  obtain ⟨store, hstore, hentry⟩ := Option.bind_eq_some_iff.1 hk
  cases store with
  | map entries =>
    have hd : KeysDiffer entries := by
      cases document with
      | map sections =>
        have hmem := Entries.mem_of_get? hstore
        exact ((Tree.entriesCanonical_iff sections).1 hc.2 _ hmem).1.keysDiffer
      | _ => cases hstore
    have hget := (Protocol.ofDocument_ok_iff.1 hp).get?_parameters hstore hd "N"
    have hN : Entries.get? "N" entries = some (.int k) := hentry
    rw [hN, Option.bind_some, hv] at hget
    exact Parameters.countOr_of_get? hget hn
  | _ => cases hentry

/-- A document's number of signals is kept below 2^63 and rounded to a double from there on. It
    is the count under every default, and what the text defines `N` as. -/
theorem count_of_document (document : Tree) (p : Protocol) (k : Whole) (hc : document.Canonical)
    (hk : (document.get? "parameters").bind (Tree.get? "N") = some (.int k)) (h0 : 0 ≤ k.val)
    (hp : Protocol.ofDocument document = .ok p) :
    ∃ n, StoredCount k.val.toNat n ∧ (∀ default, p.parameters.countOr "N" default = .ok n) ∧
      ∀ raw margin c text, Certificate.normalize raw margin = .ok c → source p c = .ok text →
        CountLine text ("Definition N : Z := (" ++ toString n ++ ")%Z.") := by
  obtain ⟨n, hs, hn⟩ := countOr_of_document hc hk h0 hp
  refine ⟨n, hs, hn, ?_⟩
  intro raw margin c text _ ht
  exact countLine_source (hn defaultN) ht

/-- One signal more than 2^63. -/
def oddCount : Whole := ⟨9223372036854775809, by decide⟩

theorem get?_blankDocument (key : String) (t : Tree) :
    ((blankDocument key t).get? "parameters").bind (Tree.get? key) = some t.sorted := by
  rw [(shows_blankDocument key t).get? List.mem_cons_self, Option.bind_some, Tree.sorted_map]
  simp [KeyMap.ofList, KeyMap.insert, KeyMap.empty, Entries.insert, Tree.get?, Entries.get?]

theorem ofDocument_oddCount : Protocol.ofDocument (blankDocument "N" (.int oddCount)) = .ok
    (blankWith "N" (.float (.ofInt 9223372036854775809))) :=
  ofDocument_blankDocument (by decide +kernel)

theorem count_of_document_odd :
    (blankDocument "N" (.int oddCount)).Canonical ∧
      ∃ p n, Protocol.ofDocument (blankDocument "N" (.int oddCount)) = .ok p ∧ StoredCount 9223372036854775809 n ∧
        p.parameters.countOr "N" defaultN = .ok n := by
  have hc : (blankDocument "N" (.int oddCount)).Canonical := Tree.canonical_sorted _
  obtain ⟨n, hs, hn, -⟩ := count_of_document _ _ oddCount hc (get?_blankDocument _ _) (by decide) ofDocument_oddCount
  exact ⟨hc, _, n, ofDocument_oddCount, hs, hn defaultN⟩

/-- A document with 2^63 + 1 signals is loaded as one with 2^63, and has a text that says so. -/
theorem count_drops_a_signal :
    (blankDocument "N" (.int oddCount)).Canonical ∧
      ((blankDocument "N" (.int oddCount)).get? "parameters").bind (Tree.get? "N") = some (.int oddCount) ∧
        ∃ p c text, Protocol.ofDocument (blankDocument "N" (.int oddCount)) = .ok p ∧
          p.parameters.countOr "N" defaultN = .ok 9223372036854775808 ∧
            Certificate.normalize .empty Certificate.defaultMargin = .ok c ∧ source p c = .ok text ∧
              CountLine text "Definition N : Z := (9223372036854775808)%Z." := by
  refine ⟨Tree.canonical_sorted _, get?_blankDocument _ _, ?_⟩
  obtain ⟨c, hc⟩ := normalize_empty
  have hn : (blankWith "N" (.float (.ofInt 9223372036854775809))).parameters.countOr "N" defaultN =
      .ok 9223372036854775808 := by decide +kernel
  obtain ⟨text, ht⟩ := source_isOk (p := blankWith "N" (.float (.ofInt 9223372036854775809))) hn (x := .half) (y := .half) rfl rfl
    Binary64.zero_isFinite (Certificate.interval_proper hc)
  exact ⟨_, c, text, ofDocument_oddCount, hn, hc, ht, countLine_source hn ht⟩

end Instance

end PhaseCert
