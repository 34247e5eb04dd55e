/-
  PhaseCert.Proofs.Instance.Lookups — the lookups of an instance, and how it can fail.

  An instance looks up three parameters, one after the other, and has a text if each of them can
  be read. Nothing else can go wrong for a protocol that was read from a document: its security
  parameter is finite, the placeholder's bound lies within [0, 1/2], and so the ends of the
  interval are finite as well. Whatever the margin, the text is refused with the fault of the
  first lookup that fails or not at all (`source_of_document`).
-/
import PhaseCert.Proofs.Certificate.Placeholder
import PhaseCert.Proofs.Instance.Soundness
import PhaseCert.Proofs.Parameters
import PhaseCert.Proofs.Protocol.Document
import PhaseCert.Proofs.Protocol.Sections

namespace PhaseCert

namespace Instance

/-! ## The lookups -/

/-- The three parameters as an instance reads them. -/
structure Looked (ps : Parameters) (n : Nat) (prior0 prior1 : Binary64) : Prop where
  count : ps.countOr "N" defaultN = .ok n
  prior0 : ps.realOr "p_psi0" .half = .ok prior0
  prior1 : ps.realOr "p_psi1" .half = .ok prior1

/-- The first parameter that cannot be read, and what is wrong with it. -/
inductive FirstFault (ps : Parameters) : String → Fault → Prop
  | count {f : Fault} : ps.countOr "N" defaultN = .error f → FirstFault ps "N" f
  | prior0 {n : Nat} {f : Fault} :
    ps.countOr "N" defaultN = .ok n → ps.realOr "p_psi0" .half = .error f → FirstFault ps "p_psi0" f
  | prior1 {n : Nat} {x : Binary64} {f : Fault} :
    ps.countOr "N" defaultN = .ok n → ps.realOr "p_psi0" .half = .ok x → ps.realOr "p_psi1" .half = .error f →
      FirstFault ps "p_psi1" f

theorem looked_or_fault (ps : Parameters) : (∃ n x y, Looked ps n x y) ∨ ∃ key f, FirstFault ps key f := by
  cases hn : ps.countOr "N" defaultN with
  | error f => exact .inr ⟨_, _, .count hn⟩
  | ok n =>
    cases hx : ps.realOr "p_psi0" .half with
    | error f => exact .inr ⟨_, _, .prior0 hn hx⟩
    | ok x =>
      cases hy : ps.realOr "p_psi1" .half with
      | error f => exact .inr ⟨_, _, .prior1 hn hx hy⟩
      | ok y => exact .inl ⟨n, x, y, hn, hx, hy⟩

theorem FirstFault.not_looked {ps : Parameters} {key : String} {f : Fault} (h : FirstFault ps key f) {n : Nat}
    {x y : Binary64} : ¬Looked ps n x y := by
  intro hl
  cases h with
  | count hn =>
    rw [hl.count] at hn
    cases hn
  | prior0 hn hx =>
    rw [hl.prior0] at hx
    cases hx
  | prior1 hn hx hy =>
    rw [hl.prior1] at hy
    cases hy

/-- Only one lookup is the first to fail. -/
theorem FirstFault.unique {ps : Parameters} {key key' : String} {f f' : Fault} (h : FirstFault ps key f)
    (h' : FirstFault ps key' f') : key = key' ∧ f = f' := by
  cases h with
  | count hn => cases h' <;> simp_all
  | prior0 hn hx => cases h' <;> simp_all
  | prior1 hn hx hy => cases h' <;> simp_all

theorem FirstFault.place {ps : Parameters} {key : String} {f : Fault} (h : FirstFault ps key f) :
    f.place = Parameters.place key := by
  cases h with
  | count hn => exact Parameters.place_of_countOr hn
  | prior0 hn hx => exact Parameters.place_of_realOr hx
  | prior1 hn hx hy => exact Parameters.place_of_realOr hy

/-! ## The text -/

/-- The values of an instance are what was looked up, the ends of the interval and the security
    parameter. -/
theorem values_of_looked {p : Protocol} {n : Nat} {x y : Binary64} (h : Looked p.parameters n x y) (c : Certificate) :
    values p c = .ok ⟨n, x, y, c.interval.lower, c.interval.upper, p.securityGoal.epsilon⟩ := by
  simp only [values, h.count, h.prior0, h.prior1]
  rfl

theorem source_of_fault {p : Protocol} {key : String} {f : Fault} (h : FirstFault p.parameters key f) (c : Certificate) :
    source p c = .error (.invalid f) := by
  have hv : values p c = .error f := by
    cases h with
    | count hn =>
      simp only [values, hn]
      rfl
    | prior0 hn hx =>
      simp only [values, hn, hx]
      rfl
    | prior1 hn hx hy =>
      simp only [values, hn, hx, hy]
      rfl
  simp only [source, hv]
  rfl

/-- A text is that of the parameters that were looked up. -/
theorem looked_of_source {p : Protocol} {c : Certificate} {text : String} (h : source p c = .ok text) :
    ∃ n x y, Looked p.parameters n x y ∧
      render ⟨n, x, y, c.interval.lower, c.interval.upper, p.securityGoal.epsilon⟩ = .ok text := by
  rcases looked_or_fault p.parameters with ⟨n, x, y, hl⟩ | ⟨key, f, hf⟩
  · refine ⟨n, x, y, hl, ?_⟩
    simp only [source, values_of_looked hl] at h
    exact Outcome.mapError_eq_ok.1 h
  · rw [source_of_fault hf] at h
    cases h

/-! ## Documents with one parameter -/

/-- The blank protocol with one parameter. -/
def blankWith (key : String) (v : ParamValue) : Protocol := { blankProtocol with parameters := .ofList [(key, v)] }

def blankFields (key : String) (t : Tree) : List (String × Tree) :=
  ("parameters", .map [(key, t)]) :: blankProtocol.fields.filter fun e => e.1 ≠ "parameters"

/-- The document of the blank protocol, a scalar of any kind its one parameter. -/
def blankDocument (key : String) (t : Tree) : Tree := (Tree.map (blankFields key t)).sorted

theorem shows_blankDocument (key : String) (t : Tree) : Shows ⟨[], blankDocument key t⟩ (blankFields key t) :=
  .of_sorted (by simp [KeysDiffer, blankFields, Protocol.fields]) []

theorem parameters_blankDocument {key : String} {t : Tree} {v : ParamValue} (h : ParamValue.ofTree? t = some v) :
    Located.parameters ⟨[], blankDocument key t⟩ = .ok (.ofList [(key, v)]) := by
  have hs : t.sorted = t := by
    cases t with
    | seq items => cases h
    | map entries => cases h
    | _ => rfl
  have hsorted : (Tree.map [(key, t)]).sorted = .map [(key, t)] := by
    rw [Tree.sorted_map, List.map_cons, List.map_nil, hs]
    rfl
  have hshown := (shows_blankDocument key t).optional List.mem_cons_self (by rw [hsorted]; rfl)
  rw [hsorted] at hshown
  have hread : ∀ place, Located.parameter ⟨place, t⟩ = .ok v := fun place => Located.parameter_eq_ok.2 h
  simp only [Located.parameters, hshown]
  simp only [Located.child, Located.entries, List.mapM_cons, List.mapM_nil, hread, Outcome.ok_bind]
  rfl

/-- A scalar in a document is the parameter that it is read as. -/
theorem ofDocument_blankDocument {key : String} {t : Tree} {v : ParamValue} (h : ParamValue.ofTree? t = some v) :
    Protocol.ofDocument (blankDocument key t) = .ok (blankWith key v) := by
  have hs := shows_blankDocument key t
  have hsame : ∀ {k : String} {s : Tree}, (k, s) ∈ blankProtocol.fields → k ≠ "parameters" → (k, s) ∈ blankFields key t := by
    intro k s he hne
    exact List.mem_cons_of_mem _ (List.mem_filter.2 ⟨he, decide_eq_true hne⟩)
  refine Protocol.ofDocument_ok_iff.2 ⟨hs.mapping, ?_, parameters_blankDocument h, ?_, ?_, ?_, ?_, ?_, ?_, ?_⟩
  · exact Located.identity_shown hs (p := blankProtocol) (hsame (by simp [Protocol.fields]) (by decide))
  · exact Located.states_shown hs (List.forall_mem_nil _) (hsame (by simp [blankWith, Protocol.fields]) (by decide))
  · exact Located.measurement_shown hs (List.forall_mem_nil _) (hsame (by simp [blankWith, Protocol.fields]) (by decide))
  · exact Located.device_shown hs ⟨rfl, rfl, rfl⟩ (hsame (by simp [blankWith, Protocol.fields]) (by decide))
  · exact Located.postprocessing_shown hs ⟨rfl, rfl⟩ rfl (hsame (by simp [blankWith, Protocol.fields]) (by decide))
  · exact Located.observed_shown hs ⟨rfl, rfl, rfl⟩ (hsame (by simp [blankWith, Protocol.fields]) (by decide))
  · exact Located.securityGoal_shown hs rfl (hsame (by simp [blankWith, Protocol.fields]) (by decide))
  · exact Located.authorship_shown hs (hsame (by simp [blankWith, Protocol.fields]) (by decide))

/-! ## Every document and margin -/

/-- The estimate of a protocol that was read from a document is normalised with every margin
    that is not negative. Then there is a text, or the first parameter that cannot be read is
    named. -/
theorem source_of_document (document : Tree) (p : Protocol) (margin : Binary64) (hp : Protocol.ofDocument document = .ok p)
    (hm : Binary64.zero.le margin = true) :
    ∃ c, Certificate.normalizeEstimate (Placeholder.estimate p) margin = .ok c ∧
      ((∃ text, source p c = .ok text ∧ ∃ n x y, Looked p.parameters n x y) ∨
        ∃ key f, FirstFault p.parameters key f ∧ source p c = .error (.invalid f) ∧
          f.place.text = "parameters." ++ key) := by
  obtain ⟨c, hc⟩ := Placeholder.normalizeEstimate_isOk p hm
  refine ⟨c, hc, ?_⟩
  rcases looked_or_fault p.parameters with ⟨n, x, y, hl⟩ | ⟨key, f, hf⟩
  · have he := (Protocol.ofDocument_ok_iff.1 hp).epsilon_isFinite
    obtain ⟨text, ht⟩ := source_isOk hl.count hl.prior0 hl.prior1 he (Certificate.interval_proper hc)
    exact .inl ⟨text, ht, n, x, y, hl⟩
  · refine .inr ⟨key, f, hf, source_of_fault hf c, ?_⟩
    rw [hf.place]
    cases hf <;> decide

/-- A text too large for any double is loaded as a parameter and refused where it is looked up,
    at an infinite margin too. -/
theorem source_of_document_overflow :
    Protocol.ofDocument (blankDocument "p_psi1" (.text "1e999")) = .ok (blankWith "p_psi1" (.text "1e999")) ∧
      Binary64.zero.le (.infinite false) = true ∧
        ∃ c f, Certificate.normalizeEstimate (Placeholder.estimate (blankWith "p_psi1" (.text "1e999"))) (.infinite false) = .ok c ∧
          source (blankWith "p_psi1" (.text "1e999")) c = .error (.invalid f) ∧ f.place.text = "parameters.p_psi1" := by
  have hp : Protocol.ofDocument (blankDocument "p_psi1" (.text "1e999")) = .ok (blankWith "p_psi1" (.text "1e999")) :=
    ofDocument_blankDocument rfl
  have hm : Binary64.zero.le (.infinite false) = true := by decide
  obtain ⟨f, hf⟩ : ∃ f, FirstFault (blankWith "p_psi1" (.text "1e999")).parameters "p_psi1" f := by
    refine ⟨⟨Parameters.place "p_psi1", .expected .finiteNumber (.quoted "1e999")⟩, .prior1 (n := defaultN) (x := .half) ?_ ?_ ?_⟩
    · rfl
    · rfl
    · decide
  obtain ⟨c, hc, ⟨text, -, n, x, y, hl⟩ | ⟨key, f', hf', hs, hplace⟩⟩ :=
    source_of_document _ _ (.infinite false) hp hm
  · exact absurd hl hf.not_looked
  · obtain ⟨rfl, rfl⟩ := hf.unique hf'
    exact ⟨hp, hm, c, f, hc, hs, hplace⟩

end Instance

end PhaseCert
