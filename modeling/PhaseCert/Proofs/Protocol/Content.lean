/-
  PhaseCert.Proofs.Protocol.Content — what a protocol that was read holds, and where it stood.

  `HoldsReal`, `HoldsText` and their like say what a tree spells by the schema, without a
  reader. What the readers take from a tree is what it holds (`real_ok`, `text_ok`), and a
  list is read item by item: none is left out, added or moved (`list_ok`). No tree holds a
  number that is not finite, however it is spelled (`HoldsReal.isFinite`), and a matrix is
  read only if all its rows are as wide as the first (`matrix_ok`).

  So a protocol that was read is well formed, and its lists are those of the document, item
  for item (`Protocol.ofDocument_content`).
-/
import Mathlib.Data.List.Forall2
import PhaseCert.Proofs.Protocol.Document
import PhaseCert.Proofs.Protocol.Sections

namespace PhaseCert

/-! ## What a tree holds -/

namespace Tree

/-- A number, or a numeral among blanks that has a nearest finite double. -/
inductive HoldsReal : Tree → Binary64 → Prop
  | int (n : Whole) : HoldsReal (.int n) (.ofInt n.val)
  | float (x : Finite64) : HoldsReal (.float x) x.val
  | text {s : String} {negative : Bool} {d : Decimal} :
    Numeral.DecimalText (trimBlanks s).toList negative d → (d.toBinary64 negative).isFinite = true →
      HoldsReal (.text s) (d.toBinary64 negative)

/-- A text, or a scalar or date that is written as one. -/
inductive HoldsText : Tree → String → Prop
  | text (s : String) : HoldsText (.text s) s
  | int (n : Whole) : HoldsText (.int n) (String.ofList (Json.intText n.val))
  | float (x : Finite64) : HoldsText (.float x) (String.ofList (Json.floatText x.val))
  | bool (b : Bool) : HoldsText (.bool b) (if b then "true" else "false")
  | date (s : String) : HoldsText (.map [(dateKey, .text s)]) s

/-- The value of the key is there, not null, and so. -/
def Under (t : Tree) (key : String) (holds : Tree → Prop) : Prop := ∃ v, t.value? key = some v ∧ holds v

/-- A sequence whose items hold these, one each and in this order. -/
def HoldsList {α : Type} (holds : Tree → α → Prop) (t : Tree) (xs : List α) : Prop :=
  ∃ items, t = .seq items ∧ List.Forall₂ holds items xs

/-- The key has no value, or only null, and there is nothing; or its value is such a sequence. -/
def HoldsListUnder {α : Type} (holds : Tree → α → Prop) (key : String) (t : Tree) (xs : List α) : Prop :=
  match t.value? key with
  | some v => v.HoldsList holds xs
  | none => xs = []

structure HoldsAmplitude (t : Tree) (a : Amplitude) : Prop where
  re : t.Under "re" fun v => v.HoldsReal a.re
  im : t.Under "im" fun v => v.HoldsReal a.im

structure HoldsState (t : Tree) (s : SignalState) : Prop where
  label : t.Under "label" fun v => v.HoldsText s.label
  prior : t.Under "p" fun v => v.HoldsReal s.prior
  amplitudes : t.Under "vec" fun v => v.HoldsList HoldsAmplitude s.amplitudes

structure HoldsElement (t : Tree) (e : PovmElement) : Prop where
  label : t.Under "label" fun v => v.HoldsText e.label
  matrix : t.Under "matrix" fun v => v.HoldsList (HoldsList HoldsAmplitude) e.matrix

structure HoldsDevice (t : Tree) (d : Device) : Prop where
  eta : t.Under "eta" fun v => v.HoldsReal d.eta
  darkCount : t.Under "dark_count" fun v => v.HoldsReal d.darkCount
  detectorEfficiency : t.Under "detector_efficiency" fun v => v.HoldsReal d.detectorEfficiency

structure HoldsErrorCorrection (t : Tree) (e : ErrorCorrection) : Prop where
  scheme : t.Under "scheme" fun v => v.HoldsText e.scheme
  targetFailure : t.Under "target_ferr" fun v => v.HoldsReal e.targetFailure
  inefficiency : t.Under "inefficiency_f" fun v => v.HoldsReal e.inefficiency

structure HoldsPrivacyAmplification (t : Tree) (a : PrivacyAmplification) : Prop where
  method : t.Under "method" fun v => v.HoldsText a.method
  hashFamily : t.Under "hash_family" fun v => v.HoldsText a.hashFamily
  securityParameter : t.Under "security_parameter" fun v => v.HoldsReal a.securityParameter

structure HoldsPostprocessing (t : Tree) (p : Postprocessing) : Prop where
  errorCorrection : t.Under "error_correction" fun v => v.HoldsErrorCorrection p.errorCorrection
  privacyAmplification : t.Under "privacy_amplification" fun v => v.HoldsPrivacyAmplification p.privacyAmplification
  sifting : t.Under "sifting" fun v => v.HoldsText p.sifting

structure HoldsObserved (t : Tree) (o : Observed) : Prop where
  conclusive : t.Under "p_conclusive" fun v => v.HoldsReal o.conclusive
  conclusiveErrorRate : t.Under "error_rate_conclusive" fun v => v.HoldsReal o.conclusiveErrorRate
  inconclusive : t.Under "p_inconclusive" fun v => v.HoldsReal o.inconclusive

structure HoldsSecurityGoal (t : Tree) (g : SecurityGoal) : Prop where
  output : t.Under "output" fun v => v.HoldsText g.output
  epsilon : t.Under "epsilon" fun v => v.HoldsReal g.epsilon
  formulaHint : t.Under "formula_hint" fun v => v.HoldsText g.formulaHint

/-- The document's lists are the protocol's: the states, and the elements of the measurement. -/
structure HoldsLists (document : Tree) (p : Protocol) : Prop where
  states : document.HoldsListUnder HoldsState "states" p.states
  povm : match document.value? "measurements" with
    | some m => m.HoldsListUnder HoldsElement "povm" p.measurement.povm
    | none => p.measurement.povm = []

theorem HoldsReal.isFinite {t : Tree} {x : Binary64} (h : t.HoldsReal x) : x.isFinite = true := by
  cases h with
  | int n =>
    have := n.property
    exact Binary64.isFinite_ofInt (by omega)
  | float x => exact x.property
  | text _ hx => exact hx

theorem Under.elim {t : Tree} {key : String} {p : Tree → Prop} {q : Prop} (h : t.Under key p) (hpq : ∀ v, p v → q) :
    q := by
  obtain ⟨v, -, hp⟩ := h
  exact hpq v hp

section

variable {α : Type} {holds holds' : Tree → α → Prop} {t : Tree} {xs : List α}

theorem HoldsList.imp (h : t.HoldsList holds xs) (himp : ∀ t x, holds t x → holds' t x) : t.HoldsList holds' xs := by
  obtain ⟨items, ht, hall⟩ := h
  exact ⟨items, ht, hall.imp himp⟩

/-- What is so of whatever an item holds is so of every member. -/
theorem HoldsList.forall_mem {p : α → Prop} (h : t.HoldsList holds xs) (hp : ∀ t x, holds t x → p x) : ∀ x ∈ xs, p x := by
  obtain ⟨items, -, hall⟩ := h
  induction hall with
  | nil => exact List.forall_mem_nil p
  | cons hx _ ih => exact List.forall_mem_cons.2 ⟨hp _ _ hx, ih⟩

theorem HoldsListUnder.imp {key : String} (h : t.HoldsListUnder holds key xs) (himp : ∀ t x, holds t x → holds' t x) :
    t.HoldsListUnder holds' key xs := by
  unfold HoldsListUnder at h ⊢
  split at h
  · exact h.imp himp
  · exact h

theorem HoldsListUnder.forall_mem {key : String} {p : α → Prop} (h : t.HoldsListUnder holds key xs)
    (hp : ∀ t x, holds t x → p x) : ∀ x ∈ xs, p x := by
  unfold HoldsListUnder at h
  split at h
  · exact h.forall_mem hp
  · subst h
    exact List.forall_mem_nil p

end

theorem HoldsAmplitude.isFinite {t : Tree} {a : Amplitude} (h : t.HoldsAmplitude a) : a.IsFinite :=
  ⟨h.re.elim fun _ hv => hv.isFinite, h.im.elim fun _ hv => hv.isFinite⟩

theorem HoldsState.isFinite {t : Tree} {s : SignalState} (h : t.HoldsState s) : s.IsFinite := by
  constructor
  · exact h.prior.elim fun _ hv => hv.isFinite
  · exact h.amplitudes.elim fun _ hv => hv.forall_mem fun _ _ ha => ha.isFinite

theorem HoldsElement.isFinite {t : Tree} {e : PovmElement} (h : t.HoldsElement e) :
    ∀ row ∈ e.matrix, ∀ a ∈ row, a.IsFinite := by
  apply h.matrix.elim
  intro v hv
  refine hv.forall_mem fun r row hrow => ?_
  exact hrow.forall_mem fun _ _ ha => ha.isFinite

theorem HoldsDevice.isFinite {t : Tree} {d : Device} (h : t.HoldsDevice d) : d.IsFinite := by
  refine ⟨?_, ?_, ?_⟩
  · exact h.eta.elim fun _ hv => hv.isFinite
  · exact h.darkCount.elim fun _ hv => hv.isFinite
  · exact h.detectorEfficiency.elim fun _ hv => hv.isFinite

theorem HoldsErrorCorrection.isFinite {t : Tree} {e : ErrorCorrection} (h : t.HoldsErrorCorrection e) : e.IsFinite := by
  constructor
  · exact h.targetFailure.elim fun _ hv => hv.isFinite
  · exact h.inefficiency.elim fun _ hv => hv.isFinite

theorem HoldsPrivacyAmplification.isFinite {t : Tree} {a : PrivacyAmplification} (h : t.HoldsPrivacyAmplification a) :
    a.IsFinite :=
  h.securityParameter.elim fun _ hv => hv.isFinite

theorem HoldsPostprocessing.isFinite {t : Tree} {p : Postprocessing} (h : t.HoldsPostprocessing p) :
    p.errorCorrection.IsFinite ∧ p.privacyAmplification.IsFinite := by
  constructor
  · exact h.errorCorrection.elim fun _ hv => hv.isFinite
  · exact h.privacyAmplification.elim fun _ hv => hv.isFinite

theorem HoldsObserved.isFinite {t : Tree} {o : Observed} (h : t.HoldsObserved o) : o.IsFinite := by
  refine ⟨?_, ?_, ?_⟩
  · exact h.conclusive.elim fun _ hv => hv.isFinite
  · exact h.conclusiveErrorRate.elim fun _ hv => hv.isFinite
  · exact h.inconclusive.elim fun _ hv => hv.isFinite

end Tree

namespace Located

/-! ## What is read is what is there -/

theorem real_ok {t : Located} {x : Binary64} (h : t.real = .ok x) : t.tree.HoldsReal x := by
  have hx := real_isFinite h
  obtain ⟨place, tree⟩ := t
  have hfinite : ∀ {y : Binary64}, (if y.isFinite then (.ok y : Reading Binary64)
      else fault ⟨place, tree⟩ (.expected .finiteNumber (.real y))) = .ok x → y = x := by
    intro y hy
    split at hy
    · rwa [Except.ok.injEq] at hy
    · cases hy
  cases tree with
  | int n =>
    rw [← hfinite h]
    exact .int n
  | float y =>
    rw [← hfinite h]
    exact .float y
  | text s =>
    simp only [real] at h
    split at h
    · rename_i y hy
      obtain rfl : y = x := hfinite h
      obtain ⟨negative, d, hd, rfl⟩ := (Numeral.real?_eq_some_iff hx).1 hy
      exact .text hd hx
    · cases h
  | _ => cases h

/-- A number that is there is read, wherever it stands. -/
theorem real_of_holds {t : Tree} {x : Binary64} (h : t.HoldsReal x) (place : Place) : Located.real ⟨place, t⟩ = .ok x := by
  have hx := h.isFinite
  cases h with
  | int n => exact if_pos hx
  | float x => exact if_pos hx
  | text hd _ =>
    simp only [real, (Numeral.real?_eq_some_iff hx).2 ⟨_, _, hd, rfl⟩]
    exact if_pos hx

theorem text_ok {t : Located} {s : String} (h : t.text = .ok s) : t.tree.HoldsText s := by
  obtain ⟨place, tree⟩ := t
  unfold text at h
  split at h
  · rename_i e
    cases h
    cases e
    exact .text s
  · rename_i n e
    cases h
    cases e
    exact .int n
  · rename_i x e
    cases h
    cases e
    exact .float x
  · rename_i b e
    cases h
    cases e
    exact .bool b
  · rename_i key s' e
    split at h
    · rename_i hk
      cases h
      cases e
      subst hk
      exact .date s
    · cases h
  · cases h

theorem field_eq_ok {t v : Located} {key : String} (h : t.field key = .ok v) :
    ∃ tree, t.tree.value? key = some tree ∧ v = t.child key tree := by
  obtain ⟨entries, hentries, -⟩ := Outcome.bind_eq_ok.1 h
  have hmapping : t.tree.IsMapping := expectMapping_eq_ok.1 (Outcome.bind_eq_ok.2 ⟨entries, hentries, rfl⟩)
  cases hv : t.tree.value? key with
  | none =>
    obtain ⟨cause, he⟩ := field_error hmapping key hv
    rw [he] at h
    cases h
  | some tree =>
    rw [field_ok hmapping key hv, Except.ok.injEq] at h
    exact ⟨tree, rfl, h.symm⟩

theorem under_of_field {t v : Located} {key : String} {p : Tree → Prop} (h : t.field key = .ok v) (hp : p v.tree) :
    t.tree.Under key p := by
  obtain ⟨tree, htree, rfl⟩ := field_eq_ok h
  exact ⟨tree, htree, hp⟩

theorem realField_ok {t : Located} {key : String} {x : Binary64} (h : t.realField key = .ok x) :
    t.tree.Under key fun v => v.HoldsReal x := by
  obtain ⟨v, hv, hx⟩ := Outcome.bind_eq_ok.1 h
  exact under_of_field hv (real_ok hx)

theorem textField_ok {t : Located} {key : String} {s : String} (h : t.textField key = .ok s) :
    t.tree.Under key fun v => v.HoldsText s := by
  obtain ⟨v, hv, hs⟩ := Outcome.bind_eq_ok.1 h
  exact under_of_field hv (text_ok hs)

/-! ## Lists -/

/-- Readings of a list's members give as many results, in the same order. -/
theorem forall₂_of_mapM {α β : Type} {f : α → Reading β} {xs : List α} {ys : List β} (h : xs.mapM f = .ok ys) :
    List.Forall₂ (fun x y => f x = .ok y) xs ys := by
  induction xs generalizing ys with
  | nil =>
    rw [List.mapM_nil, Outcome.pure_eq_ok] at h
    subst h
    exact .nil
  | cons x xs ih =>
    rw [List.mapM_cons] at h
    obtain ⟨y, hy, h⟩ := Outcome.bind_eq_ok.1 h
    obtain ⟨zs, hzs, h⟩ := Outcome.bind_eq_ok.1 h
    rw [Outcome.pure_eq_ok] at h
    subst h
    exact .cons hy (ih hzs)

theorem forall_mem_of_mapM {α β : Type} {f : α → Reading β} {p : β → Prop} (hf : ∀ x y, f x = .ok y → p y) {xs : List α}
    {ys : List β} (h : xs.mapM f = .ok ys) : ∀ y ∈ ys, p y := by
  have hread := forall₂_of_mapM h
  clear h
  induction hread with
  | nil => exact List.forall_mem_nil p
  | cons hx _ ih => exact List.forall_mem_cons.2 ⟨hf _ _ hx, ih⟩

theorem forall₂_of_itemsFrom {α : Type} {holds : Tree → α → Prop} {place : Place} {i : Nat} {ts : List Tree} {xs : List α}
    (h : List.Forall₂ (fun t x => holds t.tree x) (itemsFrom place i ts) xs) : List.Forall₂ holds ts xs := by
  induction ts generalizing i xs with
  | nil =>
    cases h
    exact .nil
  | cons t ts ih =>
    cases h with
    | cons hx hxs => exact .cons hx (ih hxs)

theorem items_eq_ok {t : Located} {xs : List Located} (h : t.items = .ok xs) :
    ∃ items, t.tree = .seq items ∧ xs = itemsFrom t.place 0 items := by
  obtain ⟨place, tree⟩ := t
  cases tree with
  | seq items =>
    rw [Located.items, Except.ok.injEq] at h
    exact ⟨items, rfl, h.symm⟩
  | _ => cases h

/-- A list that is read item by item is the list that is there. -/
theorem list_ok {α : Type} {f : Located → Reading α} {holds : Tree → α → Prop} (hf : ∀ t x, f t = .ok x → holds t.tree x)
    {t : Located} {items : List Located} {xs : List α} (hi : t.items = .ok items) (hm : items.mapM f = .ok xs) :
    t.tree.HoldsList holds xs := by
  obtain ⟨ts, ht, rfl⟩ := items_eq_ok hi
  exact ⟨ts, ht, forall₂_of_itemsFrom ((forall₂_of_mapM hm).imp hf)⟩

theorem amplitude_ok {t : Located} {a : Amplitude} (h : t.amplitude = .ok a) : t.tree.HoldsAmplitude a := by
  obtain ⟨u, -, h⟩ := Outcome.bind_eq_ok.1 h
  obtain ⟨v, hv, h⟩ := Outcome.bind_eq_ok.1 h
  obtain ⟨re, hre, h⟩ := Outcome.bind_eq_ok.1 h
  obtain ⟨w, hw, h⟩ := Outcome.bind_eq_ok.1 h
  obtain ⟨im, him, h⟩ := Outcome.bind_eq_ok.1 h
  rw [Outcome.pure_eq_ok] at h
  subst h
  exact ⟨under_of_field hv (real_ok hre), under_of_field hw (real_ok him)⟩

theorem row_ok {t : Located} {row : List Amplitude} (h : t.row = .ok row) : t.tree.HoldsList Tree.HoldsAmplitude row := by
  obtain ⟨items, hi, hm⟩ := Outcome.bind_eq_ok.1 h
  exact list_ok (fun _ _ ha => amplitude_ok ha) hi hm

/-- Where no row is ragged, all are of the width. -/
theorem length_of_not_ragged {α : Type} {width i : Nat} {rows : List (List α)} (h : ragged? width i rows = none) :
    ∀ row ∈ rows, row.length = width := by
  induction rows generalizing i with
  | nil => exact List.forall_mem_nil _
  | cons row rows ih =>
    unfold ragged? at h
    split at h
    · rename_i hw
      exact List.forall_mem_cons.2 ⟨hw, ih h⟩
    · cases h

/-- A matrix that is read is the one that is there, and rectangular. -/
theorem matrix_ok {t : Located} {rows : List (List Amplitude)} (h : t.matrix = .ok rows) :
    t.tree.HoldsList (Tree.HoldsList Tree.HoldsAmplitude) rows ∧
      ∀ row ∈ rows, row.length = (rows.head?.map List.length).getD 0 := by
  obtain ⟨items, hi, h⟩ := Outcome.bind_eq_ok.1 h
  obtain ⟨rows', hm, h⟩ := Outcome.bind_eq_ok.1 h
  have hlist := list_ok (fun _ _ hr => row_ok hr) hi hm
  cases rows' with
  | nil =>
    rw [Outcome.pure_eq_ok] at h
    subst h
    exact ⟨hlist, List.forall_mem_nil _⟩
  | cons first rest =>
    simp only at h
    split at h
    · cases h
    · rename_i hnone
      rw [Outcome.pure_eq_ok] at h
      subst h
      exact ⟨hlist, length_of_not_ragged hnone⟩

theorem signalState_ok {t : Located} {s : SignalState} (h : t.signalState = .ok s) : t.tree.HoldsState s := by
  obtain ⟨u, -, h⟩ := Outcome.bind_eq_ok.1 h
  obtain ⟨label, hlabel, h⟩ := Outcome.bind_eq_ok.1 h
  obtain ⟨prior, hprior, h⟩ := Outcome.bind_eq_ok.1 h
  obtain ⟨v, hv, h⟩ := Outcome.bind_eq_ok.1 h
  obtain ⟨items, hi, h⟩ := Outcome.bind_eq_ok.1 h
  obtain ⟨amplitudes, hm, h⟩ := Outcome.bind_eq_ok.1 h
  rw [Outcome.pure_eq_ok] at h
  subst h
  refine ⟨textField_ok hlabel, realField_ok hprior, ?_⟩
  exact under_of_field hv (list_ok (fun _ _ ha => amplitude_ok ha) hi hm)

theorem povmElement_ok {t : Located} {e : PovmElement} (h : t.povmElement = .ok e) :
    t.tree.HoldsElement e ∧ ∀ row ∈ e.matrix, row.length = e.shape.2 := by
  obtain ⟨u, -, h⟩ := Outcome.bind_eq_ok.1 h
  obtain ⟨label, hlabel, h⟩ := Outcome.bind_eq_ok.1 h
  obtain ⟨v, hv, h⟩ := Outcome.bind_eq_ok.1 h
  obtain ⟨rows, hrows, h⟩ := Outcome.bind_eq_ok.1 h
  rw [Outcome.pure_eq_ok] at h
  subst h
  obtain ⟨hmatrix, hwidth⟩ := matrix_ok hrows
  exact ⟨⟨textField_ok hlabel, under_of_field hv hmatrix⟩, hwidth⟩

/-! ## Sections -/

theorem optional_none {t : Located} {key : String} (h : t.optional key = none) : t.tree.value? key = none := by
  rwa [optional_eq, Option.map_eq_none_iff] at h

theorem optional_some {t v : Located} {key : String} (h : t.optional key = some v) :
    t.tree.value? key = some v.tree := by
  rw [optional_eq, Option.map_eq_some_iff] at h
  obtain ⟨tree, htree, rfl⟩ := h
  exact htree

theorem states_ok {t : Located} {states : List SignalState} (h : t.states = .ok states) :
    t.tree.HoldsListUnder Tree.HoldsState "states" states := by
  unfold Tree.HoldsListUnder
  unfold Located.states at h
  split at h
  · rename_i hnone
    rw [optional_none hnone]
    cases h
    rfl
  · rename_i s hsome
    rw [optional_some hsome]
    obtain ⟨items, hi, hm⟩ := Outcome.bind_eq_ok.1 h
    exact list_ok (fun _ _ hs => signalState_ok hs) hi hm

/-- The elements that are read are those that are there, and all of them are rectangular. -/
theorem measurement_ok {t : Located} {m : Measurement} (h : t.measurement = .ok m) :
    match t.tree.value? "measurements" with
    | some v => v.HoldsListUnder (fun t e => t.HoldsElement e ∧ ∀ row ∈ e.matrix, row.length = e.shape.2) "povm" m.povm
    | none => m.povm = [] := by
  unfold measurement at h
  split at h
  · rename_i hnone
    rw [optional_none hnone]
    cases h
    rfl
  · rename_i s hsome
    rw [optional_some hsome]
    obtain ⟨u, -, h⟩ := Outcome.bind_eq_ok.1 h
    show s.tree.HoldsListUnder _ "povm" m.povm
    unfold Tree.HoldsListUnder
    cases hpovm : s.optional "povm" with
    | none =>
      rw [optional_none hpovm]
      cases hnormalize : s.optional "normalize" with
      | none =>
        rw [hnormalize, hpovm] at h
        cases h
        rfl
      | some n =>
        rw [hnormalize, hpovm] at h
        obtain ⟨normalize, -, h⟩ := Outcome.bind_eq_ok.1 h
        cases h
        rfl
    | some v =>
      rw [optional_some hpovm]
      -- the elements are read in the same way whether the flag is there or not
      have hlist : ∀ normalize, (v.items >>= fun items => items.mapM povmElement >>= fun povm =>
          .ok ⟨normalize, povm⟩ : Reading Measurement) = .ok m → v.tree.HoldsList
            (fun t e => t.HoldsElement e ∧ ∀ row ∈ e.matrix, row.length = e.shape.2) m.povm := by
        intro normalize h
        obtain ⟨items, hi, h⟩ := Outcome.bind_eq_ok.1 h
        obtain ⟨povm, hm, h⟩ := Outcome.bind_eq_ok.1 h
        cases h
        exact list_ok (fun _ _ he => povmElement_ok he) hi hm
      cases hnormalize : s.optional "normalize" with
      | none =>
        rw [hnormalize, hpovm] at h
        exact hlist true h
      | some n =>
        rw [hnormalize, hpovm] at h
        obtain ⟨normalize, -, h⟩ := Outcome.bind_eq_ok.1 h
        exact hlist normalize h

theorem parameter_isFinite {t : Located} {v : ParamValue} (h : t.parameter = .ok v) : v.IsFinite := by
  have hv := parameter_eq_ok.1 h
  unfold ParamValue.ofTree? at hv
  intro x hx
  subst hx
  split at hv
  · rename_i n _
    split at hv
    · cases hv
    · cases hv
      exact (Tree.HoldsReal.int n).isFinite
  · rename_i y _
    cases hv
    exact y.property
  · cases hv
  · cases hv
  · cases hv

theorem parameters_isFinite {t : Located} {ps : Parameters} (h : t.parameters = .ok ps) :
    ∀ e ∈ ps.entries, e.2.IsFinite := by
  unfold Located.parameters at h
  split at h
  · cases h
    exact List.forall_mem_nil _
  · obtain ⟨entries, -, h⟩ := Outcome.bind_eq_ok.1 h
    obtain ⟨values, hvalues, h⟩ := Outcome.bind_eq_ok.1 h
    rw [Outcome.pure_eq_ok] at h
    subst h
    have hfinite : ∀ e ∈ values, e.2.IsFinite := by
      refine forall_mem_of_mapM (fun _ value hvalue => ?_) hvalues
      obtain ⟨v, hv, hvalue⟩ := Outcome.bind_eq_ok.1 hvalue
      rw [Outcome.pure_eq_ok] at hvalue
      subst hvalue
      exact parameter_isFinite hv
    intro e he
    exact hfinite e (KeyMap.mem_of_mem_ofList he)

theorem under_of_subsection {t s : Located} {key : String} {p : Tree → Prop} (h : t.subsection key = .ok s)
    (hp : p s.tree) : t.tree.Under key p := by
  obtain ⟨v, hv, h⟩ := Outcome.bind_eq_ok.1 h
  obtain ⟨u, -, h⟩ := Outcome.bind_eq_ok.1 h
  rw [Outcome.pure_eq_ok] at h
  subst h
  exact under_of_field hv hp

theorem device_ok {t : Located} {d : Device} (h : t.device = .ok d) :
    t.tree.Under "device" fun s => s.HoldsDevice d := by
  obtain ⟨s, hs, h⟩ := Outcome.bind_eq_ok.1 h
  obtain ⟨eta, heta, h⟩ := Outcome.bind_eq_ok.1 h
  obtain ⟨darkCount, hdark, h⟩ := Outcome.bind_eq_ok.1 h
  obtain ⟨efficiency, hefficiency, h⟩ := Outcome.bind_eq_ok.1 h
  rw [Outcome.pure_eq_ok] at h
  subst h
  exact under_of_subsection hs ⟨realField_ok heta, realField_ok hdark, realField_ok hefficiency⟩

theorem errorCorrection_ok {t : Located} {e : ErrorCorrection} (h : t.errorCorrection = .ok e) :
    t.tree.Under "error_correction" fun s => s.HoldsErrorCorrection e := by
  obtain ⟨s, hs, h⟩ := Outcome.bind_eq_ok.1 h
  obtain ⟨scheme, hscheme, h⟩ := Outcome.bind_eq_ok.1 h
  obtain ⟨failure, hfailure, h⟩ := Outcome.bind_eq_ok.1 h
  obtain ⟨inefficiency, hinefficiency, h⟩ := Outcome.bind_eq_ok.1 h
  rw [Outcome.pure_eq_ok] at h
  subst h
  exact under_of_subsection hs ⟨textField_ok hscheme, realField_ok hfailure, realField_ok hinefficiency⟩

theorem privacyAmplification_ok {t : Located} {a : PrivacyAmplification} (h : t.privacyAmplification = .ok a) :
    t.tree.Under "privacy_amplification" fun s => s.HoldsPrivacyAmplification a := by
  obtain ⟨s, hs, h⟩ := Outcome.bind_eq_ok.1 h
  obtain ⟨method, hmethod, h⟩ := Outcome.bind_eq_ok.1 h
  obtain ⟨family, hfamily, h⟩ := Outcome.bind_eq_ok.1 h
  obtain ⟨parameter, hparameter, h⟩ := Outcome.bind_eq_ok.1 h
  rw [Outcome.pure_eq_ok] at h
  subst h
  exact under_of_subsection hs ⟨textField_ok hmethod, textField_ok hfamily, realField_ok hparameter⟩

theorem postprocessing_ok {t : Located} {p : Postprocessing} (h : t.postprocessing = .ok p) :
    t.tree.Under "postprocessing" fun s => s.HoldsPostprocessing p := by
  obtain ⟨s, hs, h⟩ := Outcome.bind_eq_ok.1 h
  obtain ⟨correction, hcorrection, h⟩ := Outcome.bind_eq_ok.1 h
  obtain ⟨amplification, hamplification, h⟩ := Outcome.bind_eq_ok.1 h
  obtain ⟨sifting, hsifting, h⟩ := Outcome.bind_eq_ok.1 h
  rw [Outcome.pure_eq_ok] at h
  subst h
  exact under_of_subsection hs
    ⟨errorCorrection_ok hcorrection, privacyAmplification_ok hamplification, textField_ok hsifting⟩

theorem observed_ok {t : Located} {o : Observed} (h : t.observed = .ok o) :
    t.tree.Under "observed" fun s => s.HoldsObserved o := by
  obtain ⟨s, hs, h⟩ := Outcome.bind_eq_ok.1 h
  obtain ⟨conclusive, hconclusive, h⟩ := Outcome.bind_eq_ok.1 h
  obtain ⟨rate, hrate, h⟩ := Outcome.bind_eq_ok.1 h
  obtain ⟨inconclusive, hinconclusive, h⟩ := Outcome.bind_eq_ok.1 h
  rw [Outcome.pure_eq_ok] at h
  subst h
  exact under_of_subsection hs ⟨realField_ok hconclusive, realField_ok hrate, realField_ok hinconclusive⟩

theorem securityGoal_ok {t : Located} {g : SecurityGoal} (h : t.securityGoal = .ok g) :
    t.tree.Under "security_goal" fun s => s.HoldsSecurityGoal g := by
  obtain ⟨s, hs, h⟩ := Outcome.bind_eq_ok.1 h
  obtain ⟨output, houtput, h⟩ := Outcome.bind_eq_ok.1 h
  obtain ⟨epsilon, hepsilon, h⟩ := Outcome.bind_eq_ok.1 h
  obtain ⟨hint, hhint, h⟩ := Outcome.bind_eq_ok.1 h
  rw [Outcome.pure_eq_ok] at h
  subst h
  exact under_of_subsection hs ⟨textField_ok houtput, realField_ok hepsilon, textField_ok hhint⟩

end Located

/-! ## Documents -/

namespace Protocol.ReadFrom

variable {p : Protocol} {root : Located} (h : p.ReadFrom root)

include h

theorem povm_ok : ∀ e ∈ p.measurement.povm, e.WellFormed := by
  have hread := Located.measurement_ok h.measurement
  split at hread
  · exact hread.forall_mem fun _ _ he => ⟨he.1.isFinite, he.2⟩
  · rw [hread]
    exact List.forall_mem_nil _

theorem wellFormed : p.WellFormed where
  parameters := Located.parameters_isFinite h.parameters
  states := (Located.states_ok h.states).forall_mem fun _ _ hs => hs.isFinite
  povm := h.povm_ok
  device := (Located.device_ok h.device).elim fun _ hs => hs.isFinite
  errorCorrection := (Located.postprocessing_ok h.postprocessing).elim fun _ hs => hs.isFinite.1
  privacyAmplification := (Located.postprocessing_ok h.postprocessing).elim fun _ hs => hs.isFinite.2
  observed := (Located.observed_ok h.observed).elim fun _ hs => hs.isFinite
  epsilon := h.epsilon_isFinite

theorem holdsLists : root.tree.HoldsLists p := by
  refine ⟨Located.states_ok h.states, ?_⟩
  have hread := Located.measurement_ok h.measurement
  split at hread
  · exact hread.imp fun _ _ he => he.1
  · exact hread

end Protocol.ReadFrom

/-- A protocol that is read from a document is well formed, and its lists are those of the
    document, item for item. -/
theorem Protocol.ofDocument_content (document : Tree) (p : Protocol) (h : Protocol.ofDocument document = .ok p) :
    p.WellFormed ∧ document.HoldsLists p := by
  have hread := Protocol.ofDocument_ok_iff.1 h
  exact ⟨hread.wellFormed, hread.holdsLists⟩

namespace Protocol

/-- A state with a truth value for its label and texts for its numbers. -/
def spelledState : Tree :=
  .map [("label", .bool true), ("p", .text " 5e-1\n"),
    ("vec", .seq [.map [("im", .text "-.0"), ("re", .text "+1")], .map [("im", .text "1e-400"), ("re", .text "0.")]])]

/-- A document with that state alone. -/
def spelledDocument : Tree :=
  (Tree.map (("states", .seq [spelledState]) :: twoState.fields.filter fun e => e.1 ≠ "states")).sorted

theorem ofDocument_spelledDocument :
    ∃ p, ofDocument spelledDocument = .ok p ∧ p.states.map (fun s => (s.prior, s.amplitudes.length)) = [(.half, 2)] := by
  have h : ((ofDocument spelledDocument).toOption.map fun p => p.states.map fun s => (s.prior, s.amplitudes.length)) =
      some [(.half, 2)] := by decide +kernel
  cases hp : ofDocument spelledDocument with
  | error e =>
    rw [hp] at h
    cases h
  | ok p =>
    rw [hp] at h
    exact ⟨p, rfl, Option.some.inj h⟩

theorem ofDocument_content_spelled :
    ∃ p, ofDocument spelledDocument = .ok p ∧ p.states.map (fun s => (s.prior, s.amplitudes.length)) = [(.half, 2)] ∧
      p.WellFormed ∧ spelledDocument.HoldsLists p := by
  obtain ⟨p, hp, hstates⟩ := ofDocument_spelledDocument
  exact ⟨p, hp, hstates, ofDocument_content spelledDocument p hp⟩

end Protocol

end PhaseCert
