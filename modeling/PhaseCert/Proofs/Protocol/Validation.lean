/-
  PhaseCert.Proofs.Protocol.Validation — protocols are read from the valid documents only.

  `Reports` ties a reading to the checks of what is read: it succeeds if all of them hold and
  fails at the place of the first that does not. Readings in sequence report the checks in
  sequence (`Reports.bind`), and so every reader of a section reports the checks of its
  schema. Of the whole document that is `ofDocument_spec`.
-/
import PhaseCert.Loading
import PhaseCert.Proofs.Binary64.Nearest
import PhaseCert.Proofs.Outcome
import PhaseCert.Proofs.Protocol.Schema

namespace PhaseCert

open Located

/-- A reading succeeds if all these checks hold, and fails at the first that does not. -/
def Reports {α : Type} (r : Reading α) (cs : List Check) : Prop :=
  match r with
  | .ok _ => ∀ c ∈ cs, c.holds
  | .error f => FirstInvalid cs f.place

namespace Reports

variable {α β : Type}

theorem pure (a : α) : Reports (.ok a) [] := by
  intro c hc
  cases hc

theorem bind {r : Reading α} {f : α → Reading β} {cs ds : List Check} (h : Reports r cs)
    (hf : ∀ a, r = .ok a → Reports (f a) ds) : Reports (r >>= f) (cs ++ ds) := by
  cases r with
  | error e => exact FirstInvalid.append_right h ds
  | ok a =>
    have hfa := hf a rfl
    show Reports (f a) (cs ++ ds)
    unfold Reports at hfa ⊢
    split
    · rename_i b hb
      rw [hb] at hfa
      rw [List.forall_mem_append]
      exact ⟨h, hfa⟩
    · rename_i e he
      rw [he] at hfa
      exact FirstInvalid.append_left h hfa

/-- What is made of a reading in the end is not checked. -/
theorem map {r : Reading α} {cs : List Check} (h : Reports r cs) (f : α → β) : Reports (r >>= fun a => .ok (f a)) cs := by
  cases r with
  | ok a => exact h
  | error e => exact h

/-- Readings of a list's members report the checks of one after those of the other. -/
theorem mapM {γ : Type} {f : γ → Reading β} {g : γ → List Check} {xs : List γ} (h : ∀ x ∈ xs, Reports (f x) (g x)) :
    Reports (xs.mapM f) (xs.flatMap g) := by
  induction xs with
  | nil => exact pure []
  | cons x xs ih =>
    rw [List.mapM_cons, List.flatMap_cons]
    refine bind (h x List.mem_cons_self) fun y _ => ?_
    exact map (ih fun x' hx' => h x' (List.mem_cons_of_mem _ hx')) fun ys => y :: ys

/-- One check, with a reading that tells it. -/
theorem single {r : Reading α} {place : Place} {p : Prop} (hok : p → ∃ a, r = .ok a)
    (herr : ¬p → ∃ cause, r = .error ⟨place, cause⟩) : Reports r [⟨place, p⟩] := by
  by_cases h : p
  · obtain ⟨a, rfl⟩ := hok h
    intro c hc
    rw [List.mem_singleton] at hc
    rw [hc]
    exact h
  · obtain ⟨cause, rfl⟩ := herr h
    exact ⟨[], _, [], rfl, List.forall_mem_nil _, h, rfl⟩

theorem isOk_iff {r : Reading α} {cs : List Check} (h : Reports r cs) : (∃ a, r = .ok a) ↔ ∀ c ∈ cs, c.holds := by
  cases r with
  | ok a => exact ⟨fun _ => h, fun _ => ⟨a, rfl⟩⟩
  | error e =>
    constructor
    · rintro ⟨a, ha⟩
      cases ha
    · intro hall
      exact absurd hall (FirstInvalid.not_all h)

end Reports

namespace Located

/-! ## Scalars -/

theorem expectMapping_reports (t : Located) : Reports t.expectMapping ((Schema.is Tree.IsMapping).checks t) := by
  obtain ⟨place, tree⟩ := t
  refine Reports.single ?_ ?_
  · rintro ⟨entries, h⟩
    simp only at h
    subst h
    exact ⟨(), rfl⟩
  · intro h
    cases tree with
    | map entries => exact absurd ⟨entries, rfl⟩ h
    | _ => exact ⟨_, rfl⟩

theorem isMapping_of_expectMapping {t : Located} {u : Unit} (h : t.expectMapping = .ok u) : t.tree.IsMapping := by
  obtain ⟨place, tree⟩ := t
  cases tree with
  | map entries => exact ⟨entries, rfl⟩
  | _ => cases h

theorem items_reports (t : Located) : Reports t.items ((Schema.is Tree.IsSequence).checks t) := by
  obtain ⟨place, tree⟩ := t
  refine Reports.single ?_ ?_
  · rintro ⟨items, h⟩
    simp only at h
    subst h
    exact ⟨_, rfl⟩
  · intro h
    cases tree with
    | seq items => exact absurd ⟨items, rfl⟩ h
    | _ => exact ⟨_, rfl⟩

theorem items_ok {t : Located} {xs : List Located} (h : t.items = .ok xs) : xs = itemsFrom t.place 0 t.tree.items := by
  obtain ⟨place, tree⟩ := t
  cases tree with
  | seq items =>
    simp only [Located.items, Except.ok.injEq] at h
    rw [← h]
    rfl
  | _ => cases h

theorem flag_reports (t : Located) : Reports t.flag (Schema.flag.checks t) := by
  obtain ⟨place, tree⟩ := t
  refine Reports.single ?_ ?_
  · rintro ⟨b, h⟩
    simp only at h
    subst h
    exact ⟨b, rfl⟩
  · intro h
    cases tree with
    | bool b => exact absurd ⟨b, rfl⟩ h
    | _ => exact ⟨_, rfl⟩

theorem parameter_reports (t : Located) : Reports t.parameter (Schema.scalar.checks t) := by
  obtain ⟨place, tree⟩ := t
  refine Reports.single ?_ ?_
  · rintro (⟨n, h⟩ | ⟨x, h⟩ | ⟨b, h⟩ | ⟨s, h⟩) <;> simp only at h <;> subst h
    · simp only [parameter, ParamValue.ofTree?]
      cases n.signed? with
      | some i => exact ⟨_, rfl⟩
      | none => exact ⟨_, rfl⟩
    · exact ⟨_, rfl⟩
    · exact ⟨_, rfl⟩
    · exact ⟨_, rfl⟩
  · intro h
    cases tree with
    | int n => exact absurd (Or.inl ⟨n, rfl⟩) h
    | float x => exact absurd (Or.inr (Or.inl ⟨x, rfl⟩)) h
    | bool b => exact absurd (Or.inr (Or.inr (Or.inl ⟨b, rfl⟩))) h
    | text s => exact absurd (Or.inr (Or.inr (Or.inr ⟨s, rfl⟩))) h
    | _ => exact ⟨_, rfl⟩

theorem text_reports (t : Located) : Reports t.text (Schema.text.checks t) := by
  obtain ⟨place, tree⟩ := t
  refine Reports.single ?_ ?_
  · rintro (⟨s, h⟩ | ⟨n, h⟩ | ⟨x, h⟩ | ⟨b, h⟩ | ⟨s, h⟩) <;> simp only at h <;> subst h
    · exact ⟨_, rfl⟩
    · exact ⟨_, rfl⟩
    · exact ⟨_, rfl⟩
    · exact ⟨_, rfl⟩
    · exact ⟨s, by simp only [Located.text, if_true]⟩
  · intro h
    unfold text
    split
    · rename_i s e
      exact absurd (Or.inl ⟨s, e⟩) h
    · rename_i n e
      exact absurd (Or.inr (Or.inl ⟨n, e⟩)) h
    · rename_i x e
      exact absurd (Or.inr (Or.inr (Or.inl ⟨x, e⟩))) h
    · rename_i b e
      exact absurd (Or.inr (Or.inr (Or.inr (Or.inl ⟨b, e⟩)))) h
    · rename_i key s e
      split
      · rename_i hk
        subst hk
        exact absurd (Or.inr (Or.inr (Or.inr (Or.inr ⟨s, e⟩)))) h
      · exact ⟨_, rfl⟩
    · exact ⟨_, rfl⟩

theorem real_reports (t : Located) : Reports t.real (Schema.real.checks t) := by
  obtain ⟨place, tree⟩ := t
  refine Reports.single ?_ ?_
  · rintro (⟨n, h⟩ | ⟨x, h⟩ | ⟨s, negative, d, h, hd, hx⟩) <;> simp only at h <;> subst h
    · have hn : (Binary64.ofInt n.val).isFinite = true := by
        have := n.property
        exact Binary64.isFinite_ofInt (by omega)
      exact ⟨_, if_pos hn⟩
    · exact ⟨_, if_pos x.property⟩
    · refine ⟨d.toBinary64 negative, ?_⟩
      have hr := (Numeral.real?_eq_some_iff hx).2 ⟨negative, d, hd, rfl⟩
      simp only [Located.real, hr]
      exact if_pos hx
  · intro h
    cases tree with
    | int n => exact absurd (Or.inl ⟨n, rfl⟩) h
    | float x => exact absurd (Or.inr (Or.inl ⟨x, rfl⟩)) h
    | text s =>
      simp only [Located.real]
      cases hr : Numeral.real? (trimBlanks s) with
      | none => exact ⟨_, rfl⟩
      | some x =>
        by_cases hx : x.isFinite = true
        · obtain ⟨negative, d, hd, rfl⟩ := (Numeral.real?_eq_some_iff hx).1 hr
          exact absurd (Or.inr (Or.inr ⟨s, negative, d, rfl, hd, hx⟩)) h
        · exact ⟨_, if_neg hx⟩
    | _ => exact ⟨_, rfl⟩

/-! ## Fields -/

theorem optional_eq (t : Located) (key : String) : t.optional key = (t.tree.value? key).map (t.child key) := by
  unfold Located.optional Tree.value?
  cases t.tree.get? key with
  | none => rfl
  | some v =>
    cases hv : v.isNull <;> simp [hv]

/-- A reading of a field that may be left out, in which case it succeeds. -/
theorem optional_reports {α : Type} {t : Located} {key : String} {s : Schema} {r : Reading α}
    (hnone : t.optional key = none → ∃ a, r = .ok a) (hsome : ∀ v, t.optional key = some v → Reports r (s.checks v)) :
    Reports r ((Schema.optional key s).checks t) := by
  rw [optional_eq] at hnone hsome
  simp only [Schema.checks]
  cases h : t.tree.value? key with
  | none =>
    rw [h] at hnone
    obtain ⟨a, rfl⟩ := hnone rfl
    exact Reports.pure a
  | some v =>
    rw [h] at hsome
    exact hsome (t.child key v) rfl

theorem optionalText_reports (t : Located) (key : String) :
    Reports (t.optionalText key) ((Schema.optional key Schema.text).checks t) := by
  refine optional_reports (fun h => ⟨"", ?_⟩) fun v h => ?_
  · simp only [optionalText, h]
  · simp only [optionalText, h]
    exact text_reports v

theorem field_ok {t : Located} (ht : t.tree.IsMapping) (key : String) {v : Tree} (h : t.tree.value? key = some v) :
    t.field key = .ok (t.child key v) := by
  obtain ⟨place, tree⟩ := t
  obtain ⟨entries, he⟩ := ht
  simp only at he
  subst he
  simp only [Tree.value?, Tree.get?, Option.filter_eq_some_iff, Bool.not_eq_true'] at h
  simp only [field, Located.entries, h.1, h.2, bind, Except.bind, Bool.false_eq_true, if_false]

theorem field_error {t : Located} (ht : t.tree.IsMapping) (key : String) (h : t.tree.value? key = none) :
    ∃ cause, t.field key = .error ⟨t.place ++ [.key key], cause⟩ := by
  obtain ⟨place, tree⟩ := t
  obtain ⟨entries, he⟩ := ht
  simp only at he
  subst he
  simp only [Tree.value?, Tree.get?] at h
  simp only [field, Located.entries, bind, Except.bind]
  cases hg : Entries.get? key entries with
  | none => exact ⟨_, rfl⟩
  | some v =>
    rw [hg, Option.filter_some] at h
    split at h
    · cases h
    · rename_i hv
      simp only [Bool.not_eq_true', Bool.not_eq_false] at hv
      simp only [hv, if_true]
      exact ⟨_, rfl⟩

/-- A field that has to be there is looked up, and then read. -/
theorem required_reports {α : Type} {t : Located} {key : String} {s : Schema} {f : Located → Reading α}
    (ht : t.tree.IsMapping) (hf : ∀ v, Reports (f v) (s.checks v)) :
    Reports (t.field key >>= f) ((Schema.required key s).checks t) := by
  cases h : t.tree.value? key with
  | none =>
    obtain ⟨cause, he⟩ := field_error ht key h
    rw [he]
    refine ⟨[], _, _, rfl, List.forall_mem_nil _, ?_, rfl⟩
    rw [h]
    rintro ⟨v, hv⟩
    cases hv
  | some v =>
    rw [field_ok ht key h]
    have hchecks : (Schema.required key s).checks t
        = ⟨t.place ++ [.key key], ∃ v, t.tree.value? key = some v⟩ :: s.checks (t.child key v) := by
      simp only [Schema.required, Schema.checks, h, List.singleton_append]
    rw [hchecks]
    have hpresent : Reports (.ok v) [⟨t.place ++ [.key key], ∃ v, t.tree.value? key = some v⟩] :=
      Reports.single (fun _ => ⟨v, rfl⟩) fun hn => absurd ⟨v, h⟩ hn
    exact Reports.bind (f := fun v => f (t.child key v)) hpresent fun v' hv' => by
      simp only [Except.ok.injEq] at hv'
      rw [← hv']
      exact hf (t.child key v)

theorem realField_reports {t : Located} (ht : t.tree.IsMapping) (key : String) :
    Reports (t.realField key) ((Schema.required key Schema.real).checks t) :=
  required_reports ht real_reports

theorem textField_reports {t : Located} (ht : t.tree.IsMapping) (key : String) :
    Reports (t.textField key) ((Schema.required key Schema.text).checks t) :=
  required_reports ht text_reports

/-! ## Lists and records -/

section

variable {α β : Type} {t : Located} {s : Schema} {fields rest : List Schema} {key : String}

theorem list_reports {f : Located → Reading α} (hf : ∀ x, Reports (f x) (s.checks x)) (t : Located) :
    Reports (t.items >>= fun xs => xs.mapM f) ((Schema.list s).checks t) := by
  refine Reports.bind (items_reports t) fun xs hxs => ?_
  rw [items_ok hxs]
  exact Reports.mapM fun x _ => hf x

theorem done_reports (a : α) : Reports (.ok a) ((Schema.all []).checks t) := Reports.pure a

/-- What is read first is checked first. -/
theorem then_reports {r : Reading α} {f : α → Reading β} (h : Reports r (s.checks t))
    (hf : ∀ a, Reports (f a) ((Schema.all rest).checks t)) : Reports (r >>= f) ((Schema.all (s :: rest)).checks t) :=
  Reports.bind h fun a _ => hf a

theorem field_then_reports {g : Located → Reading α} {f : α → Reading β} (ht : t.tree.IsMapping)
    (hg : ∀ v, Reports (g v) (s.checks v)) (hf : ∀ a, Reports (f a) ((Schema.all rest).checks t)) :
    Reports (t.field key >>= fun v => g v >>= f) ((Schema.all (Schema.required key s :: rest)).checks t) := by
  rw [← bind_assoc]
  exact then_reports (required_reports ht hg) hf

/-- What is read after a field that may be left out is read either way. -/
theorem optional_then_reports {r : Reading α} (hnone : t.optional key = none → Reports r ((Schema.all rest).checks t))
    (hsome : ∀ v, t.optional key = some v → Reports r (s.checks v ++ (Schema.all rest).checks t)) :
    Reports r ((Schema.all (Schema.optional key s :: rest)).checks t) := by
  rw [optional_eq] at hnone hsome
  simp only [Schema.all, Schema.checks]
  cases h : t.tree.value? key with
  | none =>
    rw [h] at hnone
    exact hnone rfl
  | some v =>
    rw [h] at hsome
    exact hsome (t.child key v) rfl

theorem optional_bind_reports {found : Located → Reading α} {default : α} {f : α → Reading β}
    (hfound : ∀ v, Reports (found v) (s.checks v)) (hf : ∀ a, Reports (f a) ((Schema.all rest).checks t)) :
    Reports (match t.optional key with
      | some v => found v >>= f
      | none => .ok default >>= f) ((Schema.all (Schema.optional key s :: rest)).checks t) := by
  refine optional_then_reports (fun h => ?_) fun v h => ?_
  · rw [h]
    exact hf default
  · rw [h]
    exact Reports.bind (hfound v) fun a _ => hf a

/-- The fields of a record are read once it is known to be a mapping. -/
theorem record_reports {r : Reading α} (h : t.tree.IsMapping → Reports r ((Schema.all fields).checks t)) :
    Reports (t.expectMapping >>= fun _ => r) ((Schema.record fields).checks t) :=
  Reports.bind (expectMapping_reports t) fun _ hu => h (isMapping_of_expectMapping hu)

theorem subsection_reports {f : Located → Reading α} (ht : t.tree.IsMapping)
    (hf : ∀ v : Located, v.tree.IsMapping → Reports (f v) ((Schema.all fields).checks v)) :
    Reports (t.subsection key >>= f) ((Schema.required key (Schema.record fields)).checks t) := by
  have e : t.subsection key >>= f = t.field key >>= fun v => v.expectMapping >>= fun _ => f v := by
    simp only [subsection, bind_assoc, pure_bind]
  rw [e]
  exact required_reports ht fun v => record_reports (hf v)

end

/-! ## States and measurements -/

theorem amplitude_reports (t : Located) : Reports t.amplitude (Schema.amplitude.checks t) := by
  refine record_reports fun ht => ?_
  refine field_then_reports ht real_reports fun re => ?_
  refine field_then_reports ht real_reports fun im => ?_
  exact done_reports _

theorem row_reports (t : Located) : Reports t.row ((Schema.list Schema.amplitude).checks t) :=
  list_reports amplitude_reports t

theorem signalState_reports (t : Located) : Reports t.signalState (Schema.state.checks t) := by
  refine record_reports fun ht => ?_
  refine then_reports (textField_reports ht "label") fun label => ?_
  refine then_reports (realField_reports ht "p") fun prior => ?_
  have h : Reports (t.field "vec" >>= fun v => v.row >>= fun amplitudes => .ok (SignalState.mk label prior amplitudes))
      ((Schema.all [Schema.required "vec" (Schema.list Schema.amplitude)]).checks t) :=
    field_then_reports ht row_reports fun amplitudes => done_reports _
  simp only [row, bind_assoc] at h
  exact h

theorem states_reports (t : Located) :
    Reports t.states ((Schema.optional "states" (Schema.list Schema.state)).checks t) := by
  refine optional_reports (fun h => ⟨[], ?_⟩) fun v h => ?_
  · simp only [states, h]
  · simp only [states, h]
    exact list_reports signalState_reports v

/-- What is seen of the members of a list is seen of what they are read as. -/
theorem map_eq_of_mapM_ok {α β γ : Type} {f : α → Reading β} {g : β → γ} {h : α → γ}
    (hf : ∀ x y, f x = .ok y → g y = h x) {xs : List α} {ys : List β} (hm : xs.mapM f = .ok ys) :
    ys.map g = xs.map h := by
  induction xs generalizing ys with
  | nil =>
    simp only [List.mapM_nil, Outcome.pure_eq_ok] at hm
    rw [← hm]
    rfl
  | cons x xs ih =>
    rw [List.mapM_cons] at hm
    obtain ⟨y, hy, hm⟩ := Outcome.bind_eq_ok.1 hm
    obtain ⟨zs, hzs, hm⟩ := Outcome.bind_eq_ok.1 hm
    rw [Outcome.pure_eq_ok] at hm
    rw [← hm, List.map_cons, List.map_cons, hf x y hy, ih hzs]

theorem length_itemsFrom (place : Place) (i : Nat) (ts : List Tree) : (itemsFrom place i ts).length = ts.length := by
  induction ts generalizing i with
  | nil => rfl
  | cons t ts ih => rw [itemsFrom, List.length_cons, List.length_cons, ih]

theorem map_itemsFrom {γ : Type} (g : Tree → γ) (place : Place) (i : Nat) (ts : List Tree) :
    (itemsFrom place i ts).map (fun x => g x.tree) = ts.map g := by
  induction ts generalizing i with
  | nil => rfl
  | cons t ts ih => rw [itemsFrom, List.map_cons, List.map_cons, ih]

/-- A row that is read has as many amplitudes as it has items. -/
theorem length_of_row_ok {t : Located} {r : List Amplitude} (h : t.row = .ok r) : r.length = t.tree.items.length := by
  obtain ⟨xs, hxs, hm⟩ := Outcome.bind_eq_ok.1 h
  rw [items_ok hxs] at hm
  have hlen := congrArg List.length (map_eq_of_mapM_ok (g := fun _ => ()) (h := fun _ => ()) (fun _ _ _ => rfl) hm)
  rwa [List.length_map, List.length_map, length_itemsFrom] at hlen

/-- The search for a ragged row finds the first check of the widths that does not hold. -/
theorem ragged?_spec {α : Type} (place : Place) (width : Nat) {rows : List (List α)} {ts : List Tree}
    (h : rows.map List.length = ts.map (·.items.length)) (i : Nat) :
    match ragged? width i rows with
    | none => ∀ t ∈ ts, t.items.length = width
    | some (j, _) =>
      FirstInvalid ((itemsFrom place i ts).map fun r => ⟨r.place, r.tree.items.length = width⟩) (place ++ [.item j]) := by
  induction rows generalizing i ts with
  | nil =>
    cases ts with
    | nil => exact List.forall_mem_nil _
    | cons t ts => cases h
  | cons r rows ih =>
    cases ts with
    | nil => cases h
    | cons t ts =>
      rw [List.map_cons, List.map_cons, List.cons.injEq] at h
      obtain ⟨hr, h⟩ := h
      unfold ragged?
      by_cases hw : r.length = width
      · rw [if_pos hw]
        have ht : t.items.length = width := by rw [← hr, hw]
        have ih := ih h (i + 1)
        split
        · rename_i he
          rw [he] at ih
          rw [List.forall_mem_cons]
          exact ⟨ht, ih⟩
        · rename_i j found he
          rw [he] at ih
          rw [itemsFrom, List.map_cons, ← List.singleton_append]
          refine FirstInvalid.append_left (fun c hc => ?_) ih
          rw [List.mem_singleton] at hc
          rw [hc]
          exact ht
      · rw [if_neg hw]
        refine ⟨[], _, _, rfl, List.forall_mem_nil _, ?_, rfl⟩
        rw [hr] at hw
        exact hw

theorem matrix_reports (t : Located) : Reports t.matrix (Schema.matrix.checks t) := by
  unfold matrix
  rw [← bind_assoc]
  refine Reports.bind (list_reports row_reports t) fun rows hrows => ?_
  obtain ⟨xs, hxs, hm⟩ := Outcome.bind_eq_ok.1 hrows
  rw [items_ok hxs] at hm
  have hlen := map_eq_of_mapM_ok (fun _ _ => length_of_row_ok) hm
  rw [map_itemsFrom fun x => x.items.length] at hlen
  cases rows with
  | nil =>
    have hnil : t.tree.items = [] := by simpa using hlen.symm
    simp only [Schema.checks, hnil]
    exact Reports.pure _
  | cons first rest =>
    have hwidth : t.tree.width = first.length := by
      unfold Tree.width
      cases hi : t.tree.items with
      | nil =>
        rw [hi] at hlen
        cases hlen
      | cons r rs =>
        rw [hi, List.map_cons, List.map_cons, List.cons.injEq] at hlen
        exact hlen.1.symm
    have hspec := ragged?_spec t.place first.length hlen 0
    simp only [Schema.checks, hwidth]
    split
    · rename_i i found he
      rw [he] at hspec
      exact hspec
    · rename_i he
      rw [he] at hspec
      intro c hc
      obtain ⟨x, hx, rfl⟩ := List.mem_map.1 hc
      exact hspec _ (Schema.mem_itemsFrom hx)

theorem povmElement_reports (t : Located) : Reports t.povmElement (Schema.povmElement.checks t) := by
  refine record_reports fun ht => ?_
  refine then_reports (textField_reports ht "label") fun label => ?_
  exact field_then_reports ht matrix_reports fun matrix => done_reports _

theorem measurement_reports (t : Located) :
    Reports t.measurement ((Schema.optional "measurements" Schema.measurement).checks t) := by
  refine optional_reports (fun h => ⟨⟨true, []⟩, ?_⟩) fun v h => ?_
  · simp only [measurement, h]
  · simp only [measurement, h]
    refine record_reports fun _ => ?_
    refine optional_bind_reports flag_reports fun normalize => ?_
    refine optional_then_reports (fun h => ?_) fun w h => ?_
    · simp only [h]
      exact done_reports _
    · simp only [h]
      rw [← bind_assoc]
      exact Reports.bind (list_reports povmElement_reports w) fun povm _ => done_reports _

/-! ## The other sections -/

theorem entries_reports (t : Located) : Reports t.entries ((Schema.is Tree.IsMapping).checks t) := by
  obtain ⟨place, tree⟩ := t
  refine Reports.single ?_ ?_
  · rintro ⟨entries, h⟩
    simp only at h
    subst h
    exact ⟨entries, rfl⟩
  · intro h
    cases tree with
    | map entries => exact absurd ⟨entries, rfl⟩ h
    | _ => exact ⟨_, rfl⟩

theorem entries_ok {t : Located} {es : List (String × Tree)} (h : t.entries = .ok es) : es = t.tree.entries := by
  obtain ⟨place, tree⟩ := t
  cases tree with
  | map entries =>
    simp only [Located.entries, Except.ok.injEq] at h
    rw [← h]
    rfl
  | _ => cases h

theorem parameters_reports (t : Located) :
    Reports t.parameters ((Schema.optional "parameters" (Schema.table Schema.scalar)).checks t) := by
  refine optional_reports (fun h => ⟨.empty, ?_⟩) fun v h => ?_
  · simp only [parameters, h]
  · simp only [parameters, h]
    refine Reports.bind (entries_reports v) fun es hes => ?_
    rw [entries_ok hes]
    have hvalues : Reports (v.tree.entries.mapM fun e => (v.child e.1 e.2).parameter >>= fun x => .ok (e.1, x))
        ((Schema.values Schema.scalar).checks v) :=
      Reports.mapM fun e _ => Reports.map (parameter_reports _) fun x => (e.1, x)
    exact Reports.map hvalues KeyMap.ofList

theorem device_reports {t : Located} (ht : t.tree.IsMapping) :
    Reports t.device ((Schema.required "device" Schema.device).checks t) := by
  refine subsection_reports ht fun v hv => ?_
  refine then_reports (realField_reports hv "eta") fun eta => ?_
  refine then_reports (realField_reports hv "dark_count") fun darkCount => ?_
  refine then_reports (realField_reports hv "detector_efficiency") fun detectorEfficiency => ?_
  exact done_reports _

theorem errorCorrection_reports {t : Located} (ht : t.tree.IsMapping) :
    Reports t.errorCorrection ((Schema.required "error_correction" Schema.errorCorrection).checks t) := by
  refine subsection_reports ht fun v hv => ?_
  refine then_reports (textField_reports hv "scheme") fun scheme => ?_
  refine then_reports (realField_reports hv "target_ferr") fun targetFailure => ?_
  refine then_reports (realField_reports hv "inefficiency_f") fun inefficiency => ?_
  exact done_reports _

theorem privacyAmplification_reports {t : Located} (ht : t.tree.IsMapping) :
    Reports t.privacyAmplification ((Schema.required "privacy_amplification" Schema.privacyAmplification).checks t) := by
  refine subsection_reports ht fun v hv => ?_
  refine then_reports (textField_reports hv "method") fun method => ?_
  refine then_reports (textField_reports hv "hash_family") fun hashFamily => ?_
  refine then_reports (realField_reports hv "security_parameter") fun securityParameter => ?_
  exact done_reports _

theorem postprocessing_reports {t : Located} (ht : t.tree.IsMapping) :
    Reports t.postprocessing ((Schema.required "postprocessing" Schema.postprocessing).checks t) := by
  refine subsection_reports ht fun v hv => ?_
  refine then_reports (errorCorrection_reports hv) fun errorCorrection => ?_
  refine then_reports (privacyAmplification_reports hv) fun privacyAmplification => ?_
  refine then_reports (textField_reports hv "sifting") fun sifting => ?_
  exact done_reports _

theorem observed_reports {t : Located} (ht : t.tree.IsMapping) :
    Reports t.observed ((Schema.required "observed" Schema.observed).checks t) := by
  refine subsection_reports ht fun v hv => ?_
  refine then_reports (realField_reports hv "p_conclusive") fun conclusive => ?_
  refine then_reports (realField_reports hv "error_rate_conclusive") fun conclusiveErrorRate => ?_
  refine then_reports (realField_reports hv "p_inconclusive") fun inconclusive => ?_
  exact done_reports _

theorem securityGoal_reports {t : Located} (ht : t.tree.IsMapping) :
    Reports t.securityGoal ((Schema.required "security_goal" Schema.securityGoal).checks t) := by
  refine subsection_reports ht fun v hv => ?_
  refine then_reports (textField_reports hv "output") fun output => ?_
  refine then_reports (realField_reports hv "epsilon") fun epsilon => ?_
  refine then_reports (textField_reports hv "formula_hint") fun formulaHint => ?_
  exact done_reports _

theorem authorship_reports {t : Located} (ht : t.tree.IsMapping) :
    Reports t.authorship ((Schema.required "meta" Schema.authorship).checks t) := by
  refine subsection_reports ht fun v hv => ?_
  refine then_reports (textField_reports hv "author") fun author => ?_
  refine then_reports (textField_reports hv "email") fun email => ?_
  refine then_reports (textField_reports hv "date") fun date => ?_
  refine then_reports (textField_reports hv "notes") fun notes => ?_
  exact done_reports _

/-- The identity of a document: the section's, or the root's. -/
theorem identity_reports {t : Located} (hroot : t.place = []) : Reports t.identity (Schema.identity.checks t) := by
  simp only [Schema.identity, Schema.checks]
  unfold identity
  rw [optional_eq]
  cases t.tree.value? "protocol" with
  | some v =>
    rw [List.append_nil]
    refine record_reports fun hv => ?_
    refine then_reports (textField_reports hv "name") fun name => ?_
    exact then_reports (optionalText_reports _ "description") fun description => done_reports _
  | none =>
    rw [List.nil_append]
    simp only [Option.map_none]
    cases hn : t.tree.value? "name" with
    | none =>
      rw [optional_eq, hn]
      refine ⟨[], _, _, rfl, List.forall_mem_nil _, ?_, ?_⟩
      · rw [hn]
        rintro ⟨v, hv⟩
        cases hv
      · rw [hroot]
        rfl
    | some v =>
      rw [optional_eq, hn]
      have hpresent : Reports (.ok v)
          [⟨t.place ++ [.key "protocol", .key "name"], ∃ v, t.tree.value? "name" = some v⟩] :=
        Reports.single (fun _ => ⟨v, rfl⟩) fun h => absurd ⟨v, hn⟩ h
      refine Reports.bind (f := fun _ => (t.child "name" v).text >>= fun name =>
        t.optionalText "description" >>= fun description => .ok (name, description)) hpresent fun _ _ => ?_
      refine optional_then_reports (fun h => ?_) fun w h => ?_
      · rw [optional_eq, hn] at h
        cases h
      · rw [optional_eq, hn, Option.map_some, Option.some.injEq] at h
        rw [← h]
        refine Reports.bind (text_reports _) fun name _ => ?_
        exact then_reports (optionalText_reports t "description") fun description => done_reports _

end Located

/-! ## Documents -/

theorem Protocol.ofTree_reports (document : Tree) :
    Reports (Protocol.ofTree document) (Schema.protocol.checks ⟨[], document⟩) := by
  refine record_reports fun ht => ?_
  refine then_reports (identity_reports rfl) fun identity => ?_
  refine then_reports (parameters_reports _) fun parameters => ?_
  refine then_reports (states_reports _) fun states => ?_
  refine then_reports (measurement_reports _) fun measurement => ?_
  refine then_reports (device_reports ht) fun device => ?_
  refine then_reports (postprocessing_reports ht) fun postprocessing => ?_
  refine then_reports (observed_reports ht) fun observed => ?_
  refine then_reports (securityGoal_reports ht) fun securityGoal => ?_
  refine then_reports (authorship_reports ht) fun authorship => ?_
  exact done_reports _

/-- A document describes a protocol exactly if it is valid, and the fault of one that does not is
    at the one place that is the first to be invalid. -/
theorem Protocol.ofDocument_spec (document : Tree) :
    ((∃ p, Protocol.ofDocument document = .ok p) ↔ Schema.protocol.Valid document) ∧
      (Schema.protocol.Valid document ∨ ∃ fault, Protocol.ofDocument document = .error (.invalid fault) ∧
        ∀ place, FirstInvalid (Schema.protocol.checks ⟨[], document⟩) place ↔ place = fault.place) := by
  have hr := Protocol.ofTree_reports document
  have hv := Schema.valid_iff_checks Schema.protocol ⟨[], document⟩
  have hok := hr.isOk_iff
  unfold Protocol.ofDocument
  constructor
  · simp only [Outcome.mapError_eq_ok]
    rw [hok, ← hv]
  · cases h : Protocol.ofTree document with
    | ok p => exact Or.inl (hv.2 (hok.1 ⟨p, h⟩))
    | error fault =>
      rw [h] at hr
      refine Or.inr ⟨fault, rfl, fun place => ⟨fun hp => FirstInvalid.unique hp hr, ?_⟩⟩
      rintro rfl
      exact hr

end PhaseCert
