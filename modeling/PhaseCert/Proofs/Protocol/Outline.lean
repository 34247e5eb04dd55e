/-
  PhaseCert.Proofs.Protocol.Outline — what is read of a document, and what is not.

  An outline names the keys that are read of a mapping, what is read of their values, and the
  keys whose null counts as absence. `Outline.Change` is one change in what an outline leaves
  out: a key that is not read, a null for an absent key, or such a change further down, in a
  section or in an item of a list.

  `essence` keeps of a tree what its outline reads, and no more: of a text that spells a number it
  keeps the number. A change leaves the essence as it is (`Change.essence_eq`), and a document is
  read as its essence is, fault for fault (`ofTree_essence`). So documents that lead to one
  another by changes are read alike (`ofDocument_of_changes`). With a `protocol` section the
  root's own name is a key that is not read: a section that is broken is a fault, whatever the
  root's name is.
-/
import Mathlib.Logic.Relation
import PhaseCert.Proofs.Protocol.Content

namespace PhaseCert

/-- What is read of a tree. -/
inductive Outline where
  /-- All of it. -/
  | whole
  /-- The number that it is or spells. -/
  | number
  /-- This of each item. -/
  | list (item : Outline)
  /-- This of the values of these keys. A null under an optional key counts as absence. -/
  | record (fields : List (String × Outline)) (optional : List String)

namespace Outline

/-! ## The outline of protocol documents -/

def amplitude : Outline := record [("re", number), ("im", number)] []

def state : Outline := record [("label", whole), ("p", number), ("vec", list amplitude)] []

def povmElement : Outline := record [("label", whole), ("matrix", list (list amplitude))] []

def measurement : Outline :=
  record [("normalize", whole), ("povm", list povmElement)] ["normalize", "povm"]

def identity : Outline := record [("name", whole), ("description", whole)] ["description"]

def device : Outline :=
  record [("eta", number), ("dark_count", number), ("detector_efficiency", number)] []

def errorCorrection : Outline :=
  record [("scheme", whole), ("target_ferr", number), ("inefficiency_f", number)] []

def privacyAmplification : Outline :=
  record [("method", whole), ("hash_family", whole), ("security_parameter", number)] []

def postprocessing : Outline :=
  record [("error_correction", errorCorrection), ("privacy_amplification", privacyAmplification),
    ("sifting", whole)] []

def observed : Outline :=
  record [("p_conclusive", number), ("error_rate_conclusive", number), ("p_inconclusive", number)] []

def securityGoal : Outline :=
  record [("output", whole), ("epsilon", number), ("formula_hint", whole)] []

def authorship : Outline :=
  record [("author", whole), ("email", whole), ("date", whole), ("notes", whole)] []

/-- What is read in any document. -/
def sections : List (String × Outline) :=
  [("protocol", identity), ("parameters", whole), ("states", list state), ("measurements", measurement),
    ("device", device), ("postprocessing", postprocessing), ("observed", observed),
    ("security_goal", securityGoal), ("meta", authorship)]

/-- The root's name and description are read only without a `protocol` section. -/
def document (hasSection : Bool) : Outline :=
  record (if hasSection then sections else ("name", whole) :: ("description", whole) :: sections)
    ["protocol", "name", "description", "parameters", "states", "measurements"]

/-- The outline of this document: it has a `protocol` section if the key has a value that is not
    null. -/
def ofDocument (t : Tree) : Outline := document (t.value? "protocol").isSome

/-! ## Changes -/

/-- One change in what is not read. -/
inductive Change : Outline → Tree → Tree → Prop
  /-- Keys that are not read are added, removed or altered. -/
  | unread {fields : List (String × Outline)} {optional : List String} {entries entries' : List (String × Tree)} :
    (∀ key ∈ fields.map Prod.fst, Entries.get? key entries' = Entries.get? key entries) →
      Change (record fields optional) (.map entries) (.map entries')
  /-- An absent key that may be left out is given null. -/
  | nulled {fields : List (String × Outline)} {optional : List String} {key : String}
      {entries entries' : List (String × Tree)} :
    key ∈ optional → Entries.get? key entries = none → Entries.get? key entries' = some .null →
      (∀ k, k ≠ key → Entries.get? k entries' = Entries.get? k entries) →
        Change (record fields optional) (.map entries) (.map entries')
  /-- Such a null is dropped. -/
  | dropped {fields : List (String × Outline)} {optional : List String} {key : String}
      {entries entries' : List (String × Tree)} :
    key ∈ optional → Entries.get? key entries = some .null → Entries.get? key entries' = none →
      (∀ k, k ≠ key → Entries.get? k entries' = Entries.get? k entries) →
        Change (record fields optional) (.map entries) (.map entries')
  /-- The value of a key is changed in what is not read of it. -/
  | value {fields : List (String × Outline)} {optional : List String} {key : String} {o : Outline}
      {entries entries' : List (String × Tree)} {v v' : Tree} :
    (key, o) ∈ fields → Entries.get? key entries = some v → Entries.get? key entries' = some v' → Change o v v' →
      (∀ k, k ≠ key → Entries.get? k entries' = Entries.get? k entries) →
        Change (record fields optional) (.map entries) (.map entries')
  /-- An item is changed in what is not read of it. -/
  | item {o : Outline} {items : List Tree} {i : Nat} {v v' : Tree} :
    items[i]? = some v → Change o v v' → Change (list o) (.seq items) (.seq (items.set i v'))

/-! ## What is kept -/

/-- A text that spells a number as the number, and any other tree as it is. -/
def spelled (t : Tree) : Tree :=
  match Located.real ⟨[], t⟩ with
  | .ok x => .ofReal x
  | .error _ => t

/-- The value of a key, unless it is a null that counts as absence. -/
def kept? (optional : List String) (entries : List (String × Tree)) (key : String) : Option Tree :=
  (Entries.get? key entries).filter fun v => !(v.isNull && optional.contains key)

mutual

/-- What is read of a tree, and nothing else. -/
def essence : Outline → Tree → Tree
  | whole, t => t
  | number, t => spelled t
  | list item, .seq items => .seq (items.map fun t => item.essence t)
  | list _, t => t
  | record fields optional, .map entries => .map (fieldsEssence optional entries fields)
  | record _ _, t => t

def fieldsEssence (optional : List String) (entries : List (String × Tree)) :
    List (String × Outline) → List (String × Tree)
  | [] => []
  | (key, o) :: rest =>
    match kept? optional entries key with
    | none => fieldsEssence optional entries rest
    | some v => (key, o.essence v) :: fieldsEssence optional entries rest

end

variable {fields : List (String × Outline)} {optional : List String} {entries entries' : List (String × Tree)}

theorem real_spelled (place : Place) (t : Tree) : Located.real ⟨place, spelled t⟩ = Located.real ⟨place, t⟩ := by
  unfold spelled
  split
  · rename_i x hx
    have hreal := Located.real_ok hx
    rw [Tree.ofReal_of_isFinite hreal.isFinite, Located.real_of_holds (.float _), Located.real_of_holds hreal]
  · rfl

theorem isNull_spelled (t : Tree) : (spelled t).isNull = t.isNull := by
  unfold spelled
  split
  · rename_i x hx
    have hreal := Located.real_ok hx
    rw [Tree.ofReal_of_isFinite hreal.isFinite]
    cases hreal <;> rfl
  · rfl

theorem isNull_essence (o : Outline) (t : Tree) : (o.essence t).isNull = t.isNull := by
  cases o with
  | whole => rfl
  | number => exact isNull_spelled t
  | list item => cases t <;> rfl
  | record fields optional => cases t <;> rfl

/-! ## What is found in an essence -/

theorem kept?_of_not_mem {key : String} (h : key ∉ optional) :
    kept? optional entries key = Entries.get? key entries := by
  unfold kept?
  cases Entries.get? key entries with
  | none => rfl
  | some v => simp [Option.filter_some, h]

theorem get?_fieldsEssence {key : String} {o : Outline} (h : Entries.get? key fields = some o) :
    Entries.get? key (fieldsEssence optional entries fields) = (kept? optional entries key).map o.essence := by
  have habsent : kept? optional entries key = none → ∀ fields,
      Entries.get? key (fieldsEssence optional entries fields) = none := by
    intro hnone fields
    induction fields with
    | nil => rfl
    | cons f rest ih =>
      obtain ⟨k, o'⟩ := f
      rw [fieldsEssence]
      split
      · exact ih
      · rename_i v hv
        rw [Entries.get?, if_neg, ih]
        rintro rfl
        rw [hnone] at hv
        cases hv
  induction fields with
  | nil => cases h
  | cons f rest ih =>
    obtain ⟨k, o'⟩ := f
    rw [fieldsEssence]
    by_cases hk : k = key
    · subst hk
      rw [Entries.get?, if_pos rfl, Option.some.injEq] at h
      subst h
      split
      · rename_i hnone
        rw [hnone, habsent hnone rest, Option.map_none]
      · rename_i v hv
        rw [hv, Entries.get?, if_pos rfl, Option.map_some]
    · rw [Entries.get?, if_neg hk] at h
      split
      · exact ih h
      · rw [Entries.get?, if_neg hk, ih h]

theorem value?_essence {key : String} {o : Outline} (h : Entries.get? key fields = some o) (t : Tree) :
    ((record fields optional).essence t).value? key = (t.value? key).map o.essence := by
  cases t with
  | map entries =>
    rw [essence, Tree.value?, Tree.get?, get?_fieldsEssence h, kept?, Tree.value?, Tree.get?]
    cases Entries.get? key entries with
    | none => rfl
    | some v =>
      cases hv : v.isNull <;> by_cases hk : key ∈ optional <;> simp [Option.filter_some, hv, hk, isNull_essence]
  | _ => rfl

/-! ## What is read of an essence -/

/-- What is read of a tree, where the tree stands. -/
def taken (o : Outline) (t : Located) : Located := ⟨t.place, o.essence t.tree⟩

/-- The reading looks at nothing but what the outline reads. -/
def Covers {α : Type} (o : Outline) (f : Located → Located.Reading α) : Prop := ∀ t, f (o.taken t) = f t

theorem covers_whole {α : Type} (f : Located → Located.Reading α) : whole.Covers f := by
  intro t
  rfl

theorem covers_real : number.Covers Located.real := by
  intro t
  exact real_spelled t.place t.tree

section

variable {α β : Type} {o : Outline} {key : String} {f : Located → Located.Reading α}

theorem expectMapping_taken (t : Located) : ((record fields optional).taken t).expectMapping = t.expectMapping := by
  obtain ⟨place, tree⟩ := t
  cases tree <;> rfl

theorem field_taken (ho : Entries.get? key fields = some o) (hkey : key ∉ optional) (hf : o.Covers f) (t : Located) :
    (((record fields optional).taken t).field key >>= f) = (t.field key >>= f) := by
  obtain ⟨place, tree⟩ := t
  cases tree with
  | map entries =>
    have hget : Entries.get? key (fieldsEssence optional entries fields) =
        (Entries.get? key entries).map o.essence := by
      rw [get?_fieldsEssence ho, kept?_of_not_mem hkey]
    simp only [taken, essence, Located.field, Located.entries, Outcome.ok_bind, hget]
    cases hv : Entries.get? key entries with
    | none => rfl
    | some v =>
      simp only [Option.map_some, isNull_essence]
      split
      · rfl
      · exact hf (Located.child ⟨place, .map entries⟩ key v)
  | _ => rfl

theorem optional_taken (ho : Entries.get? key fields = some o) (t : Located) :
    ((record fields optional).taken t).optional key = (t.optional key).map o.taken := by
  rw [Located.optional_eq, Located.optional_eq, taken, value?_essence ho, Option.map_map, Option.map_map]
  rfl

theorem list_taken (hf : o.Covers f) (t : Located) :
    (((list o).taken t).items >>= fun xs => xs.mapM f) = (t.items >>= fun xs => xs.mapM f) := by
  obtain ⟨place, tree⟩ := t
  cases tree with
  | seq items =>
    have hitems : ∀ i, (Located.itemsFrom place i (items.map fun t => o.essence t)).mapM f
        = (Located.itemsFrom place i items).mapM f := by
      intro i
      induction items generalizing i with
      | nil => rfl
      | cons t items ih =>
        rw [List.map_cons, Located.itemsFrom, Located.itemsFrom, List.mapM_cons, List.mapM_cons, ih]
        have ht := hf ⟨place ++ [.item i], t⟩
        rw [taken] at ht
        rw [ht]
    exact hitems 0
  | _ => rfl

/-! ## Readings in sequence -/

theorem covers_done (r : Located.Reading α) : o.Covers fun _ => r := by
  intro t
  rfl

theorem Covers.bind {f : Located → Located.Reading α} {g : α → Located → Located.Reading β} (hf : o.Covers f)
    (hg : ∀ a, o.Covers (g a)) : o.Covers fun t => f t >>= fun a => g a t := by
  intro t
  simp only [hf t]
  cases f t with
  | error e => rfl
  | ok a => exact hg a t

theorem covers_mapping : (record fields optional).Covers Located.expectMapping := expectMapping_taken

theorem covers_field (ho : Entries.get? key fields = some o) (hkey : key ∉ optional) (hf : o.Covers f) :
    (record fields optional).Covers fun t => t.field key >>= f := field_taken ho hkey hf

theorem covers_realField (ho : Entries.get? key fields = some number) (hkey : key ∉ optional) :
    (record fields optional).Covers fun t => t.realField key := field_taken ho hkey covers_real

theorem covers_textField (ho : Entries.get? key fields = some whole) (hkey : key ∉ optional) :
    (record fields optional).Covers fun t => t.textField key := field_taken ho hkey (covers_whole _)

/-- A field is looked up and read, and then the rest is read. -/
theorem field_then {g : Located → Located.Reading α} {k : α → Located → Located.Reading β}
    (ho : Entries.get? key fields = some o) (hkey : key ∉ optional) (hg : o.Covers g) (hk : ∀ a, (record fields optional).Covers (k a)) :
    (record fields optional).Covers fun t => t.field key >>= fun v => g v >>= fun a => k a t := by
  intro t
  simp only [← bind_assoc]
  exact Covers.bind (covers_field ho hkey hg) hk t

/-- A section is looked up, and its fields are read once it is known to be a mapping. -/
theorem covers_subsection {fields' : List (String × Outline)} {optional' : List String}
    (ho : Entries.get? key fields = some (record fields' optional')) (hkey : key ∉ optional)
    (hf : (record fields' optional').Covers f) : (record fields optional).Covers fun t => t.subsection key >>= f := by
  have h := covers_field ho hkey (Covers.bind covers_mapping fun _ => hf)
  intro t
  simp only [Located.subsection, bind_assoc, pure_bind]
  exact h t

theorem amplitude_covers : amplitude.Covers Located.amplitude := by
  refine .bind covers_mapping fun _ => ?_
  refine field_then rfl List.not_mem_nil covers_real fun re => ?_
  refine field_then rfl List.not_mem_nil covers_real fun im => ?_
  exact covers_done _

theorem row_covers : (list amplitude).Covers Located.row := list_taken amplitude_covers

theorem matrix_covers : (list (list amplitude)).Covers Located.matrix := by
  intro t
  unfold Located.matrix
  rw [← bind_assoc, list_taken row_covers, bind_assoc]
  rfl

theorem state_covers : state.Covers Located.signalState := by
  refine .bind covers_mapping fun _ => ?_
  refine .bind (covers_textField rfl List.not_mem_nil) fun label => ?_
  refine .bind (covers_realField rfl List.not_mem_nil) fun prior => ?_
  have h : state.Covers fun t => t.field "vec" >>= fun v => v.row >>= fun amplitudes =>
      .ok (SignalState.mk label prior amplitudes) :=
    field_then rfl List.not_mem_nil row_covers fun _ => covers_done _
  simp only [Located.row, bind_assoc] at h
  exact h

theorem povmElement_covers : povmElement.Covers Located.povmElement := by
  refine .bind covers_mapping fun _ => ?_
  refine .bind (covers_textField rfl List.not_mem_nil) fun label => ?_
  refine field_then rfl List.not_mem_nil matrix_covers fun matrix => ?_
  exact covers_done _

/-! ## The sections -/

theorem device_covers (ho : Entries.get? "device" fields = some device) (hkey : "device" ∉ optional) :
    (record fields optional).Covers Located.device := by
  refine covers_subsection ho hkey ?_
  refine .bind (covers_realField rfl List.not_mem_nil) fun eta => ?_
  refine .bind (covers_realField rfl List.not_mem_nil) fun darkCount => ?_
  refine .bind (covers_realField rfl List.not_mem_nil) fun detectorEfficiency => ?_
  exact covers_done _

theorem errorCorrection_covers (ho : Entries.get? "error_correction" fields = some errorCorrection)
    (hkey : "error_correction" ∉ optional) : (record fields optional).Covers Located.errorCorrection := by
  refine covers_subsection ho hkey ?_
  refine .bind (covers_textField rfl List.not_mem_nil) fun scheme => ?_
  refine .bind (covers_realField rfl List.not_mem_nil) fun targetFailure => ?_
  refine .bind (covers_realField rfl List.not_mem_nil) fun inefficiency => ?_
  exact covers_done _

theorem privacyAmplification_covers (ho : Entries.get? "privacy_amplification" fields = some privacyAmplification)
    (hkey : "privacy_amplification" ∉ optional) : (record fields optional).Covers Located.privacyAmplification := by
  refine covers_subsection ho hkey ?_
  refine .bind (covers_textField rfl List.not_mem_nil) fun method => ?_
  refine .bind (covers_textField rfl List.not_mem_nil) fun hashFamily => ?_
  refine .bind (covers_realField rfl List.not_mem_nil) fun securityParameter => ?_
  exact covers_done _

theorem postprocessing_covers (ho : Entries.get? "postprocessing" fields = some postprocessing)
    (hkey : "postprocessing" ∉ optional) : (record fields optional).Covers Located.postprocessing := by
  refine covers_subsection ho hkey ?_
  refine .bind (errorCorrection_covers rfl List.not_mem_nil) fun errorCorrection => ?_
  refine .bind (privacyAmplification_covers rfl List.not_mem_nil) fun privacyAmplification => ?_
  refine .bind (covers_textField rfl List.not_mem_nil) fun sifting => ?_
  exact covers_done _

theorem observed_covers (ho : Entries.get? "observed" fields = some observed) (hkey : "observed" ∉ optional) :
    (record fields optional).Covers Located.observed := by
  refine covers_subsection ho hkey ?_
  refine .bind (covers_realField rfl List.not_mem_nil) fun conclusive => ?_
  refine .bind (covers_realField rfl List.not_mem_nil) fun conclusiveErrorRate => ?_
  refine .bind (covers_realField rfl List.not_mem_nil) fun inconclusive => ?_
  exact covers_done _

theorem securityGoal_covers (ho : Entries.get? "security_goal" fields = some securityGoal)
    (hkey : "security_goal" ∉ optional) : (record fields optional).Covers Located.securityGoal := by
  refine covers_subsection ho hkey ?_
  refine .bind (covers_textField rfl List.not_mem_nil) fun output => ?_
  refine .bind (covers_realField rfl List.not_mem_nil) fun epsilon => ?_
  refine .bind (covers_textField rfl List.not_mem_nil) fun formulaHint => ?_
  exact covers_done _

theorem authorship_covers (ho : Entries.get? "meta" fields = some authorship) (hkey : "meta" ∉ optional) :
    (record fields optional).Covers Located.authorship := by
  refine covers_subsection ho hkey ?_
  refine .bind (covers_textField rfl List.not_mem_nil) fun author => ?_
  refine .bind (covers_textField rfl List.not_mem_nil) fun email => ?_
  refine .bind (covers_textField rfl List.not_mem_nil) fun date => ?_
  refine .bind (covers_textField rfl List.not_mem_nil) fun notes => ?_
  exact covers_done _

theorem parameters_covers (ho : Entries.get? "parameters" fields = some whole) :
    (record fields optional).Covers Located.parameters := by
  intro t
  unfold Located.parameters
  rw [optional_taken ho]
  cases t.optional "parameters" with
  | none => rfl
  | some s => rfl

theorem states_covers (ho : Entries.get? "states" fields = some (list state)) :
    (record fields optional).Covers Located.states := by
  intro t
  unfold Located.states
  rw [optional_taken ho]
  cases t.optional "states" with
  | none => rfl
  | some s => exact list_taken state_covers s

theorem measurement_covers (ho : Entries.get? "measurements" fields = some measurement) :
    (record fields optional).Covers Located.measurement := by
  intro t
  unfold Located.measurement
  rw [optional_taken ho]
  cases t.optional "measurements" with
  | none => rfl
  | some s =>
    have hmapping : (measurement.taken s).expectMapping = s.expectMapping := expectMapping_taken s
    have hnormalize : (measurement.taken s).optional "normalize" = (s.optional "normalize").map whole.taken :=
      optional_taken rfl s
    have hpovm : (measurement.taken s).optional "povm" = (s.optional "povm").map (list povmElement).taken :=
      optional_taken rfl s
    have hlist (v : Located) (normalize : Bool) : (((list povmElement).taken v).items >>= fun xs =>
        xs.mapM Located.povmElement >>= fun povm => .ok (Measurement.mk normalize povm)) =
          (v.items >>= fun xs => xs.mapM Located.povmElement >>= fun povm => .ok (Measurement.mk normalize povm)) := by
      rw [← bind_assoc, list_taken povmElement_covers, bind_assoc]
    simp only [Option.map_some, hmapping, hnormalize, hpovm]
    cases s.optional "povm" with
    | none => cases s.optional "normalize" <;> rfl
    | some v =>
      cases s.optional "normalize" with
      | none => exact congrArg (s.expectMapping >>= ·) (funext fun _ => hlist v true)
      | some n =>
        exact congrArg (s.expectMapping >>= ·)
          (funext fun _ => congrArg (n.flag >>= ·) (funext fun normalize => hlist v normalize))

theorem covers_optionalText (ho : Entries.get? key fields = some whole) :
    (record fields optional).Covers fun t => t.optionalText key := by
  intro t
  simp only [Located.optionalText, optional_taken ho]
  cases t.optional key with
  | none => rfl
  | some v => rfl

/-- The identity is read in the section, or in the root's name and description. -/
theorem identity_taken (t : Located) : ((ofDocument t.tree).taken t).identity = t.identity := by
  have hsection : identity.Covers fun s => s.expectMapping >>= fun _ => s.textField "name" >>= fun name =>
      s.optionalText "description" >>= fun description => .ok (name, description) := by
    refine .bind covers_mapping fun _ => ?_
    refine .bind (covers_textField rfl (by decide)) fun name => ?_
    exact .bind (covers_optionalText rfl) fun description => covers_done _
  have hvalue := Located.optional_eq t "protocol"
  unfold Located.identity ofDocument
  cases hs : t.tree.value? "protocol" with
  | some s =>
    have hprotocol : ((document true).taken t).optional "protocol" = (t.optional "protocol").map identity.taken :=
      optional_taken rfl t
    rw [hs] at hvalue
    rw [hvalue] at hprotocol ⊢
    simp only [Option.isSome_some, hprotocol, Option.map_some]
    exact hsection _
  | none =>
    have hprotocol : ((document false).taken t).optional "protocol" = (t.optional "protocol").map identity.taken :=
      optional_taken rfl t
    have hname : ((document false).taken t).optional "name" = (t.optional "name").map whole.taken :=
      optional_taken rfl t
    have hdescription : ((document false).taken t).optionalText "description" = t.optionalText "description" :=
      covers_optionalText rfl t
    rw [hs] at hvalue
    rw [hvalue] at hprotocol ⊢
    simp only [Option.isSome_none, hprotocol, Option.map_none, hname, hdescription]
    cases t.optional "name" with
    | none => rfl
    | some v => rfl

theorem get?_document {key : String} {o : Outline} (h : Entries.get? key sections = some o) (hname : "name" ≠ key)
    (hdescription : "description" ≠ key) (b : Bool) : Entries.get? key
      (if b then sections else ("name", whole) :: ("description", whole) :: sections) = some o := by
  cases b with
  | true => exact h
  | false => simp [Entries.get?, hname, hdescription, h]

/-- What is read after the identity is the same whatever tells the name. -/
theorem rest_covers (b : Bool) (name description : String) : (document b).Covers fun root => do
    return {
      name, description
      parameters := ← root.parameters
      states := ← root.states
      measurement := ← root.measurement
      device := ← root.device
      postprocessing := ← root.postprocessing
      observed := ← root.observed
      securityGoal := ← root.securityGoal
      authorship := ← root.authorship : Protocol } := by
  refine .bind (parameters_covers (get?_document rfl (by decide) (by decide) b)) fun parameters => ?_
  refine .bind (states_covers (get?_document rfl (by decide) (by decide) b)) fun states => ?_
  refine .bind (measurement_covers (get?_document rfl (by decide) (by decide) b)) fun measurement => ?_
  refine .bind (device_covers (get?_document rfl (by decide) (by decide) b) (by decide)) fun device => ?_
  refine .bind (postprocessing_covers (get?_document rfl (by decide) (by decide) b) (by decide)) fun postprocessing => ?_
  refine .bind (observed_covers (get?_document rfl (by decide) (by decide) b) (by decide)) fun observed => ?_
  refine .bind (securityGoal_covers (get?_document rfl (by decide) (by decide) b) (by decide)) fun securityGoal => ?_
  refine .bind (authorship_covers (get?_document rfl (by decide) (by decide) b) (by decide)) fun authorship => ?_
  exact covers_done _

/-- A document is read as its essence is, fault for fault. -/
theorem ofTree_essence (t : Tree) : Protocol.ofTree ((ofDocument t).essence t) = Protocol.ofTree t := by
  have hmapping : ((ofDocument t).taken ⟨[], t⟩).expectMapping = Located.expectMapping ⟨[], t⟩ := expectMapping_taken _
  have hidentity := identity_taken ⟨[], t⟩
  have hrest := rest_covers (t.value? "protocol").isSome
  show (((ofDocument t).taken ⟨[], t⟩).expectMapping >>= fun _ => ((ofDocument t).taken ⟨[], t⟩).identity >>= _) = _
  rw [hmapping, hidentity]
  exact congrArg (_ >>= ·) (funext fun _ => congrArg (_ >>= ·) (funext fun i => hrest i.1 i.2 ⟨[], t⟩))

end

/-! ## Changes keep the essence -/

mutual

/-- No key is named twice. -/
def Proper : Outline → Prop
  | whole => True
  | number => True
  | list item => item.Proper
  | record fields _ => KeysDiffer fields ∧ FieldsProper fields

def FieldsProper : List (String × Outline) → Prop
  | [] => True
  | (_, o) :: rest => o.Proper ∧ FieldsProper rest

end

theorem proper_of_mem {key : String} {o : Outline} (h : FieldsProper fields) (hf : (key, o) ∈ fields) : o.Proper := by
  induction fields with
  | nil => cases hf
  | cons f rest ih =>
    obtain ⟨k, o'⟩ := f
    rw [FieldsProper] at h
    rcases List.mem_cons.1 hf with heq | hmem
    · cases heq
      exact h.1
    · exact ih h.2 hmem

theorem document_proper (b : Bool) : (document b).Proper := by
  cases b <;> simp [document, sections, identity, measurement, state, amplitude, povmElement, device, postprocessing,
    errorCorrection, privacyAmplification, observed, securityGoal, authorship, Proper, FieldsProper, KeysDiffer]

theorem kept?_congr {key : String} (h : Entries.get? key entries' = Entries.get? key entries) :
    kept? optional entries' key = kept? optional entries key := by
  rw [kept?, h, kept?]

theorem kept?_of_none {key : String} (h : Entries.get? key entries = none) : kept? optional entries key = none := by
  rw [kept?, h, Option.filter_none]

theorem kept?_of_null {key : String} (hkey : key ∈ optional) (h : Entries.get? key entries = some .null) :
    kept? optional entries key = none := by
  simp [kept?, h, Option.filter_some, Tree.isNull, hkey]

theorem fieldsEssence_congr (h : ∀ f ∈ fields,
    (kept? optional entries' f.1).map f.2.essence = (kept? optional entries f.1).map f.2.essence) :
    fieldsEssence optional entries' fields = fieldsEssence optional entries fields := by
  induction fields with
  | nil => rfl
  | cons f rest ih =>
    obtain ⟨key, o⟩ := f
    obtain ⟨hf, hrest⟩ := List.forall_mem_cons.1 h
    rw [fieldsEssence, fieldsEssence, ih hrest]
    cases hk : kept? optional entries key with
    | none =>
      rw [hk, Option.map_none, Option.map_eq_none_iff] at hf
      rw [hf]
    | some v =>
      rw [hk, Option.map_some, Option.map_eq_some_iff] at hf
      obtain ⟨v', hv', he⟩ := hf
      simp only [hv', he]

/-- What is kept of a mapping depends on what is kept of the values. -/
theorem essence_value {key : String} {o : Outline} {v v' : Tree} (hd : KeysDiffer fields) (hmem : (key, o) ∈ fields)
    (hv : Entries.get? key entries = some v) (hv' : Entries.get? key entries' = some v')
    (he : o.essence v' = o.essence v) (hsame : ∀ k, k ≠ key → Entries.get? k entries' = Entries.get? k entries) :
    (record fields optional).essence (.map entries') = (record fields optional).essence (.map entries) := by
  have hnull : v'.isNull = v.isNull := by rw [← isNull_essence o, he, isNull_essence]
  rw [essence, essence, fieldsEssence_congr]
  rintro ⟨k, o'⟩ hf
  by_cases hk : k = key
  · subst hk
    obtain rfl : o' = o := by
      have h := Entries.get?_of_mem hd hf
      rw [Entries.get?_of_mem hd hmem, Option.some.injEq] at h
      exact h.symm
    simp only [kept?, hv, hv', Option.filter_some, hnull]
    split
    · rw [Option.map_some, Option.map_some, he]
    · rfl
  · rw [kept?_congr (hsame k hk)]

/-- What is kept of a sequence is what is kept of the items. -/
theorem essence_items {o : Outline} {items items' : List Tree}
    (h : ∀ i : Nat, items'[i]?.map o.essence = items[i]?.map o.essence) :
    (list o).essence (.seq items') = (list o).essence (.seq items) := by
  rw [essence, essence]
  congr 1
  refine List.ext_getElem? fun i => ?_
  rw [List.getElem?_map, List.getElem?_map]
  exact h i

/-- What is not read can be changed: the essence stays. -/
theorem Change.essence_eq {o : Outline} {t t' : Tree} (h : Change o t t') (ho : o.Proper) :
    o.essence t' = o.essence t := by
  induction h with
  | unread hsame =>
    rw [essence, essence, fieldsEssence_congr]
    intro f hf
    rw [kept?_congr (hsame f.1 (List.mem_map_of_mem hf))]
  | @nulled fields optional key entries entries' hkey hnone hnull hsame =>
    rw [essence, essence, fieldsEssence_congr]
    intro f _
    by_cases hf : f.1 = key
    · rw [hf, kept?_of_none hnone, kept?_of_null hkey hnull]
    · rw [kept?_congr (hsame f.1 hf)]
  | @dropped fields optional key entries entries' hkey hnull hnone hsame =>
    rw [essence, essence, fieldsEssence_congr]
    intro f _
    by_cases hf : f.1 = key
    · rw [hf, kept?_of_none hnone, kept?_of_null hkey hnull]
    · rw [kept?_congr (hsame f.1 hf)]
  | value hmem hv hv' _ hsame ih => exact essence_value ho.1 hmem hv hv' (ih (proper_of_mem ho.2 hmem)) hsame
  | @item o items i v v' hv _ ih =>
    obtain ⟨hi, -⟩ := List.getElem?_eq_some_iff.1 hv
    refine essence_items fun j => ?_
    by_cases hij : i = j
    · rw [← hij, List.getElem?_set_self hi, hv, Option.map_some, Option.map_some, ih ho]
    · rw [List.getElem?_set_ne hij]

/-- One change in what is not read of a document. -/
def DocumentChange (document document' : Tree) : Prop := (ofDocument document).Change document document'

/-- What is kept of a document tells whether it has a `protocol` section. -/
theorem ofDocument_of_essence {t t' : Tree} (he : (ofDocument t).essence t' = (ofDocument t).essence t) :
    ofDocument t' = ofDocument t := by
  unfold ofDocument at he ⊢
  generalize hb : (t.value? "protocol").isSome = b at he ⊢
  have hidentity : Entries.get? "protocol" _ = some identity := get?_document rfl (by decide) (by decide) b
  have hv := congrArg (Tree.value? "protocol") he
  rw [document, value?_essence hidentity, value?_essence hidentity] at hv
  have hs := congrArg Option.isSome hv
  rw [Option.isSome_map, Option.isSome_map] at hs
  rw [hs, hb]

/-- Documents of which the same is kept are read alike. -/
theorem ofTree_of_essence {t t' : Tree} (he : (ofDocument t).essence t' = (ofDocument t).essence t) :
    Protocol.ofTree t' = Protocol.ofTree t := by
  rw [← ofTree_essence, ofDocument_of_essence he, he, ofTree_essence]

/-- A change neither makes nor removes a `protocol` section. -/
theorem DocumentChange.ofDocument_eq {t t' : Tree} (h : DocumentChange t t') : ofDocument t' = ofDocument t :=
  ofDocument_of_essence (h.essence_eq (document_proper _))

end Outline

/-- Documents that lead to one another by changes in what is not read give the same protocol, or
    the same fault. -/
theorem Protocol.ofDocument_of_changes {document document' : Tree}
    (h : Relation.ReflTransGen Outline.DocumentChange document document') :
    ofDocument document' = ofDocument document := by
  induction h with
  | refl => rfl
  | tail _ hc ih =>
    rw [← ih, Protocol.ofDocument, ← Outline.ofTree_essence, hc.ofDocument_eq,
      Outline.Change.essence_eq hc (Outline.document_proper _), Outline.ofTree_essence]
    rfl

namespace Protocol

/-- A document whose section has no name, with a name of the root and a state beside it. -/
def namelessDocument (name : Tree) (added : List (String × Tree)) (state : Tree) : Tree :=
  .map (("name", name) :: added ++ [("protocol", .map [("description", .text "")]), ("states", .seq [state])])

/-- Whatever the root's name is, the section's is missing; a null and a comment in a state do not
    change that. -/
theorem ofDocument_of_changes_nameless :
    Relation.ReflTransGen Outline.DocumentChange (namelessDocument (.text "B92") [] (.map []))
        (namelessDocument (.bool true) [("parameters", .null)] (.map [("comment", .null)])) ∧
      ofDocument (namelessDocument (.text "B92") [] (.map [])) =
          .error (.invalid ⟨[.key "protocol", .key "name"], .missing⟩) ∧
        ofDocument (namelessDocument (.bool true) [("parameters", .null)] (.map [("comment", .null)])) =
          ofDocument (namelessDocument (.text "B92") [] (.map [])) := by
  have hname : Outline.DocumentChange (namelessDocument (.text "B92") [] (.map []))
      (namelessDocument (.bool true) [] (.map [])) := by
    refine .unread fun key hkey => ?_
    have hkey : key ∈ Outline.sections.map Prod.fst := hkey
    have hne : "name" ≠ key := by
      rintro rfl
      simp [Outline.sections] at hkey
    simp [Entries.get?, hne]
  have hnull : Outline.DocumentChange (namelessDocument (.bool true) [] (.map []))
      (namelessDocument (.bool true) [("parameters", .null)] (.map [])) := by
    refine @Outline.Change.nulled _ _ "parameters" _ _ (by decide) rfl rfl fun k hk => ?_
    simp [Entries.get?, Ne.symm hk]
  have hcomment : Outline.DocumentChange (namelessDocument (.bool true) [("parameters", .null)] (.map []))
      (namelessDocument (.bool true) [("parameters", .null)] (.map [("comment", .null)])) := by
    have hmem : ("states", Outline.list .state) ∈ Outline.sections := by simp [Outline.sections]
    have hstate : Outline.state.Change (.map []) (.map [("comment", .null)]) := .unread (by simp [Entries.get?])
    refine .value hmem rfl rfl (.item (i := 0) rfl hstate) fun k hk => ?_
    simp [Entries.get?, Ne.symm hk]
  have hchanges := ((Relation.ReflTransGen.single hname).tail hnull).tail hcomment
  exact ⟨hchanges, rfl, ofDocument_of_changes hchanges⟩

end Protocol

end PhaseCert
