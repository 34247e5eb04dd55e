/-
  PhaseCert.Proofs.Protocol.Schema — which documents describe a protocol.

  A schema says of a tree what it has to be. It is read in two ways: `Valid` says that a tree
  is as it has to be, and `checks` lists what has to hold, each with the place that is at fault
  where it does not, in the order in which a reader meets them. A tree is valid exactly if all
  its checks hold (`valid_iff_checks`), so a tree that is not valid has a first place that is
  at fault (`FirstInvalid`).

  `Schema.protocol` is the schema of protocol documents.
-/
import PhaseCert.Proofs.Decimal.Numeral
import PhaseCert.Protocol.Reading

namespace PhaseCert

namespace Tree

/-- The items of a sequence; nothing else has any. -/
def items : Tree → List Tree
  | .seq items => items
  | _ => []

/-- The entries of a mapping; nothing else has any. -/
def entries : Tree → List (String × Tree)
  | .map entries => entries
  | _ => []

/-- The value of a key, if there is one that is not null. -/
def value? (key : String) (t : Tree) : Option Tree := (t.get? key).filter (!·.isNull)

/-- How many items the first item has. -/
def width (t : Tree) : Nat := (t.items.head?.map fun row => row.items.length).getD 0

/-! ## Kinds of trees -/

def IsMapping (t : Tree) : Prop := ∃ entries, t = .map entries

def IsSequence (t : Tree) : Prop := ∃ items, t = .seq items

def IsFlag (t : Tree) : Prop := ∃ b, t = .bool b

/-- A text, a number, a truth value, or the one-key mapping that a date or time becomes. -/
def IsText (t : Tree) : Prop :=
  (∃ s, t = .text s) ∨ (∃ n, t = .int n) ∨ (∃ x, t = .float x) ∨ (∃ b, t = .bool b) ∨
    ∃ s, t = .map [(dateKey, .text s)]

/-- A number, or a text that is, without the blanks around it, a numeral whose nearest double is
    finite. -/
def IsReal (t : Tree) : Prop :=
  (∃ n, t = .int n) ∨ (∃ x, t = .float x) ∨
    ∃ s negative d, t = .text s ∧ Numeral.DecimalText (trimBlanks s).toList negative d ∧
      (d.toBinary64 negative).isFinite = true

def IsScalar (t : Tree) : Prop :=
  (∃ n, t = .int n) ∨ (∃ x, t = .float x) ∨ (∃ b, t = .bool b) ∨ ∃ s, t = .text s

end Tree

/-! ## Schemas -/

inductive Schema where
  /-- The tree is of this kind. -/
  | is (kind : Tree → Prop)
  /-- Every item is so. -/
  | items (item : Schema)
  /-- Every value of the mapping is so. -/
  | values (value : Schema)
  /-- All items have equally many items. -/
  | rectangular
  /-- The key has a value that is not null; if not, the fault is reported at this place from
      here. -/
  | present (key : String) (reported : Place)
  /-- The value of the key is so, if it has one that is not null. -/
  | optional (key : String) (value : Schema)
  /-- The tree is so, unless the key has a value that is not null. -/
  | without (key : String) (schema : Schema)
  | anything
  /-- The one, and then the other. -/
  | both (first second : Schema)

/-- Something that has to hold, and the place at fault where it does not. -/
structure Check where
  place : Place
  holds : Prop

namespace Schema

def Valid : Schema → Tree → Prop
  | is kind, t => kind t
  | items item, t => ∀ i ∈ t.items, item.Valid i
  | values value, t => ∀ e ∈ t.entries, value.Valid e.2
  | rectangular, t => ∀ r ∈ t.items, ∀ r' ∈ t.items, r.items.length = r'.items.length
  | present key _, t => ∃ v, t.value? key = some v
  | optional key value, t => ∀ v, t.value? key = some v → value.Valid v
  | without key schema, t => t.value? key = none → schema.Valid t
  | anything, _ => True
  | both first second, t => first.Valid t ∧ second.Valid t

/-- What has to hold, in order. A part that is not there has no checks of its own. -/
def checks : Schema → Located → List Check
  | is kind, t => [⟨t.place, kind t.tree⟩]
  | items item, t => (Located.itemsFrom t.place 0 t.tree.items).flatMap item.checks
  | values value, t => t.tree.entries.flatMap fun e => value.checks (t.child e.1 e.2)
  | rectangular, t =>
    (Located.itemsFrom t.place 0 t.tree.items).map fun r => ⟨r.place, r.tree.items.length = t.tree.width⟩
  | present key reported, t => [⟨t.place ++ reported, ∃ v, t.tree.value? key = some v⟩]
  | optional key value, t =>
    match t.tree.value? key with
    | some v => value.checks (t.child key v)
    | none => []
  | without key schema, t =>
    match t.tree.value? key with
    | some _ => []
    | none => schema.checks t
  | anything, _ => []
  | both first second, t => first.checks t ++ second.checks t

theorem mem_itemsFrom {place : Place} {i : Nat} {ts : List Tree} {x : Located}
    (h : x ∈ Located.itemsFrom place i ts) : x.tree ∈ ts := by
  induction ts generalizing i with
  | nil => cases h
  | cons t ts ih =>
    rcases List.mem_cons.1 h with rfl | h
    · exact List.mem_cons_self
    · exact List.mem_cons_of_mem _ (ih h)

theorem exists_mem_itemsFrom {t : Tree} {ts : List Tree} (place : Place) (i : Nat) (h : t ∈ ts) :
    ∃ x ∈ Located.itemsFrom place i ts, x.tree = t := by
  induction ts generalizing i with
  | nil => cases h
  | cons t' ts ih =>
    rcases List.mem_cons.1 h with rfl | h
    · exact ⟨_, List.mem_cons_self, rfl⟩
    · obtain ⟨x, hx, e⟩ := ih (i + 1) h
      exact ⟨x, List.mem_cons_of_mem _ hx, e⟩

theorem forall_itemsFrom {p : Tree → Prop} (place : Place) (i : Nat) (ts : List Tree) :
    (∀ x ∈ Located.itemsFrom place i ts, p x.tree) ↔ ∀ t ∈ ts, p t := by
  constructor
  · intro h t ht
    obtain ⟨x, hx, rfl⟩ := exists_mem_itemsFrom place i ht
    exact h x hx
  · intro h x hx
    exact h _ (mem_itemsFrom hx)

/-- All rows are as long as one another exactly if all are as long as the first. -/
theorem rectangular_iff_width (t : Tree) :
    rectangular.Valid t ↔ ∀ r ∈ t.items, r.items.length = t.width := by
  unfold Valid Tree.width
  cases t.items with
  | nil => simp
  | cons first rest =>
    simp only [List.head?_cons, Option.map_some, Option.getD_some]
    constructor
    · intro h r hr
      exact h r hr first List.mem_cons_self
    · intro h r hr r' hr'
      rw [h r hr, h r' hr']

/-- A tree is valid exactly if all its checks hold. -/
theorem valid_iff_checks (s : Schema) (t : Located) : s.Valid t.tree ↔ ∀ c ∈ s.checks t, c.holds := by
  induction s generalizing t with
  | is kind => simp [Valid, checks]
  | items item ih =>
    simp only [Valid, checks, List.forall_mem_flatMap, ← ih, forall_itemsFrom]
  | values value ih =>
    simp only [Valid, checks, List.forall_mem_flatMap, ← ih, Located.child]
  | rectangular =>
    rw [rectangular_iff_width]
    simp only [checks, List.forall_mem_map, forall_itemsFrom (p := fun r => r.items.length = t.tree.width)]
  | present key reported => simp [Valid, checks]
  | optional key value ih =>
    simp only [Valid, checks]
    cases h : t.tree.value? key with
    | none => simp
    | some v =>
      simp only [Option.some.injEq, forall_eq', ← ih]
      rfl
  | without key schema ih =>
    simp only [Valid, checks]
    cases h : t.tree.value? key with
    | none => simp [ih]
    | some v => simp
  | anything => simp [Valid, checks]
  | both first second ih1 ih2 =>
    simp only [Valid, checks, List.forall_mem_append, ih1, ih2]

/-! ## Schemas of records -/

/-- Each in turn. -/
def all : List Schema → Schema
  | [] => anything
  | s :: rest => both s (all rest)

/-- A mapping, and then its fields. -/
def record (fields : List Schema) : Schema := all (is Tree.IsMapping :: fields)

def list (item : Schema) : Schema := both (is Tree.IsSequence) (items item)

/-- A mapping whose values are all so. -/
def table (value : Schema) : Schema := both (is Tree.IsMapping) (values value)

/-- A field that has to be there. -/
def required (key : String) (value : Schema) : Schema := both (present key [.key key]) (optional key value)

def text : Schema := is Tree.IsText

def real : Schema := is Tree.IsReal

def flag : Schema := is Tree.IsFlag

def scalar : Schema := is Tree.IsScalar

/-! ## The schema of protocol documents -/

def amplitude : Schema := record [required "re" real, required "im" real]

def matrix : Schema := both (list (list amplitude)) rectangular

def state : Schema := record [required "label" text, required "p" real, required "vec" (list amplitude)]

def povmElement : Schema := record [required "label" text, required "matrix" matrix]

def measurement : Schema := record [optional "normalize" flag, optional "povm" (list povmElement)]

/-- The section has name and description; without the section the root has, and a name that is
    missing then is reported as the section's. -/
def identity : Schema :=
  both (optional "protocol" (record [required "name" text, optional "description" text]))
    (without "protocol"
      (all [present "name" [.key "protocol", .key "name"], optional "name" text, optional "description" text]))

def device : Schema :=
  record [required "eta" real, required "dark_count" real, required "detector_efficiency" real]

def errorCorrection : Schema :=
  record [required "scheme" text, required "target_ferr" real, required "inefficiency_f" real]

def privacyAmplification : Schema :=
  record [required "method" text, required "hash_family" text, required "security_parameter" real]

def postprocessing : Schema :=
  record [required "error_correction" errorCorrection, required "privacy_amplification" privacyAmplification,
    required "sifting" text]

def observed : Schema :=
  record [required "p_conclusive" real, required "error_rate_conclusive" real, required "p_inconclusive" real]

def securityGoal : Schema :=
  record [required "output" text, required "epsilon" real, required "formula_hint" text]

def authorship : Schema :=
  record [required "author" text, required "email" text, required "date" text, required "notes" text]

def protocol : Schema :=
  record [identity, optional "parameters" (table scalar), optional "states" (list state),
    optional "measurements" measurement, required "device" device, required "postprocessing" postprocessing,
    required "observed" observed, required "security_goal" securityGoal, required "meta" authorship]

end Schema

/-! ## The first fault -/

/-- The first check that does not hold is reported at this place. -/
def FirstInvalid (cs : List Check) (place : Place) : Prop :=
  ∃ before c after, cs = before ++ c :: after ∧ (∀ b ∈ before, b.holds) ∧ ¬c.holds ∧ c.place = place

theorem FirstInvalid.append_right {cs : List Check} {place : Place} (h : FirstInvalid cs place) (ds : List Check) :
    FirstInvalid (cs ++ ds) place := by
  obtain ⟨before, c, after, rfl, hb, hc, hp⟩ := h
  exact ⟨before, c, after ++ ds, by simp, hb, hc, hp⟩

theorem FirstInvalid.append_left {cs ds : List Check} {place : Place} (hcs : ∀ c ∈ cs, c.holds)
    (h : FirstInvalid ds place) : FirstInvalid (cs ++ ds) place := by
  obtain ⟨before, c, after, rfl, hb, hc, hp⟩ := h
  refine ⟨cs ++ before, c, after, by simp, ?_, hc, hp⟩
  rw [List.forall_mem_append]
  exact ⟨hcs, hb⟩

theorem FirstInvalid.not_all {cs : List Check} {place : Place} (h : FirstInvalid cs place) : ¬∀ c ∈ cs, c.holds := by
  obtain ⟨before, c, after, rfl, -, hc, -⟩ := h
  intro hall
  exact hc (hall c (by simp))

/-- There is only one. -/
theorem FirstInvalid.unique {cs : List Check} {p q : Place} (hp : FirstInvalid cs p) (hq : FirstInvalid cs q) :
    p = q := by
  obtain ⟨before, c, after, rfl, hb, hc, rfl⟩ := hp
  obtain ⟨before', c', after', he, hb', hc', rfl⟩ := hq
  rcases List.append_eq_append_iff.1 he with ⟨between, rfl, h⟩ | ⟨between, rfl, h⟩
  · cases between with
    | nil =>
      simp only [List.nil_append, List.cons.injEq] at h
      rw [h.1]
    | cons b between =>
      simp only [List.cons_append, List.cons.injEq] at h
      exact absurd (hb' c (by simp [h.1])) hc
  · cases between with
    | nil =>
      simp only [List.nil_append, List.cons.injEq] at h
      rw [h.1]
    | cons b between =>
      simp only [List.cons_append, List.cons.injEq] at h
      exact absurd (hb c' (by simp [h.1])) hc'

end PhaseCert
