/-
  PhaseCert.KeyMap — values under text keys, in the order of the keys.

  The entries are a list in which each key stands once and keys grow, compared by their
  characters' codes; that is also the order of the keys' UTF-8 bytes. Writing a key
  replaces its value.
-/

namespace PhaseCert

/-- Keys grow from each entry to every later one. -/
def KeysGrow {α : Type} (entries : List (String × α)) : Prop :=
  entries.Pairwise (fun a b => a.1 < b.1)

namespace Entries

variable {α : Type}

/-- The value of the first entry with this key. -/
def get? (key : String) : List (String × α) → Option α
  | [] => none
  | (k, v) :: rest => if k = key then some v else get? key rest

/-- Writes a key at its place. -/
def insert (key : String) (value : α) : List (String × α) → List (String × α)
  | [] => [(key, value)]
  | (k, v) :: rest =>
    if key < k then (key, value) :: (k, v) :: rest
    else if key = k then (key, value) :: rest
    else (k, v) :: insert key value rest

/-- Without the entries of this key. -/
def erase (key : String) (entries : List (String × α)) : List (String × α) :=
  entries.filter (·.1 ≠ key)

theorem mem_insert {key : String} {value : α} {entries : List (String × α)} {e : String × α}
    (h : e ∈ insert key value entries) : e = (key, value) ∨ e ∈ entries := by
  induction entries with
  | nil => simpa [insert] using h
  | cons x rest ih =>
    obtain ⟨k, v⟩ := x
    simp only [insert] at h
    split at h
    · simpa using h
    · split at h
      · rcases List.mem_cons.1 h with h | h
        · exact .inl h
        · exact .inr (List.mem_cons_of_mem _ h)
      · rcases List.mem_cons.1 h with h | h
        · exact .inr (by simp [h])
        · rcases ih h with h | h
          · exact .inl h
          · exact .inr (List.mem_cons_of_mem _ h)

theorem insert_keysGrow {key : String} {value : α} {entries : List (String × α)}
    (h : KeysGrow entries) : KeysGrow (insert key value entries) := by
  induction entries with
  | nil => simp [insert, KeysGrow]
  | cons x rest ih =>
    obtain ⟨k, v⟩ := x
    have ⟨hk, hrest⟩ := List.pairwise_cons.1 h
    simp only [insert]
    split
    · rename_i hlt
      refine List.pairwise_cons.2 ⟨?_, h⟩
      intro e he
      rcases List.mem_cons.1 he with rfl | he
      · exact hlt
      · exact String.lt_trans hlt (hk e he)
    · split
      · rename_i heq
        subst heq
        exact List.pairwise_cons.2 ⟨hk, hrest⟩
      · rename_i hlt hne
        refine List.pairwise_cons.2 ⟨?_, ih hrest⟩
        intro e he
        rcases mem_insert he with rfl | he
        · have hle : k ≤ key := String.not_lt.1 hlt
          exact Std.lt_of_le_of_ne hle (fun e => hne e.symm)
        · exact hk e he

theorem erase_keysGrow {key : String} {entries : List (String × α)} (h : KeysGrow entries) :
    KeysGrow (erase key entries) :=
  h.filter _

end Entries

/-- A map from texts to values, its entries in key order. -/
structure KeyMap (α : Type) where
  entries : List (String × α)
  keysGrow : KeysGrow entries

namespace KeyMap

variable {α : Type}

def empty : KeyMap α := ⟨[], List.Pairwise.nil⟩

instance : Inhabited (KeyMap α) := ⟨empty⟩

def get? (m : KeyMap α) (key : String) : Option α := Entries.get? key m.entries

def contains (m : KeyMap α) (key : String) : Bool := (m.get? key).isSome

def insert (m : KeyMap α) (key : String) (value : α) : KeyMap α :=
  ⟨Entries.insert key value m.entries, Entries.insert_keysGrow m.keysGrow⟩

def erase (m : KeyMap α) (key : String) : KeyMap α :=
  ⟨Entries.erase key m.entries, Entries.erase_keysGrow m.keysGrow⟩

def size (m : KeyMap α) : Nat := m.entries.length

def isEmpty (m : KeyMap α) : Bool := m.entries.isEmpty

/-- All the entries, written one after the other: the last one with a key stays. -/
def ofList (entries : List (String × α)) : KeyMap α :=
  entries.foldl (fun m e => m.insert e.1 e.2) empty

end KeyMap

end PhaseCert
