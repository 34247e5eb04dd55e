/-
  PhaseCert.Proofs.KeyMap — what is found in a map after keys were written or removed.

  A map is known by what is found under its keys (`KeyMap.ext_get?`), since its entries are in
  key order. Of entries that are written one after the other the last one with a key is found
  (`get?_ofList`), and a map is what writing its own entries gives (`ofList_entries`).
-/
import PhaseCert.KeyMap

namespace PhaseCert

variable {α : Type}

/-- Each key stands once. -/
def KeysDiffer (entries : List (String × α)) : Prop := entries.Pairwise fun a b => a.1 ≠ b.1

theorem KeysDiffer.map {β : Type} {entries : List (String × α)} (h : KeysDiffer entries) (f : α → β) :
    KeysDiffer (entries.map fun e => (e.1, f e.2)) := by
  unfold KeysDiffer
  rw [List.pairwise_map]
  exact h

theorem KeysDiffer.reverse {entries : List (String × α)} (h : KeysDiffer entries) : KeysDiffer entries.reverse :=
  List.pairwise_reverse.2 (List.Pairwise.imp (fun h => Ne.symm h) h)

namespace Entries

/-- A key that was written has its new value; every other key has the value it had. -/
theorem get?_insert (key key' : String) (value : α) (entries : List (String × α)) :
    get? key' (insert key value entries) = if key = key' then some value else get? key' entries := by
  induction entries with
  | nil => rfl
  | cons e entries ih =>
    obtain ⟨k, v⟩ := e
    simp only [insert]
    split
    · rfl
    · split
      · rename_i heq
        subst heq
        by_cases h : key = key'
        · simp only [get?, if_pos h]
        · simp only [get?, if_neg h]
      · rename_i hne
        simp only [get?]
        by_cases hk : k = key'
        · rw [if_pos hk, if_neg (fun h => hne (by rw [h, hk])), if_pos hk]
        · rw [if_neg hk, if_neg hk, ih]

theorem get?_erase (key key' : String) (entries : List (String × α)) :
    get? key' (erase key entries) = if key = key' then none else get? key' entries := by
  induction entries with
  | nil => simp [erase, get?]
  | cons e entries ih =>
    obtain ⟨k, v⟩ := e
    unfold erase at ih ⊢
    by_cases hk : k = key
    · subst hk
      rw [List.filter_cons_of_neg (by simp), ih]
      by_cases h : k = key'
      · rw [if_pos h, if_pos h]
      · rw [if_neg h, if_neg h, get?, if_neg h]
    · rw [List.filter_cons_of_pos (by simpa using hk), get?, get?, ih]
      by_cases h : k = key'
      · subst h
        rw [if_pos rfl, if_neg (Ne.symm hk), if_pos rfl]
      · rw [if_neg h, if_neg h]

theorem get?_append (key : String) (entries entries' : List (String × α)) :
    get? key (entries ++ entries') = (get? key entries).or (get? key entries') := by
  induction entries with
  | nil => rfl
  | cons e entries ih =>
    obtain ⟨k, v⟩ := e
    simp only [List.cons_append, get?]
    split
    · rfl
    · exact ih

theorem mem_of_get? {key : String} {value : α} {entries : List (String × α)}
    (h : get? key entries = some value) : (key, value) ∈ entries := by
  induction entries with
  | nil => cases h
  | cons e entries ih =>
    obtain ⟨k, v⟩ := e
    simp only [get?] at h
    split at h
    · rename_i hk
      rw [hk, Option.some.inj h]
      exact List.mem_cons_self
    · exact List.mem_cons_of_mem _ (ih h)

theorem exists_get?_of_mem {key : String} {value : α} {entries : List (String × α)} (h : (key, value) ∈ entries) :
    ∃ v, get? key entries = some v := by
  induction entries with
  | nil => cases h
  | cons e entries ih =>
    obtain ⟨k, v⟩ := e
    rw [get?]
    by_cases hk : k = key
    · exact ⟨v, if_pos hk⟩
    · rw [if_neg hk]
      rcases List.mem_cons.1 h with heq | hmem
      · cases heq
        exact absurd rfl hk
      · exact ih hmem

/-- Where each key stands once, every entry is found. -/
theorem get?_of_mem {key : String} {value : α} {entries : List (String × α)}
    (hd : KeysDiffer entries) (h : (key, value) ∈ entries) : get? key entries = some value := by
  induction entries with
  | nil => cases h
  | cons e entries ih =>
    obtain ⟨k, v⟩ := e
    obtain ⟨hk, hrest⟩ := List.pairwise_cons.1 hd
    rw [get?]
    rcases List.mem_cons.1 h with heq | hmem
    · cases heq
      rw [if_pos rfl]
    · rw [if_neg (hk _ hmem), ih hrest hmem]

theorem get?_eq_some_iff {key : String} {value : α} {entries : List (String × α)}
    (hd : KeysDiffer entries) : get? key entries = some value ↔ (key, value) ∈ entries :=
  ⟨mem_of_get?, get?_of_mem hd⟩

theorem get?_reverse {entries : List (String × α)} (hd : KeysDiffer entries) (key : String) :
    get? key entries.reverse = get? key entries := by
  apply Option.ext
  intro value
  rw [get?_eq_some_iff hd.reverse, get?_eq_some_iff hd, List.mem_reverse]

/-- What is done to every value is done to the one that is found. -/
theorem get?_map {β : Type} (f : α → β) (key : String) (entries : List (String × α)) :
    get? key (entries.map fun e => (e.1, f e.2)) = (get? key entries).map f := by
  induction entries with
  | nil => rfl
  | cons e entries ih =>
    obtain ⟨k, v⟩ := e
    simp only [List.map_cons, get?]
    split
    · rfl
    · exact ih

theorem insert_map {β : Type} (f : α → β) (key : String) (value : α) (entries : List (String × α)) :
    insert key (f value) (entries.map fun e => (e.1, f e.2)) = (insert key value entries).map fun e => (e.1, f e.2) := by
  induction entries with
  | nil => rfl
  | cons e entries ih =>
    obtain ⟨k, v⟩ := e
    simp only [List.map_cons, insert]
    split
    · rfl
    · split
      · rfl
      · rw [List.map_cons, ih]

end Entries

theorem KeysGrow.keysDiffer {entries : List (String × α)} (h : KeysGrow entries) : KeysDiffer entries :=
  List.Pairwise.imp (fun hab e => Std.ne_of_lt hab e) h

theorem keysGrow_pair {k k' : String} (h : k < k') (v v' : α) : KeysGrow [(k, v), (k', v')] :=
  List.pairwise_pair.2 h

/-- A key below all others is not found. -/
theorem Entries.get?_below {key : String} {entries : List (String × α)} (h : ∀ e ∈ entries, key < e.1) :
    get? key entries = none :=
  Option.eq_none_iff_forall_ne_some.2 fun _ hx => String.lt_irrefl _ (h _ (mem_of_get? hx))

section

variable {k k' : String} {v v' : α} {rest rest' : List (String × α)} (h : KeysGrow ((k, v) :: rest))
  (h' : KeysGrow ((k', v') :: rest')) (hg : ∀ key, Entries.get? key ((k, v) :: rest) = Entries.get? key ((k', v') :: rest'))

include h h' hg

/-- The first key of each list is found in the other, so neither is below the other. -/
theorem KeysGrow.head_eq : k = k' ∧ v = v' := by
  obtain ⟨hk, -⟩ := List.pairwise_cons.1 h
  obtain ⟨hk', -⟩ := List.pairwise_cons.1 h'
  have hkk : k = k' := by
    refine Decidable.byContradiction fun hne => ?_
    have h1 := hg k
    rw [Entries.get?, Entries.get?, if_pos rfl, if_neg (Ne.symm hne)] at h1
    have h2 := hg k'
    rw [Entries.get?, Entries.get?, if_pos rfl, if_neg hne] at h2
    exact String.lt_irrefl _ (String.lt_trans (hk _ (Entries.mem_of_get? h2)) (hk' _ (Entries.mem_of_get? h1.symm)))
  subst hkk
  have hv := hg k
  rw [Entries.get?, Entries.get?, if_pos rfl, if_pos rfl, Option.some.injEq] at hv
  exact ⟨rfl, hv⟩

theorem KeysGrow.get?_tail (key : String) : Entries.get? key rest = Entries.get? key rest' := by
  obtain ⟨rfl, -⟩ := head_eq h h' hg
  by_cases hkey : k = key
  · subst hkey
    rw [Entries.get?_below (List.pairwise_cons.1 h).1, Entries.get?_below (List.pairwise_cons.1 h').1]
  · have hget := hg key
    rwa [Entries.get?, Entries.get?, if_neg hkey, if_neg hkey] at hget

end

/-- Entries in key order are known by what is found among them. -/
theorem KeysGrow.ext_get? {entries entries' : List (String × α)} (h : KeysGrow entries) (h' : KeysGrow entries')
    (hg : ∀ key, Entries.get? key entries = Entries.get? key entries') : entries = entries' := by
  induction entries generalizing entries' with
  | nil =>
    cases entries' with
    | nil => rfl
    | cons e' rest' =>
      have hget := hg e'.1
      simp [Entries.get?] at hget
  | cons e rest ih =>
    cases entries' with
    | nil =>
      have hget := hg e.1
      simp [Entries.get?] at hget
    | cons e' rest' =>
      obtain ⟨hk, hv⟩ := head_eq h h' hg
      rw [Prod.ext hk hv, ih h.of_cons h'.of_cons (get?_tail h h' hg)]

namespace KeyMap

@[simp] theorem get?_empty (key : String) : (empty : KeyMap α).get? key = none := rfl

theorem get?_insert (m : KeyMap α) (key key' : String) (value : α) :
    (m.insert key value).get? key' = if key = key' then some value else m.get? key' :=
  Entries.get?_insert key key' value m.entries

theorem get?_insert_self (m : KeyMap α) (key : String) (value : α) : (m.insert key value).get? key = some value := by
  rw [get?_insert, if_pos rfl]

theorem get?_insert_of_ne {key key' : String} (h : key ≠ key') (m : KeyMap α) (value : α) :
    (m.insert key value).get? key' = m.get? key' := by
  rw [get?_insert, if_neg h]

theorem get?_erase (m : KeyMap α) (key key' : String) :
    (m.erase key).get? key' = if key = key' then none else m.get? key' :=
  Entries.get?_erase key key' m.entries

theorem get?_erase_self (m : KeyMap α) (key : String) : (m.erase key).get? key = none := by
  rw [get?_erase, if_pos rfl]

theorem get?_erase_of_ne {key key' : String} (h : key ≠ key') (m : KeyMap α) : (m.erase key).get? key' = m.get? key' := by
  rw [get?_erase, if_neg h]

theorem get?_erase_of_none {m : KeyMap α} {key' : String} (h : m.get? key' = none) (key : String) :
    (m.erase key).get? key' = none := by
  rw [get?_erase, h, ite_self]

theorem ext_get? {m m' : KeyMap α} (h : ∀ key, m.get? key = m'.get? key) : m = m' := by
  obtain ⟨entries, hgrow⟩ := m
  obtain ⟨entries', hgrow'⟩ := m'
  have : entries = entries' := KeysGrow.ext_get? hgrow hgrow' h
  subst this
  rfl

theorem contains_eq_true {m : KeyMap α} {key : String} : m.contains key = true ↔ m.get? key ≠ none := by
  unfold contains
  rw [Option.isSome_iff_ne_none]

/-- Of entries with one key the last one is found. -/
theorem get?_ofList (entries : List (String × α)) (key : String) :
    (ofList entries).get? key = Entries.get? key entries.reverse := by
  have hfold : ∀ (es : List (String × α)) (m : KeyMap α), (es.foldl (fun m e => m.insert e.1 e.2) m).get? key
      = (Entries.get? key es.reverse).or (m.get? key) := by
    intro es
    induction es with
    | nil => exact fun m => rfl
    | cons e es ih =>
      intro m
      obtain ⟨k, v⟩ := e
      rw [List.foldl_cons, ih, get?_insert, List.reverse_cons, Entries.get?_append, Option.or_assoc]
      congr 1
      simp only [Entries.get?]
      split
      · rfl
      · rw [Option.none_or]
  rw [ofList, hfold, get?_empty, Option.or_none]

theorem get?_ofList_of_ne {entries : List (String × α)} (hd : KeysDiffer entries) (key : String) :
    (ofList entries).get? key = Entries.get? key entries := by
  rw [get?_ofList, Entries.get?_reverse hd]

theorem get?_entries_ofList {entries : List (String × α)} (hd : KeysDiffer entries) (key : String) :
    Entries.get? key (ofList entries).entries = Entries.get? key entries :=
  get?_ofList_of_ne hd key

theorem mem_of_mem_ofList {entries : List (String × α)} {e : String × α} (h : e ∈ (ofList entries).entries) :
    e ∈ entries := by
  have hg : (ofList entries).get? e.1 = some e.2 := Entries.get?_of_mem (keysGrow _).keysDiffer h
  rw [get?_ofList] at hg
  exact List.mem_reverse.1 (Entries.mem_of_get? hg)

/-- Entries whose keys a map does not have may stand before those of the map. -/
theorem keysDiffer_append {fields : List (String × α)} (hd : KeysDiffer fields) {m : KeyMap α}
    (hm : ∀ e ∈ fields, m.get? e.1 = none) : KeysDiffer (fields ++ m.entries) := by
  refine List.pairwise_append.2 ⟨hd, m.keysGrow.keysDiffer, ?_⟩
  rintro e he ⟨key, v⟩ hv rfl
  have hfound : m.get? e.1 = some v := Entries.get?_of_mem m.keysGrow.keysDiffer hv
  rw [hm e he] at hfound
  cases hfound

@[simp] theorem ofList_entries (m : KeyMap α) : ofList m.entries = m :=
  ext_get? fun key => get?_ofList_of_ne m.keysGrow.keysDiffer key

end KeyMap

end PhaseCert
