/-
  PhaseCert.Proofs.Tree — trees with their entries put in key order.

  `sorted` puts the entries of every mapping in key order; of entries with one key the last one
  stays. The tree that is left is canonical (`canonical_sorted`), a canonical tree stays as it is
  (`sorted_of_canonical`), and where each key stands once the same values are found
  (`get?_sorted`). `KeysOnce` says that of a whole tree: no mapping in it has a key twice, in
  whatever order its entries are.
-/
import PhaseCert.Proofs.KeyMap
import PhaseCert.Tree

namespace PhaseCert.Tree

def IsNumber (t : Tree) : Prop := (∃ n, t = .int n) ∨ ∃ x, t = .float x

theorem ofReal_of_isFinite {x : Binary64} (hx : x.isFinite = true) : ofReal x = .float ⟨x, hx⟩ := by
  rw [ofReal, Binary64.finite?, dif_pos hx]

theorem ofReal_of_not_finite {x : Binary64} (hx : x.isFinite = false) : ofReal x = .null := by
  rw [ofReal, Binary64.finite?, dif_neg (by rw [hx]; exact Bool.false_ne_true)]

mutual

/-- The tree with the entries of every mapping in key order. -/
def sorted : Tree → Tree
  | .seq items => .seq (itemsSorted items)
  | .map entries => .map (KeyMap.ofList (entriesSorted entries)).entries
  | t => t

def itemsSorted : List Tree → List Tree
  | [] => []
  | t :: rest => sorted t :: itemsSorted rest

def entriesSorted : List (String × Tree) → List (String × Tree)
  | [] => []
  | (k, t) :: rest => (k, sorted t) :: entriesSorted rest

end

theorem itemsSorted_eq (items : List Tree) : itemsSorted items = items.map sorted := by
  induction items with
  | nil => rfl
  | cons t rest ih => rw [itemsSorted, List.map_cons, ih]

theorem entriesSorted_eq (entries : List (String × Tree)) :
    entriesSorted entries = entries.map fun e => (e.1, e.2.sorted) := by
  induction entries with
  | nil => rfl
  | cons e rest ih => rw [entriesSorted, List.map_cons, ih]

theorem sorted_seq (items : List Tree) : (Tree.seq items).sorted = .seq (items.map sorted) := by
  rw [sorted, itemsSorted_eq]

theorem sorted_map (entries : List (String × Tree)) :
    (Tree.map entries).sorted = .map (KeyMap.ofList (entries.map fun e => (e.1, e.2.sorted))).entries := by
  rw [sorted, entriesSorted_eq]

theorem get?_sorted {entries : List (String × Tree)} (h : KeysDiffer entries) (key : String) :
    (Tree.map entries).sorted.get? key = (Entries.get? key entries).map sorted := by
  rw [sorted_map, get?, ← Entries.get?_map]
  exact KeyMap.get?_ofList_of_ne (h.map sorted) key

/-! ## Canonical trees -/

theorem itemsCanonical_iff (items : List Tree) : ItemsCanonical items ↔ ∀ t ∈ items, t.Canonical := by
  induction items with
  | nil => simp [ItemsCanonical]
  | cons t rest ih => simp [ItemsCanonical, ih]

theorem entriesCanonical_iff (entries : List (String × Tree)) :
    EntriesCanonical entries ↔ ∀ e ∈ entries, e.2.Canonical := by
  induction entries with
  | nil => simp [EntriesCanonical]
  | cons e rest ih => simp [EntriesCanonical, ih]

theorem canonical_ofReal (x : Binary64) : (ofReal x).Canonical := by
  unfold ofReal
  cases x.finite? <;> trivial

mutual

theorem canonical_sorted : (t : Tree) → t.sorted.Canonical
  | .null | .bool _ | .int _ | .float _ | .text _ => by simp [sorted, Canonical]
  | .seq items => by
    rw [sorted, Canonical, itemsCanonical_iff]
    exact itemsCanonical_sorted items
  | .map entries => by
    rw [sorted, Canonical, entriesCanonical_iff]
    exact ⟨KeyMap.keysGrow _, fun e he => entriesCanonical_sorted entries e (KeyMap.mem_of_mem_ofList he)⟩

theorem itemsCanonical_sorted : (items : List Tree) → ∀ t ∈ itemsSorted items, t.Canonical
  | [] => fun t ht => by cases ht
  | t :: rest => by
    rw [itemsSorted, List.forall_mem_cons]
    exact ⟨canonical_sorted t, itemsCanonical_sorted rest⟩

theorem entriesCanonical_sorted : (entries : List (String × Tree)) → ∀ e ∈ entriesSorted entries, e.2.Canonical
  | [] => fun e he => by cases he
  | (k, t) :: rest => by
    rw [entriesSorted, List.forall_mem_cons]
    exact ⟨canonical_sorted t, entriesCanonical_sorted rest⟩

end

mutual

theorem sorted_of_canonical : (t : Tree) → t.Canonical → t.sorted = t
  | .null, _ | .bool _, _ | .int _, _ | .float _, _ | .text _, _ => by simp [sorted]
  | .seq items, h => by rw [sorted, itemsSorted_of_canonical items h]
  | .map entries, h => by
    have hlist : KeyMap.ofList entries = ⟨entries, h.1⟩ := KeyMap.ofList_entries ⟨entries, h.1⟩
    rw [sorted, entriesSorted_of_canonical entries h.2, hlist]

theorem itemsSorted_of_canonical : (items : List Tree) → ItemsCanonical items → itemsSorted items = items
  | [], _ => rfl
  | t :: rest, h => by rw [itemsSorted, sorted_of_canonical t h.1, itemsSorted_of_canonical rest h.2]

theorem entriesSorted_of_canonical :
    (entries : List (String × Tree)) → EntriesCanonical entries → entriesSorted entries = entries
  | [], _ => rfl
  | (k, t) :: rest, h => by rw [entriesSorted, sorted_of_canonical t h.1, entriesSorted_of_canonical rest h.2]

end

theorem Canonical.get? {entries : List (String × Tree)} (h : (Tree.map entries).Canonical) {key : String} {t : Tree}
    (ht : Entries.get? key entries = some t) : t.Canonical :=
  (entriesCanonical_iff entries).1 h.2 _ (Entries.mem_of_get? ht)

theorem Canonical.ofList {entries : List (String × Tree)} (h : EntriesCanonical entries) :
    (Tree.map (KeyMap.ofList entries).entries).Canonical := by
  refine ⟨KeyMap.keysGrow _, (entriesCanonical_iff _).2 fun e he => ?_⟩
  exact (entriesCanonical_iff entries).1 h e (KeyMap.mem_of_mem_ofList he)

theorem Canonical.erase {m : KeyMap Tree} (h : (Tree.map m.entries).Canonical) (key : String) :
    (Tree.map (m.erase key).entries).Canonical := by
  refine ⟨KeyMap.keysGrow _, (entriesCanonical_iff _).2 fun e he => ?_⟩
  exact (entriesCanonical_iff _).1 h.2 e (List.mem_filter.1 he).1

/-- Where the values are canonical, sorting leaves them. -/
theorem map_sorted {entries : List (String × Tree)} (h : EntriesCanonical entries) :
    entries.map (fun e => (e.1, e.2.sorted)) = entries := by
  rw [← entriesSorted_eq, entriesSorted_of_canonical entries h]

/-! ## Keys that stand once -/

/-- No mapping has a key twice. -/
inductive KeysOnce : Tree → Prop
  | null : KeysOnce .null
  | bool (b : Bool) : KeysOnce (.bool b)
  | int (n : Whole) : KeysOnce (.int n)
  | float (x : Finite64) : KeysOnce (.float x)
  | text (s : String) : KeysOnce (.text s)
  | seq {items : List Tree} : (∀ t ∈ items, KeysOnce t) → KeysOnce (.seq items)
  | map {entries : List (String × Tree)} : KeysDiffer entries → (∀ e ∈ entries, KeysOnce e.2) → KeysOnce (.map entries)

mutual

theorem keysOnce_of_canonical : (t : Tree) → t.Canonical → t.KeysOnce
  | .null, _ => .null
  | .bool b, _ => .bool b
  | .int n, _ => .int n
  | .float x, _ => .float x
  | .text s, _ => .text s
  | .seq items, h => .seq (itemsKeysOnce_of_canonical items h)
  | .map entries, h => .map h.1.keysDiffer (entriesKeysOnce_of_canonical entries h.2)

theorem itemsKeysOnce_of_canonical : (items : List Tree) → ItemsCanonical items → ∀ t ∈ items, t.KeysOnce
  | [], _ => nofun
  | t :: rest, h => by
    rw [List.forall_mem_cons]
    exact ⟨keysOnce_of_canonical t h.1, itemsKeysOnce_of_canonical rest h.2⟩

theorem entriesKeysOnce_of_canonical :
    (entries : List (String × Tree)) → EntriesCanonical entries → ∀ e ∈ entries, e.2.KeysOnce
  | [], _ => nofun
  | (k, t) :: rest, h => by
    rw [List.forall_mem_cons]
    exact ⟨keysOnce_of_canonical t h.1, entriesKeysOnce_of_canonical rest h.2⟩

end

end PhaseCert.Tree
