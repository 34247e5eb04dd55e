/-
  PhaseCert.Proofs.Parameters.Operations — a store after a sequence of operations.

  A store starts empty; values are written into it, and a collection replaces all of it. What one
  operation makes of what is found under a key (`get?_apply`) gives what a sequence makes of it:
  the value that was last written there since the last collection (`get?_ofOperations`), and
  nothing else. The rest of a store follows from what is found in it: its entries are what is
  found, in the order of the keys' bytes, and stores in which the same is found are equal
  (`ofOperations_spec`).
-/
import Mathlib.Data.List.Induction
import PhaseCert.Parameters
import PhaseCert.Proofs.KeyMap
import PhaseCert.Proofs.Text.ByteOrder

namespace PhaseCert

/-! ## The last of a list -/

/-- Some member is so, and all after it are so. -/
def Lastly {α : Type} (p q : α → Prop) (xs : List α) : Prop :=
  ∃ before x after, xs = before ++ x :: after ∧ p x ∧ ∀ y ∈ after, q y

section

variable {α : Type} {p q : α → Prop}

theorem not_lastly_nil : ¬Lastly p q [] := by
  rintro ⟨before, x, after, h, -⟩
  simp at h

/-- With one more at the end, it is that one, or one before it that it does not undo. -/
theorem lastly_concat {xs : List α} {x : α} : Lastly p q (xs ++ [x]) ↔ p x ∨ q x ∧ Lastly p q xs := by
  constructor
  · rintro ⟨before, y, after, h, hy, hafter⟩
    rcases List.eq_nil_or_concat after with rfl | ⟨after, last, rfl⟩
    · obtain ⟨-, hx⟩ := List.append_inj' h rfl
      rw [List.cons.injEq] at hx
      exact .inl (hx.1 ▸ hy)
    · rw [List.concat_eq_append, ← List.cons_append, ← List.append_assoc] at h
      obtain ⟨hxs, hx⟩ := List.append_inj' h rfl
      rw [List.cons.injEq] at hx
      rw [List.concat_eq_append, List.forall_mem_append] at hafter
      exact .inr ⟨hx.1 ▸ hafter.2 last List.mem_cons_self, before, y, after, hxs, hy, hafter.1⟩
  · rintro (hx | ⟨hx, before, y, after, rfl, hy, hafter⟩)
    · exact ⟨xs, x, [], rfl, hx, List.forall_mem_nil _⟩
    · refine ⟨before, y, after ++ [x], by simp, hy, ?_⟩
      rw [List.forall_mem_append, List.forall_mem_singleton]
      exact ⟨hafter, hx⟩

end

/-- Looked through from the end, entries have under a key what the last entry with it has. -/
theorem Entries.get?_reverse_eq_some_iff {α : Type} {key : String} {value : α} {entries : List (String × α)} :
    get? key entries.reverse = some value ↔ Lastly (· = (key, value)) (fun e => e.1 ≠ key) entries := by
  induction entries using List.reverseRecOn with
  | nil => simp [get?, not_lastly_nil]
  | append_singleton entries e ih =>
    obtain ⟨k, v⟩ := e
    rw [List.reverse_append, List.reverse_singleton, List.singleton_append, get?, lastly_concat, ← ih]
    by_cases hk : k = key <;> simp [hk]

namespace Parameters

/-! ## Operations -/

/-- An operation that makes one store of another. -/
inductive Operation where
  | insert (key : String) (value : ParamValue)
  /-- The same, for a store that is being put together. -/
  | adding (key : String) (value : ParamValue)
  /-- A store made of these entries, in place of the one there was. -/
  | collect (entries : List (String × ParamValue))

namespace Operation

def apply (p : Parameters) : Operation → Parameters
  | insert key value => KeyMap.insert p key value
  | adding key value => KeyMap.insert p key value
  | collect entries => KeyMap.ofList entries

/-- What is written, in this order. -/
def writes : Operation → List (String × ParamValue)
  | insert key value => [(key, value)]
  | adding key value => [(key, value)]
  | collect entries => entries

/-- Is what was there before dropped? -/
def replaces : Operation → Bool
  | collect _ => true
  | _ => false

/-- The value is written under the key, and no other after it. -/
def Leaves (key : String) (value : ParamValue) (op : Operation) : Prop :=
  Lastly (· = (key, value)) (fun e => e.1 ≠ key) op.writes

/-- What was there under the key stays. -/
def Passes (key : String) (op : Operation) : Prop :=
  op.replaces = false ∧ ∀ e ∈ op.writes, e.1 ≠ key

/-- After an operation a key has the value that the operation leaves there, or the one it had, if
    the operation passes it. -/
theorem get?_apply {p : Parameters} {op : Operation} {key : String} {value : ParamValue} :
    (op.apply p).get? key = some value ↔ op.Leaves key value ∨ op.Passes key ∧ p.get? key = some value := by
  have hwrite : ∀ k v, (KeyMap.insert p k v).get? key = some value ↔
      Lastly (· = (key, value)) (fun e => e.1 ≠ key) [(k, v)] ∨
        (∀ e ∈ [(k, v)], e.1 ≠ key) ∧ p.get? key = some value := by
    intro k v
    rw [← Entries.get?_reverse_eq_some_iff, KeyMap.get?_insert]
    by_cases hk : k = key <;> simp [Entries.get?, hk]
  cases op with
  | insert k v => simpa [apply, Leaves, Passes, writes, replaces] using hwrite k v
  | adding k v => simpa [apply, Leaves, Passes, writes, replaces] using hwrite k v
  | collect entries =>
    rw [apply, KeyMap.get?_ofList, Entries.get?_reverse_eq_some_iff]
    simp [Leaves, Passes, writes, replaces]

end Operation

/-! ## Sequences -/

/-- The store that the operations make of the empty one. -/
def ofOperations (ops : List Operation) : Parameters := ops.foldl Operation.apply .empty

/-- The value was last written under the key: some operation left it there, and all after it
    passed it. -/
def LastWritten (ops : List Operation) (key : String) (value : ParamValue) : Prop :=
  Lastly (Operation.Leaves key value) (Operation.Passes key) ops

/-- Under each key stands the value that was last written there. -/
theorem get?_ofOperations {ops : List Operation} {key : String} {value : ParamValue} :
    (ofOperations ops).get? key = some value ↔ LastWritten ops key value := by
  induction ops using List.reverseRecOn with
  | nil => simp [ofOperations, LastWritten, not_lastly_nil]
  | append_singleton ops op ih =>
    have hstep : ofOperations (ops ++ [op]) = op.apply (ofOperations ops) := by
      rw [ofOperations, List.foldl_append]
      rfl
    rw [hstep, Operation.get?_apply, ih, LastWritten, LastWritten, lastly_concat]

/-- A store has under each key what was last written there, and no other keys. It lists its
    entries in the order of the keys' bytes, each key once, and says how many they are. Sequences
    of operations that wrote the same last under each key make the same store. -/
theorem ofOperations_spec (ops : List Operation) :
    (∀ key value, (ofOperations ops).get? key = some value ↔ LastWritten ops key value) ∧
      (∀ key, (ofOperations ops).contains key = true ↔ ∃ value, (ofOperations ops).get? key = some value) ∧
      (∀ key value, (key, value) ∈ (ofOperations ops).entries ↔ (ofOperations ops).get? key = some value) ∧
      (ofOperations ops).entries.Pairwise (fun a b => Utf8.encode a.1 < Utf8.encode b.1) ∧
      (ofOperations ops).size = (ofOperations ops).entries.length ∧
      ((ofOperations ops).isEmpty = true ↔ (ofOperations ops).size = 0) ∧
      ∀ ops', (∀ key value, LastWritten ops' key value ↔ LastWritten ops key value) →
        ofOperations ops' = ofOperations ops := by
  refine ⟨fun key value => get?_ofOperations, ?_, ?_, ?_, rfl, ?_, ?_⟩
  · intro key
    rw [KeyMap.contains_eq_true, Option.ne_none_iff_exists']
  · intro key value
    exact (Entries.get?_eq_some_iff (ofOperations ops).keysGrow.keysDiffer).symm
  · exact (ofOperations ops).keysGrow.imp Utf8.encode_lt_iff.2
  · rw [KeyMap.isEmpty, KeyMap.size, List.isEmpty_iff, List.length_eq_zero_iff]
  · intro ops' hsame
    refine KeyMap.ext_get? fun key => Option.ext fun value => ?_
    rw [get?_ofOperations, get?_ofOperations, hsame]

end Parameters

end PhaseCert
