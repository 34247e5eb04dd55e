/-
  PhaseCert.Proofs.Place — what stands at a place in a tree, and what is put there.

  `at?` is what stands at a place, and `put` puts a tree there. What was put is there
  (`at?_put`), and putting what is there changes nothing (`put_self`). Around it all stays: the
  tree is a mapping or a sequence if it was one, with the same keys and as many items, and its
  other keys and items are as they were (`get?_put_key`, `items_put_item`).
-/
import PhaseCert.Fault
import PhaseCert.Proofs.Protocol.Schema
import PhaseCert.Proofs.Tree

namespace PhaseCert

namespace Entries

variable {α : Type}

/-- The value under a key changed. -/
def modify (key : String) (f : α → α) (entries : List (String × α)) : List (String × α) :=
  entries.map fun e => (e.1, if e.1 = key then f e.2 else e.2)

theorem get?_modify (key key' : String) (f : α → α) (entries : List (String × α)) :
    get? key' (modify key f entries) = (get? key' entries).map fun v => if key' = key then f v else v := by
  induction entries with
  | nil => rfl
  | cons e entries ih =>
    obtain ⟨k, v⟩ := e
    rw [modify, List.map_cons, get?, get?]
    by_cases hk : k = key'
    · rw [if_pos hk, if_pos hk, hk]
      rfl
    · rw [if_neg hk, if_neg hk]
      exact ih

/-- A change that leaves the value of the key as it is changes nothing. -/
theorem modify_self {key : String} {f : α → α} {entries : List (String × α)} {v : α} (hd : KeysDiffer entries)
    (hv : get? key entries = some v) (hf : f v = v) : modify key f entries = entries := by
  have hsame : ∀ e ∈ entries, (e.1, if e.1 = key then f e.2 else e.2) = e := by
    rintro ⟨k, u⟩ he
    by_cases hk : k = key
    · have hu := get?_of_mem hd he
      rw [hk, hv, Option.some.injEq] at hu
      simp only [if_pos hk, ← hu, hf]
    · simp only [if_neg hk]
  exact (List.map_congr_left hsame).trans (List.map_id entries)

end Entries

namespace Tree

/-- What stands at a place. -/
def at? : Tree → Place → Option Tree
  | t, [] => some t
  | t, .key key :: rest => (t.get? key).bind fun v => v.at? rest
  | t, .item i :: rest => t.items[i]?.bind fun v => v.at? rest

/-- The tree with another in place of what stands there. -/
def put : Tree → Place → Tree → Tree
  | _, [], x => x
  | .map entries, .key key :: rest, x => .map (Entries.modify key (fun v => v.put rest x) entries)
  | .seq items, .item i :: rest, x => .seq (items.modify i fun v => v.put rest x)
  | t, _, _ => t

@[simp] theorem put_nil (t x : Tree) : t.put [] x = x := by
  cases t <;> rfl

@[simp] theorem at?_nil (t : Tree) : t.at? [] = some t := by
  cases t <;> rfl

variable (t x : Tree) (rest : Place)

theorem get?_put_key (key key' : String) :
    (t.put (.key key :: rest) x).get? key' = (t.get? key').map fun v => if key' = key then v.put rest x else v := by
  cases t with
  | map entries => exact Entries.get?_modify key key' _ entries
  | _ => rfl

theorem get?_put_item (i : Nat) (key : String) : (t.put (.item i :: rest) x).get? key = t.get? key := by
  cases t <;> rfl

theorem items_put_key (key : String) : (t.put (.key key :: rest) x).items = t.items := by
  cases t <;> rfl

theorem items_put_item (i : Nat) : (t.put (.item i :: rest) x).items = t.items.modify i fun v => v.put rest x := by
  cases t with
  | seq items => rfl
  | _ => exact (List.modify_nil _ i).symm

theorem entries_put_key (key : String) :
    (t.put (.key key :: rest) x).entries = Entries.modify key (fun v => v.put rest x) t.entries := by
  cases t <;> rfl

theorem entries_put_item (i : Nat) : (t.put (.item i :: rest) x).entries = t.entries := by
  cases t <;> rfl

/-! ## What stays -/

variable (step : Step)

@[simp] theorem isMapping_put : (t.put (step :: rest) x).IsMapping ↔ t.IsMapping := by
  cases t <;> cases step <;> simp [IsMapping, put]

@[simp] theorem isSequence_put : (t.put (step :: rest) x).IsSequence ↔ t.IsSequence := by
  cases t <;> cases step <;> simp [IsSequence, put]

@[simp] theorem isNull_put : (t.put (step :: rest) x).isNull = t.isNull := by
  cases t <;> cases step <;> rfl

theorem length_items_put : (t.put (step :: rest) x).items.length = t.items.length := by
  cases step with
  | key key => rw [items_put_key]
  | item i => rw [items_put_item, List.length_modify]

/-! ## What was put -/

variable {t}

/-- What was put at a place stands there. -/
theorem at?_put {place : Place} (h : t.at? place ≠ none) : (t.put place x).at? place = some x := by
  induction place generalizing t with
  | nil => rw [put_nil, at?_nil]
  | cons step rest ih =>
    cases step with
    | key key =>
      obtain ⟨v, hv⟩ := Option.ne_none_iff_exists'.1 h
      obtain ⟨u, hu, hv⟩ := Option.bind_eq_some_iff.1 hv
      have hput := ih (Option.ne_none_iff_exists'.2 ⟨v, hv⟩)
      rw [at?, get?_put_key, hu, Option.map_some, if_pos rfl, Option.bind_some, hput]
    | item i =>
      obtain ⟨v, hv⟩ := Option.ne_none_iff_exists'.1 h
      obtain ⟨u, hu, hv⟩ := Option.bind_eq_some_iff.1 hv
      have hput := ih (Option.ne_none_iff_exists'.2 ⟨v, hv⟩)
      rw [at?, items_put_item, List.getElem?_modify_eq, hu]
      exact hput

variable {x}

/-- What stands at a place can be put there: the tree is the same. -/
theorem put_self {place : Place} (hc : t.Canonical) (h : t.at? place = some x) : t.put place x = t := by
  induction place generalizing t with
  | nil =>
    rw [at?_nil, Option.some.injEq] at h
    rw [put_nil, h]
  | cons step rest ih =>
    cases step with
    | key key =>
      obtain ⟨u, hu, hx⟩ := Option.bind_eq_some_iff.1 h
      cases t with
      | map entries =>
        have hcu : u.Canonical := (entriesCanonical_iff entries).1 hc.2 _ (Entries.mem_of_get? hu)
        rw [put, Entries.modify_self hc.1.keysDiffer hu (ih hcu hx)]
      | _ => cases hu
    | item i =>
      obtain ⟨u, hu, hx⟩ := Option.bind_eq_some_iff.1 h
      cases t with
      | seq items =>
        have hcu : u.Canonical := (itemsCanonical_iff items).1 hc u (List.mem_of_getElem? hu)
        have hitems : items.modify i (fun v => v.put rest x) = items := by
          refine List.ext_getElem? fun j => ?_
          rw [List.getElem?_modify]
          by_cases hij : i = j
          · have hu : items[j]? = some u := by rw [← hij]; exact hu
            simp [hij, hu, ih hcu hx]
          · simp [hij]
        rw [put, hitems]
      | _ => cases hu

end Tree

end PhaseCert
