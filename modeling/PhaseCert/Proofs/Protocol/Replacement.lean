/-
  PhaseCert.Proofs.Protocol.Replacement — a tree put at one place of a valid document.

  A schema takes a tree at a place if it asks of the tree what the tree is, and of what is above
  the place nothing that depends on it (`Takes`). A tree that is taken can be put there whatever
  made the document valid before (`valid_put`). So a document that is valid but for what stands
  at a place is loaded with any tree there that its schema takes (`ValidBut.loads`).
-/
import PhaseCert.Proofs.Place
import PhaseCert.Proofs.Protocol.Sections

namespace PhaseCert

namespace Schema

/-- The tree can stand at this place, as far as the schema goes. -/
def Takes (x : Tree) : Schema → Place → Prop
  | s, [] => s.Valid x
  | is kind, step :: rest => ∀ t y, kind (Tree.put t (step :: rest) y) → kind (t.put (step :: rest) x)
  | items item, .item _ :: rest => item.Takes x rest
  | items _, .key _ :: _ => True
  | values value, .key _ :: rest => value.Takes x rest
  | values _, .item _ :: _ => True
  | rectangular, _ :: rest => rest ≠ []
  | present _ _, _ :: _ => True
  | optional key value, .key k :: rest => k = key → value.Takes x rest
  | optional _ _, .item _ :: _ => True
  | without _ schema, step :: rest => schema.Takes x (step :: rest)
  | anything, _ :: _ => True
  | both first second, step :: rest => first.Takes x (step :: rest) ∧ second.Takes x (step :: rest)

variable {x y t : Tree} {rest : Place} {step : Step}

@[simp] theorem takes_nil (s : Schema) : s.Takes x [] ↔ s.Valid x := by
  cases s <;> rfl

/-! ## What is found once a tree was put -/

/-- A key that has a value keeps one, since what is put is not null. -/
theorem value?_put_ne_none (hx : x.isNull = false) {key : String} (h : (t.put (step :: rest) y).value? key ≠ none) :
    (t.put (step :: rest) x).value? key ≠ none := by
  unfold Tree.value? at h ⊢
  cases step with
  | item i => rwa [Tree.get?_put_item] at h ⊢
  | key k =>
    rw [Tree.get?_put_key] at h ⊢
    cases hv : t.get? key with
    | none =>
      rw [hv] at h
      exact absurd rfl h
    | some v =>
      rw [hv] at h
      by_cases hk : key = k
      · cases rest with
        | nil => simp [Option.filter_some, hk, hx]
        | cons step rest => simpa [Option.filter_some, hk] using h
      · simpa [hk] using h

/-- The value of a key has the tree put in it, or is the one that was there. -/
theorem value?_put {key : String} {v : Tree} (h : (t.put (step :: rest) x).value? key = some v) :
    (∃ u, step = .key key ∧ t.get? key = some u ∧ v = u.put rest x) ∨
      (step ≠ .key key ∧ (t.put (step :: rest) y).value? key = some v) := by
  unfold Tree.value? at h ⊢
  cases step with
  | item i =>
    rw [Tree.get?_put_item] at h ⊢
    exact Or.inr ⟨by simp, h⟩
  | key k =>
    rw [Tree.get?_put_key] at h ⊢
    by_cases hk : key = k
    · obtain ⟨hv, -⟩ := Option.filter_eq_some_iff.1 h
      obtain ⟨u, hu, hv⟩ := Option.map_eq_some_iff.1 hv
      rw [if_pos hk] at hv
      exact Or.inl ⟨u, by rw [hk], hu, hv.symm⟩
    · simp only [if_neg hk] at h ⊢
      exact Or.inr ⟨by simpa using Ne.symm hk, h⟩

/-- An item has the tree put in it, or is the one that was there. -/
theorem mem_items_put {v : Tree} (h : v ∈ (t.put (step :: rest) x).items) :
    (∃ (i : Nat) (u : Tree), step = .item i ∧ u.put rest y ∈ (t.put (step :: rest) y).items ∧ v = u.put rest x) ∨
      v ∈ (t.put (step :: rest) y).items := by
  cases step with
  | key k =>
    rw [Tree.items_put_key] at h ⊢
    exact Or.inr h
  | item i =>
    rw [Tree.items_put_item] at h ⊢
    obtain ⟨j, hj⟩ := List.mem_iff_getElem?.1 h
    rw [List.getElem?_modify] at hj
    obtain ⟨u, hu, hv⟩ := Option.map_eq_some_iff.1 hj
    have hmem : (if i = j then u.put rest y else u) ∈ t.items.modify i fun v => v.put rest y := by
      refine List.mem_iff_getElem?.2 ⟨j, ?_⟩
      rw [List.getElem?_modify, hu]
      rfl
    by_cases hij : i = j
    · rw [if_pos hij] at hv hmem
      exact Or.inl ⟨i, u, rfl, hmem, hv.symm⟩
    · rw [if_neg hij] at hv hmem
      rw [← hv]
      exact Or.inr hmem

theorem mem_entries_put {e : String × Tree} (h : e ∈ (t.put (step :: rest) x).entries) :
    (∃ u : Tree, step = .key e.1 ∧ (e.1, u.put rest y) ∈ (t.put (step :: rest) y).entries ∧ e.2 = u.put rest x) ∨
      e ∈ (t.put (step :: rest) y).entries := by
  cases step with
  | item i =>
    rw [Tree.entries_put_item] at h ⊢
    exact Or.inr h
  | key k =>
    rw [Tree.entries_put_key] at h ⊢
    obtain ⟨⟨key, u⟩, hu, rfl⟩ := List.mem_map.1 h
    have hmem : (key, if key = k then u.put rest y else u) ∈ Entries.modify k (fun v => v.put rest y) t.entries :=
      List.mem_map_of_mem (f := fun e : String × Tree => (e.1, if e.1 = k then e.2.put rest y else e.2)) hu
    by_cases hk : key = k
    · simp only [if_pos hk] at hmem ⊢
      exact Or.inl ⟨u, by rw [hk], hmem, rfl⟩
    · simp only [if_neg hk] at hmem ⊢
      exact Or.inr hmem

/-- A tree that is taken at a place can be put there, whatever stood there before. -/
theorem valid_put {s : Schema} {place : Place} (hx : x.isNull = false) (hs : s.Takes x place)
    (h : s.Valid (t.put place y)) : s.Valid (t.put place x) := by
  induction s generalizing t place with
  | is kind =>
    cases place with
    | nil => rwa [Tree.put_nil]
    | cons step rest => exact hs t y h
  | items item ih =>
    cases place with
    | nil => rwa [Tree.put_nil]
    | cons step rest =>
      intro v hv
      rcases mem_items_put (y := y) hv with ⟨i, u, rfl, hu, rfl⟩ | hv
      · exact ih hs (h _ hu)
      · exact h v hv
  | values value ih =>
    cases place with
    | nil => rwa [Tree.put_nil]
    | cons step rest =>
      intro e he
      rcases mem_entries_put (y := y) he with ⟨u, rfl, hu, hv⟩ | he
      · rw [hv]
        exact ih hs (h _ hu)
      · exact h e he
  | rectangular =>
    cases place with
    | nil => rwa [Tree.put_nil]
    | cons step rest =>
      obtain ⟨step', rest, rfl⟩ := List.exists_cons_of_ne_nil hs
      -- a row keeps its length when something is put into it
      have hrow : ∀ r ∈ (t.put (step :: step' :: rest) x).items,
          ∃ r' ∈ (t.put (step :: step' :: rest) y).items, r'.items.length = r.items.length := by
        intro r hr
        rcases mem_items_put (y := y) hr with ⟨i, u, -, hu, rfl⟩ | hr
        · exact ⟨_, hu, by rw [Tree.length_items_put, Tree.length_items_put]⟩
        · exact ⟨r, hr, rfl⟩
      intro r hr r' hr'
      obtain ⟨q, hq, hlen⟩ := hrow r hr
      obtain ⟨q', hq', hlen'⟩ := hrow r' hr'
      rw [← hlen, ← hlen', h q hq q' hq']
  | present key reported =>
    cases place with
    | nil => rwa [Tree.put_nil]
    | cons step rest =>
      have h := value?_put_ne_none hx (Option.ne_none_iff_exists'.2 h)
      exact Option.ne_none_iff_exists'.1 h
  | optional key value ih =>
    cases place with
    | nil => rwa [Tree.put_nil]
    | cons step rest =>
      intro v hv
      rcases value?_put (y := y) hv with ⟨u, rfl, hu, rfl⟩ | ⟨-, hv⟩
      · have hvalue : value.Takes x rest := hs rfl
        cases rest with
        | nil =>
          rw [Tree.put_nil]
          exact (takes_nil value).1 hvalue
        | cons step rest =>
          refine ih hvalue (h _ ?_)
          unfold Tree.value? at hv ⊢
          rw [Tree.get?_put_key, hu] at hv ⊢
          simpa [Option.filter_some] using hv
      · exact h v hv
  | without key schema ih =>
    cases place with
    | nil => rwa [Tree.put_nil]
    | cons step rest =>
      intro hv
      refine ih hs (h ?_)
      by_contra hne
      exact value?_put_ne_none hx hne hv
  | anything => trivial
  | both first second ih1 ih2 =>
    cases place with
    | nil => rwa [Tree.put_nil]
    | cons step rest => exact ⟨ih1 hs.1 h.1, ih2 hs.2 h.2⟩

end Schema

namespace Protocol

/-- A document is loaded exactly if it is valid. -/
theorem isOk_iff_valid (document : Tree) : (∃ p, ofDocument document = .ok p) ↔ Schema.protocol.Valid document := by
  have hok := (ofTree_reports document).isOk_iff
  have hvalid := Schema.valid_iff_checks Schema.protocol ⟨[], document⟩
  simp only [ofDocument, Outcome.mapError_eq_ok]
  exact hok.trans hvalid.symm

/-- Something stands at the place, and the document is loaded with the right thing there. -/
structure ValidBut (document : Tree) (place : Place) : Prop where
  stands : document.at? place ≠ none
  rest : ∃ y p, ofDocument (document.put place y) = .ok p

/-- A document that is loaded is valid but for any of its places. -/
theorem ValidBut.of_loaded {document : Tree} {p : Protocol} {place : Place} (hc : document.Canonical)
    (hp : ofDocument document = .ok p) (h : document.at? place ≠ none) : ValidBut document place := by
  obtain ⟨x, hx⟩ := Option.ne_none_iff_exists'.1 h
  refine ⟨h, x, p, ?_⟩
  rw [Tree.put_self hc hx]
  exact hp

/-- What the schema takes at the place can stand there. -/
theorem ValidBut.loads {document x : Tree} {place : Place} (h : ValidBut document place) (hx : x.isNull = false)
    (ht : Schema.protocol.Takes x place) : ∃ p, ofDocument (document.put place x) = .ok p := by
  obtain ⟨y, hy⟩ := h.rest
  rw [isOk_iff_valid] at hy ⊢
  exact Schema.valid_put hx ht hy

end Protocol

end PhaseCert
