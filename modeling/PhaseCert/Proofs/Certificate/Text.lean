/-
  PhaseCert.Proofs.Certificate.Text — what the text of a certificate says.

  The fields come first in a text and the open keys after them, so its entries are not in key
  order. But no key stands twice: the open maps have no field's name (`WellKept`), and the trees
  that a certificate carries have their keys in order, as those of its bundle do (`Ordered`). So
  nothing is lost by putting the entries in key order, and what comes of it is the tree of the
  bundle. Both forms of the text are read as the same entries, numbers with their kind, and
  differ in white space only (`json_denotes`).
-/
import PhaseCert.Proofs.Certificate.Decoding
import PhaseCert.Proofs.Json.Spacing

namespace PhaseCert.Certificate

/-! ## Certificates of canonical trees -/

/-- All that a certificate carries has its entries in key order. -/
structure Ordered (c : Certificate) : Prop where
  provenance : ∀ t, c.provenance = some t → t.Canonical
  extra : (Tree.map c.extra.entries).Canonical
  info : (Tree.map c.info.extra.entries).Canonical

section

variable {raw : Bundle} {margin : Binary64} {c : Certificate}

theorem canonical_infoEntries (hraw : (Tree.map raw.entries).Canonical) : (Tree.map (infoEntries raw).entries).Canonical := by
  unfold infoEntries
  split
  · rename_i entries ht
    exact .ofList (hraw.get? ht).2
  · exact ⟨KeyMap.keysGrow _, trivial⟩

theorem ordered_of_normalize (hraw : (Tree.map raw.entries).Canonical) (h : normalize raw margin = .ok c) : c.Ordered := by
  obtain ⟨-, -, hi, -, -, hp, hextra⟩ := normalize_ok h
  refine ⟨fun t ht => ?_, ?_, ?_⟩
  · rw [hp] at ht
    exact hraw.get? ht
  · rw [hextra]
    exact (((hraw.erase _).erase _).erase _).erase _
  · rw [infoOf_ok hi]
    exact (canonical_infoEntries hraw).erase _

end

/-! ## Their entries -/

section

variable {c : Certificate} (ho : c.Ordered)

include ho

theorem canonical_leading : Tree.EntriesCanonical c.leading := by
  have hinterval : c.interval.toTree.Canonical :=
    ⟨keysGrow_pair (by decide) _ _, Tree.canonical_ofReal _, Tree.canonical_ofReal _, trivial⟩
  rw [Tree.entriesCanonical_iff]
  intro e he
  simp only [leading, List.mem_append, List.mem_cons, Option.mem_toList, Option.map_eq_some_iff] at he
  rcases he with ⟨x, -, rfl⟩ | rfl | ⟨t, ht, rfl⟩
  · exact Tree.canonical_ofReal x
  · exact hinterval
  · exact ho.provenance t ht

/-- Each key of the text stands once, in the certificate and in all that it carries. -/
theorem keysOnce_written (hc : c.WellKept) : c.written.KeysOnce := by
  have hinfo : c.info.written.KeysOnce := by
    refine .map (CertificateMeta.keysDiffer_fields hc.info) ?_
    rw [CertificateMeta.fields, List.forall_mem_cons]
    exact ⟨.bool _, Tree.entriesKeysOnce_of_canonical _ ho.info.2⟩
  refine .map (keysDiffer_fields hc _) ?_
  rw [fields_eq, named]
  simp only [List.forall_mem_append, List.forall_mem_singleton]
  exact ⟨⟨Tree.entriesKeysOnce_of_canonical _ (canonical_leading ho), hinfo⟩, Tree.entriesKeysOnce_of_canonical _ ho.extra.2⟩

theorem info_sorted : c.info.written.sorted = c.info.toTree := by
  rw [CertificateMeta.written, Tree.sorted_map, CertificateMeta.fields, List.map_cons, Tree.map_sorted ho.info.2]
  rfl

theorem sorted_written : c.written.sorted = c.toTree := by
  rw [written, Tree.sorted_map, fields_eq, named, List.map_append, List.map_append, Tree.map_sorted (canonical_leading ho),
    Tree.map_sorted ho.extra.2, List.map_singleton, info_sorted ho, toTree, toBundle, fields_eq, named]

end

/-- Both forms of a certificate's text are read as the same entries. No key stands twice in them,
    and put in key order they are the tree of the bundle. Without the white space outside of
    quotes the indented form is the compact one. The trees of a bundle are in key order, as those
    of a document are. -/
theorem json_denotes (raw : Bundle) (margin : Binary64) (c : Certificate) (hraw : (Tree.map raw.entries).Canonical)
    (h : normalize raw margin = .ok c) :
    (∃ t, (∀ indented, Json.read? (c.json indented) = some t) ∧ t.KeysOnce ∧ t.sorted = c.toTree) ∧
    Json.squeezed (c.json true) = c.json false := by
  have ho := ordered_of_normalize hraw h
  have honce := keysOnce_written ho (wellKept_of_normalize h)
  exact ⟨⟨c.written, read?_json c, honce, sorted_written ho⟩, Json.squeezed_indented c.written⟩

theorem staleBundle_canonical : (Tree.map staleBundle.entries).Canonical :=
  .ofList ⟨trivial, trivial, trivial, ⟨keysGrow_pair (by decide) _ _, trivial, trivial, trivial⟩, trivial⟩

theorem json_denotes_stale : ∃ c, normalize staleBundle defaultMargin = .ok c ∧ (Tree.map staleBundle.entries).Canonical ∧
    (∃ t, (∀ indented, Json.read? (c.json indented) = some t) ∧ t.KeysOnce ∧ t.sorted = c.toTree) ∧
    Json.squeezed (c.json true) = c.json false := by
  obtain ⟨c, hc⟩ := normalize_sound defaultMargin_good staleBundle_sound.1 staleBundle_sound.2
  exact ⟨c, hc, staleBundle_canonical, json_denotes staleBundle defaultMargin c staleBundle_canonical hc⟩

end PhaseCert.Certificate
