/-
  PhaseCert.Proofs.Yaml.Reader — trees read from the tokens of flow style.

  The tokens of a tree make up one node (`Node.node?_tokensOf`), without anchors, aliases or tags.
  So nothing in it is renamed (`Node.numbered?_nodeOf`) and no alias is followed: the node stands
  for the tree it was made from, with the entries of its mappings in key order (`treeOf_nodeOf`).
  With the division into tokens that is what a mapping on one line is read as (`read?_mapping`).
-/
import PhaseCert.Proofs.Yaml.Flow
import PhaseCert.Yaml.Reader

namespace PhaseCert.Yaml

/-! ## The node of a tree -/

mutual

/-- The node that a tree is written as, with no anchors or tags. -/
def nodeOf {ν : Type} : Tree → Node ν
  | .seq items => .sequence .bare (nodesOfItems items)
  | .map entries => .mapping .bare (nodesOfEntries entries)
  | t => .scalar .bare (scalarOf t).1 (scalarOf t).2

def nodesOfItems {ν : Type} : List Tree → List (Node ν)
  | [] => []
  | t :: rest => nodeOf t :: nodesOfItems rest

def nodesOfEntries {ν : Type} : List (String × Tree) → List (Node ν × Node ν)
  | [] => []
  | (k, t) :: rest => (.scalar .bare false k, nodeOf t) :: nodesOfEntries rest

end

/-! ## Nodes from tokens -/

/-- The tokens that the node of a tree begins with. -/
inductive BeginsNode : Token → Prop
  | scalar (plain : Bool) (text : String) : BeginsNode (.scalar plain text)
  | sequence : BeginsNode .flowSequence
  | mapping : BeginsNode .flowMapping

theorem tokensOf_cons (t : Tree) : ∃ x xs, tokensOf t = x :: xs ∧ BeginsNode x := by
  cases t with
  | seq items => exact ⟨_, _, rfl, .sequence⟩
  | map entries => exact ⟨_, _, rfl, .mapping⟩
  | _ => exact ⟨_, _, rfl, .scalar _ _⟩

theorem length_tokensOfItems (items : List Tree) : items.length ≤ (tokensOfItems items).length := by
  induction items with
  | nil => exact Nat.zero_le _
  | cons t rest ih =>
    obtain ⟨x, xs, hx, -⟩ := tokensOf_cons t
    rw [tokensOfItems, hx]
    simp only [List.length_cons, List.length_append, List.cons_append]
    omega

theorem length_tokensOfEntries (entries : List (String × Tree)) : entries.length ≤ (tokensOfEntries entries).length := by
  induction entries with
  | nil => exact Nat.zero_le _
  | cons e rest ih =>
    rw [tokensOfEntries]
    simp only [List.length_cons, List.length_append]
    omega

namespace Node

section

variable (handles : Handles) (depth : Nat) (block inline : Bool) (ts : List Token)

theorem node?_scalar (plain : Bool) (text : String) :
    node? handles depth block inline (.scalar plain text :: ts) = some (.scalar .bare plain text, ts) := by
  cases depth <;> (delta node?; rfl)

theorem node?_sequence :
    node? handles (depth + 1) block inline (.flowSequence :: ts)
      = (flowItems (node? handles depth false false) (ts.length + 1) true ts).bind fun r =>
        some (.sequence .bare r.1, r.2) := by
  delta node?
  rfl

theorem node?_mapping :
    node? handles (depth + 1) block inline (.flowMapping :: ts)
      = (flowEntries (node? handles depth false false) (ts.length + 1) true ts).bind fun r =>
        some (.mapping .bare r.1, r.2) := by
  delta node?
  rfl

end

/-- What reads nodes reads the node of a tree, whatever follows. -/
def ReadsNode (item : Reading Named) (t : Tree) : Prop := ∀ rest, item (tokensOf t ++ rest) = some (nodeOf t, rest)

/-- The comma in front of an item or an entry that is not the first one. -/
def lead (first last : Bool) : List Token := if first then [] else separator last

section

variable {item : Reading Named} {fuel : Nat}

theorem flowItems_step (first : Bool) {x : Token} (hx : BeginsNode x) (xs : List Token) :
    flowItems item (fuel + 1) first (lead first false ++ x :: xs)
      = (item (x :: xs)).bind fun r => (flowItems item fuel false r.2).bind fun r' => some (r.1 :: r'.1, r'.2) := by
  cases first <;> cases hx <;> rfl

theorem flowItems_tokens {items : List Tree} (hr : ∀ t ∈ items, ReadsNode item t) (hf : items.length < fuel)
    (first : Bool) (rest : List Token) :
    flowItems item fuel first (lead first items.isEmpty ++ (tokensOfItems items ++ .flowSequenceEnd :: rest))
      = some (nodesOfItems items, rest) := by
  induction items generalizing fuel first with
  | nil =>
    obtain ⟨fuel, rfl⟩ : ∃ f, fuel = f + 1 := ⟨fuel - 1, by omega⟩
    cases first <;> rfl
  | cons t items ih =>
    obtain ⟨fuel, rfl⟩ : ∃ f, fuel = f + 1 := ⟨fuel - 1, by omega⟩
    rw [List.forall_mem_cons] at hr
    obtain ⟨x, xs, hx, hbegins⟩ := tokensOf_cons t
    have hread := hr.1 (separator items.isEmpty ++ (tokensOfItems items ++ .flowSequenceEnd :: rest))
    have hrest := ih hr.2 (show items.length < fuel by simpa using hf) false
    rw [lead, if_neg Bool.false_ne_true] at hrest
    rw [hx] at hread
    rw [tokensOfItems, List.append_assoc, List.append_assoc, hx, List.isEmpty_cons, List.cons_append,
      flowItems_step first hbegins, ← List.cons_append, hread, Option.bind_some, hrest, Option.bind_some, nodesOfItems]

theorem flowEntries_step (hkey : ∀ k ts, item (.scalar false k :: ts) = some (.scalar .bare false k, ts)) (first : Bool)
    (k : String) {x : Token} (hx : BeginsNode x) (xs : List Token) :
    flowEntries item (fuel + 1) first (lead first false ++ .key :: .scalar false k :: .value :: x :: xs)
      = (item (x :: xs)).bind fun r => (flowEntries item fuel false r.2).bind fun r' =>
        some ((.scalar .bare false k, r.1) :: r'.1, r'.2) := by
  cases first <;> cases hx <;> simp [flowEntries, lead, separator, comma?, flowPart, hkey]

theorem flowEntries_tokens (hkey : ∀ k ts, item (.scalar false k :: ts) = some (.scalar .bare false k, ts))
    {entries : List (String × Tree)} (hr : ∀ e ∈ entries, ReadsNode item e.2) (hf : entries.length < fuel) (first : Bool)
    (rest : List Token) :
    flowEntries item fuel first (lead first entries.isEmpty ++ (tokensOfEntries entries ++ .flowMappingEnd :: rest))
      = some (nodesOfEntries entries, rest) := by
  induction entries generalizing fuel first with
  | nil =>
    obtain ⟨fuel, rfl⟩ : ∃ f, fuel = f + 1 := ⟨fuel - 1, by omega⟩
    cases first <;> rfl
  | cons e entries ih =>
    obtain ⟨fuel, rfl⟩ : ∃ f, fuel = f + 1 := ⟨fuel - 1, by omega⟩
    rw [List.forall_mem_cons] at hr
    obtain ⟨x, xs, hx, hbegins⟩ := tokensOf_cons e.2
    have hread := hr.1 (separator entries.isEmpty ++ (tokensOfEntries entries ++ .flowMappingEnd :: rest))
    have hrest := ih hr.2 (show entries.length < fuel by simpa using hf) false
    rw [lead, if_neg Bool.false_ne_true] at hrest
    rw [hx] at hread
    have htokens : tokensOfEntries (e :: entries) ++ .flowMappingEnd :: rest = .key :: .scalar false e.1 :: .value :: x ::
        (xs ++ (separator entries.isEmpty ++ (tokensOfEntries entries ++ .flowMappingEnd :: rest))) := by
      simp [tokensOfEntries, hx]
    rw [htokens, List.isEmpty_cons, flowEntries_step hkey first e.1 hbegins, ← List.cons_append, hread, Option.bind_some,
      hrest, Option.bind_some, nodesOfEntries]

end

/-- The tokens of a tree are read as its node. -/
theorem node?_tokensOf (handles : Handles) {d depth : Nat} {t : Tree} (h : t.Printable d) (hd : d ≤ depth)
    (block inline : Bool) (rest : List Token) :
    node? handles depth block inline (tokensOf t ++ rest) = some (nodeOf t, rest) := by
  induction h generalizing depth block inline rest with
  | bool b => exact node?_scalar ..
  | int hn => exact node?_scalar ..
  | float x => exact node?_scalar ..
  | text hs => exact node?_scalar ..
  | seq hp ih =>
    rename_i d items
    obtain ⟨depth, rfl⟩ : ∃ e, depth = e + 1 := ⟨depth - 1, by omega⟩
    have hreads : ∀ t ∈ items, ReadsNode (node? handles depth false false) t := fun t ht =>
      ih t ht (by omega) false false
    have hlen : items.length < (tokensOfItems items ++ .flowSequenceEnd :: rest).length + 1 := by
      have := length_tokensOfItems items
      simp only [List.length_append]
      omega
    have hread : flowItems _ _ true (tokensOfItems items ++ .flowSequenceEnd :: rest) = _ :=
      flowItems_tokens hreads hlen true rest
    rw [tokensOf, List.cons_append, List.append_assoc, List.singleton_append, node?_sequence, hread, Option.bind_some,
      nodeOf]
  | map hd' hk hp ih =>
    rename_i d entries
    obtain ⟨depth, rfl⟩ : ∃ e, depth = e + 1 := ⟨depth - 1, by omega⟩
    have hreads : ∀ e ∈ entries, ReadsNode (node? handles depth false false) e.2 := fun e he =>
      ih e he (by omega) false false
    have hlen : entries.length < (tokensOfEntries entries ++ .flowMappingEnd :: rest).length + 1 := by
      have := length_tokensOfEntries entries
      simp only [List.length_append]
      omega
    have hkey : ∀ k ts, node? handles depth false false (.scalar false k :: ts) = some (.scalar .bare false k, ts) :=
      fun k ts => node?_scalar ..
    have hread : flowEntries _ _ true (tokensOfEntries entries ++ .flowMappingEnd :: rest) = _ :=
      flowEntries_tokens hkey hreads hlen true rest
    rw [tokensOf, List.cons_append, List.append_assoc, List.singleton_append, node?_mapping, hread, Option.bind_some,
      nodeOf]

/-- A stream of the tokens of a mapping is a document without directives. -/
theorem ofTokens?_mapping {entries : List (String × Tree)} (h : (Tree.map entries).Printable maxDepth) :
    ofTokens? (tokensOf (.map entries)) = some (nodeOf (.map entries)) := by
  have hread := node?_tokensOf defaultHandles h (Nat.le_refl _) true false []
  rw [List.append_nil] at hread
  have htokens : tokensOf (.map entries) = .flowMapping :: (tokensOfEntries entries ++ [.flowMappingEnd]) := by
    rw [tokensOf]
  rw [htokens] at hread ⊢
  have hdirectives : directives? false [] (.flowMapping :: (tokensOfEntries entries ++ [.flowMappingEnd]))
      = some ((false, defaultHandles), .flowMapping :: (tokensOfEntries entries ++ [.flowMappingEnd])) := rfl
  simp only [ofTokens?, hdirectives, hread, Option.bind_eq_bind, Option.bind_some]
  rfl

mutual

/-- Without anchors and aliases there is nothing to number. -/
theorem numbered?_nodeOf (names : Names) : (t : Tree) → numbered? names (nodeOf t) = some (nodeOf t, names)
  | .null | .bool _ | .int _ | .float _ | .text _ => rfl
  | .seq items => by
    simp only [nodeOf, numbered?, Properties.numbered, Properties.bare, numbered?_nodesOfItems names items]
    rfl
  | .map entries => by
    simp only [nodeOf, numbered?, Properties.numbered, Properties.bare, numbered?_nodesOfEntries names entries]
    rfl

theorem numbered?_nodesOfItems (names : Names) :
    (items : List Tree) → itemsNumbered? names (nodesOfItems items) = some (nodesOfItems items, names)
  | [] => rfl
  | t :: rest => by
    simp only [nodesOfItems, itemsNumbered?, numbered?_nodeOf names t, numbered?_nodesOfItems names rest,
      Option.bind_eq_bind, Option.bind_some]
    rfl

theorem numbered?_nodesOfEntries (names : Names) : (entries : List (String × Tree)) →
    entriesNumbered? names (nodesOfEntries entries) = some (nodesOfEntries entries, names)
  | [] => rfl
  | (k, t) :: rest => by
    have hkey : numbered? names (.scalar .bare false k) = some (.scalar .bare false k, names) := rfl
    simp only [nodesOfEntries, entriesNumbered?, hkey, numbered?_nodeOf names t, numbered?_nodesOfEntries names rest,
      Option.bind_eq_bind, Option.bind_some]
    rfl

end

end Node

/-! ## Trees from nodes -/

section

variable (root : Node Nat) (depth : Nat)

theorem treeOf_scalar (plain : Bool) (text : String) {t : Tree} (h : scalarTree? none plain text = some t) :
    treeOf root depth (.scalar .bare plain text) = pure t := by
  have hstep : treeOf root depth (.scalar .bare plain text)
      = fun left => (scalarTree? none plain text).map (·, left) := by
    cases depth <;> (delta treeOf; rfl)
  rw [hstep, h]
  rfl

theorem treeOf_sequence (items : List (Node Nat)) :
    treeOf root (depth + 1) (.sequence .bare items) = items.mapM (treeOf root depth) >>= fun ts => pure (.seq ts) := by
  delta treeOf
  rfl

theorem treeOf_mapping (entries : List (Node Nat × Node Nat)) :
    treeOf root (depth + 1) (.mapping .bare entries)
      = (entries.mapM fun e => do return (← keyText root e.1, ← treeOf root depth e.2)) >>= fun es =>
        pure (.map (KeyMap.ofList es).entries) := by
  delta treeOf
  rfl

end

theorem mapM_treeOf {root : Node Nat} {depth : Nat} {items : List Tree}
    (h : ∀ t ∈ items, treeOf root depth (nodeOf t) = pure t.sorted) :
    (nodesOfItems items).mapM (treeOf root depth) = pure (items.map Tree.sorted) := by
  induction items with
  | nil => rfl
  | cons t rest ih =>
    rw [List.forall_mem_cons] at h
    rw [nodesOfItems, List.mapM_cons, h.1, pure_bind, ih h.2, pure_bind, List.map_cons]

theorem mapM_entryOf {root : Node Nat} {depth : Nat} {entries : List (String × Tree)}
    (h : ∀ e ∈ entries, treeOf root depth (nodeOf e.2) = pure e.2.sorted) :
    ((nodesOfEntries entries).mapM fun e => do return (← keyText root e.1, ← treeOf root depth e.2))
      = pure (entries.map fun e => (e.1, e.2.sorted)) := by
  induction entries with
  | nil => rfl
  | cons e rest ih =>
    have hkey : keyText root (.scalar .bare false e.1) = pure e.1 := rfl
    rw [List.forall_mem_cons] at h
    rw [nodesOfEntries, List.mapM_cons, h.1, hkey, ih h.2]
    rfl

/-- The node of a tree stands for the tree, with the entries of its mappings in key order. -/
theorem treeOf_nodeOf (root : Node Nat) {d depth : Nat} {t : Tree} (h : t.Printable d) (hd : d ≤ depth) :
    treeOf root depth (nodeOf t) = pure t.sorted := by
  induction h generalizing depth with
  | bool b => cases b <;> exact treeOf_scalar _ _ _ _ rfl
  | int hn => exact treeOf_scalar _ _ _ _ (plainTree?_intText _)
  | float x => exact treeOf_scalar _ _ _ _ (plainTree?_floatText _)
  | text hs => exact treeOf_scalar _ _ _ _ rfl
  | seq hp ih =>
    obtain ⟨depth, rfl⟩ : ∃ e, depth = e + 1 := ⟨depth - 1, by omega⟩
    rw [nodeOf, treeOf_sequence, mapM_treeOf fun t ht => ih t ht (by omega), pure_bind, Tree.sorted_seq]
  | map hd' hk hp ih =>
    obtain ⟨depth, rfl⟩ : ∃ e, depth = e + 1 := ⟨depth - 1, by omega⟩
    rw [nodeOf, treeOf_mapping, mapM_entryOf fun e he => ih e he (by omega), pure_bind, Tree.sorted_map]

/-! ## Documents -/

/-- A mapping on one line is read as itself, with or without a line feed at the end. -/
theorem read?_mapping {style : FlowStyle} (hmark : style.mark = ':') (hbefore : style.before ≤ 22)
    {entries : List (String × Tree)} (hp : (Tree.map entries).Printable Node.maxDepth) {ending : List Char}
    (hending : ending ∈ [[], ['\n']]) :
    read? (String.ofList ((Tree.map entries).flow style ++ ending)) = some (Tree.map entries).sorted := by
  simp only [read?, tokens?_mapping hmark hbefore hp hending, Node.ofTokens?_mapping hp, Node.numbered?_nodeOf,
    treeOf_nodeOf _ hp (Nat.le_refl _), Option.bind_eq_bind, Option.bind_some]
  rfl

end PhaseCert.Yaml
