/-
  PhaseCert.Proofs.Toml.Flow — trees on one line, read as TOML.

  Each reader takes what was written off the front of the text and leaves the rest, whatever that
  is, as long as it ends a value (`EndsValue`). Keys and texts are quoted, so no dot or number is
  seen in them. A table whose keys are plain and differ is put together entry by entry
  (`putAll_distinct`), and comes out with its entries in key order. By induction on the tree its
  text is read as it (`value?_flow`), and a document with a line for each entry of a mapping as the
  mapping (`read?_document`).
-/
import PhaseCert.Proofs.Toml.Number
import PhaseCert.Toml.Reader

namespace PhaseCert.Toml

open Numeral

/-! ## Blanks -/

theorem isSpace_of_mem_blanks {n : Nat} {c : Char} (h : c ∈ blanks n) : isSpace c = true := by
  rw [List.eq_of_mem_replicate h]
  rfl

theorem skipSpace_blanks (n : Nat) (rest : List Char) : skipSpace (blanks n ++ rest) = skipSpace rest :=
  List.dropWhile_append_of_pos fun _ => isSpace_of_mem_blanks

theorem skipSpace_cons {c : Char} (h : isSpace c = false) (rest : List Char) : skipSpace (c :: rest) = c :: rest := by
  rw [skipSpace, List.dropWhile_cons, h]
  rfl

/-- A character that is neither a blank nor the end of a line nor the start of a comment. -/
def Solid (c : Char) : Prop := isSpace c = false ∧ c ≠ '\n' ∧ c ≠ '#'

instance : DecidablePred Solid := fun c => inferInstanceAs (Decidable (isSpace c = false ∧ c ≠ '\n' ∧ c ≠ '#'))

theorem skipLines_solid {c : Char} (h : Solid c) (rest : List Char) : skipLines false (c :: rest) = c :: rest := by
  obtain ⟨h1, h2, h3⟩ := h
  simp [skipLines, h1, h2, h3]

theorem skipLines_blanks (n : Nat) (rest : List Char) : skipLines false (blanks n ++ rest) = skipLines false rest := by
  induction n with
  | zero => rfl
  | succ n ih =>
    rw [blanks, List.replicate_succ, List.cons_append, ← blanks, ← ih]
    rfl

/-! ## Quoted texts -/

theorem quotedText_clean {cs : List Char} (h : ∀ c ∈ cs, IsClean c) (rest : List Char) :
    quotedText false .text (cs ++ '"' :: rest) = some (cs, rest) := by
  induction cs with
  | nil => simp [quotedText]
  | cons c cs ih =>
    rw [List.forall_mem_cons] at h
    obtain ⟨⟨h1, h2, h3, h4⟩, h⟩ := h
    have hline : isInLine c = true := by
      simp only [isInLine, Bool.or_eq_true, Bool.and_eq_true, decide_eq_true_eq]
      omega
    simp [quotedText, h3, h4, hline, ih h, push]

theorem simpleKey?_quoted {s : String} (h : Clean s) (rest : List Char) :
    simpleKey? (quoted s ++ rest) = some (s, rest) := by
  simp [quoted, simpleKey?, quotedText_clean h, asString]

theorem string?_quoted {s : String} (h : Clean s) {rest : List Char} (hr : rest.head? ≠ some '"') :
    string? (quoted s ++ rest) = some (s, rest) := by
  have hq : quoted s ++ rest = '"' :: (s.toList ++ '"' :: rest) := by simp [quoted]
  have hread : asString (quotedText false .text (s.toList ++ '"' :: rest)) = some (s, rest) := by
    simp [quotedText_clean h, asString]
  rw [hq]
  cases hs : s.toList with
  | nil =>
    cases rest with
    | nil =>
      rw [hs] at hread
      exact hread
    | cons c rest =>
      have hc : c ≠ '"' := by simpa using hr
      rw [hs] at hread
      rw [← hread]
      simp [string?, hc]
  | cons c cs =>
    have hc : c ≠ '"' := (h c (by simp [hs])).2.2.1
    rw [hs] at hread
    rw [← hread]
    simp [string?, hc]

theorem keyPath?_quoted {s : String} (h : Clean s) (n m : Nat) {rest : List Char}
    (hr : (skipSpace rest).head? ≠ some '.') :
    keyPath? (n + 1) (blanks m ++ (quoted s ++ rest)) = some (⟨[], s⟩, skipSpace rest) := by
  have hquote : skipSpace (quoted s ++ rest) = quoted s ++ rest := skipSpace_cons rfl _
  simp only [keyPath?, skipSpace_blanks, hquote, simpleKey?_quoted h, Option.bind_eq_bind, Option.bind_some]
  split
  · rename_i heq
    rw [heq] at hr
    exact absurd rfl hr
  · rfl

/-! ## Tables -/

/-- Plain keys with their values. -/
def settingsOf (entries : List (String × Tree)) : List Setting := entries.map fun e => (⟨[], e.1⟩, e.2)

/-- A table in which every item is a value. -/
def valuesOf (entries : List (String × Tree)) : Body := entries.map fun e => (e.1, .value e.2)

theorem entriesToTree_valuesOf (entries : List (String × Tree)) : entriesToTree (valuesOf entries) = entries := by
  induction entries with
  | nil => rfl
  | cons e rest ih =>
    rw [valuesOf, List.map_cons, entriesToTree, ← valuesOf, ih, Item.toTree]

/-- A new plain key is written at its place. -/
theorem put_new {m : KeyMap Tree} {key : String} (h : m.get? key = none) (t : Tree) :
    put ⟨[], key⟩ t (valuesOf m.entries) = some (valuesOf (m.insert key t).entries) := by
  have hget : Entries.get? key (valuesOf m.entries) = none := by
    rw [valuesOf, Entries.get?_map]
    rw [KeyMap.get?] at h
    rw [h]
    rfl
  have hinsert : Entries.insert key (.value t) (valuesOf m.entries) = valuesOf (m.insert key t).entries :=
    Entries.insert_map Item.value key t m.entries
  simp [put, alter, hget, hinsert]

theorem putAll_settingsOf {entries : List (String × Tree)} (hd : KeysDiffer entries) (m : KeyMap Tree)
    (hm : ∀ e ∈ entries, m.get? e.1 = none) :
    putAll (settingsOf entries) (valuesOf m.entries)
      = some (valuesOf (entries.foldl (fun m e => m.insert e.1 e.2) m).entries) := by
  induction entries generalizing m with
  | nil => rfl
  | cons e rest ih =>
    obtain ⟨hne, hrest⟩ := List.pairwise_cons.1 hd
    rw [List.forall_mem_cons] at hm
    have hnext : ∀ e' ∈ rest, (m.insert e.1 e.2).get? e'.1 = none := by
      intro e' he'
      rw [KeyMap.get?_insert_of_ne (hne e' he')]
      exact hm.2 e' he'
    have ih := ih hrest (m.insert e.1 e.2) hnext
    rw [putAll] at ih ⊢
    rw [settingsOf, List.map_cons, List.foldlM_cons, ← settingsOf, put_new hm.1, List.foldl_cons]
    exact ih

/-- Distinct plain keys make a table with its keys in order. -/
theorem putAll_distinct {entries : List (String × Tree)} (hd : KeysDiffer entries) :
    putAll (settingsOf entries) [] = some (valuesOf (KeyMap.ofList entries).entries) :=
  putAll_settingsOf hd .empty fun _ _ => rfl

theorem inlineTable?_distinct {entries : List (String × Tree)} (hd : KeysDiffer entries) :
    inlineTable? (settingsOf entries) = some (.map (KeyMap.ofList entries).entries) := by
  rw [inlineTable?, putAll_distinct hd, Option.map_some, entriesToTree_valuesOf]

theorem toTree?_distinct {entries : List (String × Tree)} (hd : KeysDiffer entries) :
    Document.toTree? ⟨settingsOf entries, []⟩ = some (.map (KeyMap.ofList entries).entries) := by
  have hput := putAll_distinct hd
  simp only [Document.toTree?, hput, Option.bind_eq_bind, Option.bind_some, List.foldlM_nil, pure]
  rw [entriesToTree_valuesOf]

/-! ## Values -/

theorem solid_of_startsValue {c : Char} (h : StartsValue c) : Solid c ∧ c ≠ ']' ∧ c ≠ '\x7d' := by
  revert c
  unfold StartsValue Solid
  decide

section

variable {style : FlowStyle} {item : List Char → Option (Tree × List Char)}

/-- What reads values reads the values of a list, whatever ends them. -/
def ReadsAll (style : FlowStyle) (item : List Char → Option (Tree × List Char)) (ts : List Tree) : Prop :=
  ∀ t ∈ ts, ∀ rest, EndsValue rest → item (t.flow style ++ rest) = some (t.sorted, rest)

section

variable {fuel : Nat} {cs tail after : List Char} {c : Char} {t : Tree} (hskip : skipLines false cs = c :: tail)
  (hc : c ≠ ']') (hread : item (c :: tail) = some (t, after))

include hskip hc hread

/-- The last item of an array. -/
theorem items?_last {rest : List Char} (hafter : skipLines false after = ']' :: rest) :
    items? item (fuel + 1) cs = some ([t], rest) := by
  rw [items?, hskip]
  split
  · rename_i heq
    exact absurd (List.cons.inj heq).1 hc
  · simp only [hread, hafter, Option.bind_eq_bind, Option.bind_some]
    rfl

/-- An item of an array with more after it. -/
theorem items?_more {more rest : List Char} {ts : List Tree} (hafter : skipLines false after = ',' :: more)
    (hmore : items? item fuel more = some (ts, rest)) : items? item (fuel + 1) cs = some (t :: ts, rest) := by
  rw [items?, hskip]
  split
  · rename_i heq
    exact absurd (List.cons.inj heq).1 hc
  · simp only [hread, hafter, hmore, Option.bind_eq_bind, Option.bind_some]
    rfl

end

theorem items?_flow {d : Nat} {ts : List Tree} (hp : ∀ t ∈ ts, t.Printable d) (hr : ReadsAll style item ts)
    {fuel : Nat} (hf : ts.length < fuel) (m : Nat) (rest : List Char) :
    items? item fuel (blanks m ++ (Tree.flowItems style ts ++ ']' :: rest)) = some (ts.map Tree.sorted, rest) := by
  induction ts generalizing fuel m with
  | nil =>
    obtain ⟨fuel, rfl⟩ : ∃ f, fuel = f + 1 := ⟨fuel - 1, by omega⟩
    have hskip : skipLines false (blanks m ++ ']' :: rest) = ']' :: rest := by
      rw [skipLines_blanks, skipLines_solid (by decide)]
    simp [items?, Tree.flowItems, hskip]
  | cons t ts ih =>
    obtain ⟨fuel, rfl⟩ : ∃ f, fuel = f + 1 := ⟨fuel - 1, by omega⟩
    rw [List.forall_mem_cons] at hp
    rw [ReadsAll, List.forall_mem_cons] at hr
    obtain ⟨c, cs, hc, hstart⟩ := hp.1.head style
    obtain ⟨hsolid, hbracket, -⟩ := solid_of_startsValue hstart
    rw [Tree.flowItems, List.append_assoc, List.append_assoc]
    generalize hafter : style.separator ts.isEmpty ++ (Tree.flowItems style ts ++ ']' :: rest) = after
    have hskip : skipLines false (blanks m ++ (t.flow style ++ after)) = c :: (cs ++ after) := by
      rw [skipLines_blanks, hc, List.cons_append, skipLines_solid hsolid]
    have hread : item (c :: (cs ++ after)) = some (t.sorted, after) := by
      rw [← List.cons_append, ← hc]
      apply hr.1
      rw [← hafter]
      apply endsValue_separator
      intro hlast
      rw [List.isEmpty_iff.1 hlast]
      exact endsValue_cons (by decide) rest
    cases ts with
    | nil =>
      have hlast : skipLines false after = ']' :: rest := by
        rw [← hafter, FlowStyle.separator, List.isEmpty_nil, if_pos rfl, skipLines_blanks]
        exact skipLines_solid (by decide) rest
      exact items?_last hskip hbracket hread hlast
    | cons t' ts =>
      have hcomma : skipLines false after
          = ',' :: (blanks style.gap ++ (Tree.flowItems style (t' :: ts) ++ ']' :: rest)) := by
        rw [← hafter, FlowStyle.separator, List.isEmpty_cons, if_neg Bool.false_ne_true]
        exact skipLines_solid (by decide) _
      have hrest := ih hp.2 hr.2 (show (t' :: ts).length < fuel by simpa using hf) style.gap
      exact items?_more hskip hbracket hread hcomma hrest

theorem setting?_flow {k : String} {t : Tree} (hmark : style.mark = '=') (hk : Clean k) {d : Nat} (hp : t.Printable d)
    (hr : ReadsAll style item [t]) (m : Nat) {rest : List Char} (hrest : EndsValue rest) :
    setting? item (blanks m ++ (quoted k ++ (style.markText ++ (t.flow style ++ rest))))
      = some ((⟨[], k⟩, t.sorted), rest) := by
  obtain ⟨c, cs, hc, hstart⟩ := hp.head style
  obtain ⟨⟨hspace, -⟩, -⟩ := solid_of_startsValue hstart
  have hvalue : skipSpace (blanks style.after ++ (t.flow style ++ rest)) = t.flow style ++ rest := by
    rw [skipSpace_blanks, hc, List.cons_append, skipSpace_cons hspace]
  have hequals : skipSpace (style.markText ++ (t.flow style ++ rest))
      = '=' :: (blanks style.after ++ (t.flow style ++ rest)) := by
    rw [FlowStyle.markText, List.append_assoc, skipSpace_blanks, hmark, List.cons_append, skipSpace_cons (by decide)]
  have hkey : keyPath? maxParts (blanks m ++ (quoted k ++ (style.markText ++ (t.flow style ++ rest))))
      = some (⟨[], k⟩, '=' :: (blanks style.after ++ (t.flow style ++ rest))) := by
    rw [← hequals]
    refine keyPath?_quoted hk 78 m ?_
    rw [hequals]
    simp
  have hread := hr t (List.mem_singleton_self t) rest hrest
  simp only [setting?, hkey, mark?, if_true, hvalue, hread, Option.bind_eq_bind, Option.bind_some]
  rfl

theorem settings?_flow {d : Nat} {e : String × Tree} {es : List (String × Tree)} (hmark : style.mark = '=')
    (hk : ∀ x ∈ e :: es, CleanKey x.1) (hp : ∀ x ∈ e :: es, x.2.Printable d)
    (hr : ReadsAll style item ((e :: es).map (·.2))) {fuel : Nat} (hf : (e :: es).length ≤ fuel) (m : Nat)
    (rest : List Char) :
    settings? item fuel (blanks m ++ (Tree.flowEntries style (e :: es) ++ '\x7d' :: rest))
      = some (settingsOf ((e :: es).map fun e => (e.1, e.2.sorted)), rest) := by
  induction es generalizing e fuel m with
  | nil =>
    obtain ⟨fuel, rfl⟩ : ∃ f, fuel = f + 1 := ⟨fuel - 1, by simp at hf; omega⟩
    have hlast : skipSpace (style.separator true ++ '\x7d' :: rest) = '\x7d' :: rest := by
      rw [FlowStyle.separator, if_pos rfl, skipSpace_blanks, skipSpace_cons (by decide)]
    have hbrace : EndsValue ('\x7d' :: rest) := endsValue_cons (by decide) rest
    have hread := setting?_flow hmark (hk e (by simp)).1 (hp e (by simp)) hr m
      (endsValue_separator style true fun _ => hbrace)
    simp only [Tree.flowEntries, List.append_assoc, List.isEmpty_nil, List.nil_append, settings?, hread, hlast,
      Option.bind_eq_bind, Option.bind_some]
    rfl
  | cons e' es ih =>
    obtain ⟨fuel, rfl⟩ : ∃ f, fuel = f + 1 := ⟨fuel - 1, by simp at hf; omega⟩
    rw [List.forall_mem_cons] at hk hp
    rw [ReadsAll, List.map_cons, List.forall_mem_cons] at hr
    have hcomma : skipSpace (style.separator false ++ (Tree.flowEntries style (e' :: es) ++ '\x7d' :: rest))
        = ',' :: (blanks style.gap ++ (Tree.flowEntries style (e' :: es) ++ '\x7d' :: rest)) := by
      rw [FlowStyle.separator, if_neg Bool.false_ne_true, List.cons_append, skipSpace_cons (by decide)]
    have hone : ReadsAll style item [e.2] := by
      rw [ReadsAll, List.forall_mem_singleton]
      exact hr.1
    have hends : EndsValue (style.separator false ++ (Tree.flowEntries style (e' :: es) ++ '\x7d' :: rest)) :=
      endsValue_separator style false fun h => absurd h Bool.false_ne_true
    have hread := setting?_flow hmark hk.1.1 hp.1 hone m hends
    have hrest := ih hk.2 hp.2 hr.2 (show (e' :: es).length ≤ fuel by simpa using hf) style.gap
    rw [Tree.flowEntries]
    simp only [List.append_assoc, List.isEmpty_cons, settings?, hread, hcomma, hrest, Option.bind_eq_bind, Option.bind_some]
    rfl

theorem inline?_flow {d : Nat} {es : List (String × Tree)} (hmark : style.mark = '=') (hd : KeysDiffer es)
    (hk : ∀ x ∈ es, CleanKey x.1) (hp : ∀ x ∈ es, x.2.Printable d) (hr : ReadsAll style item (es.map (·.2)))
    (rest : List Char) :
    inline? item (blanks style.pad ++ (Tree.flowEntries style es ++ '\x7d' :: rest))
      = some ((Tree.map es).sorted, rest) := by
  cases es with
  | nil =>
    have hskip : skipSpace (blanks style.pad ++ '\x7d' :: rest) = '\x7d' :: rest := by
      rw [skipSpace_blanks, skipSpace_cons (by decide)]
    simp only [inline?, Tree.flowEntries, List.nil_append, hskip]
    rfl
  | cons e es =>
    have hskip : skipSpace (blanks style.pad ++ (Tree.flowEntries style (e :: es) ++ '\x7d' :: rest))
        = Tree.flowEntries style (e :: es) ++ '\x7d' :: rest := by
      rw [skipSpace_blanks]
      exact skipSpace_cons rfl _
    have hlen : (e :: es).length
        ≤ (blanks style.pad ++ (Tree.flowEntries style (e :: es) ++ '\x7d' :: rest)).length + 1 := by
      have := Tree.length_flowEntries style (e :: es)
      simp only [List.length_append]
      omega
    have hread := settings?_flow hmark hk hp hr hlen style.pad rest
    have htable := inlineTable?_distinct (hd.map Tree.sorted)
    simp only [inline?, hskip]
    split
    · rename_i heq
      cases heq
    · simp only [hread, htable, Option.bind_eq_bind, Option.bind_some, Tree.sorted_map]
      rfl

end

/-- A value on one line is read whatever may follow it. -/
theorem value?_flow {style : FlowStyle} (hmark : style.mark = '=') {d depth : Nat} {t : Tree} (h : t.Printable d)
    (hd : d ≤ depth) {rest : List Char} (hr : EndsValue rest) :
    value? depth (t.flow style ++ rest) = some (t.sorted, rest) := by
  induction h generalizing depth rest with
  | bool b =>
    cases b <;> cases depth <;> rfl
  | int hn => exact value?_intText hn hr depth
  | float x => exact value?_floatText x hr depth
  | text hs =>
    rename_i d s
    have hscalar : value? depth (quoted s ++ rest) = scalar? (quoted s ++ rest) := by
      cases depth <;> rfl
    have hnext : rest.head? ≠ some '"' := by
      intro h
      have hmem := hr '"' h
      revert hmem
      decide
    rw [Tree.flow, hscalar, scalar?, string?_quoted hs hnext]
    rfl
  | seq hp ih =>
    rename_i d items
    obtain ⟨depth, rfl⟩ : ∃ e, depth = e + 1 := ⟨depth - 1, by omega⟩
    have hreads : ReadsAll style (value? depth) items := fun t ht rest hrest => ih t ht (by omega) hrest
    have hlen : items.length
        < (blanks style.pad ++ (Tree.flowItems style items ++ ']' :: rest)).length + 1 := by
      have := Tree.length_flowItems style fun t ht => ⟨d, hp t ht⟩
      simp only [List.length_append]
      omega
    have hread := items?_flow hp hreads hlen style.pad rest
    simp only [Tree.flow, List.cons_append, List.append_assoc, List.nil_append, value?, hread, Option.bind_eq_bind,
      Option.bind_some, Tree.sorted_seq]
    rfl
  | map hk hc hp ih =>
    rename_i d entries
    obtain ⟨depth, rfl⟩ : ∃ e, depth = e + 1 := ⟨depth - 1, by omega⟩
    have hreads : ReadsAll style (value? depth) (entries.map (·.2)) := by
      intro t ht rest hrest
      obtain ⟨e, he, rfl⟩ := List.mem_map.1 ht
      exact ih e he (by omega) hrest
    have hread := inline?_flow hmark hk hc hp hreads rest
    simp only [Tree.flow, List.cons_append, List.append_assoc, List.nil_append, value?, hread]

/-! ## Documents -/

/-- A document with one line for each of the entries of a mapping. -/
def document (style : FlowStyle) (entries : List (String × Tree)) : List Char :=
  entries.flatMap fun e => quoted e.1 ++ (style.markText ++ (e.2.flow style ++ ['\n']))

theorem length_document (style : FlowStyle) (es : List (String × Tree)) : es.length ≤ (document style es).length := by
  induction es with
  | nil => exact Nat.zero_le _
  | cons e es ih =>
    rw [document] at ih ⊢
    rw [List.flatMap_cons, quoted]
    simp only [List.length_cons, List.length_append, List.cons_append]
    omega

section

variable {style : FlowStyle} (hmark : style.mark = '=')

include hmark

theorem line?_flow {k : String} {t : Tree} (hk : Clean k) (hp : t.Printable maxDepth) {rest : List Char}
    (hr : EndsValue rest) :
    line? (quoted k ++ (style.markText ++ (t.flow style ++ rest))) = some (.setting (⟨[], k⟩, t.sorted), rest) := by
  have hreads : ReadsAll style (value? maxDepth) [t] := by
    intro x hx rest hrest
    rw [List.mem_singleton.1 hx]
    exact value?_flow hmark hp (Nat.le_refl _) hrest
  have hread : setting? _ (blanks 0 ++ (quoted k ++ (style.markText ++ (t.flow style ++ rest)))) = _ :=
    setting?_flow hmark hk hp hreads 0 hr
  rw [blanks, List.replicate_zero, List.nil_append] at hread
  unfold line?
  split
  · rename_i heq
    exact absurd (List.cons.inj heq).1 (by decide)
  · rename_i heq
    exact absurd (List.cons.inj heq).1 (by decide)
  · rw [hread]
    rfl

theorem lines?_document {es : List (String × Tree)} (hk : ∀ e ∈ es, CleanKey e.1) (hp : ∀ e ∈ es, e.2.Printable maxDepth)
    {fuel : Nat} (hf : es.length < fuel) :
    lines? fuel (document style es) = some ((settingsOf (es.map fun e => (e.1, e.2.sorted))).map .setting) := by
  induction es generalizing fuel with
  | nil =>
    obtain ⟨fuel, rfl⟩ : ∃ f, fuel = f + 1 := ⟨fuel - 1, by omega⟩
    rfl
  | cons e es ih =>
    obtain ⟨fuel, rfl⟩ : ∃ f, fuel = f + 1 := ⟨fuel - 1, by omega⟩
    rw [List.forall_mem_cons] at hk hp
    have hnext : EndsValue ('\n' :: document style es) := endsValue_cons (by decide) _
    have hline := line?_flow hmark hk.1.1 hp.1 hnext
    have hdoc : document style (e :: es)
        = quoted e.1 ++ (style.markText ++ (e.2.flow style ++ '\n' :: document style es)) := by
      simp [document]
    have hend : lineEnd? ('\n' :: document style es) = some (document style es) := by
      rw [lineEnd?, skipSpace_cons (by decide)]
      rfl
    have hskip : skipLines false (quoted e.1 ++ (style.markText ++ (e.2.flow style ++ '\n' :: document style es)))
        = quoted e.1 ++ (style.markText ++ (e.2.flow style ++ '\n' :: document style es)) :=
      skipLines_solid (by decide) _
    have hrest := ih hk.2 hp.2 (show es.length < fuel by simpa using hf)
    rw [hdoc, lines?, hskip]
    split
    · rename_i heq
      cases heq
    · simp only [hline, hend, hrest, Option.bind_eq_bind, Option.bind_some]
      rfl

end

theorem ofLines_settings (settings : List Setting) : Document.ofLines (settings.map .setting) = ⟨settings, []⟩ := by
  induction settings with
  | nil => rfl
  | cons s rest ih =>
    rw [Document.ofLines] at ih ⊢
    rw [List.map_cons, List.foldr_cons, ih]

/-- Printable characters and line feeds have no line ends of two characters among them. -/
theorem singleLineEnds_eq {cs : List Char} (h : '\r' ∉ cs) : singleLineEnds cs = cs := by
  induction cs with
  | nil => rfl
  | cons c cs ih =>
    rw [List.mem_cons, not_or] at h
    unfold singleLineEnds
    split
    · rename_i heq
      exact absurd (List.cons.inj heq).1.symm h.1
    · rename_i heq
      obtain ⟨rfl, rfl⟩ := List.cons.inj heq
      rw [ih h.2]
    · rename_i heq
      cases heq

theorem not_mem_document {style : FlowStyle} (hmark : style.mark = '=') {es : List (String × Tree)}
    (hk : ∀ e ∈ es, CleanKey e.1) (hp : ∀ e ∈ es, e.2.Printable maxDepth) : '\r' ∉ document style es := by
  intro hc
  obtain ⟨e, he, hc⟩ := List.mem_flatMap.1 hc
  have hprintable : IsPrintable style.mark := by
    rw [hmark]
    decide
  simp only [List.mem_append, List.mem_singleton] at hc
  rcases hc with hc | hc | hc | hc
  · exact absurd (isPrintable_quoted (hk e he).1 _ hc) (by decide)
  · exact absurd (isPrintable_markText hprintable _ hc) (by decide)
  · exact absurd ((hp e he).chars hprintable _ hc) (by decide)
  · cases hc

/-- A document with one line for each entry is read as the mapping of the entries. -/
theorem read?_document {style : FlowStyle} (hmark : style.mark = '=') {es : List (String × Tree)}
    (hp : (Tree.map es).Printable (maxDepth + 1)) :
    read? (String.ofList (document style es)) = some (Tree.map es).sorted := by
  cases hp with
  | map hd hk hp =>
    have hends := singleLineEnds_eq (not_mem_document hmark hk hp)
    have hmark' : skipMark (document style es) = document style es := by
      cases es <;> rfl
    have hlines := lines?_document hmark hk hp (Nat.lt_succ_of_le (length_document style es))
    have htree := toTree?_distinct (hd.map Tree.sorted)
    simp only [read?, String.toList_ofList, hends, hmark', hlines, ofLines_settings, htree, Option.bind_eq_bind,
      Option.bind_some, Tree.sorted_map]

end PhaseCert.Toml
