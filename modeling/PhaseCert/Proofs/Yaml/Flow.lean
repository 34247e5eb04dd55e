/-
  PhaseCert.Proofs.Yaml.Flow — the tokens of a tree on one line.

  `tokensOf` are the tokens that a tree is divided into: those of its scalars, of its brackets and
  commas, and a key token in front of every key. By induction on the tree, its text is read as
  them from anywhere within a flow collection (`Scan.readsFlow_printable`), up to the comma or
  bracket after it: a plain scalar ends only there, and takes the blanks before that with it. A
  stream that is one mapping begins outside of all collections, at the first column, and is
  divided into the tokens of the mapping too (`tokens?_mapping`).
-/
import PhaseCert.Proofs.Yaml.Number
import PhaseCert.Proofs.Yaml.Scan
import PhaseCert.Yaml.Reader

namespace PhaseCert.Yaml

open Numeral

/-! ## The tokens of a tree -/

/-- The token after an item or an entry. -/
def separator (last : Bool) : List Token := if last then [] else [.comma]

/-- How a scalar is written: whether it is plain, and its text. -/
def scalarOf : Tree → Bool × String
  | .bool b => (true, toString b)
  | .int n => (true, String.ofList (Json.intText n.val))
  | .float x => (true, String.ofList (Json.floatText x.val))
  | .text s => (false, s)
  | _ => (true, "null")

mutual

def tokensOf : Tree → List Token
  | .seq items => .flowSequence :: (tokensOfItems items ++ [.flowSequenceEnd])
  | .map entries => .flowMapping :: (tokensOfEntries entries ++ [.flowMappingEnd])
  | t => [.scalar (scalarOf t).1 (scalarOf t).2]

def tokensOfItems : List Tree → List Token
  | [] => []
  | t :: rest => tokensOf t ++ (separator rest.isEmpty ++ tokensOfItems rest)

def tokensOfEntries : List (String × Tree) → List Token
  | [] => []
  | (k, t) :: rest =>
    .key :: .scalar false k :: .value :: (tokensOf t ++ (separator rest.isEmpty ++ tokensOfEntries rest))

end

/-! ## The tokens of its text -/

namespace Scan

theorem beginsToken_of_startsValue {c : Char} (h : StartsValue c) : BeginsToken c := by
  revert c
  unfold StartsValue
  decide

theorem startsToken_flow {d : Nat} {t : Tree} (h : t.Printable d) (style : FlowStyle) (rest : List Char) :
    StartsToken (t.flow style ++ rest) := by
  obtain ⟨c, cs, hc, hstart⟩ := h.head style
  exact ⟨c, cs ++ rest, by rw [hc]; rfl, beginsToken_of_startsValue hstart⟩

theorem startsToken_flowItems {d : Nat} {items : List Tree} (h : ∀ t ∈ items, t.Printable d) (style : FlowStyle)
    {rest : List Char} (hr : StartsToken rest) : StartsToken (Tree.flowItems style items ++ rest) := by
  cases items with
  | nil => exact hr
  | cons t items =>
    rw [Tree.flowItems, List.append_assoc]
    exact startsToken_flow (h t List.mem_cons_self) style _

theorem startsToken_flowEntries (style : FlowStyle) (entries : List (String × Tree)) {rest : List Char}
    (hr : StartsToken rest) : StartsToken (Tree.flowEntries style entries ++ rest) := by
  cases entries with
  | nil => exact hr
  | cons e entries => exact startsToken_cons (by decide) _

theorem mem_plainChars_of_isDigit {c : Char} (h : c.isDigit = true) : c ∈ plainChars := by
  refine forall_isDigit (P := (· ∈ plainChars)) ?_ h
  unfold plainChars
  decide

/-- A number is written as a plain scalar. -/
theorem plainText_number {whole tail : List Char} (hw : WholeText whole) (negative : Bool)
    (h : ∀ c ∈ tail, IsNumberChar c) : PlainText (minus negative ++ (whole ++ tail)) := by
  have hmarks : ∀ c ∈ ['+', '-', '.', 'e', 'E'], c ∈ plainChars := by
    unfold plainChars
    decide
  have hminus : ∀ c ∈ minus negative, c ∈ plainChars := by
    unfold minus plainChars
    split <;> decide
  obtain ⟨c, cs, rfl⟩ := List.exists_cons_of_ne_nil hw.ne_nil
  refine ⟨?_, by simp, ?_⟩
  · rw [List.forall_mem_append, List.forall_mem_append]
    refine ⟨hminus, fun c hc => mem_plainChars_of_isDigit (hw.digits c hc), fun c hc => ?_⟩
    rcases h c hc with hd | hm
    · exact mem_plainChars_of_isDigit hd
    · exact hmarks c hm
  · cases negative with
    | true => simp [minus]
    | false =>
      have hdigit := hw.digits c List.mem_cons_self
      intro h
      rw [minus, if_neg Bool.false_ne_true] at h
      rw [(List.cons.inj h).1] at hdigit
      cases hdigit

/-- The text of a tree is read as its tokens, up to the mark that follows it. -/
def ReadsFlow (style : FlowStyle) (t : Tree) : Prop :=
  ∀ s, Inside s → ∀ n, ∀ c ∈ closers, ∀ cs, s.cursor.rest = t.flow style ++ (blanks n ++ c :: cs) →
    ∃ s', Reads s (tokensOf t) (c :: cs) false s'

theorem readsFlow_plain {style : FlowStyle} {t : Tree} (ht : PlainText (t.flow style))
    (htokens : tokensOf t = [.scalar true (String.ofList (t.flow style))]) : ReadsFlow style t := by
  intro s hs n c hc cs hrest
  rw [htokens]
  exact plain_reads hs ht hc hrest

/-- What ends with a mark of its own may have any blanks behind it. -/
theorem readsFlow_marked {style : FlowStyle} {t : Tree}
    (h : ∀ s, Inside s → ∀ rest, s.cursor.rest = t.flow style ++ rest → ∃ s', Reads s (tokensOf t) rest false s') :
    ReadsFlow style t := by
  intro s hs n c hc cs hrest
  have hall : ∀ c ∈ closers, BeginsToken c := by
    unfold closers
    decide
  obtain ⟨s1, h1⟩ := h s hs _ hrest
  have h2 := h1.trans (reads_blanks (h1.inside hs) h1.rest_eq (startsToken_cons (hall c hc) cs))
  rw [List.append_nil, h1.keysAllowed] at h2
  exact ⟨_, h2⟩

section

variable {style : FlowStyle} {s : Scan} (hs : Inside s)

include hs

/-- A value is read with the comma after it, or up to the end of the collection. -/
theorem value_reads {t : Tree} (ht : ReadsFlow style t) {last : Bool} {rest : List Char} (hnext : StartsToken rest)
    (hlast : last = true → ∃ c ∈ closers, ∃ cs, rest = c :: cs)
    (hrest : s.cursor.rest = t.flow style ++ (style.separator last ++ rest)) :
    ∃ s', Reads s (tokensOf t ++ separator last) rest (!last) s' := by
  cases last with
  | true =>
    obtain ⟨c, hc, cs, rfl⟩ := hlast rfl
    rw [separator, if_pos rfl, List.append_nil]
    exact ht s hs style.pad c hc cs hrest
  | false =>
    obtain ⟨s1, h1⟩ := ht s hs 0 ',' (by decide) _ hrest
    obtain ⟨s2, h2⟩ := comma_reads (h1.inside hs) h1.rest_eq
    have h12 := h1.trans h2
    have h3 := h12.trans (reads_blanks (h12.inside hs) h12.rest_eq hnext)
    rw [List.append_nil, h2.keysAllowed] at h3
    exact ⟨_, h3⟩

theorem items_reads {d : Nat} {items : List Tree} (hp : ∀ t ∈ items, t.Printable d) (hr : ∀ t ∈ items, ReadsFlow style t)
    {rest : List Char} (hrest : s.cursor.rest = Tree.flowItems style items ++ ']' :: rest) :
    ∃ keys s', Reads s (tokensOfItems items) (']' :: rest) keys s' := by
  induction items generalizing s with
  | nil => exact ⟨_, _, reads_blanks (m := 0) hs hrest (startsToken_cons (by decide) rest)⟩
  | cons t items ih =>
    rw [List.forall_mem_cons] at hp hr
    rw [Tree.flowItems, List.append_assoc, List.append_assoc] at hrest
    have hnext := startsToken_flowItems hp.2 style (startsToken_cons (show BeginsToken ']' by decide) rest)
    have hlast : items.isEmpty = true → ∃ c ∈ closers, ∃ cs, Tree.flowItems style items ++ ']' :: rest = c :: cs := by
      intro h
      rw [List.isEmpty_iff.1 h]
      exact ⟨']', by decide, rest, rfl⟩
    obtain ⟨s1, h1⟩ := value_reads hs hr.1 hnext hlast hrest
    obtain ⟨keys, s2, h2⟩ := ih (h1.inside hs) hp.2 hr.2 h1.rest_eq
    have h12 := h1.trans h2
    rw [List.append_assoc] at h12
    exact ⟨keys, s2, h12⟩

theorem entries_reads {d : Nat} {entries : List (String × Tree)} (hmark : style.mark = ':') (hbefore : style.before ≤ 22)
    (hk : ∀ e ∈ entries, CleanKey e.1) (hp : ∀ e ∈ entries, e.2.Printable d) (hr : ∀ e ∈ entries, ReadsFlow style e.2)
    {rest : List Char} (hrest : s.cursor.rest = Tree.flowEntries style entries ++ '\x7d' :: rest)
    (hkeys : entries ≠ [] → s.keysAllowed = true) :
    ∃ keys s', Reads s (tokensOfEntries entries) ('\x7d' :: rest) keys s' := by
  induction entries generalizing s with
  | nil => exact ⟨_, _, reads_blanks (m := 0) hs hrest (startsToken_cons (by decide) rest)⟩
  | cons e entries ih =>
    rw [List.forall_mem_cons] at hk hp hr
    rw [Tree.flowEntries, FlowStyle.markText, hmark] at hrest
    simp only [List.append_assoc, List.cons_append] at hrest
    have hnext := startsToken_flowEntries style entries (startsToken_cons (show BeginsToken '\x7d' by decide) rest)
    have hlast : entries.isEmpty = true →
        ∃ c ∈ closers, ∃ cs, Tree.flowEntries style entries ++ '\x7d' :: rest = c :: cs := by
      intro h
      rw [List.isEmpty_iff.1 h]
      exact ⟨'\x7d', by decide, rest, rfl⟩
    obtain ⟨s1, h1⟩ := key_reads hs (hkeys (List.cons_ne_nil _ _)) hk.1 hbefore hrest
    have h2 := h1.trans (reads_blanks (h1.inside hs) h1.rest_eq (startsToken_flow hp.1 style _))
    obtain ⟨s3, h3⟩ := value_reads (h2.inside hs) hr.1 hnext hlast h2.rest_eq
    have h23 := h2.trans h3
    have hkeys' : entries ≠ [] → s3.keysAllowed = true := by
      intro h
      rw [h3.keysAllowed, List.isEmpty_eq_false_iff.2 h]
      rfl
    obtain ⟨keys, s4, h4⟩ := ih (h23.inside hs) hk.2 hp.2 hr.2 h23.rest_eq hkeys'
    have h24 := h23.trans h4
    rw [List.append_nil, List.append_assoc, List.append_assoc] at h24
    exact ⟨keys, s4, h24⟩

end

/-- What is within the marks of a mapping. -/
theorem mapping_reads {style : FlowStyle} (hmark : style.mark = ':') (hbefore : style.before ≤ 22) {d : Nat}
    {entries : List (String × Tree)} (hk : ∀ e ∈ entries, CleanKey e.1) (hp : ∀ e ∈ entries, e.2.Printable d)
    (hr : ∀ e ∈ entries, ReadsFlow style e.2) {s : Scan} (hs : Inside s) (hkeys : s.keysAllowed = true) {rest : List Char}
    (hrest : s.cursor.rest = blanks style.pad ++ (Tree.flowEntries style entries ++ '\x7d' :: rest)) :
    ∃ keys s', Reads s (tokensOfEntries entries) ('\x7d' :: rest) keys s' := by
  have h1 := reads_blanks hs hrest (startsToken_flowEntries style entries (startsToken_cons (by decide) rest))
  have hallowed := h1.keysAllowed.trans hkeys
  obtain ⟨keys, s2, h2⟩ := entries_reads (h1.inside hs) hmark hbefore hk hp hr h1.rest_eq fun _ => hallowed
  exact ⟨keys, s2, h1.trans h2⟩

/-- A tree on one line is read as its tokens. -/
theorem readsFlow_printable {style : FlowStyle} (hmark : style.mark = ':') (hbefore : style.before ≤ 22) {d : Nat}
    {t : Tree} (h : t.Printable d) : ReadsFlow style t := by
  induction h with
  | bool b =>
    cases b with
    | true => exact readsFlow_plain ⟨by rw [Tree.flow]; decide, by rw [Tree.flow]; decide, by rw [Tree.flow]; decide⟩ rfl
    | false => exact readsFlow_plain ⟨by rw [Tree.flow]; decide, by rw [Tree.flow]; decide, by rw [Tree.flow]; decide⟩ rfl
  | int hn =>
    rename_i n
    refine readsFlow_plain ?_ rfl
    have htext := plainText_number (wholeText_toString n.val.natAbs) (n.val < 0) (List.forall_mem_nil _)
    rwa [List.append_nil, ← intText_eq] at htext
  | float x =>
    obtain ⟨x, hx⟩ := x
    cases x with
    | nan => cases hx
    | infinite s => cases hx
    | finite s r =>
      refine readsFlow_plain ?_ rfl
      obtain ⟨cs, d, htext, hfloat, -⟩ := floatText_eq s r
      obtain ⟨whole, mark, rest, rfl, hw, -⟩ := floatText_mark hfloat
      have hchars := decimalText_chars (hfloat.decimalText (signText_minus s))
      rw [Tree.flow, htext]
      exact plainText_number hw s fun c hc => hchars c (by simp [hc])
  | text ht => exact readsFlow_marked fun s hs rest hrest => quoted_reads hs ht hrest
  | seq hp ih =>
    refine readsFlow_marked fun s hs rest hrest => ?_
    rw [Tree.flow] at hrest
    simp only [List.append_assoc, List.cons_append, List.nil_append] at hrest
    refine collection_reads hs .sequence hrest fun s1 hs1 h1 _ => ?_
    have h2 := reads_blanks hs1 h1 (startsToken_flowItems hp style (startsToken_cons (by decide) rest))
    obtain ⟨keys, s3, h3⟩ := items_reads (h2.inside hs1) hp ih h2.rest_eq
    exact ⟨keys, s3, h2.trans h3⟩
  | map hd hk hp ih =>
    refine readsFlow_marked fun s hs rest hrest => ?_
    rw [Tree.flow] at hrest
    simp only [List.append_assoc, List.cons_append, List.nil_append] at hrest
    exact collection_reads hs .mapping hrest fun s1 hs1 h1 hkeys => mapping_reads hmark hbefore hk hp ih hs1 hkeys h1

/-! ## Streams -/

theorem atMark_cons {c d : Char} (h : d ≠ c) (cs : List Char) : atMark c (d :: cs) = false := by
  unfold atMark
  split
  · rename_i heq
    rw [← (List.cons.inj heq).1]
    simp [h]
  · rfl

/-- Outside of all block collections no line stands too far out. -/
theorem unindent_outermost {s : Scan} (hindent : s.indent = -1) (hindents : s.outerIndents = []) {column : Int}
    (hcolumn : -1 ≤ column) : s.unindent column = s := by
  obtain ⟨cursor, keys, indent, indents, level, outer⟩ := s
  obtain rfl : indent = -1 := hindent
  obtain rfl : indents = [] := hindents
  unfold unindent
  split
  · rfl
  · simp [leave, Int.not_lt.2 hcolumn, Level.pushAll]

/-- At the end of the stream, outside of all collections, the tokens are those of the outermost level. -/
theorem run?_end {s : Scan} (houter : s.outerLevels = []) (hindent : s.indent = -1) (hindents : s.outerIndents = [])
    (hloose : s.level.Loose) (hrest : s.cursor.rest ∈ [[], ['\n']]) (fuel : Nat) :
    run? (fuel + 1) s = some s.level.tokens.reverse := by
  obtain ⟨s1, hskip, hrest1, hsame⟩ : ∃ s1, s.skipToToken = s1 ∧ s1.cursor.rest = [] ∧
      s1 = { s with keysAllowed := s1.keysAllowed, cursor := s1.cursor } := by
    simp only [List.mem_cons, List.not_mem_nil, or_false] at hrest
    rcases hrest with h | h <;> rw [skipToToken, h] <;> exact ⟨_, rfl, rfl, rfl⟩
  have hlevel : s1.level = s.level := by rw [hsame]
  have hflow : s1.inFlow = false := by
    rw [hsame, inFlow, houter]
    rfl
  have hunindent : ∀ column, -1 ≤ column → s1.unindent column = s1 := fun column =>
    unindent_outermost (by rw [hsame]; exact hindent) (by rw [hsame]; exact hindents)
  have hcolumn : (-1 : Int) ≤ s1.column := by omega
  rw [run?, hskip, hunindent _ hcolumn, hrest1]
  simp only [finish?, hflow, outermost?, hunindent (-1) (Int.le_refl _), giveUp?, hlevel, Level.giveUp?_of_loose hloose]
  rfl

/-- A stream may begin with a mapping, at the first column. -/
theorem runs_ofSource (inner : List Char) :
    Runs (ofSource ('\x7b' :: inner)) ((ofSource ('\x7b' :: inner)).opened .flowMapping inner) := by
  let s := ofSource ('\x7b' :: inner)
  have hmark : s.mark? = some { s with level := s.marked } := rfl
  have htoken : s.token? '\x7b' inner = some (s.opened .flowMapping inner) := by
    rw [← openFlow?_opened .flowMapping hmark rfl]
    simp [token?, atMark_cons]
  refine ⟨1, ?_, fun fuel => ?_⟩
  · rw [opened, Cursor.onTo_rest]
    exact Nat.le_of_eq (Nat.add_comm 1 _)
  · have hskip : s.skipToToken = s := skipToToken_token ⟨_, inner, rfl, by decide⟩
    have hrest : s.cursor.rest = '\x7b' :: inner := rfl
    rw [run?, hskip, unindent_outermost rfl rfl (by omega), hrest]
    simp only [htoken, Option.bind_some]
    rfl

/-- A mapping on one line is read as its tokens. -/
theorem run?_mapping {style : FlowStyle} (hmark : style.mark = ':') (hbefore : style.before ≤ 22) {d : Nat}
    {entries : List (String × Tree)} (hp : (Tree.map entries).Printable d) {ending : List Char}
    (hending : ending ∈ [[], ['\n']]) {cs : List Char} (hcs : cs = (Tree.map entries).flow style ++ ending) :
    run? (cs.length + 1) (ofSource cs) = some (tokensOf (.map entries)) := by
  cases hp with
  | map hd hk hp =>
    let inner := blanks style.pad ++ (Tree.flowEntries style entries ++ '\x7d' :: ending)
    obtain rfl : cs = '\x7b' :: inner := by
      simp [hcs, inner, Tree.flow]
    have hloose : (ofSource ('\x7b' :: inner)).marked.Loose := by
      intro k hk
      cases hk
      rfl
    have hinside : Inside ((ofSource ('\x7b' :: inner)).opened .flowMapping inner) := inside_opened .flowMapping rfl
    have hvalues : ∀ e ∈ entries, ReadsFlow style e.2 := fun e he => readsFlow_printable hmark hbefore (hp e he)
    obtain ⟨s', h⟩ := opened_reads .mapping hloose rfl (runs_ofSource inner)
      (mapping_reads hmark hbefore hk hp hvalues hinside rfl rfl)
    have hend : s'.cursor.rest ∈ [[], ['\n']] := by
      rwa [h.rest_eq]
    obtain ⟨fuel, hfuel⟩ := h.runs.run?
    have hlength : (ofSource ('\x7b' :: inner)).cursor.rest.length = ('\x7b' :: inner).length := rfl
    rw [← hlength, hfuel, run?_end h.outerLevels h.indent h.outerIndents h.loose hend, h.tokens]
    simp [tokensOf, ofSource, Level.tokens, Level.empty]

end Scan

theorem singleBreaks_eq {cs : List Char} (h : ∀ c ∈ cs, c ≠ '\r' ∧ c ≠ '\u0085') : singleBreaks cs = cs := by
  induction cs with
  | nil => rfl
  | cons c cs ih =>
    rw [List.forall_mem_cons] at h
    unfold singleBreaks
    split
    · rename_i heq
      exact absurd (List.cons.inj heq).1 h.1.1
    · rename_i heq
      obtain ⟨rfl, rfl⟩ := List.cons.inj heq
      rw [ih h.2, if_neg (not_or.2 h.1)]
    · rename_i heq
      cases heq

/-- All of such a text is allowed, and its line ends are single. -/
theorem tokens?_mapping {style : FlowStyle} (hmark : style.mark = ':') (hbefore : style.before ≤ 22) {d : Nat}
    {entries : List (String × Tree)} (hp : (Tree.map entries).Printable d) {ending : List Char}
    (hending : ending ∈ [[], ['\n']]) :
    tokens? (String.ofList ((Tree.map entries).flow style ++ ending)) = some (tokensOf (.map entries)) := by
  have hprintable : ∀ c ∈ (Tree.map entries).flow style, IsPrintable c := hp.chars (by rw [hmark]; decide)
  have hend : ∀ c ∈ ending, c = '\n' := by
    simp only [List.mem_cons, List.not_mem_nil, or_false] at hending
    rcases hending with rfl | rfl <;> decide
  have hchars : ∀ c ∈ (Tree.map entries).flow style ++ ending, isAllowed c = true ∧ c ≠ '\r' ∧ c ≠ '\u0085' := by
    rw [List.forall_mem_append]
    refine ⟨fun c hc => ⟨?_, ?_, ?_⟩, fun c hc => ?_⟩
    · obtain ⟨h1, h2⟩ := hprintable c hc
      simp only [isAllowed, Bool.or_eq_true, Bool.and_eq_true, decide_eq_true_eq]
      omega
    · exact ne_of_isPrintable (hprintable c hc) (by decide)
    · exact ne_of_isPrintable (hprintable c hc) (by decide)
    · rw [hend c hc]
      decide
  have hbreaks := singleBreaks_eq fun c hc => (hchars c hc).2
  have hall : ((Tree.map entries).flow style ++ ending).all isAllowed = true :=
    List.all_eq_true.2 fun c hc => (hchars c hc).1
  rw [tokens?, String.toList_ofList, if_pos hall, hbreaks]
  exact Scan.run?_mapping hmark hbefore hp hending rfl

end PhaseCert.Yaml
