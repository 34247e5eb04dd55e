/-
  PhaseCert.Proofs.Yaml.Scan — one line of flow style divided into tokens.

  The scanner keeps tokens back while a key may still begin with them, and a level apart for each
  open collection. `Scan.Runs` says that it gets from one state to another, whatever it has fuel
  for beyond that. `Scan.Reads` says what a stretch of text comes to, from a state within a flow
  collection: the tokens that it adds to those of the level, in whichever of the two lists they
  are kept, with everything around the level as it was. Such stretches follow one another
  (`Reads.trans`), and there is one lemma for each kind of stretch:
  - `reads_blanks`: blanks in front of a token are passed over;
  - `comma_reads`, `quoted_reads`, `plain_reads`: one token;
  - `key_reads`: a quoted key and its colon, where the key's tokens go in front of what was kept back;
  - `collection_reads`: a bracket, what is within, and the bracket that closes it.
-/
import PhaseCert.Proofs.Flow
import PhaseCert.Yaml.Tokens

namespace PhaseCert.Yaml

/-! ## Runs -/

namespace Cursor

@[simp] theorem onTo_rest (cur : Cursor) (rest : List Char) : (cur.onTo rest).rest = rest := rfl

theorem onTo_self (cur : Cursor) : cur.onTo cur.rest = cur := by
  simp [onTo]

theorem onTo_onTo {cur : Cursor} {rest rest' : List Char} (h : rest.length ≤ cur.rest.length)
    (h' : rest'.length ≤ rest.length) : (cur.onTo rest).onTo rest' = cur.onTo rest' := by
  simp only [onTo, mk.injEq, Spot.mk.injEq, true_and]
  omega

end Cursor

/-! ## Printable characters -/

theorem ne_of_isPrintable {c d : Char} (h : IsPrintable c) (hd : ¬IsPrintable d) : c ≠ d := by
  rintro rfl
  exact hd h

theorem isBreak_of_isPrintable {c : Char} (h : IsPrintable c) : isBreak c = false := by
  simp [isBreak, ne_of_isPrintable h (show ¬IsPrintable '\n' by decide),
    ne_of_isPrintable h (show ¬IsPrintable '\u2028' by decide), ne_of_isPrintable h (show ¬IsPrintable '\u2029' by decide)]

/-- A blank is added to the blanks before it. -/
theorem Gap.add_blank {gap : Gap} (hgap : gap.hasBreak = false) {c : Char} (hc : isBreak c = false) :
    (gap.add c).hasBreak = false ∧ (gap.add c).text = gap.text ++ [c] := by
  cases gap with
  | none => simp [add, hc, hasBreak, text]
  | blanks cs => simp [add, hc, hasBreak, text]
  | breaks first more => cases hgap

namespace Scan

/-- From one state the scanner gets to another one, a token for each character at most. -/
def Runs (s s' : Scan) : Prop :=
  ∃ n, n + s'.cursor.rest.length ≤ s.cursor.rest.length ∧ ∀ fuel, run? (fuel + n + 1) s = run? (fuel + 1) s'

theorem Runs.trans {s s' s'' : Scan} (h : Runs s s') (h' : Runs s' s'') : Runs s s'' := by
  obtain ⟨n, hn, hrun⟩ := h
  obtain ⟨m, hm, hrun'⟩ := h'
  refine ⟨n + m, by omega, fun fuel => ?_⟩
  rw [show fuel + (n + m) + 1 = fuel + m + n + 1 by omega, hrun, hrun']

/-- With fuel for every character the scanner gets as far as it runs. -/
theorem Runs.run? {s s' : Scan} (h : Runs s s') :
    ∃ fuel, Scan.run? (s.cursor.rest.length + 1) s = Scan.run? (fuel + 1) s' := by
  obtain ⟨n, hn, hrun⟩ := h
  refine ⟨s.cursor.rest.length - n, ?_⟩
  rw [← hrun, show s.cursor.rest.length - n + n + 1 = s.cursor.rest.length + 1 by omega]

/-! ## Blanks -/

/-- A character that a token may begin with in flow style, for all the blanks and comments before it. -/
def BeginsToken (c : Char) : Prop := isBreak c = false ∧ isSpace c = false ∧ c ≠ '#' ∧ c ≠ '\uFEFF'

instance : DecidablePred BeginsToken := fun c =>
  inferInstanceAs (Decidable (isBreak c = false ∧ isSpace c = false ∧ c ≠ '#' ∧ c ≠ '\uFEFF'))

/-- Such a character comes next. -/
def StartsToken (rest : List Char) : Prop := ∃ c cs, rest = c :: cs ∧ BeginsToken c

theorem startsToken_cons {c : Char} (h : BeginsToken c) (cs : List Char) : StartsToken (c :: cs) := ⟨c, cs, rfl, h⟩

theorem toToken_blanks {c : Char} (hc : BeginsToken c) (inFlow keys : Bool) (m : Nat) (p : Spot) (cs : List Char) :
    toToken inFlow keys false p (blanks m ++ c :: cs) = (keys, ⟨c :: cs, ⟨p.line, p.column + m⟩⟩) := by
  induction m generalizing p with
  | zero =>
    obtain ⟨h1, h2, h3, h4⟩ := hc
    have hspace : c ≠ ' ' ∧ c ≠ '\t' := by
      simpa [isSpace] using h2
    simp [blanks, toToken, h1, h3, h4, hspace]
  | succ m ih =>
    have hspot : p.after ' ' = ⟨p.line, p.column + 1⟩ := rfl
    rw [blanks, List.replicate_succ, List.cons_append, ← blanks, toToken]
    simp only [show isBreak ' ' = false by decide, Bool.false_eq_true, if_false, true_or, or_true, if_true, hspot, ih]
    simp only [Prod.mk.injEq, Cursor.mk.injEq, Spot.mk.injEq, true_and]
    omega

/-- The state further on in its line. -/
def moveTo (s : Scan) (rest : List Char) : Scan := { s with cursor := s.cursor.onTo rest }

theorem skipToToken_blanks {s : Scan} {m : Nat} {rest : List Char} (hrest : s.cursor.rest = blanks m ++ rest)
    (hr : StartsToken rest) : s.skipToToken = s.moveTo rest := by
  obtain ⟨c, cs, rfl, hc⟩ := hr
  have hlength : (blanks m).length = m := List.length_replicate
  have htoken := toToken_blanks hc s.inFlow s.keysAllowed m s.cursor.spot cs
  rw [skipToToken, hrest, htoken, moveTo, Cursor.onTo, hrest]
  simp only [List.length_append, hlength, Nat.add_sub_cancel]

theorem skipToToken_token {s : Scan} (h : StartsToken s.cursor.rest) : s.skipToToken = s := by
  have hskip := skipToToken_blanks (m := 0) (List.nil_append _).symm h
  rw [hskip, moveTo, Cursor.onTo_self]

end Scan

/-! ## States within flow collections -/

/-- No key has to begin here. -/
def Level.Loose (l : Level) : Prop := ∀ k, l.possible = some k → k.required = false

theorem Level.giveUp?_of_loose {l : Level} (h : l.Loose) : l.giveUp? = some { l with possible := none } := by
  obtain ⟨settled, held, possible⟩ := l
  cases possible with
  | none => rfl
  | some k => simp [giveUp?, h k rfl]

namespace Scan

/-- Within a flow collection, on its line and past the first column. -/
structure Inside (s : Scan) : Prop where
  inFlow : s.inFlow = true
  column : 0 < s.column
  loose : s.level.Loose

/-- The scanner gets from `s` to `s'` with these tokens and is then in front of `rest`; `keys` says
    whether a key may begin there. What is around the level stays as it was. -/
structure Reads (s : Scan) (ts : List Token) (rest : List Char) (keys : Bool) (s' : Scan) : Prop where
  runs : Runs s s'
  cursor : s'.cursor = s.cursor.onTo rest
  keysAllowed : s'.keysAllowed = keys
  indent : s'.indent = s.indent
  outerIndents : s'.outerIndents = s.outerIndents
  outerLevels : s'.outerLevels = s.outerLevels
  tokens : s'.level.tokens = ts.reverse ++ s.level.tokens
  loose : s'.level.Loose

section

variable {s s' s'' : Scan} {ts ts' : List Token} {rest rest' : List Char} {keys keys' : Bool}

theorem Reads.rest_eq (h : Reads s ts rest keys s') : s'.cursor.rest = rest := by
  rw [h.cursor, Cursor.onTo_rest]

theorem Reads.length_le (h : Reads s ts rest keys s') : rest.length ≤ s.cursor.rest.length := by
  obtain ⟨n, hn, -⟩ := h.runs
  rw [h.rest_eq] at hn
  omega

theorem Reads.inside (h : Reads s ts rest keys s') (hs : Inside s) : Inside s' where
  inFlow := by
    have := hs.inFlow
    rwa [Scan.inFlow, ← h.outerLevels] at this
  column := by
    have := hs.column
    rw [column, h.cursor, Cursor.onTo]
    rw [column] at this
    exact Nat.lt_of_lt_of_le this (Nat.le_add_right _ _)
  loose := h.loose

theorem Reads.trans (h : Reads s ts rest keys s') (h' : Reads s' ts' rest' keys' s'') :
    Reads s (ts ++ ts') rest' keys' s'' where
  runs := h.runs.trans h'.runs
  cursor := by
    have hle := h'.length_le
    rw [h.rest_eq] at hle
    rw [h'.cursor, h.cursor, Cursor.onTo_onTo h.length_le hle]
  keysAllowed := h'.keysAllowed
  indent := by rw [h'.indent, h.indent]
  outerIndents := by rw [h'.outerIndents, h.outerIndents]
  outerLevels := by rw [h'.outerLevels, h.outerLevels]
  tokens := by rw [h'.tokens, h.tokens, List.reverse_append, List.append_assoc]
  loose := h'.loose

/-- Within flow collections indentation counts for nothing. -/
theorem unindent_inFlow (h : s.inFlow = true) (column : Int) : s.unindent column = s := by
  rw [unindent, if_pos h]

theorem run?_inFlow (h : s.inFlow = true) (fuel : Nat) {c : Char} {cs : List Char}
    (hrest : s.skipToToken.cursor.rest = c :: cs) :
    run? (fuel + 1) s = (s.skipToToken.token? c cs).bind (run? fuel) := by
  have hflow : s.skipToToken.inFlow = true := h
  simp only [Scan.run?, unindent_inFlow hflow, hrest]

theorem reads_blanks (hs : Inside s) {m : Nat} (hrest : s.cursor.rest = blanks m ++ rest) (hr : StartsToken rest) :
    Reads s [] rest s.keysAllowed (s.moveTo rest) := by
  have hskip := skipToToken_blanks hrest hr
  have hmoved : (s.moveTo rest).skipToToken = s.moveTo rest := skipToToken_token hr
  obtain ⟨c, cs, hc, -⟩ := hr
  refine ⟨⟨0, ?_, fun fuel => ?_⟩, rfl, rfl, rfl, rfl, rfl, rfl, hs.loose⟩
  · rw [hrest, List.length_append, moveTo, Cursor.onTo_rest]
    omega
  · have hflow : (s.moveTo rest).inFlow = true := hs.inFlow
    rw [Nat.add_zero, run?_inFlow hs.inFlow fuel (by rw [hskip]; exact hc),
      run?_inFlow hflow fuel (by rw [hmoved]; exact hc), hskip, hmoved]

/-- A token is one step. -/
theorem runs_token (hs : Inside s) {c : Char} {cs : List Char} (hrest : s.cursor.rest = c :: cs) (hc : BeginsToken c)
    (ht : s.token? c cs = some s') (hlen : s'.cursor.rest.length ≤ cs.length) : Runs s s' := by
  have hskip : s.skipToToken = s := skipToToken_token ⟨c, cs, hrest, hc⟩
  refine ⟨1, ?_, fun fuel => ?_⟩
  · rw [hrest, List.length_cons]
    omega
  · rw [run?_inFlow hs.inFlow (fuel + 1) (by rw [hskip, hrest]), hskip, ht]
    rfl

end

/-! ## Tokens -/

section

variable {s : Scan} (hs : Inside s)

/-- The level once it is noted where a key may begin. -/
def marked (s : Scan) : Level :=
  if s.keysAllowed then ⟨s.level.tokens, [], some ⟨s.cursor.spot, false⟩⟩ else s.level

theorem tokens_marked (s : Scan) : s.marked.tokens = s.level.tokens := by
  unfold marked
  split <;> rfl

include hs

theorem loose_marked : s.marked.Loose := by
  unfold marked
  split
  · intro k hk
    cases hk
    rfl
  · exact hs.loose

theorem giveUp?_inside : s.giveUp? = some { s with level := { s.level with possible := none } } := by
  rw [giveUp?, Level.giveUp?_of_loose hs.loose]
  rfl

theorem mark?_inside : s.mark? = some { s with level := s.marked } := by
  have hflow := hs.inFlow
  unfold mark? marked
  by_cases hk : s.keysAllowed = true
  · rw [if_pos hk, if_pos hk, giveUp?_inside hs]
    have hflow' : ({ s with level := { s.level with possible := none } } : Scan).inFlow = true := hflow
    simp [hflow', Level.tokens]
  · rw [if_neg hk, if_neg hk]

/-- Past the first column a mark is taken by itself. -/
theorem token?_marks (cs : List Char) :
    s.token? '[' cs = s.openFlow? .flowSequence ∧ s.token? '\x7b' cs = s.openFlow? .flowMapping ∧
      s.token? ']' cs = s.closeFlow? .flowSequenceEnd ∧ s.token? '\x7d' cs = s.closeFlow? .flowMappingEnd ∧
      s.token? ',' cs = s.comma? ∧ s.token? '"' cs = s.quoted? true ∧ s.token? ':' cs = s.value? := by
  have hcolumn : s.column ≠ 0 := Nat.ne_of_gt hs.column
  simp [token?, hcolumn, hs.inFlow]

theorem comma_reads {rest : List Char} (hrest : s.cursor.rest = ',' :: rest) : ∃ s', Reads s [.comma] rest true s' := by
  obtain ⟨-, -, -, -, htoken, -, -⟩ := token?_marks hs rest
  have hcomma : s.comma? = some { s with
      cursor := s.cursor.onTo rest
      keysAllowed := true
      level := ⟨s.level.settled, .comma :: s.level.held, none⟩ } := by
    rw [comma?, giveUp?_inside hs]
    simp [push, Level.push, skip, allowKeys, hrest]
  exact ⟨_, runs_token hs hrest (by decide) (htoken.trans hcomma) (Nat.le_refl _), rfl, rfl, rfl, rfl, rfl, rfl,
    fun k hk => by cases hk⟩

end

/-! ## Collections -/

/-- The state after the opening mark of a collection: a level of its own, and the one around it put by. -/
def opened (s : Scan) (first : Token) (rest : List Char) : Scan :=
  { s with
    cursor := s.cursor.onTo rest
    keysAllowed := true
    level := .empty
    outerLevels := s.marked.push first :: s.outerLevels }

/-- The two kinds of collections, with their marks and the tokens of these. -/
inductive Brackets : Char → Token → Char → Token → Prop
  | sequence : Brackets '[' .flowSequence ']' .flowSequenceEnd
  | mapping : Brackets '\x7b' .flowMapping '\x7d' .flowMappingEnd

section

variable {s : Scan} {opening closing : Char} {first last : Token} {ts : List Token} {inner rest : List Char}

theorem openFlow?_opened (first : Token) (hmark : s.mark? = some { s with level := s.marked })
    (hrest : s.cursor.rest = opening :: inner) :
    s.openFlow? first = some (s.opened first inner) := by
  rw [openFlow?, hmark]
  simp [opened, push, skip, hrest]

theorem inside_opened (first : Token) (hrest : s.cursor.rest = opening :: inner) : Inside (s.opened first inner) where
  inFlow := rfl
  column := by
    rw [column, opened, Cursor.onTo, hrest]
    simp only [List.length_cons]
    omega
  loose := fun k hk => by cases hk

/-- Once it is opened, a collection is read when what is in it is. -/
theorem opened_reads (hbrackets : Brackets opening first closing last) (hs : s.marked.Loose)
    (hrest : s.cursor.rest = opening :: inner)
    (hruns : Runs s (s.opened first inner))
    (hinner : ∃ keys s2, Reads (s.opened first inner) ts (closing :: rest) keys s2) :
    ∃ s', Reads s (first :: (ts ++ [last])) rest false s' := by
  obtain ⟨keys, s2, h2⟩ := hinner
  have hs2 := h2.inside (inside_opened first hrest)
  let s3 : Scan := { s2 with
    cursor := s2.cursor.onTo rest
    keysAllowed := false
    level := ((s.marked.push first).pushAll s2.level.tokens).push last
    outerLevels := s.outerLevels }
  have hbegins : BeginsToken closing := by
    cases hbrackets <;> decide
  have hclose : s2.token? closing rest = s2.closeFlow? last := by
    obtain ⟨-, -, hsequence, hmapping, -⟩ := token?_marks hs2 rest
    cases hbrackets with
    | sequence => exact hsequence
    | mapping => exact hmapping
  have hclosed : s2.closeFlow? last = some s3 := by
    have houter : s2.outerLevels = s.marked.push first :: s.outerLevels := h2.outerLevels
    rw [closeFlow?, giveUp?_inside hs2]
    simp [s3, houter, push, skip, allowKeys, h2.rest_eq, Level.tokens]
  have hruns' : Runs s2 s3 := runs_token hs2 h2.rest_eq hbegins (hclose.trans hclosed) (Nat.le_refl _)
  refine ⟨s3, (hruns.trans h2.runs).trans hruns', ?_, rfl, h2.indent, h2.outerIndents, rfl, ?_, hs⟩
  · have hle : rest.length ≤ inner.length := Nat.le_of_succ_le h2.length_le
    have hle' : inner.length ≤ s.cursor.rest.length := by
      rw [hrest]
      exact Nat.le_succ _
    show s2.cursor.onTo rest = s.cursor.onTo rest
    rw [h2.cursor, Cursor.onTo_onTo h2.length_le (Nat.le_succ _)]
    exact Cursor.onTo_onTo hle' hle
  · have htokens : s2.level.tokens = ts.reverse := by
      rw [h2.tokens]
      exact List.append_nil _
    have houter : (s.marked.push first).tokens = first :: s.level.tokens := congrArg (first :: ·) (tokens_marked s)
    calc s3.level.tokens = last :: (s2.level.tokens ++ (s.marked.push first).tokens) :=
          congrArg (last :: ·) (List.append_assoc _ _ _)
      _ = (first :: (ts ++ [last])).reverse ++ s.level.tokens := by simp [htokens, houter]

/-- A collection within another one. -/
theorem collection_reads (hs : Inside s) (hbrackets : Brackets opening first closing last)
    (hrest : s.cursor.rest = opening :: inner)
    (hinner : ∀ s1, Inside s1 → s1.cursor.rest = inner → s1.keysAllowed = true →
      ∃ keys s2, Reads s1 ts (closing :: rest) keys s2) :
    ∃ s', Reads s (first :: (ts ++ [last])) rest false s' := by
  have hopen : s.token? opening inner = s.openFlow? first := by
    obtain ⟨hsequence, hmapping, -⟩ := token?_marks hs inner
    cases hbrackets with
    | sequence => exact hsequence
    | mapping => exact hmapping
  have hbegins : BeginsToken opening := by
    cases hbrackets <;> decide
  have hopened := openFlow?_opened first (mark?_inside hs) hrest
  have hruns := runs_token hs hrest hbegins (hopen.trans hopened) (Nat.le_refl _)
  exact opened_reads hbrackets (loose_marked hs) hrest hruns (hinner _ (inside_opened first hrest) rfl rfl)

end

/-! ## Scalars -/

/-- The state after a scalar, where a key may have begun with it. -/
def taken (s : Scan) (t : Token) (rest : List Char) : Scan :=
  { s with cursor := s.cursor.onTo rest, keysAllowed := false, level := s.marked.push t }

theorem reads_taken {s : Scan} (hs : Inside s) {t : Token} {rest : List Char} (h : Runs s (s.taken t rest)) :
    Reads s [t] rest false (s.taken t rest) where
  runs := h
  cursor := rfl
  keysAllowed := rfl
  indent := rfl
  outerIndents := rfl
  outerLevels := rfl
  tokens := congrArg (t :: ·) (tokens_marked s)
  loose := loose_marked hs

/-- Blanks between double quotes are kept as they are. -/
theorem quotedText_clean {cs : List Char} (h : ∀ c ∈ cs, IsClean c) {gap : Gap} (hgap : gap.hasBreak = false) {p : Spot}
    (hp : 0 < p.column) (rest : List Char) :
    quotedText true (.text gap) p (cs ++ '"' :: rest)
      = some (gap.text ++ cs, ⟨rest, p.line, p.column + (cs.length + 1)⟩) := by
  induction cs generalizing gap p with
  | nil =>
    have hcolumn : p.column ≠ 0 := Nat.ne_of_gt hp
    simp [quotedText, show isSpace '"' = false by decide, show isBreak '"' = false by decide, hcolumn, Spot.after]
  | cons c cs ih =>
    rw [List.forall_mem_cons] at h
    obtain ⟨⟨h1, h2, h3, h4⟩, h⟩ := h
    have hcolumn : p.column ≠ 0 := Nat.ne_of_gt hp
    have hbreak := isBreak_of_isPrintable ⟨h1, h2⟩
    have hafter : p.after c = ⟨p.line, p.column + 1⟩ := by
      rw [Spot.after, hbreak]
      rfl
    have hlength : p.column + 1 + (cs.length + 1) = p.column + ((c :: cs).length + 1) := by
      rw [List.length_cons]
      omega
    have ih := fun (gap : Gap) (hgap : gap.hasBreak = false) => ih h hgap (p := ⟨p.line, p.column + 1⟩) (Nat.succ_pos _)
    by_cases hspace : isSpace c = true
    · have htext := Gap.add_blank hgap hbreak
      rw [List.cons_append, quotedText, if_pos (.inl hspace), hafter, ih _ htext.1, htext.2, hlength, List.append_assoc]
      rfl
    · simp only [List.cons_append, quotedText, hspace, hbreak, hcolumn, h3, h4, hafter, ih .none rfl, hlength,
        Bool.false_eq_true, false_and, and_false, or_self, if_false, not_true]
      simp [prepend, Gap.text]

theorem quoted?_taken {s : Scan} (hs : Inside s) {t : String} (ht : Clean t) {rest : List Char}
    (hrest : s.cursor.rest = quoted t ++ rest) : s.quoted? true = some (s.taken (.scalar false t) rest) := by
  have hread : quotedText true (.text .none) (s.cursor.onTo (t.toList ++ '"' :: rest)).spot (t.toList ++ '"' :: rest)
      = some (t.toList, s.cursor.onTo rest) := by
    rw [quotedText_clean ht rfl (by simp [Cursor.onTo, hrest, quoted])]
    simp only [Cursor.onTo, hrest, quoted, Gap.text, List.nil_append, List.length_append, List.length_cons,
      List.cons_append, Option.some.injEq, Prod.mk.injEq, Cursor.mk.injEq, Spot.mk.injEq, true_and]
    omega
  have hdrop : s.cursor.rest.drop 1 = t.toList ++ '"' :: rest := by
    rw [hrest]
    simp [quoted]
  rw [quoted?, mark?_inside hs]
  simp only [skip, hdrop, Cursor.onTo_rest, hread, Option.bind_eq_bind, Option.bind_some, String.ofList_toList]
  rfl

theorem runs_quoted {s : Scan} (hs : Inside s) {t : String} (ht : Clean t) {rest : List Char}
    (hrest : s.cursor.rest = quoted t ++ rest) : Runs s (s.taken (.scalar false t) rest) := by
  obtain ⟨-, -, -, -, -, htoken, -⟩ := token?_marks hs (t.toList ++ '"' :: rest)
  have hrest' : s.cursor.rest = '"' :: (t.toList ++ '"' :: rest) := by
    rw [hrest]
    simp [quoted]
  refine runs_token hs hrest' (by decide) (htoken.trans (quoted?_taken hs ht hrest)) ?_
  simp only [taken, Cursor.onTo_rest, List.length_append, List.length_cons]
  omega

theorem quoted_reads {s : Scan} (hs : Inside s) {t : String} (ht : Clean t) {rest : List Char}
    (hrest : s.cursor.rest = quoted t ++ rest) : ∃ s', Reads s [.scalar false t] rest false s' :=
  ⟨_, reads_taken hs (runs_quoted hs ht hrest)⟩

/-- A quoted scalar with a colon behind it on its line is a key, where keys are allowed. -/
theorem key_reads {s : Scan} (hs : Inside s) (hkeys : s.keysAllowed = true) {k : String} (hk : CleanKey k) {n : Nat}
    (hn : n ≤ 22) {rest : List Char} (hrest : s.cursor.rest = quoted k ++ (blanks n ++ ':' :: rest)) :
    ∃ s', Reads s [.key, .scalar false k, .value] rest false s' := by
  -- up to the colon
  let s1 := s.taken (.scalar false k) (blanks n ++ ':' :: rest)
  let s2 := s1.moveTo (':' :: rest)
  have h1 : Reads s [.scalar false k] (blanks n ++ ':' :: rest) false s1 := reads_taken hs (runs_quoted hs hk.1 hrest)
  have h2 := h1.trans (reads_blanks (h1.inside hs) h1.rest_eq (startsToken_cons (by decide) rest))
  have hs2 : Inside s2 := h2.inside hs
  have hcursor : s2.cursor = s.cursor.onTo (':' :: rest) := h2.cursor
  have hlevel : s2.level = ⟨s.level.tokens, [.scalar false k], some ⟨s.cursor.spot, false⟩⟩ := by
    show s.marked.push _ = _
    rw [marked, if_pos hkeys]
    rfl
  -- the key is near enough
  have hreaches : s2.reaches ⟨s.cursor.spot, false⟩ = true := by
    have hlength : s.cursor.rest.length - (rest.length + 1) ≤ 1024 := by
      have hblanks : (blanks n).length = n := List.length_replicate
      have hkey := hk.2
      simp only [hrest, quoted, List.length_append, List.length_cons, List.cons_append, List.length_nil, hblanks]
      omega
    simp only [reaches, column, hcursor, Cursor.onTo, List.length_cons, decide_true, Bool.true_and, decide_eq_true_eq]
    omega
  let s3 : Scan := { s with
    cursor := s.cursor.onTo rest
    keysAllowed := false
    level := ⟨[.scalar false k, .key] ++ s.level.tokens, [.value], none⟩ }
  have hvalue : s2.value? = some s3 := by
    have hflow : s2.inFlow = true := hs2.inFlow
    have hrest' : (s.cursor.onTo (':' :: rest)).onTo rest = s.cursor.onTo rest :=
      Cursor.onTo_onTo h2.length_le (Nat.le_succ _)
    simp only [value?, hlevel, hreaches, if_true, settleKey, indentTo, opensAt, hflow, Bool.not_true, Bool.false_and,
      Bool.false_eq_true, if_false, push, skip, hcursor, Cursor.onTo_rest, List.drop_one, List.tail_cons, hrest',
      Option.bind_eq_bind, Option.bind_some]
    rfl
  obtain ⟨-, -, -, -, -, -, htoken⟩ := token?_marks hs2 rest
  have h3 : Runs s2 s3 := runs_token hs2 h2.rest_eq (by decide) (htoken.trans hvalue) (Nat.le_refl _)
  exact ⟨s3, h2.runs.trans h3, rfl, rfl, rfl, rfl, rfl, rfl, fun k hk => by cases hk⟩

/-! ## Plain scalars -/

/-- The characters of numbers and of truth values. -/
def plainChars : List Char := "+-.0123456789Eaeflrstu".toList

/-- A text of such characters, in which a minus in front has another one behind it. -/
structure PlainText (cs : List Char) : Prop where
  chars : ∀ c ∈ cs, c ∈ plainChars
  ne_nil : cs ≠ []
  ne_minus : cs ≠ ['-']

/-- What ends a plain scalar in a flow collection. -/
def closers : List Char := [',', ']', '\x7d']

theorem plainChars_inPlain {c : Char} (h : c ∈ plainChars) :
    isBreak c = false ∧ isSpace c = false ∧ isFlowMark c = false ∧ c ≠ ':' ∧ c ≠ '#' ∧ c ≠ '\uFEFF' := by
  have hall : ∀ c ∈ plainChars,
      isBreak c = false ∧ isSpace c = false ∧ isFlowMark c = false ∧ c ≠ ':' ∧ c ≠ '#' ∧ c ≠ '\uFEFF' := by
    unfold plainChars
    decide
  exact hall c h

theorem plainText_blanks (indent : Int) {c : Char} (hc : c ∈ closers) (n : Nat) {gap : Gap} (hgap : gap.hasBreak = false)
    (p : Spot) (cs : List Char) :
    plainText true indent gap p (blanks n ++ c :: cs) = some ([], false, ⟨c :: cs, p.line, p.column + n⟩) := by
  have hall : ∀ c ∈ closers, isBreak c = false ∧ isSpace c = false ∧ isFlowMark c = true ∧ c ≠ ':' := by
    unfold closers
    decide
  obtain ⟨hbreak, hspace, hmark, hcolon⟩ := hall c hc
  induction n generalizing gap p with
  | zero => simp [blanks, plainText, hbreak, hspace, hgap, hmark, hcolon, atBadColon, endsPlain]
  | succ n ih =>
    have hafter : p.after ' ' = ⟨p.line, p.column + 1⟩ := rfl
    have hadd := Gap.add_blank hgap (show isBreak ' ' = false by decide)
    rw [blanks, List.replicate_succ, List.cons_append, ← blanks, plainText, if_pos (.inl rfl), hgap,
      if_neg (by simp), hafter, ih hadd.1]
    simp only [Option.some.injEq, Prod.mk.injEq, Cursor.mk.injEq, Spot.mk.injEq, true_and]
    omega

theorem plainText_plain (indent : Int) {cs : List Char} (h : ∀ c ∈ cs, c ∈ plainChars) (p : Spot) (tail : List Char) :
    plainText true indent .none p (cs ++ tail)
      = (plainText true indent .none ⟨p.line, p.column + cs.length⟩ tail).map fun (text, r) => (cs ++ text, r) := by
  induction cs generalizing p with
  | nil => simp
  | cons c cs ih =>
    rw [List.forall_mem_cons] at h
    obtain ⟨hbreak, hspace, hmark, hcolon, -⟩ := plainChars_inPlain h.1
    have hafter : p.after c = ⟨p.line, p.column + 1⟩ := by
      rw [Spot.after, hbreak]
      rfl
    have hlength : p.column + 1 + cs.length = p.column + (c :: cs).length := by
      rw [List.length_cons]
      omega
    simp only [List.cons_append, plainText, hbreak, hspace, ne_eq, not_true, false_and, hafter, ih h.2, hlength]
    simp [atBadColon, endsPlain, hmark, hcolon, Option.map_map, Function.comp_def, Gap.text]

section

variable {s : Scan} (hs : Inside s) {text : List Char} (ht : PlainText text)

include hs ht

/-- Past the first column such a text is no mark, and is taken as a plain scalar. -/
theorem token?_plain (tail : List Char) :
    ∃ c cs, text ++ tail = c :: cs ∧ BeginsToken c ∧ s.token? c cs = s.plain? := by
  obtain ⟨hchars, hne, hminus⟩ := ht
  obtain ⟨c, cs, rfl⟩ := List.exists_cons_of_ne_nil hne
  rw [List.forall_mem_cons] at hchars
  obtain ⟨hbreak, hspace, -, -, hcomment, hbom⟩ := plainChars_inPlain hchars.1
  refine ⟨c, cs ++ tail, rfl, ⟨hbreak, hspace, hcomment, hbom⟩, ?_⟩
  have hcolumn : s.column ≠ 0 := Nat.ne_of_gt hs.column
  have hstarts : startsPlain s.inFlow (c :: (cs ++ tail)) = true ∧ ¬(c = '-' ∧ atGap (cs ++ tail) = true) := by
    by_cases hc : c = '-'
    · subst hc
      obtain ⟨d, ds, rfl⟩ := List.exists_cons_of_ne_nil fun h : cs = [] => hminus (by rw [h])
      obtain ⟨hbreak', hspace', -⟩ := plainChars_inPlain (hchars.2 d List.mem_cons_self)
      simp [startsPlain, atGap, hbreak', hspace']
    · have hall : ∀ c ∈ plainChars, c = '-' ∨ c ∉ indicators := by
        unfold plainChars
        decide
      have hindicator := (hall c hchars.1).resolve_left hc
      simp [startsPlain, hc, hbreak, hspace, hindicator]
  have hmarks : ∀ c ∈ plainChars,
      ∀ m ∈ ['[', '\x7b', ']', '\x7d', ',', '*', '&', '!', '\'', '"', '?', ':', '|', '>'], c ≠ m := by
    unfold plainChars
    decide
  have hc := hmarks c hchars.1
  simp only [List.forall_mem_cons] at hc
  simp [token?, hcolumn, hc, hstarts]

theorem plain_reads {n : Nat} {c : Char} (hc : c ∈ closers) {cs : List Char}
    (hrest : s.cursor.rest = text ++ (blanks n ++ c :: cs)) :
    ∃ s', Reads s [.scalar true (String.ofList text)] (c :: cs) false s' := by
  obtain ⟨first, tail, hfirst, hbegins, htoken⟩ := token?_plain hs ht (blanks n ++ c :: cs)
  have hread : plainText true (s.indent + 1) .none s.cursor.spot s.cursor.rest
      = some (text, false, s.cursor.onTo (c :: cs)) := by
    have hblanks : (blanks n).length = n := List.length_replicate
    rw [hrest, plainText_plain _ ht.chars, plainText_blanks _ hc n rfl]
    simp only [Cursor.onTo, hrest, List.length_append, hblanks, Option.map_some, List.append_nil, Option.some.injEq,
      Prod.mk.injEq, Cursor.mk.injEq, Spot.mk.injEq, true_and]
    omega
  have hplain : s.plain? = some (s.taken (.scalar true (String.ofList text)) (c :: cs)) := by
    have hflow : ({ s with level := s.marked } : Scan).inFlow = true := hs.inFlow
    simp only [plain?, mark?_inside hs, hflow, hread, Option.bind_eq_bind, Option.bind_some]
    rfl
  refine ⟨_, reads_taken hs (runs_token hs (hrest.trans hfirst) hbegins (htoken.trans hplain) ?_)⟩
  have hlength := congrArg List.length hfirst
  have hne := List.length_pos_of_ne_nil ht.ne_nil
  simp only [List.length_append, List.length_cons] at hlength
  simp only [taken, Cursor.onTo_rest, List.length_cons]
  omega

end

end Scan

end PhaseCert.Yaml
