/-
  PhaseCert.Proofs.Pipeline.Report — the three places where a run reports its interval.

  A run prints the ends of the interval in one line, writes them as literals of the instance,
  and records them in the dump. The line and the literals come from two printers, which differ
  on the negative zero, and the dump is JSON with as many digits as a double needs.

  Nothing else that a run prints looks like that line: all its other work is mute (`Mute`). So a
  run that comes to a certificate reports one interval, the certificate's (`reports_run`), and
  a run that gets past the two files has reported the same interval three times over
  (`respond_reports`).
-/
import PhaseCert.Proofs.Certificate.Placeholder
import PhaseCert.Proofs.Pipeline.History

namespace PhaseCert

namespace Pipeline

open Work

/-! ## The line of the interval -/

def reportHead : List Char := "  Certificate: delta_ph in [".toList

def reportTail : List Char := "] (placeholder bound)".toList

/-- The two numbers in the line of an interval, as they are printed there. -/
def reported? (line : String) : Option (String × String) := do
  let rest ← reportHead.isPrefixOf? line.toList
  let ends ← reportTail.isSuffixOf? rest
  let upper ← [',', ' '].isPrefixOf? (ends.dropWhile (· ≠ ','))
  return (String.ofList (ends.takeWhile (· ≠ ',')), String.ofList upper)

theorem toList_intervalLine (i : Interval) : (intervalLine i).toList =
    reportHead ++ (((fixedText Instance.realPlaces i.lower).toList ++
      ([',', ' '] ++ (fixedText Instance.realPlaces i.upper).toList)) ++ reportTail) := by
  have hcomma : ", ".toList = [',', ' '] := by decide
  have happend : ∀ a b c d e : String,
      (a ++ b ++ c ++ d ++ e).toList = a.toList ++ ((b.toList ++ (c.toList ++ d.toList)) ++ e.toList) := by
    intro a b c d e
    simp only [String.toList_append, List.append_assoc]
  unfold intervalLine reportHead reportTail
  generalize fixedText Instance.realPlaces i.lower = lower
  generalize fixedText Instance.realPlaces i.upper = upper
  rw [happend, hcomma]

/-- The line of an interval has the two ends, as they are with ten places. -/
theorem reported?_intervalLine {i : Interval} (h : i.lower.isFinite = true) : reported? (intervalLine i) =
    some (fixedText Instance.realPlaces i.lower, fixedText Instance.realPlaces i.upper) := by
  have hcomma : ∀ c ∈ (fixedText Instance.realPlaces i.lower).toList, (decide (c ≠ ',')) = true := by
    intro c hc
    rw [decide_eq_true_eq]
    rintro rfl
    have := fixedText_chars (by decide) h _ hc
    revert this
    decide
  have hdrop : ((fixedText Instance.realPlaces i.lower).toList ++
      ([',', ' '] ++ (fixedText Instance.realPlaces i.upper).toList)).dropWhile (· ≠ ',') =
        [',', ' '] ++ (fixedText Instance.realPlaces i.upper).toList := by
    rw [List.dropWhile_append_of_pos hcomma]
    rfl
  have htake : ((fixedText Instance.realPlaces i.lower).toList ++
      ([',', ' '] ++ (fixedText Instance.realPlaces i.upper).toList)).takeWhile (· ≠ ',') =
        (fixedText Instance.realPlaces i.lower).toList := by
    rw [List.takeWhile_append_of_pos hcomma]
    simp
  simp only [reported?, toList_intervalLine, Instance.isPrefixOf?_append, Instance.isSuffixOf?_append,
    Option.bind_eq_bind, Option.bind_some, hdrop, htake, String.ofList_toList]
  rfl

/-! ## Other lines -/

/-- A line of an interval begins and ends as it should. -/
theorem of_reported? {line : String} {r : String × String} (h : reported? line = some r) :
    reportHead <+: line.toList ∧ line.toList.getLast? = some ')' := by
  unfold reported? at h
  cases hhead : reportHead.isPrefixOf? line.toList with
  | none => simp [hhead] at h
  | some rest =>
    cases htail : reportTail.isSuffixOf? rest with
    | none => simp [hhead, htail] at h
    | some ends =>
      rw [List.isPrefixOf?_eq_some_iff_append_eq] at hhead
      rw [List.isSuffixOf?_eq_some_iff_append_eq] at htail
      have hlast : reportTail.getLast? = some ')' := by decide
      refine ⟨⟨rest, hhead⟩, ?_⟩
      rw [← hhead, ← htail, List.getLast?_append, List.getLast?_append, hlast]
      rfl

/-- A text that begins otherwise, and whatever comes after it. -/
theorem reported?_of_head {text : String} (h : (text.toList.take 3).length = 3 ∧ text.toList.take 3 ≠ reportHead.take 3)
    (rest : String) : reported? (text ++ rest) = none := by
  rw [Option.eq_none_iff_forall_ne_some]
  intro r hr
  obtain ⟨more, hmore⟩ := (of_reported? hr).1
  have htake := congrArg (List.take 3) hmore
  have hlong : 3 ≤ text.toList.length := by
    have := h.1
    rw [List.length_take] at this
    omega
  rw [String.toList_append, List.take_append_of_le_length (by decide), List.take_append_of_le_length hlong] at htake
  exact h.2 htake.symm

theorem reported?_of_text {text : String} (h : (text.toList.take 3).length = 3 ∧ text.toList.take 3 ≠ reportHead.take 3) :
    reported? text = none := by
  rw [← String.append_empty (s := text)]
  exact reported?_of_head h ""

theorem text_join (p : Path) (name : String) : ∃ before, (p.join name).text = before ++ name := by
  unfold Path.join
  split
  · exact ⟨p.text, rfl⟩
  · exact ⟨p.text ++ "/", rfl⟩

/-- The line of the dump begins like that of the interval, but ends with the name of a file. -/
theorem reported?_dumpPath (text : String) (o : RunOptions) : reported? (text ++ o.dumpPath.text) = none := by
  rw [Option.eq_none_iff_forall_ne_some]
  intro r hr
  obtain ⟨before, hbefore⟩ := text_join ⟨o.outDir⟩ certificateName
  have hlast := (of_reported? hr).2
  have hname : certificateName.toList.getLast? = some 'n' := by decide
  rw [RunOptions.dumpPath, hbefore, ← String.append_assoc, String.toList_append, List.getLast?_append, hname,
    Option.some_or] at hlast
  exact absurd hlast (by decide)

/-! ## What is reported -/

def linesOf (said : List Said) : List String :=
  said.filterMap fun
    | .line text => some text
    | .record _ => none

/-- The intervals that were printed. -/
def reports (said : List Said) : List (String × String) := (linesOf said).filterMap reported?

theorem reports_append (said more : List Said) : reports (said ++ more) = reports said ++ reports more := by
  simp [reports, linesOf]

/-- Some work that reports no interval, whatever comes of it. -/
def Mute {α : Type} (x : Work α) : Prop := ∀ w, reports (x.after w).2.said = reports w.said

namespace Mute

variable {α β : Type}

theorem bind {x : Work α} {f : α → Work β} (hx : Mute x) (hf : ∀ a, Mute (f a)) : Mute (x >>= f) := by
  intro w
  have hw := hx w
  rw [after_bind]
  generalize x.after w = r at hw ⊢
  obtain ⟨_ | a, w'⟩ := r
  · exact hw
  · exact (hf a w').trans hw

theorem pure (a : α) : Mute (Pure.pure a : Work α) := fun _ => rfl

theorem throw (e : RunFailure) : Mute (throw e : Work α) := fun _ => rfl

theorem say {s : Said} (h : reports [s] = []) : Mute (Work.say s) := by
  intro w
  show reports (w.said ++ [s]) = reports w.said
  rw [reports_append, h, List.append_nil]

theorem record (r : LogRecord) : Mute (Work.say (.record r)) := say rfl

theorem log (level : LogLevel) (text : String) : Mute (Work.log level text) := record _

theorem print {text : String} (h : reported? text = none) : Mute (Work.print text) := by
  apply say
  simp [reports, linesOf, h]

theorem files : Mute Work.files := fun _ => rfl

theorem orFail {ε : Type} (failure : ε → RunFailure) (x : Except ε α) : Mute (Work.orFail failure x) := by
  cases x with
  | error e => exact throw (failure e)
  | ok a => exact pure a

theorem settle {ε : Type} (failure : ε → RunFailure) (r : FileSystem × Option ε) : Mute (Work.settle failure r) := by
  obtain ⟨fs, _ | e⟩ := r
  · exact fun _ => rfl
  · exact fun _ => rfl

end Mute

/-! ## The stages are mute -/

theorem load_mute (config : String) : Mute (load config) := by
  refine .bind .files fun fs => .bind (.orFail _ _) fun format => .bind (.log _ _) fun _ => .bind .files fun fs' => ?_
  exact .bind (.orFail _ _) fun p => .bind (.log _ _) fun _ => .pure p

theorem estimate_mute (p : Protocol) : Mute (estimate p) :=
  .bind (.log _ _) fun _ => .bind (.log _ _) fun _ => .bind (.log _ _) fun _ => .pure _

theorem normalize_mute (e : Estimate) (margin : Binary64) : Mute (normalize e margin) :=
  .bind (.orFail _ _) fun c => .bind (.log _ _) fun _ => .pure c

theorem dump_mute (path : Path) (c : Certificate) : Mute (dump path c) :=
  .bind .files fun _ => .bind (.settle _ _) fun _ => .log _ _

theorem generate_mute (path : Path) (p : Protocol) (c : Certificate) : Mute (generate path p c) := by
  refine .bind (.orFail _ _) fun v => .bind (.log _ _) fun _ => .bind (.orFail _ _) fun text => ?_
  exact .bind .files fun fs => .bind (.settle _ _) fun _ => .log _ _

theorem records_mute (records : List LogRecord) :
    Mute (forIn records PUnit.unit fun r _ => do
      say (.record r)
      pure (ForInStep.yield PUnit.unit) : Work PUnit) := by
  induction records with
  | nil => exact .pure _
  | cons r records ih =>
    rw [List.forIn_cons]
    refine .bind (.bind (.record r) fun _ => .pure _) fun step => ?_
    cases step with
    | done b => exact .pure b
    | yield b => exact ih

theorem verify_mute (machine : Machine) (prover : String) (artifact : Path) : Mute (verify machine prover artifact) := by
  refine .bind (.print (reported?_of_head (by decide) prover)) fun _ => .bind .files fun fs => ?_
  show Mute (answer artifact (Verification.verify machine fs prover artifact).1
    (Verification.verify machine fs prover artifact).2)
  refine .bind (records_mute _) fun _ => ?_
  split
  · exact .print (reported?_of_text (by decide))
  · exact .throw _

theorem conclude_mute (machine : Machine) (o : RunOptions) : Mute (conclude machine o) := by
  unfold conclude
  split
  · exact .print (reported?_of_text (by decide))
  · exact verify_mute machine o.prover o.artifact

/-! ## A run -/

/-- A run up to its certificate. -/
def certify (o : RunOptions) : Work (Protocol × Certificate) := do
  print ("→ Generating proof instance from " ++ o.config)
  let p ← load o.config
  print ("  Loaded: protocol " ++ p.name ++ ", " ++ toString p.states.length ++ " states, "
    ++ toString p.measurement.povm.length ++ " POVM elements")
  let e ← estimate p
  let c ← normalize e o.margin
  return (p, c)

/-- A run after the line of the interval. -/
def finish (machine : Machine) (o : RunOptions) (p : Protocol) (c : Certificate) : Work Unit := do
  dump o.dumpPath c
  generate o.artifact p c
  print "✓ Proof instance written"
  print ("  Instance:    " ++ o.artifact.text)
  print ("  Certificate: " ++ o.dumpPath.text)
  conclude machine o

theorem run_eq_certify (machine : Machine) (o : RunOptions) : run machine o =
    certify o >>= fun r => print (intervalLine r.2.interval) >>= fun _ => finish machine o r.1 r.2 := by
  simp only [run, certify, finish, bind_assoc, pure_bind]
  rfl

theorem certify_mute (o : RunOptions) : Mute (certify o) := by
  refine .bind (.print (reported?_of_head (by decide) _)) fun _ => .bind (load_mute _) fun p => ?_
  refine .bind (.print ?_) fun _ => .bind (estimate_mute p) fun e => .bind (normalize_mute e _) fun c => .pure _
  simp only [String.append_assoc]
  exact reported?_of_head (by decide) _

theorem finish_mute (machine : Machine) (o : RunOptions) (p : Protocol) (c : Certificate) :
    Mute (finish machine o p c) := by
  refine .bind (dump_mute _ c) fun _ => .bind (generate_mute _ p c) fun _ => ?_
  refine .bind (.print (reported?_of_text (by decide))) fun _ => ?_
  refine .bind (.print (reported?_of_head (by decide) _)) fun _ => ?_
  exact .bind (.print (reported?_dumpPath _ o)) fun _ => conclude_mute machine o

theorem certify_ends {o : RunOptions} {fs : FileSystem} {p : Protocol} {c : Certificate} (h : Reaches o fs p c) :
    (certify o).Ends fs (.ok (p, c)) fs := by
  refine .bind (.print _ fs) (.bind (load_ok h.load) (.bind (.print _ fs) ?_))
  exact .bind (estimate_ok p fs) (.bind (normalize_ok h.normalize fs) (.pure (p, c) fs))

/-- A run that comes to a certificate reports its interval, and no other. -/
theorem reports_run {o : RunOptions} {fs : FileSystem} {p : Protocol} {c : Certificate} (h : Reaches o fs p c)
    (machine : Machine) : reports ((run machine o).after ⟨fs, []⟩).2.said =
      [(fixedText Instance.realPlaces c.interval.lower, fixedText Instance.realPlaces c.interval.upper)] := by
  have hi := Certificate.interval_proper h.normalize
  obtain ⟨said, hcertify⟩ := certify_ends h []
  have hmute := certify_mute o ⟨fs, []⟩
  rw [hcertify] at hmute
  have hprint : (print (intervalLine c.interval)).after ⟨fs, said⟩ =
      (.ok (), ⟨fs, said ++ [.line (intervalLine c.interval)]⟩) := rfl
  rw [run_eq_certify, after_bind_ok hcertify, after_bind_ok hprint, finish_mute machine o p c, reports_append]
  rw [show reports said = [] from hmute]
  simp [reports, linesOf, reported?_intervalLine hi.lowerFinite]

/-! ## Past the two files -/

/-- A run that got past the two files: it ended well, or failed only in the check. -/
def PastGeneration (machine : Machine) (o : RunOptions) (fs : FileSystem) : Prop :=
  ∀ e, ((run machine o).after ⟨fs, []⟩).1 = .error e → ∃ artifact reason, e = .verify artifact reason

/-- No stage before the check fails like the check. -/
theorem Prepared.ne_verify {o : RunOptions} {fs fs' : FileSystem} {e : RunFailure} (h : Prepared o fs (.error e) fs')
    (artifact : Path) (reason : String) : e ≠ .verify artifact reason := by
  rintro rfl
  cases h

theorem holds_of_past {o : RunOptions} {fs : FileSystem} {machine : Machine} (h : PastGeneration machine o fs) :
    Holds o fs ((run machine o).after ⟨fs, []⟩).2.files := by
  obtain ⟨r, hp, herror, -⟩ := run_files machine o fs
  cases r with
  | ok u => exact hp.holds
  | error e =>
    obtain ⟨artifact, reason, he⟩ := h e (herror e rfl)
    exact absurd he (hp.ne_verify artifact reason)

/-- The number in a literal of the placeholder's interval is that of the line, sign and all. -/
theorem realLiteral_ends {o : RunOptions} {fs : FileSystem} {p : Protocol} {c : Certificate} (h : Reaches o fs p c) :
    Instance.realLiteral c.interval.lower = "(" ++ fixedText Instance.realPlaces c.interval.lower ++ ")%R" ∧
      Instance.realLiteral c.interval.upper = "(" ++ fixedText Instance.realPlaces c.interval.upper ++ ")%R" := by
  have hi := Placeholder.interval_of_normalizeEstimate h.normalize
  obtain ⟨hlower, hupper⟩ := Placeholder.around_ne_negative_zero p.observed.conclusiveErrorRate o.margin
  rw [← hi] at hlower hupper
  rw [Instance.realLiteral_eq, Instance.realLiteral_eq, Instance.numberText_eq hlower, Instance.numberText_eq hupper]
  exact ⟨rfl, rfl⟩

end Pipeline

namespace CommandLine

open Pipeline

/-- What is shown are all lines, and some of the records. -/
theorem reports_shown (verbosity : Nat) (said : List Said) :
    reports (said.filter (isShown verbosity)) = reports said := by
  unfold reports linesOf
  rw [List.filterMap_filter]
  congr 2
  funext s
  cases s with
  | line text => rfl
  | record r => simp

theorem said_respond {environment : Option String} {args : List String} {o : RunOptions} {verbosity : Nat}
    (h : parse? environment args = some (.run o verbosity)) (machine : Machine) (fs : FileSystem) :
    (respond machine environment args fs).said =
      ((Pipeline.run machine o).after ⟨fs, []⟩).2.said.filter (isShown verbosity) := by
  rw [respond, h]
  show (execute machine fs (.run o verbosity)).said = _
  rw [execute_run]
  obtain ⟨_ | _, w⟩ := (Pipeline.run machine o).after ⟨fs, []⟩ <;> rfl

/-- A run that gets past the two files reports one interval in a line, and the two numbers there
    are, character for character, those in the literals of the instance. The dump records the
    very two doubles that these numbers were printed from. -/
theorem respond_reports (machine : Machine) (environment : Option String) (args : List String) (fs : FileSystem)
    (o : RunOptions) (verbosity : Nat) (h : parse? environment args = some (.run o verbosity))
    (hpast : PastGeneration machine o fs) :
    ∃ a b dump artifact source i,
      reports (respond machine environment args fs).said = [(a, b)] ∧
      (respond machine environment args fs).files.read o.artifact = .ok artifact ∧
      Utf8.strict? artifact = some source ∧
      Instance.literal? source "delta_ph_lower" = some ("(" ++ a ++ ")%R") ∧
      Instance.literal? source "delta_ph_upper" = some ("(" ++ b ++ ")%R") ∧
      (respond machine environment args fs).files.read o.dumpPath = .ok dump ∧ recorded? dump = some i ∧
      a = fixedText Instance.realPlaces i.lower ∧ b = fixedText Instance.realPlaces i.upper ∧
      ∃ p c, Reaches o fs p c ∧ i = c.interval := by
  obtain ⟨p, c, text, hr, hs, hdump, hartifact⟩ := holds_of_past hpast
  obtain ⟨hlower, hupper⟩ := Instance.source_literals hs
  obtain ⟨elower, eupper⟩ := realLiteral_ends hr
  rw [elower] at hlower
  rw [eupper] at hupper
  rw [said_respond h, files_respond h, reports_shown, reports_run hr machine]
  refine ⟨_, _, _, _, text, c.interval, rfl, hartifact, Utf8.strict?_encode text, hlower, hupper, hdump, ?_, rfl, rfl,
    p, c, hr, rfl⟩
  exact Certificate.recorded?_json (Certificate.interval_proper hr.normalize)

/-- The observed rate and the offset cancel. -/
def zeroRun : FileSystem := withConfig emptyFiles oneSignal Placeholder.offset.neg

/-- The bound is a zero then, and so is the lower end: neither has a sign. -/
theorem respond_reports_zero : PastGeneration noProver sampleOptions zeroRun ∧
    ∃ b, reports (respond noProver none sampleArgs zeroRun).said = [("0.0000000000", b)] := by
  have hready : Ready zeroRun := ready_emptyFiles.withConfig oneSignal Placeholder.offset.neg
  obtain ⟨c, hr, hi⟩ := hready.reaches (FileSystem.node_set _ _ _) (by intro x hx; cases hx) (by intro s hs; cases hs)
    (by rw [Binary64.isFinite_neg]; exact Placeholder.offset_isFinite)
  obtain ⟨text, hs⟩ := Instance.source_isOk (p := sample oneSignal Placeholder.offset.neg) (c := c) (n := 1) (x := .half)
    (y := .half) rfl rfl rfl rfl (Certificate.interval_proper hr.normalize)
  have hpast : PastGeneration noProver sampleOptions zeroRun := by
    intro e he
    rw [(hready.run_ok hr hs noProver).1] at he
    cases he
  obtain ⟨a, b, dump, artifact, source, i, hreports, -, -, -, -, -, -, ha, -, p, c', hr', hi'⟩ :=
    respond_reports noProver none sampleArgs zeroRun sampleOptions 0 parse?_sampleArgs hpast
  obtain ⟨-, rfl⟩ := hr.unique hr'
  have hzero : c'.interval.lower = .zero := by
    rw [hi]
    decide +kernel
  have htext : fixedText Instance.realPlaces .zero = "0.0000000000" := by decide +kernel
  rw [ha, hi', hzero, htext] at hreports
  exact ⟨hpast, b, hreports⟩

end CommandLine

end PhaseCert
