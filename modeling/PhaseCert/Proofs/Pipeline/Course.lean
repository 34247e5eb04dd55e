/-
  PhaseCert.Proofs.Pipeline.Course — the course of a run.

  A run first prepares the two files and then has them checked (`run_eq`). Preparing them ends
  in one of five ways, which say how far it came and which files it leaves (`Prepared`); no
  prover has a part in it. Work is spoken of by what it comes to and which files it leaves, and
  not by what it says (`Work.Ends`).
-/
import PhaseCert.Pipeline
import PhaseCert.Proofs.Files.Growth

namespace PhaseCert

namespace Work

variable {α β : Type}

/-- What comes of some work, and what is left of the world. -/
def after (x : Work α) (w : World) : Except RunFailure α × World := x.run.run w

theorem after_bind (x : Work α) (f : α → Work β) (w : World) :
    (x >>= f).after w =
      match x.after w with
      | (.ok a, w') => (f a).after w'
      | (.error e, w') => (.error e, w') := by
  unfold after
  rw [ExceptT.run_bind, StateT.run_bind]
  cases h : x.run.run w with
  | mk r w' => cases r <;> rfl

theorem after_bind_ok {x : Work α} {a : α} {w w' : World} (h : x.after w = (.ok a, w')) (f : α → Work β) :
    (x >>= f).after w = (f a).after w' := by
  rw [after_bind, h]

theorem after_bind_error {x : Work α} {e : RunFailure} {w w' : World} (h : x.after w = (.error e, w')) (f : α → Work β) :
    (x >>= f).after w = (.error e, w') := by
  rw [after_bind, h]

/-- Some work that comes to a result and leaves these files, whatever it says. -/
def Ends (x : Work α) (fs : FileSystem) (r : Except RunFailure α) (fs' : FileSystem) : Prop :=
  ∀ said, ∃ said', x.after ⟨fs, said⟩ = (r, ⟨fs', said'⟩)

namespace Ends

variable {x : Work α} {f : α → Work β} {fs mid fs' : FileSystem} {a : α} {r : Except RunFailure β}

theorem bind (h : x.Ends fs (.ok a) mid) (h' : (f a).Ends mid r fs') : (x >>= f).Ends fs r fs' := by
  intro said
  obtain ⟨said', hx⟩ := h said
  obtain ⟨said'', hf⟩ := h' said'
  exact ⟨said'', (after_bind_ok hx f).trans hf⟩

theorem bind_error {e : RunFailure} (h : x.Ends fs (.error e) fs') : (x >>= f).Ends fs (.error e) fs' := by
  intro said
  obtain ⟨said', hx⟩ := h said
  exact ⟨said', after_bind_error hx f⟩

theorem pure (a : α) (fs : FileSystem) : (Pure.pure a : Work α).Ends fs (.ok a) fs := fun said => ⟨said, rfl⟩

theorem say (s : Said) (fs : FileSystem) : (Work.say s).Ends fs (.ok ()) fs := fun said => ⟨said ++ [s], rfl⟩

theorem print (text : String) (fs : FileSystem) : (Work.print text).Ends fs (.ok ()) fs := say _ fs

theorem log (level : LogLevel) (text : String) (fs : FileSystem) : (Work.log level text).Ends fs (.ok ()) fs := say _ fs

theorem files (fs : FileSystem) : Work.files.Ends fs (.ok fs) fs := fun said => ⟨said, rfl⟩

theorem orFail_ok {ε : Type} {x : Except ε α} (h : x = .ok a) (failure : ε → RunFailure) (fs : FileSystem) :
    (Work.orFail failure x).Ends fs (.ok a) fs := by
  rw [h]
  exact .pure a fs

theorem orFail_error {ε : Type} {x : Except ε α} {e : ε} (h : x = .error e) (failure : ε → RunFailure) (fs : FileSystem) :
    (Work.orFail failure x).Ends fs (.error (failure e)) fs := by
  rw [h]
  exact fun said => ⟨said, rfl⟩

theorem settle_none {ε : Type} (failure : ε → RunFailure) (fs fs' : FileSystem) :
    (Work.settle failure (fs', none)).Ends fs (.ok ()) fs' := fun said => ⟨said, rfl⟩

theorem settle_some {ε : Type} (failure : ε → RunFailure) (e : ε) (fs fs' : FileSystem) :
    (Work.settle failure (fs', some e)).Ends fs (.error (failure e)) fs' := fun said => ⟨said, rfl⟩

end Ends

end Work

namespace RunOptions

def dumpPath (o : RunOptions) : Path := (⟨o.outDir⟩ : Path).join Pipeline.certificateName

def artifact (o : RunOptions) : Path := (⟨o.outDir⟩ : Path).join Pipeline.instanceName

/-- The run of the prover on the instance. -/
def proverRun (o : RunOptions) : Run := ⟨o.prover, o.artifact.properParent?.getD ⟨"."⟩, Pipeline.instanceName⟩

end RunOptions

namespace Pipeline

open Work

/-! ## The stages -/

theorem load_ok {fs : FileSystem} {config : String} {p : Protocol} (h : Protocol.load fs ⟨config⟩ = .ok p) :
    (load config).Ends fs (.ok p) fs := by
  obtain ⟨format, hformat, hp⟩ := Outcome.bind_eq_ok.1 h
  exact .bind (.files fs) (.bind (.orFail_ok hformat _ fs) (.bind (.log _ _ fs) (.bind (.files fs)
    (.bind (.orFail_ok hp _ fs) (.bind (.log _ _ fs) (.pure p fs))))))

theorem load_error {fs : FileSystem} {config : String} {e : LoadError} (h : Protocol.load fs ⟨config⟩ = .error e) :
    (load config).Ends fs (.error (.load config e)) fs := by
  refine .bind (.files fs) ?_
  cases hformat : Protocol.formatOf fs ⟨config⟩ with
  | error e' =>
    rw [Protocol.load, hformat] at h
    cases h
    exact .bind_error (.orFail_error rfl _ fs)
  | ok format =>
    rw [Protocol.load, hformat] at h
    exact .bind (.orFail_ok rfl _ fs) (.bind (.log _ _ fs) (.bind (.files fs) (.bind_error (.orFail_error h _ fs))))

theorem estimate_ok (p : Protocol) (fs : FileSystem) : (estimate p).Ends fs (.ok (Placeholder.estimate p)) fs :=
  .bind (.log _ _ _) (.bind (.log _ _ _) (.bind (.log _ _ _) (.pure _ fs)))

theorem normalize_ok {e : Estimate} {margin : Binary64} {c : Certificate}
    (h : Certificate.normalizeEstimate e margin = .ok c) (fs : FileSystem) : (normalize e margin).Ends fs (.ok c) fs :=
  .bind (.orFail_ok h _ fs) (.bind (.log _ _ fs) (.pure c fs))

theorem normalize_error {e : Estimate} {margin : Binary64} {ce : CertificateError}
    (h : Certificate.normalizeEstimate e margin = .error ce) (fs : FileSystem) :
    (normalize e margin).Ends fs (.error (.normalize ce)) fs := .bind_error (.orFail_error h _ fs)

theorem dump_ok {path : Path} {c : Certificate} {fs fs' : FileSystem} (h : c.writeTo fs path true = (fs', none)) :
    (dump path c).Ends fs (.ok ()) fs' := by
  refine (Ends.files fs).bind ?_
  rw [h]
  exact .bind (.settle_none _ fs fs') (.log _ _ _)

theorem dump_error {path : Path} {c : Certificate} {fs fs' : FileSystem} {f : FileSystem.WriteFailure}
    (h : c.writeTo fs path true = (fs', some f)) : (dump path c).Ends fs (.error (.dump f)) fs' := by
  refine (Ends.files fs).bind ?_
  rw [h]
  exact .bind_error (.settle_some _ f fs fs')

/-- The instance of a run is the one that is generated from its protocol and certificate. -/
theorem generate_ends (path : Path) (p : Protocol) (c : Certificate) (fs : FileSystem) :
    (generate path p c).Ends fs (match (Instance.generate fs path p c).2 with
      | none => .ok ()
      | some e => .error (.generate e)) (Instance.generate fs path p c).1 := by
  unfold Instance.generate
  cases hv : Instance.values p c with
  | error f =>
    have hs : Instance.source p c = .error (.invalid f) := by
      rw [Instance.source, hv]
      rfl
    rw [hs]
    exact .bind_error (.orFail_error hv _ fs)
  | ok v =>
    refine .bind (.orFail_ok hv _ fs) (.bind (.log _ _ fs) ?_)
    cases hr : Instance.render v with
    | error e =>
      have hs : Instance.source p c = .error (.notFinite e) := by
        simp only [Instance.source, hv]
        show (Instance.render v).mapError GenerationError.notFinite = _
        rw [hr]
        rfl
      rw [hs]
      exact .bind_error (.orFail_error rfl _ fs)
    | ok text =>
      have hs : Instance.source p c = .ok text := by
        simp only [Instance.source, hv]
        show (Instance.render v).mapError GenerationError.notFinite = _
        rw [hr]
        rfl
      rw [hs]
      refine .bind (.orFail_ok rfl _ fs) (.bind (.files fs) ?_)
      rcases hw : Instance.writeTo fs path text with ⟨fs', _ | e⟩
      · simp only [hw]
        exact .bind (.settle_none _ fs fs') (.log _ _ fs')
      · simp only [hw]
        exact .bind_error (.settle_some _ e fs fs')

/-! ## Preparing the files -/

/-- A run up to the two files. -/
def prepare (o : RunOptions) : Work Unit := do
  print ("→ Generating proof instance from " ++ o.config)
  let p ← load o.config
  print ("  Loaded: protocol " ++ p.name ++ ", " ++ toString p.states.length ++ " states, "
    ++ toString p.measurement.povm.length ++ " POVM elements")
  let e ← estimate p
  let c ← normalize e o.margin
  print (intervalLine c.interval)
  dump o.dumpPath c
  generate o.artifact p c
  print "✓ Proof instance written"
  print ("  Instance:    " ++ o.artifact.text)
  print ("  Certificate: " ++ o.dumpPath.text)

/-- A run from the two files on. -/
def conclude (machine : Machine) (o : RunOptions) : Work Unit :=
  if o.skipVerify then print "  Verification skipped" else verify machine o.prover o.artifact

theorem run_eq (machine : Machine) (o : RunOptions) : run machine o = prepare o >>= fun _ => conclude machine o := by
  simp only [run, prepare, bind_assoc]
  rfl

/-- The protocol and the certificate that a run from these files comes to. -/
structure Reaches (o : RunOptions) (fs : FileSystem) (p : Protocol) (c : Certificate) : Prop where
  load : Protocol.load fs ⟨o.config⟩ = .ok p
  normalize : Certificate.normalizeEstimate (Placeholder.estimate p) o.margin = .ok c

/-- How preparing the files ends, and with which files: one case for each stage that can fail,
    and one for none that does. -/
inductive Prepared (o : RunOptions) (fs : FileSystem) : Except RunFailure Unit → FileSystem → Prop
  | load {e : LoadError} : Protocol.load fs ⟨o.config⟩ = .error e → Prepared o fs (.error (.load o.config e)) fs
  | normalize {p : Protocol} {e : CertificateError} :
    Protocol.load fs ⟨o.config⟩ = .ok p → Certificate.normalizeEstimate (Placeholder.estimate p) o.margin = .error e →
      Prepared o fs (.error (.normalize e)) fs
  | dump {p : Protocol} {c : Certificate} {f : FileSystem.WriteFailure} {fs' : FileSystem} :
    Reaches o fs p c → c.writeTo fs o.dumpPath true = (fs', some f) → Prepared o fs (.error (.dump f)) fs'
  | generate {p : Protocol} {c : Certificate} {mid fs' : FileSystem} {e : GenerationError} :
    Reaches o fs p c → c.writeTo fs o.dumpPath true = (mid, none) →
      Instance.generate mid o.artifact p c = (fs', some e) → Prepared o fs (.error (.generate e)) fs'
  | written {p : Protocol} {c : Certificate} {mid fs' : FileSystem} :
    Reaches o fs p c → c.writeTo fs o.dumpPath true = (mid, none) →
      Instance.generate mid o.artifact p c = (fs', none) → Prepared o fs (.ok ()) fs'

theorem prepare_prepared (o : RunOptions) (fs : FileSystem) :
    ∃ r fs', Prepared o fs r fs' ∧ (prepare o).Ends fs r fs' := by
  unfold prepare
  cases hload : Protocol.load fs ⟨o.config⟩ with
  | error e => exact ⟨_, _, .load hload, .bind (.print _ fs) (.bind_error (load_error hload))⟩
  | ok p =>
    cases hc : Certificate.normalizeEstimate (Placeholder.estimate p) o.margin with
    | error e =>
      refine ⟨_, _, .normalize hload hc, .bind (.print _ fs) (.bind (load_ok hload) (.bind (.print _ fs) ?_))⟩
      exact .bind (estimate_ok p fs) (.bind_error (normalize_error hc fs))
    | ok c =>
      have hreach : Reaches o fs p c := ⟨hload, hc⟩
      rcases hd : c.writeTo fs o.dumpPath true with ⟨mid, _ | f⟩
      · have hg := generate_ends o.artifact p c mid
        rcases hr : Instance.generate mid o.artifact p c with ⟨fs', _ | e⟩
        · rw [hr] at hg
          refine ⟨_, _, .written hreach hd hr, .bind (.print _ fs) (.bind (load_ok hload) (.bind (.print _ fs) ?_))⟩
          refine .bind (estimate_ok p fs) (.bind (normalize_ok hc fs) (.bind (.print _ fs) (.bind (dump_ok hd) ?_)))
          exact .bind hg (.bind (.print _ fs') (.bind (.print _ fs') (.print _ fs')))
        · rw [hr] at hg
          refine ⟨_, _, .generate hreach hd hr, .bind (.print _ fs) (.bind (load_ok hload) (.bind (.print _ fs) ?_))⟩
          refine .bind (estimate_ok p fs) (.bind (normalize_ok hc fs) (.bind (.print _ fs) (.bind (dump_ok hd) ?_)))
          exact .bind_error hg
      · refine ⟨_, _, .dump hreach hd, .bind (.print _ fs) (.bind (load_ok hload) (.bind (.print _ fs) ?_))⟩
        refine .bind (estimate_ok p fs) (.bind (normalize_ok hc fs) (.bind (.print _ fs) ?_))
        exact .bind_error (dump_error hd)

end Pipeline

end PhaseCert
