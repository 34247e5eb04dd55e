/-
  PhaseCert.Proofs.Pipeline.History — an output directory after many runs.

  Runs into one directory follow each other, with any arguments, and in between anything may
  change but the directory (`Reached`). A run gets as far as it gets (`Progress`): without a
  certificate it leaves the directory alone, with a certificate it writes the dump, and if that
  has a text, the instance as well.

  So after any number of runs the dump is that of the latest run with a certificate, and the
  instance that of the latest run with a text. They give the same bound if those are the same
  run (`reached_files`). They need not be: a run that stops at its parameters has replaced the
  dump already, beside the instance of an earlier run (`stale_instance_stays`).
-/
import PhaseCert.Proofs.Instance.Lookups
import PhaseCert.Proofs.Pipeline.Bound
import PhaseCert.Proofs.Pipeline.Effects
import PhaseCert.Proofs.Protocol.Texts

namespace PhaseCert

/-- The protocol of a text is loaded from a file with that text. -/
theorem Protocol.load_of_read {fs : FileSystem} {path : Path} {format : DocumentFormat} {text : String} {p : Protocol}
    (hf : DocumentFormat.ofPath path = .ok format) (hread : fs.read path = .ok (Utf8.encode text))
    (ht : ofText format text = .ok p) : load fs path = .ok p := by
  have hhas : fs.has path = true := by
    obtain ⟨l, hl, hc⟩ := FileSystem.read_eq_ok.1 hread
    rw [FileSystem.has, FileSystem.find?, hl]
    unfold FileSystem.content? at hc
    split at hc
    · rename_i hn
      simp only [hn, Option.isSome_some]
    · cases hc
  have htext : fs.readText path = .ok text := by
    rw [FileSystem.readText, hread, Outcome.ok_bind, Utf8.strict?_encode]
  rw [load, formatOf, if_pos hhas, hf, Outcome.ok_bind, loadAs, htext]
  exact ht

namespace Pipeline

open Work

/-! ## How far a run gets -/

inductive Progress where
  /-- There is no certificate. -/
  | refused
  /-- There is a certificate, and no text for an instance. -/
  | certified (c : Certificate)
  | rendered (c : Certificate) (text : String)

def Progress.certificate? : Progress → Option Certificate
  | .refused => none
  | .certified c => some c
  | .rendered c _ => some c

/-- How far a run gets that starts from these files. -/
def progress (o : RunOptions) (fs : FileSystem) : Progress :=
  match Protocol.load fs ⟨o.config⟩ with
  | .error _ => .refused
  | .ok p =>
    match Certificate.normalizeEstimate (Placeholder.estimate p) o.margin with
    | .error _ => .refused
    | .ok c =>
      match Instance.source p c with
      | .error _ => .certified c
      | .ok text => .rendered c text

theorem progress_of_reaches {o : RunOptions} {fs : FileSystem} {p : Protocol} {c : Certificate} (h : Reaches o fs p c) :
    progress o fs =
      match Instance.source p c with
      | .error _ => .certified c
      | .ok text => .rendered c text := by
  simp only [progress, h.load, h.normalize]

/-- The writing of a file failed. -/
inductive WriteError : RunFailure → Prop
  | dump (f : FileSystem.WriteFailure) : WriteError (.dump f)
  | generate (f : FileSystem.WriteFailure) : WriteError (.generate (.unwritable f))

/-- A run leaves the files that were prepared. It fails as the preparing fails, and if nothing is
    to be checked, only then. -/
theorem run_files (machine : Machine) (o : RunOptions) (fs : FileSystem) :
    ∃ r, Prepared o fs r ((run machine o).after ⟨fs, []⟩).2.files ∧
      (∀ e, r = .error e → ((run machine o).after ⟨fs, []⟩).1 = .error e) ∧
        (r = .ok () → o.skipVerify = true → ((run machine o).after ⟨fs, []⟩).1 = .ok ()) := by
  obtain ⟨r, fs', hp, hends⟩ := prepare_prepared o fs
  refine ⟨r, ?_⟩
  cases r with
  | error e =>
    obtain ⟨said, hafter⟩ := run_unprepared hends
    rw [hafter machine]
    exact ⟨hp, fun e' he => he, nofun⟩
  | ok u =>
    obtain ⟨said, hafter⟩ := run_prepared hends
    obtain ⟨r', hconclude, hok⟩ := conclude_ends hp.holds.isFile machine
    obtain ⟨said', he⟩ := hconclude said
    rw [hafter machine, he]
    exact ⟨hp, nofun, fun _ hskip => hok.2 (.inl hskip)⟩

/-! ## What is left in the directory -/

def dumpPlace (d : Location) : Location := d ++ [certificateName]

def artifactPlace (d : Location) : Location := d ++ [instanceName]

theorem places_differ (d : Location) : dumpPlace d ≠ artifactPlace d := by
  intro h
  rw [dumpPlace, artifactPlace, List.append_cancel_left_eq] at h
  exact absurd h (by decide)

/-- What a run that gets this far leaves: the dump of its certificate and the instance of its
    text, and what there was where it has none. -/
inductive Leaves (d : Location) (fs fs' : FileSystem) : Progress → Prop
  | refused : fs' = fs → Leaves d fs fs' .refused
  | certified {c : Certificate} :
    fs'.content? (dumpPlace d) = some (Utf8.encode (c.json true)) →
      fs'.content? (artifactPlace d) = fs.content? (artifactPlace d) → Leaves d fs fs' (.certified c)
  | rendered {c : Certificate} {text : String} :
    fs'.content? (dumpPlace d) = some (Utf8.encode (c.json true)) →
      fs'.content? (artifactPlace d) = some (Utf8.encode text) → Leaves d fs fs' (.rendered c text)

/-- A run that writes what it has to write leaves what its progress says. -/
theorem leaves_of_prepared {o : RunOptions} {fs fs' : FileSystem} {d : Location} {r : Except RunFailure Unit}
    (h : Prepared o fs r fs') (hd : fs'.Leads ⟨o.outDir⟩ d) (hw : ∀ e, r = .error e → ¬WriteError e) :
    Leaves d fs fs' (progress o fs) := by
  cases h with
  | load hload =>
    have hg : progress o fs = .refused := by simp only [progress, hload]
    rw [hg]
    exact .refused rfl
  | normalize hload hn =>
    have hg : progress o fs = .refused := by simp only [progress, hload, hn]
    rw [hg]
    exact .refused rfl
  | dump hr hdump => exact absurd (.dump _) (hw _ rfl)
  | generate hr hdump hgen =>
    rename_i p c mid e
    cases hs : Instance.source p c with
    | error e' =>
      have hmid : mid = fs' := by
        rw [Instance.generate, hs, Prod.mk.injEq] at hgen
        exact hgen.1
      subst hmid
      rw [progress_of_reaches hr, hs]
      refine .certified (FileSystem.content?_join certificateName_isName hd (FileSystem.writeWithin_read hdump)) ?_
      refine (dump_within hdump).content? fun hl => ?_
      exact places_differ d (FileSystem.locate_join certificateName_isName hd hl).symm
    | ok text =>
      rw [generate_eq hs, Prod.mk.injEq, Option.map_eq_some_iff] at hgen
      obtain ⟨-, f, -, rfl⟩ := hgen
      exact absurd (.generate f) (hw _ rfl)
  | written hr hdump hgen =>
    obtain ⟨p, c, text, hr', hs, hdumped, hwritten⟩ := holds_of_written hr hdump hgen
    rw [progress_of_reaches hr', hs]
    exact .rendered (FileSystem.content?_join certificateName_isName hd hdumped)
      (FileSystem.content?_join instanceName_isName hd hwritten)

/-- The certificate and the text of a run's progress are the program's. -/
structure Progress.Genuine (g : Progress) : Prop where
  proper : ∀ c, g.certificate? = some c → c.interval.Proper
  source : ∀ c text, g = .rendered c text → ∃ p, Instance.source p c = .ok text

theorem genuine_refused : Progress.refused.Genuine where
  proper c hc := by cases hc
  source c text hg := by cases hg

theorem progress_genuine (o : RunOptions) (fs : FileSystem) : (progress o fs).Genuine := by
  unfold progress
  split
  · exact genuine_refused
  split
  · exact genuine_refused
  rename_i p _ _ c hn
  have hi : c.interval.Proper := Certificate.interval_proper hn
  split
  · refine ⟨fun c' hc => ?_, fun c' text' hg => ?_⟩
    · cases hc
      exact hi
    · cases hg
  · rename_i text hs
    refine ⟨fun c' hc => ?_, fun c' text' hg => ?_⟩
    · cases hc
      exact hi
    · cases hg
      exact ⟨p, hs⟩

end Pipeline

namespace CommandLine

open Pipeline Work

/-! ## Histories -/

/-- The files after runs into a directory, and how far each run got, the latest first. The
    directory is empty at first, nobody else writes there, and no run fails to write a file. -/
inductive Reached (d : Location) : List Progress → FileSystem → Prop
  | start {fs : FileSystem} : (∀ name, fs.node (d ++ [name]) = none) → Reached d [] fs
  | elsewhere {history : List Progress} {fs fs' : FileSystem} :
    Reached d history fs → (∀ l, d <+: l → fs'.node l = fs.node l) → Reached d history fs'
  | run {history : List Progress} {fs : FileSystem} (machine : Machine) {environment : Option String} {args : List String}
    {o : RunOptions} {verbosity : Nat} :
    Reached d history fs → parse? environment args = some (.run o verbosity) →
      (∀ e, ((Pipeline.run machine o).after ⟨fs, []⟩).1 = .error e → ¬WriteError e) →
        (respond machine environment args fs).files.Leads ⟨o.outDir⟩ d →
          Reached d (progress o fs :: history) (respond machine environment args fs).files

/-- The certificate of the latest run that had one. -/
def lastCertificate? (history : List Progress) : Option Certificate := history.findSome? Progress.certificate?

/-- The latest run that had a text. -/
def lastRendered? : List Progress → Option (Certificate × String)
  | [] => none
  | .rendered c text :: _ => some (c, text)
  | _ :: history => lastRendered? history

/-- The latest run with a certificate had a text as well. -/
def Settled : List Progress → Prop
  | [] => True
  | .refused :: history => Settled history
  | .certified _ :: _ => False
  | .rendered _ _ :: _ => True

theorem Settled.last {history : List Progress} (h : Settled history) {c : Certificate} {g : Certificate × String}
    (hc : lastCertificate? history = some c) (hg : lastRendered? history = some g) : g.1 = c := by
  induction history with
  | nil => cases hc
  | cons g' history ih =>
    cases g' with
    | refused => exact ih h hc hg
    | certified c' => exact h.elim
    | rendered c' text =>
      cases hc
      cases hg
      rfl

/-- What every history has to do with the files. -/
structure Accounts (d : Location) (history : List Progress) (fs : FileSystem) : Prop where
  genuine : ∀ g ∈ history, g.Genuine
  dump : fs.content? (dumpPlace d) = (lastCertificate? history).map fun c => Utf8.encode (c.json true)
  artifact : fs.content? (artifactPlace d) = (lastRendered? history).map fun g => Utf8.encode g.2

theorem files_respond {environment : Option String} {args : List String} {o : RunOptions} {verbosity : Nat}
    (h : parse? environment args = some (.run o verbosity)) (machine : Machine) (fs : FileSystem) :
    (respond machine environment args fs).files = ((Pipeline.run machine o).after ⟨fs, []⟩).2.files := by
  rw [respond, h]
  show (execute machine fs (.run o verbosity)).files = _
  rw [execute_run, files_ofResult]

namespace Accounts

variable {d : Location} {history : List Progress} {fs fs' : FileSystem}

theorem start (h : ∀ name, fs.node (d ++ [name]) = none) : Accounts d [] fs where
  genuine := List.forall_mem_nil _
  dump := by
    rw [FileSystem.content?, dumpPlace, h]
    rfl
  artifact := by
    rw [FileSystem.content?, artifactPlace, h]
    rfl

variable (h : Accounts d history fs)

include h

theorem elsewhere (hsame : ∀ l, d <+: l → fs'.node l = fs.node l) : Accounts d history fs' where
  genuine := h.genuine
  dump := by
    rw [← h.dump, FileSystem.content?, FileSystem.content?, hsame (dumpPlace d) (List.prefix_append _ _)]
  artifact := by
    rw [← h.artifact, FileSystem.content?, FileSystem.content?, hsame (artifactPlace d) (List.prefix_append _ _)]

theorem step {g : Progress} (hg : g.Genuine) (hl : Leaves d fs fs' g) : Accounts d (g :: history) fs' := by
  have hgenuine : ∀ g' ∈ g :: history, g'.Genuine := List.forall_mem_cons.2 ⟨hg, h.genuine⟩
  cases hl with
  | refused he =>
    subst he
    exact ⟨hgenuine, h.dump, h.artifact⟩
  | certified hdump hartifact => exact ⟨hgenuine, hdump, hartifact.trans h.artifact⟩
  | rendered hdump hartifact => exact ⟨hgenuine, hdump, hartifact⟩

end Accounts

theorem Reached.accounts {d : Location} {history : List Progress} {fs : FileSystem} (h : Reached d history fs) :
    Accounts d history fs := by
  induction h with
  | start hempty => exact .start hempty
  | elsewhere h hsame ih => exact ih.elsewhere hsame
  | run machine h hparse hwrite hleads ih =>
    rename_i history fs environment args o verbosity
    obtain ⟨r, hp, hr, -⟩ := run_files machine o fs
    rw [files_respond hparse] at hleads ⊢
    exact ih.step (progress_genuine o fs) (leaves_of_prepared hp hleads fun e he => hwrite e (hr e he))

theorem mem_of_lastCertificate? {history : List Progress} {c : Certificate} (h : lastCertificate? history = some c) :
    ∃ g ∈ history, g.certificate? = some c := List.exists_of_findSome?_eq_some h

theorem mem_of_lastRendered? {history : List Progress} {c : Certificate} {text : String}
    (h : lastRendered? history = some (c, text)) : .rendered c text ∈ history := by
  induction history with
  | nil => cases h
  | cons g history ih =>
    cases g with
    | rendered c' text' =>
      rw [lastRendered?, Option.some.injEq, Prod.mk.injEq] at h
      obtain ⟨rfl, rfl⟩ := h
      exact List.mem_cons_self
    | _ => exact List.mem_cons_of_mem _ (ih h)

/-- The two files give the same bound if the certificates that they are from look alike. -/
theorem Accounts.sameBound_iff {d : Location} {history : List Progress} {fs : FileSystem} (h : Accounts d history fs)
    {dump artifact : Bytes} (hdump : fs.content? (dumpPlace d) = some dump)
    (hartifact : fs.content? (artifactPlace d) = some artifact) :
    ∃ c g, lastCertificate? history = some c ∧ lastRendered? history = some g ∧
      (SameBound dump artifact ↔ g.1.interval.Alike c.interval) := by
  rw [h.dump, Option.map_eq_some_iff] at hdump
  rw [h.artifact, Option.map_eq_some_iff] at hartifact
  obtain ⟨c, hc, rfl⟩ := hdump
  obtain ⟨⟨c', text⟩, hg, rfl⟩ := hartifact
  obtain ⟨g, hmem, hgc⟩ := mem_of_lastCertificate? hc
  obtain ⟨p, hs⟩ := (h.genuine _ (mem_of_lastRendered? hg)).source c' text rfl
  exact ⟨c, (c', text), hc, hg, PhaseCert.sameBound_iff ((h.genuine g hmem).proper c hgc) hs⟩

/-- After any runs into a directory the dump is that of the latest run with a certificate and
    the instance that of the latest run with a text. The two give the same bound exactly if the
    intervals of these two runs are written alike, and so if they are the same run. -/
theorem reached_files (d : Location) (history : List Progress) (fs : FileSystem) (h : Reached d history fs) :
    fs.content? (dumpPlace d) = (lastCertificate? history).map (fun c => Utf8.encode (c.json true)) ∧
      fs.content? (artifactPlace d) = (lastRendered? history).map (fun g => Utf8.encode g.2) ∧
        ∀ dump artifact, fs.content? (dumpPlace d) = some dump → fs.content? (artifactPlace d) = some artifact →
          (SameBound dump artifact ↔ ∃ c g, lastCertificate? history = some c ∧ lastRendered? history = some g ∧
            g.1.interval.Alike c.interval) ∧
              (Settled history → SameBound dump artifact) := by
  have haccounts := h.accounts
  refine ⟨haccounts.dump, haccounts.artifact, fun dump artifact hdump hartifact => ?_⟩
  obtain ⟨c, g, hc, hg, hiff⟩ := haccounts.sameBound_iff hdump hartifact
  constructor
  · constructor
    · intro hsame
      exact ⟨c, g, hc, hg, hiff.1 hsame⟩
    · rintro ⟨c', g', hc', hg', halike⟩
      rw [hc, Option.some.injEq] at hc'
      rw [hg, Option.some.injEq] at hg'
      subst hc' hg'
      exact hiff.2 halike
  · intro hsettled
    rw [hiff, hsettled.last hc hg]
    exact ⟨rfl, rfl⟩

/-! ## A directory with two runs in it -/

/-- A blank protocol with a number of signals, or something else in its place, and with an
    observed error rate. -/
def sample (n : ParamValue) (rate : Binary64) : Protocol :=
  { Instance.blankProtocol with parameters := .ofList [("N", n)], observed := ⟨.zero, rate, .zero⟩ }

def sampleText (n : ParamValue) (rate : Binary64) : String :=
  String.ofList ((sample n rate).written.flow ⟨':', 0, 1, 1, 0⟩ ++ ['\n'])

theorem ofText_sampleText {n : ParamValue} {rate : Binary64} (hn : n.IsFinite) (hc : n.Clean) (hr : rate.isFinite = true) :
    Protocol.ofText .yaml (sampleText n rate) = .ok (sample n rate) := by
  have hentries : ∀ e ∈ (sample n rate).parameters.entries, e = ("N", n) := by
    intro e he
    exact List.mem_singleton.1 (KeyMap.mem_of_mem_ofList he)
  have hw : (sample n rate).WellFormed := by
    refine ⟨?_, List.forall_mem_nil _, List.forall_mem_nil _, ⟨rfl, rfl, rfl⟩, ⟨rfl, rfl⟩, rfl, ⟨rfl, hr, rfl⟩, rfl⟩
    intro e he
    rw [hentries e he]
    exact hn
  have hblank : PhaseCert.Clean "" := by decide
  have hclean : (sample n rate).Clean := by
    refine ⟨hblank, hblank, ?_, ?_, List.forall_mem_nil _, List.forall_mem_nil _, ⟨hblank, hblank, hblank, hblank⟩, hblank,
      hblank, ⟨hblank, hblank, hblank, hblank⟩⟩
    · intro e he
      have hkey : CleanKey "N" := by decide
      rw [hentries e he]
      exact hkey
    · intro e he
      rw [hentries e he]
      exact hc
  exact Protocol.ofText_of_read? hw (Protocol.read?_yaml hw hclean rfl (by decide) (by decide))

def configPlace : Location := ["protocol.yaml"]

def outPlace : Location := ["out"]

def sampleArgs : List String := ["-o", "out", "--skip-verify", "protocol.yaml"]

def sampleOptions : RunOptions := (⟨some "protocol.yaml", some "out", none, none, true, 0⟩ : Arguments).toOptions none

theorem parse?_sampleArgs : parse? none sampleArgs = some (.run sampleOptions 0) := by rfl

theorem certificateName_mem : certificateName ∈ [certificateName, instanceName] := List.mem_cons_self

theorem instanceName_mem : instanceName ∈ [certificateName, instanceName] := List.mem_cons_of_mem _ List.mem_cons_self

/-- Files among which these arguments can be run. -/
structure Ready (fs : FileSystem) : Prop where
  working : fs.working = []
  root : fs.node [] = some .directory
  out : fs.node outPlace = some .directory
  free : ∀ name ∈ [certificateName, instanceName], fs.node (outPlace ++ [name]) ≠ some .directory

namespace Ready

variable {fs : FileSystem} (h : Ready fs)

include h

theorem set {l : Location} (hroot : l ≠ []) (hout : l ≠ outPlace) (content : Bytes) : Ready (fs.set l (.file content)) where
  working := h.working
  root := by rw [FileSystem.node_set_of_ne hroot.symm, h.root]
  out := by rw [FileSystem.node_set_of_ne hout.symm, h.out]
  free name hname := by
    by_cases he : outPlace ++ [name] = l
    · rw [he, FileSystem.node_set]
      exact nofun
    · rw [FileSystem.node_set_of_ne he]
      exact h.free name hname

theorem start (p : Path) : fs.start p = [] := by
  rw [FileSystem.start, h.working, ite_self]

theorem walk_out : fs.walk [] ["out"] = .ok outPlace := by
  rw [FileSystem.walk_single]
  exact FileSystem.step_down h.root (by decide) (Option.isSome_of_eq_some h.out)

theorem leads : fs.Leads ⟨"out"⟩ outPlace := by
  have hpieces : (⟨"out"⟩ : Path).pieces = ["out"] := by decide
  rw [FileSystem.Leads, h.start, hpieces, h.walk_out]

/-- The directory is there already. -/
theorem makeDirectories : fs.makeDirectories ⟨"out"⟩ = (fs, none) := by
  have hsplit : FileSystem.splitLast (⟨"out"⟩ : Path).pieces = ([], "out", false) := by decide
  have hwalk : fs.walk (fs.start ⟨"out"⟩) [] = .ok [] := by
    rw [h.start]
    rfl
  have hslot : fs.slot ⟨"out"⟩ = .ok (.name outPlace false) :=
    FileSystem.slot_name (by decide) hsplit hwalk h.root (by decide)
  have hmake : fs.makeDirectory ⟨"out"⟩ = .error .exists := by
    rw [FileSystem.makeDirectory, hslot, Outcome.ok_bind]
    simp only [h.out, Option.isSome_some, if_true]
  have hlocate : fs.locate ⟨"out"⟩ = .ok outPlace := h.leads
  have hdirectory : fs.isDirectory ⟨"out"⟩ = true := by
    simp only [FileSystem.isDirectory, FileSystem.find?, hlocate, h.out, decide_true]
  rw [FileSystem.makeDirectories, FileSystem.makeMissing, if_neg (by decide)]
  simp only [hmake, hdirectory, if_true]

/-- Either file can be written, and again after that. -/
theorem writeWithin {name : String} (hname : name ∈ [certificateName, instanceName]) (content : Bytes) :
    ∃ fs', fs.writeWithin ((⟨"out"⟩ : Path).join name) content = (fs', none) ∧ Ready fs' := by
  have hpath : FileSystem.check ((⟨"out"⟩ : Path).join name) = .ok () ∧
      FileSystem.splitLast ((⟨"out"⟩ : Path).join name).pieces = (["out"], name, false) ∧ FileSystem.Proper name ∧
        ((⟨"out"⟩ : Path).join name).properParent? = some ⟨"out"⟩ := by
    revert name
    decide
  obtain ⟨hcheck, hsplit, hproper, hparent⟩ := hpath
  have hslot := FileSystem.slot_name hcheck hsplit (by rw [h.start]; exact h.walk_out) h.out hproper
  refine ⟨fs.set (outPlace ++ [name]) (.file content), ?_, h.set (by simp) (by simp) content⟩
  simp only [FileSystem.writeWithin, hparent, h.makeDirectories, Option.map_none,
    FileSystem.write_slot hslot (h.free name hname)]

theorem read_config {content : Bytes} (hc : fs.node configPlace = some (.file content)) :
    fs.read ⟨"protocol.yaml"⟩ = .ok content := by
  have hpieces : (⟨"protocol.yaml"⟩ : Path).pieces = ["protocol.yaml"] := by decide
  have hlocate : fs.locate ⟨"protocol.yaml"⟩ = .ok configPlace := by
    have hcheck : FileSystem.check ⟨"protocol.yaml"⟩ = .ok () := by decide
    rw [FileSystem.locate, hcheck, Outcome.ok_bind, h.start, hpieces, FileSystem.walk_single]
    exact FileSystem.step_down h.root (by decide) (Option.isSome_of_eq_some hc)
  rw [FileSystem.read, hlocate, Outcome.ok_bind, hc]

/-- The sample is loaded and has a certificate. -/
theorem reaches {n : ParamValue} {rate : Binary64}
    (hc : fs.node configPlace = some (.file (Utf8.encode (sampleText n rate)))) (hn : n.IsFinite) (hclean : n.Clean)
    (hr : rate.isFinite = true) :
    ∃ c, Reaches sampleOptions fs (sample n rate) c ∧
      c.interval = .around (Placeholder.bound rate) Certificate.defaultMargin := by
  have hload : Protocol.load fs ⟨"protocol.yaml"⟩ = .ok (sample n rate) :=
    Protocol.load_of_read (by decide) (h.read_config hc) (ofText_sampleText hn hclean hr)
  have hmargin : sampleOptions.margin = Certificate.defaultMargin := by
    simp only [sampleOptions, Arguments.toOptions, Option.getD_none]
  obtain ⟨c, hcert, hi⟩ := Certificate.normalizeEstimate_isOk (e := Placeholder.estimate (sample n rate))
    (m := Certificate.defaultMargin) (Placeholder.bound_isFinite _) (Placeholder.bound_between _).1
    (Binary64.le_trans (Placeholder.bound_between _).2 (Binary64.le_of_lt Binary64.half_lt_one))
    (Certificate.validMargin_of_le Certificate.zero_le_defaultMargin)
  exact ⟨c, ⟨hload, by rw [hmargin, Certificate.normalizeEstimate, hcert]⟩, hi⟩

/-- A run with a text writes both files and ends well, and the directory can be run into again. -/
theorem run_ok {p : Protocol} {c : Certificate} {text : String} (hr : Reaches sampleOptions fs p c)
    (hs : Instance.source p c = .ok text) (machine : Machine) :
    ((Pipeline.run machine sampleOptions).after ⟨fs, []⟩).1 = .ok () ∧
      Ready ((Pipeline.run machine sampleOptions).after ⟨fs, []⟩).2.files := by
  obtain ⟨mid, hdump, hmid⟩ := h.writeWithin certificateName_mem (Utf8.encode (c.json true))
  have hdump : c.writeTo fs sampleOptions.dumpPath true = (mid, none) := hdump
  obtain ⟨files, hwrite, hready⟩ := hmid.writeWithin instanceName_mem (Utf8.encode text)
  have hartifact : Instance.generate mid sampleOptions.artifact p c = (files, none) := by
    have hwrite : mid.writeWithin sampleOptions.artifact (Utf8.encode text) = (files, none) := hwrite
    rw [generate_eq hs, hwrite]
    rfl
  obtain ⟨r, hp, -, hok⟩ := run_files machine sampleOptions fs
  obtain ⟨hr', hfiles⟩ := hp.of_written hr hdump hartifact
  rw [hfiles]
  exact ⟨hok hr' rfl, hready⟩

/-- A run writes its files, and the directory can be run into again. -/
theorem run {p : Protocol} {c : Certificate} (hr : Reaches sampleOptions fs p c) (machine : Machine)
    (hs : (∃ text, Instance.source p c = .ok text) ∨ ∃ fault, Instance.source p c = .error (.invalid fault)) :
    (∀ e, ((Pipeline.run machine sampleOptions).after ⟨fs, []⟩).1 = .error e → ¬WriteError e) ∧
      Ready ((Pipeline.run machine sampleOptions).after ⟨fs, []⟩).2.files := by
  rcases hs with ⟨text, hs⟩ | ⟨fault, hs⟩
  · obtain ⟨hok, hready⟩ := h.run_ok hr hs machine
    rw [hok]
    exact ⟨nofun, hready⟩
  · obtain ⟨mid, hdump, hmid⟩ := h.writeWithin certificateName_mem (Utf8.encode (c.json true))
    have hdump : c.writeTo fs sampleOptions.dumpPath true = (mid, none) := hdump
    obtain ⟨r, hp, herror, -⟩ := run_files machine sampleOptions fs
    generalize (Pipeline.run machine sampleOptions).after ⟨fs, []⟩ = ended at hp herror ⊢
    rcases hp.of_error hr hs with ⟨f, hd, -⟩ | ⟨hd, hr'⟩
    · rw [hdump, Prod.mk.injEq] at hd
      cases hd.2
    · rw [hdump, Prod.mk.injEq] at hd
      rw [herror _ hr', ← hd.1]
      refine ⟨fun e he hw => ?_, hmid⟩
      cases he
      cases hw

end Ready

theorem Reached.run_sample {history : List Progress} {fs : FileSystem} (h : Reached outPlace history fs) (hready : Ready fs)
    {p : Protocol} {c : Certificate} (hr : Reaches sampleOptions fs p c) (machine : Machine)
    (hs : (∃ text, Instance.source p c = .ok text) ∨ ∃ fault, Instance.source p c = .error (.invalid fault)) :
    Reached outPlace (progress sampleOptions fs :: history) (respond machine none sampleArgs fs).files ∧
      Ready (respond machine none sampleArgs fs).files := by
  obtain ⟨hclean, hafter⟩ := hready.run hr machine hs
  rw [← files_respond parse?_sampleArgs] at hafter
  exact ⟨.run machine h parse?_sampleArgs hclean hafter.leads, hafter⟩

/-- An output directory with nothing in it. -/
def emptyFiles : FileSystem := ⟨fun l => if l = [] ∨ l = outPlace then some .directory else none, []⟩

/-- These files with a configuration. -/
def withConfig (fs : FileSystem) (n : ParamValue) (rate : Binary64) : FileSystem :=
  fs.set configPlace (.file (Utf8.encode (sampleText n rate)))

theorem Ready.withConfig {fs : FileSystem} (h : Ready fs) (n : ParamValue) (rate : Binary64) :
    Ready (CommandLine.withConfig fs n rate) := h.set (by decide) (by decide) _

theorem Reached.withConfig {history : List Progress} {fs : FileSystem} (h : Reached outPlace history fs) (n : ParamValue)
    (rate : Binary64) : Reached outPlace history (CommandLine.withConfig fs n rate) := by
  refine .elsewhere h fun l hl => FileSystem.node_set_of_ne ?_
  rintro rfl
  exact absurd hl (by decide)

theorem ready_emptyFiles : Ready emptyFiles := by
  refine ⟨rfl, rfl, rfl, ?_⟩
  decide

theorem reached_emptyFiles : Reached outPlace [] emptyFiles := by
  refine .start fun name => ?_
  simp [emptyFiles, outPlace]

def noProver : Machine := fun _ _ => .notFound

theorem one_signed : -9223372036854775808 ≤ (1 : Int) ∧ (1 : Int) < 9223372036854775808 := by decide

def oneSignal : ParamValue := .integer ⟨1, one_signed⟩

/-- A run with one signal and an error rate of 0. -/
def firstRun : Outcome := respond noProver none sampleArgs (withConfig emptyFiles oneSignal .zero)

/-- Another run, with no number of signals and an error rate of 1/2. -/
def secondRun : Outcome := respond noProver none sampleArgs (withConfig firstRun.files (.bool true) .half)

theorem reached_firstRun : ∃ c text, Reached outPlace [.rendered c text] firstRun.files ∧ Ready firstRun.files ∧
    (∃ p, Instance.source p c = .ok text) ∧
      c.interval = .around (Placeholder.bound .zero) Certificate.defaultMargin := by
  have hready := ready_emptyFiles.withConfig oneSignal .zero
  obtain ⟨c, hr, hi⟩ := hready.reaches (FileSystem.node_set _ _ _) (by intro x hx; cases hx) (by intro s hs; cases hs) rfl
  obtain ⟨text, hs⟩ := Instance.source_isOk (p := sample oneSignal .zero) (c := c) (n := 1) (x := .half)
    (y := .half) rfl rfl rfl rfl (Certificate.interval_proper hr.normalize)
  obtain ⟨hreached, hready'⟩ := (reached_emptyFiles.withConfig _ _).run_sample hready hr noProver (.inl ⟨text, hs⟩)
  rw [progress_of_reaches hr, hs] at hreached
  exact ⟨c, text, hreached, hready', ⟨_, hs⟩, hi⟩

theorem reached_files_once : ∃ c text, Reached outPlace [.rendered c text] firstRun.files ∧
    firstRun.files.content? (dumpPlace outPlace) = some (Utf8.encode (c.json true)) ∧
      firstRun.files.content? (artifactPlace outPlace) = some (Utf8.encode text) ∧
        SameBound (Utf8.encode (c.json true)) (Utf8.encode text) := by
  obtain ⟨c, text, hreached, -⟩ := reached_firstRun
  obtain ⟨hdump, hartifact, hsame⟩ := reached_files outPlace [.rendered c text] firstRun.files hreached
  exact ⟨c, text, hreached, hdump, hartifact, (hsame _ _ hdump hartifact).2 trivial⟩

theorem bounds_differ : ¬(Interval.around (Placeholder.bound .zero) Certificate.defaultMargin).Alike
    (.around (Placeholder.bound .half) Certificate.defaultMargin) := by
  intro h
  have hlower := h.1
  revert hlower
  decide +kernel

/-- The configuration is changed after a run, and the next run stops at the number of signals:
    the dump is of the second run and the instance of the first. -/
theorem stale_instance_stays : ∃ history dump artifact, Reached outPlace history secondRun.files ∧
    secondRun.files.content? (dumpPlace outPlace) = some dump ∧
      secondRun.files.content? (artifactPlace outPlace) = some artifact ∧ ¬SameBound dump artifact := by
  obtain ⟨c, text, hfirst, hready, ⟨p, hs⟩, hi⟩ := reached_firstRun
  have hready' := hready.withConfig (.bool true) .half
  obtain ⟨c', hr, hi'⟩ := hready'.reaches (FileSystem.node_set _ _ _) (by intro x hx; cases hx) (by intro s hs; cases hs) rfl
  obtain ⟨fault, hfault⟩ : ∃ fault, Instance.source (sample (.bool true) .half) c' = .error (.invalid fault) :=
    ⟨_, Instance.source_of_fault (.count rfl) c'⟩
  obtain ⟨hreached, -⟩ := (hfirst.withConfig _ _).run_sample hready' hr noProver (.inr ⟨fault, hfault⟩)
  rw [progress_of_reaches hr, hfault] at hreached
  have haccounts := hreached.accounts
  have hdump : secondRun.files.content? (dumpPlace outPlace) = some (Utf8.encode (c'.json true)) := haccounts.dump
  have hartifact : secondRun.files.content? (artifactPlace outPlace) = some (Utf8.encode text) := haccounts.artifact
  refine ⟨_, _, _, hreached, hdump, hartifact, ?_⟩
  rw [PhaseCert.sameBound_iff (Certificate.interval_proper hr.normalize) hs, hi, hi']
  exact bounds_differ

end CommandLine

end PhaseCert
