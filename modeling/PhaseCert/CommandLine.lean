/-
  PhaseCert.CommandLine — the arguments of the program, and what it prints for them.

  The arguments are read from left to right: options, the values of options, and at most one
  configuration. An option that takes a value may be given once, with the value attached or
  as the next argument; a next argument that looks like an option is none. After two dashes
  alone no argument is an option.
-/
import PhaseCert.Pipeline

namespace PhaseCert

inductive ValueOption where
  | outDir
  | margin
  | prover
  deriving DecidableEq

/-- What the arguments so far say. -/
structure Arguments where
  config : Option String
  outDir : Option String
  margin : Option Binary64
  prover : Option String
  skipVerify : Bool
  verbosity : Nat

inductive CommandLine where
  | run (options : RunOptions) (verbosity : Nat)
  | version
  | help

namespace Arguments

def none : Arguments := ⟨.none, .none, .none, .none, false, 0⟩

def setConfig? (a : Arguments) (value : String) : Option Arguments :=
  if a.config.isSome then .none else some { a with config := some value }

/-- Takes the value of an option that has none yet; a margin has to be a number. -/
def set? (a : Arguments) (o : ValueOption) (value : String) : Option Arguments :=
  match o with
  | .outDir => if a.outDir.isSome then .none else some { a with outDir := some value }
  | .prover => if a.prover.isSome then .none else some { a with prover := some value }
  | .margin =>
    if a.margin.isSome then .none
    else (Numeral.real? value).map fun x => { a with margin := some x }

def setSkipVerify? (a : Arguments) : Option Arguments :=
  if a.skipVerify then .none else some { a with skipVerify := true }

def defaultConfig : String := "configs/instances/B92_protocol.toml"

def defaultOutDir : String := "coq/Generated"

/-- The options of a run. Without a configuration the one from the environment counts, even
    if it is empty. -/
def toOptions (a : Arguments) (environment : Option String) : RunOptions where
  config := a.config.getD (environment.getD defaultConfig)
  outDir := a.outDir.getD defaultOutDir
  margin := a.margin.getD Certificate.defaultMargin
  prover := a.prover.getD Verification.defaultProver
  skipVerify := a.skipVerify

end Arguments

namespace CommandLine

/-- Digits, with at most one point and at most one exponent mark after the first of them, and
    not with the mark at the end. -/
def looksLikeNumber (seenPoint seenMark first : Bool) : List Char → Bool
  | [] => true
  | c :: cs =>
    if c.isDigit then looksLikeNumber seenPoint seenMark false cs
    else if c = '.' then !seenPoint && !seenMark && !first && looksLikeNumber true seenMark false cs
    else if c = 'e' ∨ c = 'E' then
      !seenMark && !first && !cs.isEmpty && looksLikeNumber seenPoint true false cs
    else false

/-- May an argument be the value of the option before it? -/
def isValue (o : ValueOption) (arg : String) : Bool :=
  match arg.toList with
  | '-' :: c :: cs => o = .margin && looksLikeNumber false false true (c :: cs)
  | _ => true

/-- What an argument that is made of options leads to. -/
inductive Effect where
  | goOn (a : Arguments)
  | wants (a : Arguments) (o : ValueOption)
  | stop (c : CommandLine)
  | refuse

def Effect.ofArguments : Option Arguments → Effect
  | some a => .goOn a
  | none => .refuse

def shortOption? : Char → Option ValueOption
  | 'o' => some .outDir
  | 'm' => some .margin
  | 'p' => some .prover
  | _ => none

def longOption? : String → Option ValueOption
  | "out-dir" => some .outDir
  | "margin" => some .margin
  | "prover" => some .prover
  | _ => none

/-- What is attached to a short option, without an equals sign in front. -/
def attached : List Char → String
  | '=' :: cs => String.ofList cs
  | cs => String.ofList cs

/-- The letters of an argument with one dash. -/
def shorts (a : Arguments) : List Char → Effect
  | [] => .goOn a
  | c :: cs =>
    match shortOption? c with
    | some o => if cs = [] then .wants a o else .ofArguments (a.set? o (attached cs))
    | none =>
      match c with
      | 'v' => shorts { a with verbosity := a.verbosity + 1 } cs
      | 'V' => .stop .version
      | 'h' => .stop .help
      | _ => .refuse

/-- The name of an argument with two dashes, and the value attached to it. -/
def long (a : Arguments) (name : String) (value : Option String) : Effect :=
  match longOption? name, value with
  | some o, some v => .ofArguments (a.set? o v)
  | some o, none => .wants a o
  | none, some _ => .refuse
  | none, none =>
    match name with
    | "skip-verify" => .ofArguments a.setSkipVerify?
    | "verbose" => .goOn { a with verbosity := a.verbosity + 1 }
    | "version" => .stop .version
    | "help" => .stop .help
    | _ => .refuse

def effect (a : Arguments) (arg : String) : Effect :=
  match arg.toList with
  | '-' :: '-' :: cs =>
    let name := String.ofList (cs.takeWhile (· ≠ '='))
    match cs.dropWhile (· ≠ '=') with
    | _ :: value => long a name (some (String.ofList value))
    | [] => long a name none
  | '-' :: c :: cs => shorts a (c :: cs)
  | _ => .ofArguments (a.setConfig? arg)

def parseFrom (environment : Option String) (a : Arguments) : List String → Option CommandLine
  | [] => some (.run (a.toOptions environment) a.verbosity)
  | arg :: rest =>
    if arg = "--" then
      (rest.foldlM Arguments.setConfig? a).map fun a => .run (a.toOptions environment) a.verbosity
    else
      match effect a arg with
      | .goOn a => parseFrom environment a rest
      | .stop c => some c
      | .refuse => none
      | .wants a o =>
        match rest with
        | value :: rest =>
          if isValue o value then
            match a.set? o value with
            | some a => parseFrom environment a rest
            | none => none
          else none
        | [] => none

/-- What the arguments ask for; `none` where they are refused. -/
def parse? (environment : Option String) (args : List String) : Option CommandLine :=
  parseFrom environment .none args

def versionLine : String := "qkdv " ++ toolVersion

def helpLines : List String :=
  ["Usage: qkdv [OPTIONS] [CONFIG]",
    "",
    "Arguments:",
    "  [CONFIG]  Protocol configuration (.toml, .yaml or .yml)",
    "",
    "Options:",
    "  -o, --out-dir <OUT_DIR>  Directory for the proof instance and certificate dump",
    "  -m, --margin <MARGIN>    Safety margin placed around the phase-error estimate",
    "  -p, --prover <PROVER>    Prover executable used to check the instance",
    "      --skip-verify        Generate only, do not run the prover",
    "  -v, --verbose...         Increase verbosity (-v, -vv, -vvv)",
    "  -h, --help               Print help",
    "  -V, --version            Print version"]

/-- How a run of the program ended. -/
structure Outcome where
  code : Nat
  files : FileSystem
  /-- The lines and the records that are shown, in order. -/
  said : List Said
  stderr : String

def errorText (e : RunFailure) : String := "Error: " ++ e.message ++ "\n"

def isShown (verbosity : Nat) : Said → Bool
  | .line _ => true
  | .record r => r.shownAt verbosity

def execute (machine : Machine) (fs : FileSystem) : CommandLine → Outcome
  | .version => ⟨0, fs, [.line versionLine], ""⟩
  | .help => ⟨0, fs, helpLines.map .line, ""⟩
  | .run options verbosity =>
    let (result, world) := (Pipeline.run machine options).run.run ⟨fs, []⟩
    let said := world.said.filter (isShown verbosity)
    match result with
    | .ok () => ⟨0, world.files, said, ""⟩
    | .error e => ⟨1, world.files, said, errorText e⟩

/-- The program: its arguments, the configuration that its environment names, and its files.
    Refused arguments are answered with code 2. -/
def respond (machine : Machine) (environment : Option String) (args : List String)
    (fs : FileSystem) : Outcome :=
  match parse? environment args with
  | some c => execute machine fs c
  | none => ⟨2, fs, [], "error: invalid arguments\n"⟩

end CommandLine

end PhaseCert
