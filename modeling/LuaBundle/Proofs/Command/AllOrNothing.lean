import LuaBundle.Command.Program
import LuaBundle.Proofs.FileSystem.Changes

/-!
# A run writes all or nothing

A run that succeeds has put the bundle on the screen or into one file, and every other file is
as it was.  A run that fails leaves all files as they were, and but for an output that could
not be written also the directories.
-/

namespace LuaBundle

open FileSystem

/-!
## Output files
-/

def makeAbove (fs : FileSystem) (output : Path) : FileSystem × Option Trouble :=
  match output.parent?.filter fun p => p.spelling != "" with
  | none => (fs, none)
  | some directory => fs.makeDirectories directory

theorem makeAbove_sameFiles (fs : FileSystem) (output : Path) :
    SameFiles fs (makeAbove fs output).1 := by
  unfold makeAbove
  split
  · exact .refl fs
  · exact makeDirectories_sameFiles fs _

theorem writeOutput_cases (fs : FileSystem) (output : Path) (code : Text.Bytes) :
    (∃ context, writeOutput fs output code =
        ((makeAbove fs output).1, some ⟨.unwritable output, context⟩)) ∨
      ∃ fs', (makeAbove fs output).1.write output code = .ok fs' ∧
        writeOutput fs output code = (fs', none) := by
  unfold writeOutput makeAbove
  cases output.parent?.filter fun p => p.spelling != "" with
  | none =>
    simp only
    cases hwrite : fs.write output code with
    | error e => exact .inl ⟨[], rfl⟩
    | ok fs' => exact .inr ⟨fs', rfl, rfl⟩
  | some directory =>
    simp only
    rcases fs.makeDirectories directory with ⟨between, trouble⟩
    cases trouble with
    | some trouble => exact .inl ⟨_, rfl⟩
    | none =>
      simp only
      cases hwrite : between.write output code with
      | error e => exact .inl ⟨[], rfl⟩
      | ok fs' => exact .inr ⟨fs', rfl, rfl⟩

/-- Where the output could be written, it is the only file that is changed. -/
theorem writeOutput_saved {fs fs' : FileSystem} {output : Path} {code : Text.Bytes}
    (h : writeOutput fs output code = (fs', none)) :
    ∃ place, fs'.locate output = .ok place ∧ fs'.entry? place = some (.file code) ∧
      SameFilesBut fs fs' place := by
  rcases writeOutput_cases fs output code with ⟨context, hfailed⟩ | ⟨written, hwrite, hsaved⟩
  · rw [hfailed] at h
    cases h
  · rw [hsaved] at h
    cases h
    obtain ⟨place, hplace, hentry, hothers⟩ := write_spec hwrite
    exact ⟨place, hplace, hentry, (makeAbove_sameFiles fs output).trans_but hothers⟩

theorem writeOutput_failed {fs fs' : FileSystem} {output : Path} {code : Text.Bytes}
    {failure : Failure} (h : writeOutput fs output code = (fs', some failure)) :
    SameFiles fs fs' ∧ failure.cause = .unwritable output := by
  rcases writeOutput_cases fs output code with ⟨context, hfailed⟩ | ⟨written, hwrite, hsaved⟩
  · rw [hfailed] at h
    cases h
    exact ⟨makeAbove_sameFiles fs output, rfl⟩
  · rw [hsaved] at h
    cases h

/-!
## What a run leaves behind

A run has printed the bundle, has saved it, could not write it, or has failed before.
-/

def Machine.Makes (machine : Machine) (command : Command) (target : Target) (bundle : Bundle) :
    Prop :=
  ∃ config, machine.config command.config = .ok config ∧
    Target.ofSource machine.files command.source = .ok target ∧
    target.bundle machine.files (command.applyTo (target.applyTo config)) = .ok bundle

/-- The output file of a command: the one that it names, or else that of the manifest. -/
def Command.Outputs (command : Command) (target : Target) (output : Path) : Prop :=
  command.destination = .file output ∨
    command.destination = .declared ∧ target.output? = some output

/-- Whether a path leads to a directory, which is what a project is. -/
structure FileSystem.IsProject (fs : FileSystem) (source directory : Path) : Prop where
  there : fs.exists? source = true
  noFile : fs.isFile source = false
  canonical : fs.canonicalize source = .ok directory

def Machine.Printed (machine : Machine) (command : Command) (outcome : Outcome) : Prop :=
  ∃ target bundle, machine.Makes command target bundle ∧ command.destination = .screen ∧
    outcome.stdout = bundle.code ∧ outcome.files = machine.files

def Machine.Saved (machine : Machine) (command : Command) (outcome : Outcome) : Prop :=
  ∃ target bundle output place, machine.Makes command target bundle ∧
    command.Outputs target output ∧ outcome.stdout = [] ∧
    outcome.files.locate output = .ok place ∧
    outcome.files.entry? place = some (.file bundle.code) ∧
    SameFilesBut machine.files outcome.files place

def Machine.Unwritten (machine : Machine) (command : Command) (outcome : Outcome) : Prop :=
  ∃ target bundle output failure, machine.Makes command target bundle ∧
    command.Outputs target output ∧
    writeOutput machine.files output bundle.code = (outcome.files, some failure) ∧
    failure.cause = .unwritable output ∧ outcome.stderr = reportText failure.headline

/-- A run that failed: nothing is on the screen and no file is changed, and unless it was the
output that could not be written, nothing at all is changed. -/
structure Machine.Failed (machine : Machine) (words : List String) (outcome : Outcome) :
    Prop where
  exitCode : outcome.exitCode ≠ 0
  stdout : outcome.stdout = []
  files : SameFiles machine.files outcome.files
  directories : outcome.files = machine.files ∨
    ∃ command, Command.ofWords words = .ok command ∧ machine.Unwritten command outcome

/-- Commands that cannot be carried out, whatever is in the scripts: the file that the report
names and what it says. -/
inductive Command.Misconfigured (fs : FileSystem) (command : Command) : Path → String → Prop where
  | noSource (h : fs.exists? command.source = false) :
      command.Misconfigured fs command.source "source path does not exist"
  | noManifest {directory} (hsource : fs.IsProject command.source directory)
      (h : fs.readText (directory.join manifestName) = .error .missing) :
      command.Misconfigured fs (directory.join manifestName) "project manifest not found"
  | noSection {directory manifest} (hsource : fs.IsProject command.source directory)
      (hread : Manifest.read fs directory = .ok (some manifest)) (h : manifest.build = none) :
      command.Misconfigured fs manifest.file "manifest has no `luapack` section"
  | noMain {directory manifest build} (hsource : fs.IsProject command.source directory)
      (hread : Manifest.read fs directory = .ok (some manifest))
      (hbuild : manifest.build = some build) (h : build.main = none) :
      command.Misconfigured fs manifest.file "`luapack.main` is missing"
  | noScript {directory manifest main} (hsource : fs.IsProject command.source directory)
      (hread : Manifest.read fs directory = .ok (some manifest))
      (hmain : manifest.main? = some main) (h : fs.isFile main = false) :
      command.Misconfigured fs main "entry script declared by `luapack.main` does not exist"
  | noOutput {target} (htarget : Target.ofSource fs command.source = .ok target)
      (hdeclared : command.destination = .declared) (h : target.output? = none) :
      command.Misconfigured fs command.source
        ("no output path; pass --output or --stdout, or set `luapack.output` "
          ++ "in the manifest")

section Runs

variable {machine : Machine} {command : Command} {words : List String}

theorem failed_of_same (machine : Machine) (words : List String) (headline : String) :
    machine.Failed words (.failed machine.files headline) := by
  constructor
  case exitCode => simp [Outcome.failed]
  case stdout => rfl
  case files => exact .refl _
  case directories => exact .inl rfl

theorem saving_cases {config : Config} {target : Target} {output : Path}
    (hwords : Command.ofWords words = .ok command)
    (hconfig : machine.config command.config = .ok config)
    (htarget : Target.ofSource machine.files command.source = .ok target)
    (houtput : command.Outputs target output) :
    let outcome := Outcome.saving machine.files (command.applyTo (target.applyTo config)) target
      output
    (outcome.exitCode = 0 ∧ machine.Saved command outcome) ∨ machine.Failed words outcome := by
  simp only [Outcome.saving, Target.bundleInto]
  cases hbundle : target.bundle machine.files (command.applyTo (target.applyTo config)) with
  | error e => exact .inr (failed_of_same machine words _)
  | ok bundle =>
    have hmakes : machine.Makes command target bundle := ⟨config, hconfig, htarget, hbundle⟩
    simp only
    rcases hrun : writeOutput machine.files output bundle.code with ⟨fs', failure⟩
    cases failure with
    | none =>
      obtain ⟨place, hplace, hentry, hothers⟩ := writeOutput_saved hrun
      exact .inl ⟨rfl, target, bundle, output, place, hmakes, houtput, rfl, hplace, hentry,
        hothers⟩
    | some failure =>
      obtain ⟨hsame, hcause⟩ := writeOutput_failed hrun
      right
      constructor
      case exitCode => simp [Outcome.failed]
      case stdout => rfl
      case files => exact hsame
      case directories =>
        exact .inr ⟨command, hwords, target, bundle, output, failure, hmakes, houtput, hrun,
          hcause, rfl⟩

theorem deliver_cases {config : Config} {target : Target}
    (hwords : Command.ofWords words = .ok command)
    (hconfig : machine.config command.config = .ok config)
    (htarget : Target.ofSource machine.files command.source = .ok target) :
    let outcome := command.deliver machine.files (command.applyTo (target.applyTo config)) target
    (outcome.exitCode = 0 ∧ (machine.Printed command outcome ∨ machine.Saved command outcome)) ∨
      machine.Failed words outcome := by
  have hsaving : ∀ output, command.Outputs target output →
      let outcome := Outcome.saving machine.files (command.applyTo (target.applyTo config)) target
        output
      (outcome.exitCode = 0 ∧ (machine.Printed command outcome ∨ machine.Saved command outcome)) ∨
        machine.Failed words outcome := by
    intro output houtput
    rcases saving_cases hwords hconfig htarget houtput with ⟨hcode, hsaved⟩ | hfailed
    · exact .inl ⟨hcode, .inr hsaved⟩
    · exact .inr hfailed
  unfold Command.deliver
  cases hdestination : command.destination with
  | screen =>
    simp only [Outcome.printing]
    cases hbundle : target.bundle machine.files (command.applyTo (target.applyTo config)) with
    | error e => exact .inr (failed_of_same machine words _)
    | ok bundle =>
      exact .inl ⟨rfl, .inl ⟨target, bundle, ⟨config, hconfig, htarget, hbundle⟩, hdestination,
        rfl, rfl⟩⟩
  | file output => exact hsaving output (.inl hdestination)
  | declared =>
    cases houtput : target.output? with
    | none => exact .inr (failed_of_same machine words _)
    | some output => exact hsaving output (.inr ⟨hdestination, houtput⟩)

theorem ofSource_project {fs : FileSystem} {source directory : Path}
    (h : fs.IsProject source directory) :
    Target.ofSource fs source = Target.ofDirectory fs directory := by
  simp [Target.ofSource, h.there, h.noFile, LuaBundle.canonical, h.canonical, bind, Except.bind,
    Except.mapError]

theorem ofSource_failed {config : Config} {e : BundleError}
    (hwords : Command.ofWords words = .ok command)
    (hconfig : machine.config command.config = .ok config)
    (h : Target.ofSource machine.files command.source = .error e) :
    machine.run words = .failed machine.files e.message := by
  simp only [Machine.run, hwords, Machine.perform, hconfig, h]

theorem misconfigured_failed {config : Config} {file : Path} {message : String}
    (hwords : Command.ofWords words = .ok command)
    (hconfig : machine.config command.config = .ok config)
    (h : command.Misconfigured machine.files file message) :
    machine.run words = .failed machine.files (BundleError.configuration file message).message := by
  cases h with
  | noSource h =>
    apply ofSource_failed hwords hconfig
    simp only [Target.ofSource, h]
    rfl
  | @noManifest directory hsource h =>
    apply ofSource_failed hwords hconfig
    have hread : Manifest.read machine.files directory = .ok none := by
      rw [Manifest.read, h]
    rw [ofSource_project hsource, Target.ofDirectory, hread]
    rfl
  | noSection hsource hread h =>
    apply ofSource_failed hwords hconfig
    rw [ofSource_project hsource, Target.ofDirectory, hread]
    simp [bind, Except.bind, h]
    rfl
  | noMain hsource hread hbuild h =>
    apply ofSource_failed hwords hconfig
    rw [ofSource_project hsource, Target.ofDirectory, hread]
    simp [bind, Except.bind, hbuild, Manifest.main?, h]
    rfl
  | @noScript directory manifest main hsource hread hmain h =>
    apply ofSource_failed hwords hconfig
    rw [ofSource_project hsource, Target.ofDirectory, hread]
    have hbuild : manifest.build.isNone = false := by
      cases hbuild : manifest.build with
      | none => simp [Manifest.main?, hbuild] at hmain
      | some build => rfl
    simp [bind, Except.bind, hbuild, hmain, h]
    rfl
  | noOutput htarget hdeclared h =>
    simp only [Machine.run, hwords, Machine.perform, hconfig, htarget, Command.deliver, hdeclared,
      h]
    rfl

/-- What holds of every run that bundles or fails. -/
structure Machine.AllOrNothing (machine : Machine) (words : List String) : Prop where
  /-- The bundle is on the screen or in one file, or nothing is changed. -/
  effect : ((machine.run words).exitCode = 0 ∧ ∃ command, Command.ofWords words = .ok command ∧
      (machine.Printed command (machine.run words) ∨
        machine.Saved command (machine.run words))) ∨
    machine.Failed words (machine.run words)
  /-- With settings that can be read, what cannot be carried out is reported as such. -/
  reports : ∀ command config file message, Command.ofWords words = .ok command →
    machine.config command.config = .ok config →
    command.Misconfigured machine.files file message →
    machine.run words = .failed machine.files (BundleError.configuration file message).message

/-- **A run writes all or nothing.**  This holds of every run but those that are asked for the
version or the usage. -/
theorem run_allOrNothing (machine : Machine) (words : List String)
    (hversion : Command.ofWords words ≠ .error .version)
    (hhelp : Command.ofWords words ≠ .error .help) : machine.AllOrNothing words := by
  constructor
  case effect =>
    cases hwords : Command.ofWords words with
    | error stop =>
      right
      simp only [Machine.run, hwords]
      cases stop with
      | version => exact absurd hwords hversion
      | help => exact absurd hwords hhelp
      | misuse =>
        constructor
        case exitCode => simp [Outcome.stopped]
        case stdout => rfl
        case files => exact .refl _
        case directories => exact .inl rfl
    | ok command =>
      simp only [Machine.run, hwords, Machine.perform]
      cases hconfig : machine.config command.config with
      | error e => exact .inr (failed_of_same machine words _)
      | ok config =>
        cases htarget : Target.ofSource machine.files command.source with
        | error e => exact .inr (failed_of_same machine words _)
        | ok target =>
          rcases deliver_cases hwords hconfig htarget with ⟨hcode, hdone⟩ | hfailed
          · exact .inl ⟨hcode, command, rfl, hdone⟩
          · exact .inr hfailed
  case reports =>
    intro command config file message hwords hconfig hmisconfigured
    exact misconfigured_failed hwords hconfig hmisconfigured

end Runs

/-- A machine with a project whose manifest declares an output in a directory that is not there
yet. -/
def outputMachine : Machine where
  files := {
    entries := [
      (["app"], .directory),
      (["app", "package.json"], .file (Text.utf8
        "\x7b\"luapack\":\x7b\"main\":\"main.lua\",\"output\":\"dist/app.lua\"\x7d\x7d".toList)),
      (["app", "main.lua"], .file (Text.utf8 "return 1".toList))] }

theorem outputMachine_allOrNothing :
    (outputMachine.run ["app"]).exitCode = 0 ∧
      (outputMachine.run ["app"]).files.isFile ⟨"app/dist/app.lua"⟩ = true ∧
      Command.ofWords ["app"] ≠ .error .version ∧ Command.ofWords ["app"] ≠ .error .help ∧
      outputMachine.AllOrNothing ["app"] := by
  obtain ⟨command, hwords⟩ : ∃ command, Command.ofWords ["app"] = .ok command := ⟨_, rfl⟩
  have hversion : Command.ofWords ["app"] ≠ .error .version := by
    rw [hwords]
    intro h
    cases h
  have hhelp : Command.ofWords ["app"] ≠ .error .help := by
    rw [hwords]
    intro h
    cases h
  constructor
  · decide +kernel
  · constructor
    · decide +kernel
    · exact ⟨hversion, hhelp, run_allOrNothing outputMachine ["app"] hversion hhelp⟩

end LuaBundle
