import Lox.Command
import Lox.Command.World
import Lox.Proofs.Image.Running
import Lox.Proofs.Verification.Compiled

/-! # Images on the command line

What is written to a file is read from it afterwards, and a script runs in the same way whatever files there
are. So to write the image of a source and to run that is to run the source. -/

namespace Lox

namespace Command

/-! ### Files -/

namespace Files

variable {files files' : Files} {place other directory found : Location} {path : String} {bytes : ByteArray}

/-- The files with other bytes at a place. -/
def put (files : Files) (place : Location) (bytes : ByteArray) : Files :=
  ⟨(place, bytes) :: files.entries.filter fun (file, _) => file ≠ place⟩

theorem entry?_put_self (files : Files) (place : Location) (bytes : ByteArray) :
    Files.entry? (files.put place bytes) place = some (.file bytes) := by
  simp [ entry?, put]

theorem isDirectory_put (h : files.isDirectory other = true) :
    (files.put place bytes).isDirectory other = true := by
  unfold isDirectory at h ⊢
  rw [Bool.or_eq_true] at h ⊢
  refine h.imp_right fun hany => ?_
  rw [List.any_eq_true] at hany ⊢
  obtain ⟨⟨file, old⟩, hmem, hinside⟩ := hany
  by_cases hfile : file = place
  · exact ⟨(place, bytes), List.mem_cons_self, hfile ▸ hinside⟩
  · exact ⟨(file, old), List.mem_cons_of_mem _ (List.mem_filter.mpr ⟨hmem, by simpa using hfile⟩), hinside⟩

/-- Directories stay where a file is put in the place of no directory. -/
theorem entry?_put_directory (hplace : files.entry? place ≠ some .directory)
    (h : files.entry? other = some .directory) :
    Files.entry? (files.put place bytes) other = some .directory := by
  have hne : other ≠ place := by
    rintro rfl
    exact hplace h
  unfold entry? at h ⊢
  cases hlookup : files.entries.lookup other with
  | some old =>
    rw [hlookup] at h
    cases h
  | none =>
    rw [hlookup] at h
    have hdirectory : files.isDirectory other = true := by
      by_contra hnone
      rw [if_neg hnone] at h
      cases h
    have hput : (files.put place bytes).entries.lookup other = none := by
      rw [List.lookup_eq_none_iff] at hlookup ⊢
      intro entry hentry
      rcases List.mem_cons.mp hentry with rfl | hentry
      · simpa using hne
      · exact hlookup entry (List.mem_filter.mp hentry).1
    rw [hput]
    exact if_pos (isDirectory_put hdirectory)

theorem follow_cons {name : String} (h : enter directory name = .ok found) (names : List String) :
    files.follow directory (name :: names) = match files.entry? found with
      | some .directory => files.follow found names
      | some (.file _) => .error .notDirectory
      | none => .error .missing := by
  rw [follow, h]
  rfl

theorem follow_put (hplace : files.entry? place ≠ some .directory) {names : List String}
    (h : files.follow directory names = .ok found) :
    (files.put place bytes).follow directory names = .ok found := by
  induction names generalizing directory with
  | nil => exact h
  | cons name names ih =>
    cases henter : enter directory name with
    | error problem =>
      rw [follow, henter] at h
      cases h
    | ok next =>
      rw [follow_cons henter] at h ⊢
      split at h
      · rename_i hnext
        rw [ entry?_put_directory hplace hnext]
        exact ih h
      · cases h
      · cases h

theorem locate_eq_ok {name : String} : files.locate path = .ok (directory, name) ↔
    path ≠ "" ∧ path.utf8ByteSize ≤ maxPath ∧
    files.follow (Location.start path) (Path.names path).dropLast = .ok directory ∧
      (Path.names path).getLastD "." = name := by
  unfold locate
  by_cases hempty : path = ""
  · rw [if_pos hempty]
    exact iff_of_false (fun h => by cases h) fun h => h.1 hempty
  · rw [if_neg hempty]
    dsimp only [pure_bind]
    by_cases hlong : maxPath < path.utf8ByteSize
    · rw [if_pos hlong]
      exact iff_of_false (fun h => by cases h) fun h => absurd h.2.1 (Nat.not_le_of_lt hlong)
    · rw [if_neg hlong]
      show (files.follow (Location.start path) (Path.names path).dropLast >>= fun found =>
        pure (found, (Path.names path).getLastD ".")) = _ ↔ _
      cases files.follow (Location.start path) (Path.names path).dropLast with
      | error problem => exact iff_of_false (fun h => by cases h) fun h => by cases h.2.2.1
      | ok found =>
        show Except.ok (found, (Path.names path).getLastD ".") = _ ↔ _
        simp [hempty, Nat.le_of_not_lt hlong]

theorem locate_put (hplace : files.entry? place ≠ some .directory) {name : String}
    (h : files.locate path = .ok (directory, name)) :
    (files.put place bytes).locate path = .ok (directory, name) := by
  obtain ⟨hempty, hlong, hfollow, hname⟩ := locate_eq_ok.mp h
  exact locate_eq_ok.mpr ⟨hempty, hlong, follow_put hplace hfollow, hname⟩

theorem write_of_locate {name : String} (h : files.locate path = .ok (directory, name))
    (hslash : Path.endsInSlash path = false) (hplace : enter directory name = .ok place) :
    files.write path bytes = match files.entry? place with
      | some .directory => .error .isDirectory
      | _ => .ok (files.put place bytes) := by
  simp only [write, h, hslash, hplace, bind, Except.bind]
  rfl

theorem read_of_locate {name : String} (h : files.locate path = .ok (directory, name))
    (hslash : Path.endsInSlash path = false) (hplace : enter directory name = .ok place) :
    files.read path = match files.entry? place with
      | none => .error .missing
      | some .directory => .error .isDirectory
      | some (.file bytes) => .ok bytes := by
  simp only [read, h, hslash, hplace, bind, Except.bind]
  rfl

/-- What a write needs and does. -/
theorem write_eq_ok : files.write path bytes = .ok files' ↔ ∃ directory name place,
    files.locate path = .ok (directory, name) ∧ Path.endsInSlash path = false ∧
      enter directory name = .ok place ∧
      files.entry? place ≠ some .directory ∧ files' = files.put place bytes := by
  cases hlocate : files.locate path with
  | error problem =>
    refine iff_of_false (fun h => ?_) fun ⟨_, _, _, h, _⟩ => by cases h
    rw [write, hlocate] at h
    cases h
  | ok found =>
    obtain ⟨directory, name⟩ := found
    cases hslash : Path.endsInSlash path with
    | true =>
      refine iff_of_false (fun h => ?_) fun ⟨_, _, _, _, h, _⟩ => by cases h
      rw [write, hlocate] at h
      simp only [hslash] at h
      cases h
    | false =>
      cases hplace : enter directory name with
      | error problem =>
        refine iff_of_false (fun h => ?_) ?_
        · simp only [write, hlocate, hslash, hplace, bind, Except.bind] at h
          cases h
        · rintro ⟨_, _, _, heq, -, h, -⟩
          cases heq
          cases hplace.symm.trans h
      | ok place =>
        rw [write_of_locate hlocate hslash hplace]
        constructor
        · intro h
          split at h
          · cases h
          · rename_i hentry
            cases h
            exact ⟨directory, name, place, rfl, rfl, hplace, hentry, rfl⟩
        · rintro ⟨_, _, _, heq, -, h, hentry, rfl⟩
          cases heq
          cases hplace.symm.trans h
          split
          · exact absurd ‹_› hentry
          · rfl

/-- What was written is read. -/
theorem read_write (h : files.write path bytes = .ok files') : files'.read path = .ok bytes := by
  obtain ⟨directory, name, place, hlocate, hslash, hplace, hentry, rfl⟩ := write_eq_ok.mp h
  rw [read_of_locate (locate_put hentry hlocate) hslash hplace, entry?_put_self]

/-- A new file can be made in the working directory. -/
theorem write_name {name : String} (hnames : Path.names name = [name])
    (habsolute : Path.isAbsolute name = false)
    (hslash : Path.endsInSlash name = false) (henter : enter {} name = .ok place)
    (hlong : name.utf8ByteSize ≤ maxName)
    (hentry : files.entry? place = none) : files.write name bytes = .ok (files.put place bytes) := by
  have hmem : name ∈ Path.names name := by
    rw [hnames]
    exact List.mem_singleton_self _
  have hempty : name ≠ "" := of_decide_eq_true (List.mem_filter.mp hmem).2
  have hfile : files.entry? place ≠ some .directory := by
    rw [hentry]
    exact fun h => by cases h
  refine write_eq_ok.mpr ⟨{}, name, place, locate_eq_ok.mpr ⟨hempty, hlong.trans (by decide), ?_, ?_⟩, hslash,
    henter, hfile, rfl⟩
  · rw [hnames, Location.start, habsolute]
    rfl
  · rw [hnames]
    rfl

end Files

/-! ### Scripts do not look at files -/

section

variable (files : Files)

theorem proceed_files (progress : Machine.Progress) (rounds : Nat) (world : World) :
    proceed World.terminal progress rounds { world with files } =
      ((proceed World.terminal progress rounds world).1,
        { (proceed World.terminal progress rounds world).2 with files }) := by
  induction rounds generalizing progress world with
  | zero => cases progress <;> rfl
  | succ rounds ih =>
    cases progress with
    | running machine =>
      exact ih _ { world.readClock.2 with output := world.output ++ machine.sink.bytes }
    | done machine => rfl
    | failed machine fault => rfl

theorem execute_files (options : Options) (machine : Machine) (script : Function) (rounds : Nat)
    (world : World) :
    execute World.terminal options machine script rounds { world with files } =
      ((execute World.terminal options machine script rounds world).1,
        { (execute World.terminal options machine script rounds world).2 with files }) := by
  unfold execute
  cases options.disasm with
  | true =>
    exact proceed_files files (machine.start script) rounds
      { world with output := world.output ++ script.listAll.toUTF8 }
  | false => exact proceed_files files (machine.start script) rounds world

theorem runScript_files (options : Options) (script : Function) (rounds : Nat) (world : World) :
    runScript World.terminal options script rounds { world with files } =
      ((runScript World.terminal options script rounds world).1,
        { (runScript World.terminal options script rounds world).2 with files }) := by
  have hexecute := execute_files files options (.new options.limits {}) script rounds world
  rcases hresult : execute World.terminal options (.new options.limits {}) script rounds world
    with ⟨⟨machine, result⟩, after⟩
  rw [hresult] at hexecute
  unfold runScript
  simp only [bind, StateT.bind, hexecute, hresult]
  rcases result with _ | _ | _ <;> rfl

end

/-! ### Sources and their images -/

variable {options : Options} {path target source : String} {world : World} {files : Files} {script : Function}
  {image : List UInt8} (rounds : Nat)

theorem fromUTF8_toUTF8 (source : String) : String.fromUTF8? source.toUTF8 = some source := by
  have h := Image.fromUTF8_toUTF8 source
  rwa [Image.toList_eq] at h

theorem run_source (hpath : Path.extension? path = some "lox") (htokens : options.tokens = false)
    (hemit : options.emit = none) (hread : world.files.read path = .ok source.toUTF8)
    (hcompile : compile source = .ok script) :
    run World.terminal { options with script := some path } rounds world =
      runScript World.terminal options script rounds world := by
  unfold run
  simp only [hpath]
  unfold runSource
  simp only [bind, StateT.bind, World.terminal, hread, fromUTF8_toUTF8, htokens, hcompile, hemit,
    Bool.false_eq_true, if_false]
  rfl

theorem run_emit (hpath : Path.extension? path = some "lox") (htokens : options.tokens = false)
    (hread : world.files.read path = .ok source.toUTF8) (hcompile : compile source = .ok script)
    (hencode : Image.encode script = .ok image)
    (hwrite : world.files.write target ⟨image.toArray⟩ = .ok files) :
    run World.terminal { options with script := some path, emit := some target } rounds world =
      (.success, { world with files }) := by
  unfold run
  simp only [hpath]
  unfold runSource
  simp only [bind, StateT.bind, World.terminal, hread, fromUTF8_toUTF8, htokens, hcompile, hencode, hwrite,
    Bool.false_eq_true, if_false]
  rfl

theorem run_image (htarget : Path.extension? target = some "loxc") (htokens : options.tokens = false)
    (hemit : options.emit = none) (hread : world.files.read target = .ok ⟨image.toArray⟩)
    (hdecode : Image.decode image = .ok script) :
    run World.terminal { options with script := some target } rounds world =
      runScript World.terminal options script rounds world := by
  have hbytes : (ByteArray.mk image.toArray).toList = image := Image.toList_eq _
  unfold run
  simp only [htarget]
  unfold runImage
  simp only [htokens, hemit, Option.isSome_none, Bool.or_self, Bool.false_eq_true, if_false, bind, StateT.bind,
    World.terminal, hread, hbytes, hdecode]
  rfl

end Command

/-! ### Running from an image -/

variable {source : String} {script : Function}

/-- No routine of the host is in a compiled script. -/
theorem not_holdsNative_of_compile (h : compile source = .ok script) : ¬script.HoldsNative := by
  rintro ⟨g, hg, n, hn⟩
  exact (Function.Compiled.written ⟨source, script, h, hg⟩).native_not_mem n hn

/-- A compiled script has an image, from which it is loaded as it was. -/
theorem exists_image_of_compile (h : compile source = .ok script) (hsized : script.Sized) :
    ∃ image, Image.encode script = .ok image ∧ Image.decode image = .ok script := by
  cases hencode : Image.encode script with
  | error error =>
    exact absurd ((Image.encode_fails_iff script).mp ⟨error, hencode⟩) (not_holdsNative_of_compile h)
  | ok image =>
    refine ⟨image, rfl, ?_⟩
    have hverify : script.verify = .ok () := by
      refine Function.verify_eq_ok.mpr fun f hf => ?_
      obtain ⟨name, r, hlegal, rfl⟩ := Function.Compiled.written ⟨source, script, h, hf⟩
      exact Chunk.verify_eq_ok.mpr ⟨_, Chunk.instructions_eq_ok.mpr hlegal.makes_code.fills,
        hlegal.makes_code.sound⟩
    rcases Image.decode_of_encode hencode with ⟨-, hdecode⟩ | ⟨hlarge, -⟩
    · rw [hdecode, hverify]
      rfl
    · exact absurd hsized hlarge

/-- To run a compiled script from its image is to run it as another object. If no function of either object is
    among the globals and the host treats both alike, the run ends with the same result, trace and output, and
    with renamed globals. So to write an image with the command, without any output, and to run that shows and
    complains of the same things as to run the source, and has the same exit. -/
theorem image_runs_as_source (h : compile source = .ok script) (hsized : script.Sized) :
    ∃ image loaded, Image.encode script = .ok image ∧ Image.decode image = .ok loaded ∧
      (∀ (hosts : Hosts) (fuel : Nat) (m : Machine) (origin : Nat),
        hosts.Respects (Matching.exchange m.nextOrigin origin) → m.globals.Foreign m.nextOrigin →
        m.globals.Foreign origin → Option.Rel (Machine.Outcome.Renames (ObjectId.exchange m.nextOrigin origin))
          (m.run hosts fuel script) ((m.fromOrigin origin).run hosts fuel loaded)) ∧
      ∀ (options : Command.Options) (path target : String) (world : Command.World) (files : Command.Files)
        (rounds : Nat), options.tokens = false → options.emit = none → Path.extension? path = some "lox" →
        Path.extension? target = some "loxc" → world.files.read path = .ok source.toUTF8 →
        world.files.write target ⟨image.toArray⟩ = .ok files →
        let ran := Command.run Command.World.terminal { options with script := some path } rounds world
        Command.run Command.World.terminal { options with script := some path, emit := some target }
          rounds world =
            (.success, { world with files }) ∧
          Command.run Command.World.terminal { options with script := some target } rounds
            { world with files } = (ran.1, { ran.2 with files }) := by
  obtain ⟨image, hencode, hdecode⟩ := exists_image_of_compile h hsized
  refine ⟨image, script, hencode, hdecode, ?_, ?_⟩
  · intro hosts fuel m origin hhosts ha hb
    exact Machine.run_exchange hhosts (not_holdsNative_of_compile h) ha hb fuel
  · intro options path target world files rounds htokens hemit hpath htarget hread hwrite
    refine ⟨Command.run_emit rounds hpath htokens hread h hencode hwrite, ?_⟩
    have hread' : Command.Files.read { world with files }.files target = .ok ⟨image.toArray⟩ :=
      Command.Files.read_write hwrite
    rw [Command.run_image rounds htarget htokens hemit hread' hdecode,
      Command.run_source rounds hpath htokens hemit hread h]
    exact Command.runScript_files files options script rounds world

/-- Functions that are compared: one with itself by another name, and two with the same code. -/
theorem image_runs_as_source_functions :
    let source := "fun f() {} fun g() {} var h = f; print h == f; print g == f;"
    let world : Command.World := { files := .put {} ⟨.above 0, ["a.lox"]⟩ source.toUTF8 }
    let ran := Command.run Command.World.terminal { script := some "a.lox" } 2 world
    ∃ script image loaded files, compile source = .ok script ∧ script.Sized ∧
      Image.encode script = .ok image ∧ Image.decode image = .ok loaded ∧
      ((Machine.new {} {}).run (Host.standard 0) 40 script).isSome ∧
      Option.Rel (Machine.Outcome.Renames (ObjectId.exchange 1 7))
        ((Machine.new {} {}).run (Host.standard 0) 40 script)
        (((Machine.new {} {}).fromOrigin 7).run (Host.standard 0) 40 loaded) ∧
      Command.run Command.World.terminal { script := some "a.lox", emit := some "a.loxc" } 2 world =
        (.success, { world with files }) ∧
      Command.run Command.World.terminal { script := some "a.loxc" } 2 { world with files } =
        (ran.1, { ran.2 with files }) := by
  intro source world ran
  have hcompiles : ((compile source).toOption.any fun script =>
      script.Sized ∧ ((Machine.new {} {}).run (Host.standard 0) 40 script).isSome) = true := by decide +kernel
  obtain ⟨script, hcompile, htest⟩ := exists_ok_of_any hcompiles
  obtain ⟨hsized, hends⟩ := of_decide_eq_true htest
  obtain ⟨image, loaded, hencode, hdecode, hrenames, hcommand⟩ := image_runs_as_source hcompile hsized
  have hforeign (origin : Nat) : (Machine.new {} {}).globals.Foreign origin := by
    intro entry hentry id f heq
    cases List.mem_singleton.mp hentry
    cases heq
  have hrenamed := hrenames (Host.standard 0) 40 (.new {} {}) 7 (fun _ => Host.like_standard _ 0)
    (hforeign _) (hforeign _)
  have hnames : Path.names "a.lox" = ["a.lox"] := by
    unfold Path.names String.splitOn
    simp +decide [String.splitOnAux]
  have hnames' : Path.names "a.loxc" = ["a.loxc"] := by
    unfold Path.names String.splitOn
    simp +decide [String.splitOnAux]
  have hread : world.files.read "a.lox" = .ok source.toUTF8 :=
    Command.Files.read_write (Command.Files.write_name hnames (by decide +kernel) (by decide +kernel) rfl
        (by decide) rfl)
  have hextension : Path.extension? "a.lox" = some "lox" := by
    rw [Path.extension?, hnames]
    decide
  have hextension' : Path.extension? "a.loxc" = some "loxc" := by
    rw [Path.extension?, hnames']
    decide
  have hwrite : world.files.write "a.loxc" ⟨image.toArray⟩ = .ok _ :=
    Command.Files.write_name hnames' (by decide +kernel) (by decide +kernel) rfl (by decide) rfl
  obtain ⟨hemit, himage⟩ := hcommand {} "a.lox" "a.loxc" world _ 2 rfl rfl hextension hextension' hread hwrite
  exact ⟨script, image, loaded, _, hcompile, hsized, hencode, hdecode, hends, hrenamed, hemit, himage⟩

/-- The script that finds its own function among the globals, since it has run before, tells
    itself from its image. -/
theorem image_runs_apart :
    let host := Host.standard 0
    let m := { Machine.new {} {} with globals := (Machine.new {} {}).globals.define "saved" .nil }
    ∃ script image loaded before again apart, compile "fun f() {} print f == saved; saved = f;" = .ok script ∧
      Image.encode script = .ok image ∧ Image.decode image = .ok loaded ∧
      m.run host 20 script = some before ∧ before.result = .ok () ∧
      (before.machine.fromOrigin m.nextOrigin).run host 20 script = some again ∧
      again.machine.sink.bytes = "false\ntrue\n".toUTF8 ∧
      before.machine.run host 20 loaded = some apart ∧ apart.machine.sink.bytes = "false\nfalse\n".toUTF8 := by
  intro host m
  have hruns : ((compile "fun f() {} print f == saved; saved = f;").toOption.any fun script => script.Sized ∧
      (m.run host 20 script).any fun before => before.result.toOption.any fun _ =>
        ((before.machine.fromOrigin m.nextOrigin).run host 20 script).any fun again =>
          again.machine.sink.bytes = "false\ntrue\n".toUTF8 ∧
            (before.machine.run host 20 script).any fun apart =>
            apart.machine.sink.bytes = "false\nfalse\n".toUTF8) = true := by decide +kernel
  obtain ⟨script, hcompile, hruns⟩ := exists_ok_of_any hruns
  obtain ⟨hsized, hruns⟩ := of_decide_eq_true hruns
  obtain ⟨before, hbefore, hruns⟩ := (Option.any_eq_true _ _).mp hruns
  obtain ⟨_, hok, hruns⟩ := exists_ok_of_any hruns
  obtain ⟨again, hagain, hruns⟩ := (Option.any_eq_true _ _).mp hruns
  obtain ⟨hprinted, hruns⟩ := of_decide_eq_true hruns
  obtain ⟨apart, hapart, hprinted'⟩ := (Option.any_eq_true _ _).mp hruns
  obtain ⟨image, hencode, hdecode⟩ := exists_image_of_compile hcompile hsized
  exact ⟨script, image, script, before, again, apart, hcompile, hencode, hdecode, hbefore, hok, hagain,
    hprinted, hapart, of_decide_eq_true hprinted'⟩

end Lox
