import Lox.Proofs.Machine.Limits
import Lox.Proofs.Verification.Reading

/-! # What a run does to the globals

A run leaves every global alone that is not named in its code. The functions that a run can call are those
inside its script and inside the functions among the globals at its start; as they are verified, the machine
reads only the instructions in them that the verifier has read. So a global is created only under a name of a
definition among these instructions, it changes only if a definition or an assignment among them names it, and
none is ever removed. -/

namespace Lox

/-! ### Names in code -/

/-- The verifier reads an instruction of the given kind in the chunk whose operand is this name. -/
def Chunk.Names (chunk : Chunk) (kind : UInt8 → Instruction) (name : String) : Prop :=
  ∃ found place index, chunk.instructions = .ok found ∧ (place, kind index) ∈ found ∧
    chunk.constant? index = some (.string name)

/-- What is read at the start of an instruction, or at the end of the code, is an instruction that the
    verifier has read. -/
theorem Chunk.names_of_read {chunk : Chunk} {place : Nat} (hplace : chunk.IsStart place ∨ place = chunk.size)
    {kind : UInt8 → Instruction} {index : UInt8}
    (hread : Instruction.read chunk.code place = .instruction (kind index))
    {name : String} (hname : chunk.constant? index = some (.string name)) : chunk.Names kind name := by
  rcases hplace with ⟨found, hfound, i, hi⟩ | rfl
  · have hstart := (instructions_eq_ok.mp hfound).mem (Array.mem_def.mp hi)
    cases hread.symm.trans hstart.1
    exact ⟨found, place, index, hfound, hi, hname⟩
  · cases hread.symm.trans (Instruction.read_eq_pastEnd (Nat.le_refl chunk.code.size))

theorem Frame.constant?_of_name {frame : Frame} {index : UInt8} {name : String}
    (h : frame.name index = .ok name) :
    frame.function.chunk.constant? index = some (.string name) := by
  unfold Frame.name at h
  split at h
  · rename_i found hfound
    cases h
    exact hfound
  · cases h
  · cases h

namespace Function

/-- Some function of a set names a global in an instruction of this kind. -/
def SomeNames (S : Function → Prop) (kind : UInt8 → Instruction) (name : String) : Prop :=
  ∃ g, S g ∧ g.chunk.Names kind name

/-- A function inside a script or inside a function among some globals. -/
def Reachable (script : Function) (globals : Globals) (g : Function) : Prop :=
  g ∈ script.all ∨ ∃ entry ∈ globals.entries, ∃ id f, entry.2 = .function id f ∧ g ∈ f.all

variable {script f g : Function} {globals : Globals}

theorem Reachable.verified (hscript : script.Verified) (hglobals : globals.In Verified)
    (h : Reachable script globals g) :
    g.Verified := by
  have inside : ∀ f : Function, f.Verified → g ∈ f.all → g.Verified := fun f hf hg =>
    verify_eq_ok.mpr fun k hk => verify_eq_ok.mp hf k (mem_all_trans hk f hg)
  rcases h with hg | ⟨entry, hentry, id, f, heq, hg⟩
  · exact inside script hscript hg
  · exact inside f (hglobals entry hentry id f heq) hg

theorem Reachable.constant (h : Reachable script globals f) (hg : .function g ∈ f.chunk.constants) :
    Reachable script globals g := by
  have hinside : g ∈ f.all := mem_all.mpr (Or.inr ⟨g, hg, g.mem_all_self⟩)
  rcases h with hf | ⟨entry, hentry, id, k, heq, hf⟩
  · exact Or.inl (mem_all_trans hinside script hf)
  · exact Or.inr ⟨entry, hentry, id, k, heq, mem_all_trans hinside k hf⟩

/-- The functions that a run can call, with the starts of their instructions and the end of their code. -/
theorem closed_reachable (hscript : script.Verified) (hglobals : globals.In Verified) :
    Closed (Reachable script globals) fun f place => f.chunk.IsStart place ∨ place = f.chunk.size where
  entry h := closed_verified.entry (h.verified hscript hglobals)
  constant h hg := h.constant hg
  inside h hplace := closed_verified.inside (h.verified hscript hglobals) hplace

end Function

theorem Globals.in_reachable (script : Function) (globals : Globals) :
    globals.In (Function.Reachable script globals) :=
  fun entry hentry id f heq => Or.inr ⟨entry, hentry, id, f, heq, f.mem_all_self⟩

/-! ### Tables of globals -/

namespace Globals

variable {globals : Globals} {name other : String} {value : Value}

theorem get?_overwrite : (globals.overwrite name value).get? other =
    (globals.get? other).map fun old => if other = name then value else old := by
  obtain ⟨entries⟩ := globals
  unfold overwrite get?
  simp only [beq_iff_eq]
  induction entries with
  | nil => rfl
  | cons entry entries ih =>
    rw [List.map_cons, List.lookup_cons, List.lookup_cons]
    by_cases hentry : entry.1 = name
    · by_cases hother : other = name
      · simp [hentry, hother]
      · simp [hentry, beq_false_of_ne hother, ih]
    · by_cases hother : other = entry.1
      · simp [hother, hentry]
      · simp [hentry, beq_false_of_ne hother, ih]

theorem get?_overwrite_of_ne (hne : other ≠ name) :
    (globals.overwrite name value).get? other = globals.get? other := by
  rw [get?_overwrite]
  simp [hne]

theorem contains_overwrite : (globals.overwrite name value).contains other = globals.contains other := by
  rw [contains, get?_overwrite, Option.isSome_map]
  rfl

theorem get?_define_of_ne (hne : other ≠ name) :
    (globals.define name value).get? other = globals.get? other := by
  unfold define
  split
  · exact get?_overwrite_of_ne hne
  · have hlast : [(name, value)].lookup other = none := by simp [hne]
    rw [get?, List.lookup_append, hlast, Option.or_none]
    rfl

theorem contains_define (h : globals.contains other = true) :
    (globals.define name value).contains other = true := by
  unfold define
  split
  · rw [contains_overwrite]
    exact h
  · unfold contains get? at h ⊢
    rw [List.lookup_append, Option.isSome_or, h, Bool.true_or]

/-- What can have become of a table of globals by definitions and assignments of certain names. -/
structure Evolves (defined assigned : String → Prop) (before after : Globals) : Prop where
  kept : ∀ name, before.contains name = true → after.contains name = true
  same : ∀ name, after.get? name = before.get? name ∨ defined name ∨
    (assigned name ∧ before.contains name = true)

variable {defined assigned : String → Prop} {a b c : Globals}

theorem Evolves.refl (a : Globals) : Evolves defined assigned a a := ⟨fun _ h => h, fun _ => Or.inl rfl⟩

theorem Evolves.trans (h : Evolves defined assigned a b) (h' : Evolves defined assigned b c) :
    Evolves defined assigned a c where
  kept name hname := h'.kept name (h.kept name hname)
  same name := by
    rcases h'.same name with hsame | hdefined | ⟨hassigned, hb⟩
    · rw [hsame]
      exact h.same name
    · exact Or.inr (Or.inl hdefined)
    · rcases h.same name with hsame | hdefined | hboth
      · refine Or.inr (Or.inr ⟨hassigned, ?_⟩)
        rw [contains, ← hsame]
        exact hb
      · exact Or.inr (Or.inl hdefined)
      · exact Or.inr (Or.inr hboth)

theorem Evolves.define (hname : defined name) :
    Evolves defined assigned globals (globals.define name value) where
  kept _ h := contains_define h
  same other := by
    by_cases hother : other = name
    · subst hother
      exact Or.inr (Or.inl hname)
    · exact Or.inl (get?_define_of_ne hother)

theorem Evolves.assign? (hname : assigned name) {globals' : Globals}
    (h : globals.assign? name value = some globals') :
    Evolves defined assigned globals globals' := by
  unfold Globals.assign? at h
  split at h
  · rename_i hcontains
    cases h
    refine ⟨fun other hother => by rw [contains_overwrite]; exact hother, fun other => ?_⟩
    by_cases hother : other = name
    · subst hother
      exact Or.inr (Or.inr ⟨hname, hcontains⟩)
    · exact Or.inl (get?_overwrite_of_ne hother)
  · cases h

end Globals

/-! ### Steps -/

namespace Machine

variable {host : Host} {hosts : Hosts} {m m' : Machine} {frame : Frame} {defined assigned : String → Prop}

/-- A step that leaves the globals alone, however it ends. -/
abbrev Step.KeepsGlobals (m : Machine) (s : Step) : Prop :=
  s.Satisfies (fun m' => m'.globals = m.globals) (fun m' => m'.globals = m.globals) fun m' _ =>
    m'.globals = m.globals

/-- A step that changes the globals only by definitions and assignments of certain names, however it ends. -/
abbrev Step.Evolves (defined assigned : String → Prop) (m : Machine) (s : Step) : Prop :=
  s.Satisfies (fun m' => m.globals.Evolves defined assigned m'.globals)
    (fun m' => m.globals.Evolves defined assigned m'.globals) fun m' _ =>
      m.globals.Evolves defined assigned m'.globals

theorem Step.KeepsGlobals.evolves {s : Step} (h : s.KeepsGlobals m) : s.Evolves defined assigned m := by
  cases s with
  | next m' | done m' | fault m' fault =>
    show m.globals.Evolves defined assigned m'.globals
    rw [show m'.globals = m.globals from h]
    exact .refl m.globals

theorem unary_keepsGlobals (m : Machine) (f : Value → Except Fault Value) : (m.unary f).KeepsGlobals m := by
  unfold Machine.unary
  split
  · rfl
  · split <;> rfl

theorem binary_keepsGlobals (m : Machine) (f : Value → Value → Except Fault Value) :
    (m.binary f).KeepsGlobals m := by
  unfold Machine.binary
  split
  · split <;> rfl
  · rfl

theorem call_keepsGlobals (host : Host) (m : Machine) (count : UInt8) : (call host m count).KeepsGlobals m := by
  unfold Machine.call
  split
  · rfl
  · unfold Machine.callFunction
    split
    · rfl
    · split
      · rfl
      · split <;> rfl
  · unfold Machine.callNative
    split
    · rfl
    · dsimp only
      split <;> rfl
  · rfl

theorem leave_keepsGlobals (m : Machine) : m.leave.KeepsGlobals m := by
  unfold Machine.leave
  split <;> rfl

/-- Only definitions and assignments change the globals. -/
theorem perform_keepsGlobals (host : Host) (m : Machine) (frame : Frame) {i : Instruction}
    (hdefine : ∀ index, i ≠ .defineGlobal index) (hassign : ∀ index, i ≠ .setGlobal index) :
    (perform host m frame i).KeepsGlobals m := by
  cases i with
  | nil | trueValue | falseValue | jump => rfl
  | defineGlobal index => exact absurd rfl (hdefine index)
  | setGlobal index => exact absurd rfl (hassign index)
  | equal | greater | less | add | subtract | multiply | divide =>
    rw [perform]
    exact binary_keepsGlobals m _
  | logicalNot | negate =>
    rw [perform]
    exact unary_keepsGlobals m _
  | call count => exact call_keepsGlobals host m count
  | ret => exact leave_keepsGlobals m
  | constant | getLocal | pop | loop =>
    rw [perform]
    split <;> rfl
  | setLocal =>
    rw [perform]
    split
    · split <;> rfl
    · rfl
  | getGlobal | print =>
    rw [perform]
    split
    · rfl
    · split <;> rfl
  | jumpIfFalse =>
    rw [perform]
    split
    · rfl
    · show Machine.globals (if _ then _ else _) = m.globals
      split <;> rfl

/-- An instruction changes no global but the one that it defines or assigns. -/
theorem perform_evolves (host : Host) (m : Machine) (frame : Frame) {i : Instruction}
    (hdefine : ∀ index name, i = .defineGlobal index → frame.name index = .ok name → defined name)
    (hassign : ∀ index name, i = .setGlobal index → frame.name index = .ok name → assigned name) :
    (perform host m frame i).Evolves defined assigned m := by
  cases i with
  | defineGlobal index =>
    rw [perform]
    split
    · exact .refl m.globals
    · rename_i name hname
      split
      · exact .define (hdefine index name rfl hname)
      · exact .refl m.globals
  | setGlobal index =>
    rw [perform]
    split
    · exact .refl m.globals
    · rename_i name hname
      split
      · exact .refl m.globals
      · split
        · rename_i globals hassigned
          exact .assign? (hassign index name rfl hname) hassigned
        · exact .refl m.globals
  | _ => exact (perform_keepsGlobals host m frame (fun _ => by simp) fun _ => by simp).evolves

/-! ### Runs -/

section

variable {S : Function → Prop}

/-- A machine that stays where the verifier has read instructions changes no globals but those
    that are named there. -/
theorem Placed.step_evolves (hosts : Hosts)
    (h : Placed S (fun f place => f.chunk.IsStart place ∨ place = f.chunk.size) m) :
    (Machine.step hosts m).Evolves (Function.SomeNames S .defineGlobal)
      (Function.SomeNames S .setGlobal) m := by
  cases hframes : m.frames with
  | nil => exact absurd hframes h.running
  | cons frame callers =>
    obtain ⟨hfunction, hplace⟩ := h.frames frame (by rw [hframes]; exact List.mem_cons_self)
    unfold Machine.step
    split
    · exact .refl m.globals
    · rw [hframes]
      dsimp only
      split
      · rename_i i hread
        have hnamed : ∀ (kind : UInt8 → Instruction) index name, i = kind index →
            ({ frame with ip := frame.ip + i.size } : Frame).name index = .ok name →
            Function.SomeNames S kind name := by
          intro kind index name hi hname
          rw [hi] at hread
          exact ⟨frame.function, hfunction, Chunk.names_of_read hplace hread (Frame.constant?_of_name hname)⟩
        exact perform_evolves (hosts.during m.steps) { m with steps := m.steps + 1, frames := _ }
          _ (hnamed .defineGlobal)
          (hnamed .setGlobal)
      · exact .refl m.globals
      · exact .refl m.globals
      · exact .refl m.globals

theorem Placed.advance_evolves (hhosts : hosts.Keeps S)
    (hclosed : Function.Closed S fun f place => f.chunk.IsStart place ∨ place = f.chunk.size)
    (h : Placed S (fun f place => f.chunk.IsStart place ∨ place = f.chunk.size) m) (fuel : Nat) :
    m.globals.Evolves (Function.SomeNames S .defineGlobal) (Function.SomeNames S .setGlobal)
      (Machine.advance hosts m fuel).machine.globals := by
  induction fuel generalizing m with
  | zero => exact .refl m.globals
  | succ fuel ih =>
    have hplaced := h.step hclosed hhosts
    have hevolves := h.step_evolves hosts
    unfold Machine.advance
    cases hstep : Machine.step hosts m with
    | next m' =>
      rw [hstep] at hplaced hevolves
      exact Globals.Evolves.trans hevolves (ih hplaced)
    | done m' | fault m' reason =>
      rw [hstep] at hevolves
      exact hevolves

theorem progress_evolves (hhosts : hosts.Keeps S)
    (hclosed : Function.Closed S fun f place => f.chunk.IsStart place ∨ place = f.chunk.size)
    (hglobals : m.globals.In S) {script : Function} (hscript : S script) (fuel : Nat) :
    m.globals.Evolves (Function.SomeNames S .defineGlobal) (Function.SomeNames S .setGlobal)
      (progress hosts fuel m script).machine.globals := by
  have hstarted := (unchanged_start m script).1
  unfold progress
  cases hstart : m.start script with
  | running m₀ =>
    rw [hstart] at hstarted
    have hplaced := Reaches.placed hclosed hhosts hglobals hscript ⟨m₀, 0, hstart, rfl⟩
    have hevolves := hplaced.advance_evolves hhosts hclosed fuel
    rwa [show m₀.globals = m.globals from hstarted] at hevolves
  | done m₀ | failed m₀ fault =>
    rw [hstart] at hstarted
    show m.globals.Evolves _ _ m₀.globals
    rw [show m₀.globals = m.globals from hstarted]
    exact .refl m.globals

end

/-- However a run of verified code ends, it has removed no global. It has created one only if a definition
    names it, and given one another value only if a definition or an assignment names it, in code of a
    function inside the script or inside a function that was among the globals before. -/
theorem run_changes_named_globals (hhosts : hosts.Faithful) (hglobals : m.globals.In Function.Verified)
    {f : Function}
    (hf : f.verify = .ok ()) {fuel : Nat} {o : Outcome} (hrun : m.run hosts fuel f = some o) (name : String) :
    (m.globals.contains name = true → o.machine.globals.contains name = true) ∧
    (m.globals.contains name = false → o.machine.globals.contains name = true →
      Function.SomeNames (Function.Reachable f m.globals) .defineGlobal name) ∧
    (m.globals.contains name = true → o.machine.globals.get? name ≠ m.globals.get? name →
      Function.SomeNames (Function.Reachable f m.globals) .defineGlobal name ∨
        Function.SomeNames (Function.Reachable f m.globals) .setGlobal name) := by
  have hevolves := progress_evolves (hhosts.keeps _) (Function.closed_reachable hf hglobals)
    (Globals.in_reachable f m.globals) (Or.inl f.mem_all_self) fuel
  rw [run_eq] at hrun
  rw [← (unchanged_outcome hrun).1] at hevolves
  refine ⟨hevolves.kept name, fun hbefore hafter => ?_, fun _ hchanged => ?_⟩
  · rcases hevolves.same name with hsame | hdefined | ⟨-, hcontains⟩
    · rw [Globals.contains, hsame] at hafter
      rw [Globals.contains, hafter] at hbefore
      cases hbefore
    · exact hdefined
    · rw [hbefore] at hcontains
      cases hcontains
  · rcases hevolves.same name with hsame | hdefined | ⟨hassigned, -⟩
    · exact absurd hsame hchanged
    · exact Or.inl hdefined
    · exact Or.inr hassigned

/-- A function that assigns to the global `a`. -/
def assigning : Function :=
  { arity := 0
    chunk :=
      { code := #[0x02, 0x09, 0x00, 0x04, 0x01, 0x18], lines := #[1, 1, 1, 1, 1, 1],
        constants := [.string "a"] }
    name := some "f" }

/-- A machine with the globals `a` and `f`. -/
def prepared : Machine := { globals := ⟨[("a", .nil), ("f", .function ⟨7, []⟩ assigning)]⟩ }

/-- A script that calls `f`, defines the global `c` and then fails. -/
def calling : Function :=
  { arity := 0
    chunk :=
      { code := #[0x07, 0x00, 0x17, 0x00, 0x04, 0x01, 0x08, 0x01, 0x01, 0x17, 0x00, 0x18]
        lines := #[1, 1, 1, 1, 1, 1, 1, 1, 1, 1, 1, 1], constants := [.string "f", .string "c"] }
    name := none }

/-- The failed run has kept `f`, created `c`, which the script defines, and changed `a`, to which
    only `f` assigns. -/
theorem run_changes_named_globals_calling : ∃ o error, prepared.run (Host.standard 0) 20 calling = some o ∧
    o.result = .error error ∧ o.machine.globals.contains "f" = true ∧
    Function.SomeNames (Function.Reachable calling prepared.globals) .defineGlobal "c" ∧
    (Function.SomeNames (Function.Reachable calling prepared.globals) .defineGlobal "a" ∨
      Function.SomeNames (Function.Reachable calling prepared.globals) .setGlobal "a") := by
  have hverify : calling.verify = .ok () := by decide +kernel
  have hglobals : prepared.globals.In Function.Verified := by
    intro entry hentry id f heq
    rcases List.mem_cons.mp hentry with rfl | hentry
    · cases heq
    · rw [List.mem_singleton.mp hentry] at heq
      cases heq
      show assigning.verify = .ok ()
      decide +kernel
  have hruns : ((prepared.run (Host.standard 0) 20 calling).any fun o =>
      decide (o.result.isOk = false ∧ o.machine.globals.contains "c" = true ∧
        (o.machine.globals.get? "a").map Value.isFalsy = some false)) = true := by decide +kernel
  obtain ⟨o, hrun, hchecks⟩ := (Option.any_eq_true _ _).mp hruns
  obtain ⟨hfails, hcreated, htrue⟩ := of_decide_eq_true hchecks
  have hchanged : o.machine.globals.get? "a" ≠ prepared.globals.get? "a" := by
    have hbefore : prepared.globals.get? "a" = some .nil := rfl
    intro hsame
    rw [hsame, hbefore] at htrue
    cases htrue
  have hnamed := run_changes_named_globals (Host.faithful_standard 0).always hglobals hverify hrun
  cases herror : o.result with
  | ok _ =>
    rw [herror] at hfails
    cases hfails
  | error error =>
    exact ⟨o, error, hrun, herror, (hnamed "f").1 rfl, (hnamed "c").2.1 rfl hcreated,
      (hnamed "a").2.2 rfl hchanged⟩

end Machine

end Lox
