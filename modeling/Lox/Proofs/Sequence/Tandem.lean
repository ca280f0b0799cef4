import Lox.Proofs.Machine.Discipline
import Lox.Proofs.Machine.Likeness
import Lox.Proofs.Machine.Limits
import Lox.Proofs.Simulation.Follows

/-! # Scripts in tandem

Two machines run scripts of which the second has the code of the first, some bytes later. As long as the first
keeps to that code, they stay alike in what they have above the slots of the scripts. -/

namespace Lox.Machine

variable {M : Matching} {S : Function → Prop} {depth : Function → Nat → Option Nat} {hosts : Hosts}
    {m m' : Machine}
  {frame : Frame}

/-! ### What a step leaves alone -/

/-- A machine has the limits of another, and the same objects are new to it. -/
structure Retains (m n : Machine) : Prop where
  limits : n.limits = m.limits
  nextOrigin : n.nextOrigin = m.nextOrigin

theorem retains_perform (host : Host) (m : Machine) (frame : Frame) (i : Instruction) :
    (perform host m frame i).Satisfies
    m.Retains (fun n => m.Retains n ∧ i = .ret ∧ ∃ only, m.frames = [only]) fun n _ => m.Retains n := by
  cases i with
  | ret =>
    rw [perform, leave]
    split
    · exact ⟨rfl, rfl⟩
    · exact ⟨rfl, rfl⟩
    · rename_i hframes
      exact ⟨⟨rfl, rfl⟩, rfl, _, hframes⟩
    · exact ⟨rfl, rfl⟩
  | jumpIfFalse distance =>
    simp only [perform]
    split
    · exact ⟨rfl, rfl⟩
    · split <;> exact ⟨rfl, rfl⟩
  | _ =>
    simp only [perform, unary, binary, call, callFunction, callNative]
    repeat' split
    all_goals exact ⟨rfl, rfl⟩

/-- A step changes neither the limits nor which objects are new, and only a return from the
    last call ends a run. -/
theorem retains_step (hosts : Hosts) (m : Machine) : (step hosts m).Satisfies m.Retains
    (fun n => m.Retains n ∧ ∃ frame, m.frames = [frame] ∧
      Instruction.read frame.function.chunk.code frame.ip = .instruction .ret) fun n _ => m.Retains n := by
  unfold step
  split
  · exact ⟨rfl, rfl⟩
  · split
    · exact ⟨rfl, rfl⟩
    · rename_i frame callers hframes
      split
      · rename_i i hread
        have hretains := retains_perform (hosts.during m.steps) { m with
          steps := m.steps + 1
          frames := { frame with ip := frame.ip + i.size } :: m.frames.tail }
            { frame with ip := frame.ip + i.size } i
        dsimp only
        generalize perform (hosts.during m.steps) _ _ i = result at hretains ⊢
        cases result with
        | next n => exact ⟨hretains.limits, hretains.nextOrigin⟩
        | done n =>
          obtain ⟨hsame, rfl, only, honly⟩ := hretains
          refine ⟨⟨hsame.limits, hsame.nextOrigin⟩, frame, ?_, hread⟩
          rw [hframes] at honly ⊢
          exact congrArg (frame :: ·) (List.cons.inj honly).2
        | fault n fault => exact ⟨hretains.limits, hretains.nextOrigin⟩
      all_goals exact ⟨rfl, rfl⟩

theorem retains_advance (hosts : Hosts) (m : Machine) (n : Nat) : m.Retains (advance hosts m n).machine := by
  induction n generalizing m with
  | zero => exact ⟨rfl, rfl⟩
  | succ n ih =>
    have hstep := retains_step hosts m
    unfold advance
    cases hs : step hosts m with
    | next m₁ =>
      rw [hs] at hstep
      exact ⟨(ih m₁).limits.trans hstep.limits, (ih m₁).nextOrigin.trans hstep.nextOrigin⟩
    | done m₁ =>
      rw [hs] at hstep
      exact hstep.1
    | fault m₁ fault =>
      rw [hs] at hstep
      exact hstep

/-- A run that ends begins with a step that ends it, or with one after which it ends. -/
theorem cases_of_done {fuel : Nat} {last : Machine} (h : advance hosts m fuel = .done last) :
    step hosts m = .done last ∨ ∃ m₁ rest, rest < fuel ∧ step hosts m = .next m₁ ∧
      advance hosts m₁ rest = .done last := by
  cases fuel with
  | zero => cases h
  | succ fuel =>
    unfold advance at h
    cases hs : step hosts m with
    | next m₁ =>
      rw [hs] at h
      exact .inr ⟨m₁, fuel, Nat.lt_succ_self fuel, rfl, h⟩
    | done m₁ =>
      rw [hs] at h
      cases h
      exact .inl rfl
    | fault m₁ fault =>
      rw [hs] at h
      cases h

theorem leave_last {value : Value} (hpeek : m.peek? 0 = some value) (hframes : m.frames = [frame]) :
    m.leave = .done { m with stack := m.stack.pop.shrink frame.slots, frames := [] } := by
  unfold leave
  rw [hpeek, hframes]

/-- A script that is about to return without a result ends its run and changes nothing that lasts. -/
theorem ends_of_return {fuel : Nat} {last : Machine} (hframes : m.frames = [frame])
    (hnil : Instruction.read frame.function.chunk.code frame.ip = .instruction .nil)
    (hret : Instruction.read frame.function.chunk.code (frame.ip + 1) = .instruction .ret)
    (hdone : advance hosts m fuel = .done last) : last.globals = m.globals ∧ last.sink = m.sink ∧
    m.Retains last := by
  rcases cases_of_done hdone with hstep | ⟨m₁, rest, -, hstep, hdone⟩
  · rw [step_eq hframes hnil] at hstep
    split at hstep <;> cases hstep
  · rw [step_eq hframes hnil] at hstep
    split at hstep <;> cases hstep
    have hleave := @leave_last { m with
        steps := m.steps + 1 + 1
        frames := [{ frame with ip := frame.ip + 1 + 1 }]
        stack := m.stack.push .nil } { frame with ip := frame.ip + 1 + 1 } .nil (by simp [peek?]) rfl
    rcases cases_of_done hdone with hstep | ⟨m₂, rest, -, hstep, -⟩
    · rw [step_eq rfl hret] at hstep
      split at hstep
      · cases hstep
      · cases hstep.symm.trans hleave
        exact ⟨rfl, rfl, rfl, rfl⟩
    · rw [step_eq rfl hret] at hstep
      split at hstep
      · cases hstep
      · cases hstep.symm.trans hleave

/-! ### Scripts in tandem -/

/-- Two scripts that run in tandem: when the first is at a good place, the second is so many bytes ahead. -/
structure Tandem where
  id : ObjectId
  id' : ObjectId
  script : Function
  script' : Function
  ahead : Nat
  Good : Nat → Prop

namespace Tandem

variable {t : Tandem}

/-- The outermost calls are those of the scripts. -/
def floor (t : Tandem) : Frame.Floor where
  Holds outer outer' := ∃ ip, t.Good ip ∧ outer = [⟨t.id, t.script, ip, 0⟩] ∧
    outer' = [⟨t.id', t.script', ip + t.ahead, 0⟩]
  length := by
    rintro _ _ ⟨ip, -, rfl, rfl⟩
    rfl

/-- An instruction of the first script that corresponds to one of the second, goes to good places, and leaves
    the slot of the script alone. -/
structure Matches (t : Tandem) (M : Matching) (offset : Nat) (item : Item) : Prop where
  read : Instruction.read t.script.chunk.code offset = .instruction item.instruction
  read' : ∃ i', Instruction.read t.script'.chunk.code (offset + t.ahead) = .instruction i' ∧
    i'.size = item.size ∧
    ∀ ip ip', item.instruction.Corresponds M ⟨t.id, t.script, ip, 0⟩ ⟨t.id', t.script', ip', 0⟩ i'
  takes : 1 + item.instruction.takes ≤ item.height
  slot : ∀ slot, item.instruction = .getLocal slot ∨ item.instruction = .setLocal slot → slot ≠ 0
  next : t.Good (offset + item.size)
  leads : ∀ place ∈ item.instruction.leads offset, t.Good place
  back : ∀ distance, item.instruction = .loop distance → distance.toNat ≤ offset + 3

/-- If only one call is active, it is that of the script. -/
theorem only (h : m.Like M 1 t.floor m') (hframes : m.frames = [frame]) :
    ∃ ip, t.Good ip ∧ m.frames = [⟨t.id, t.script, ip, 0⟩] ∧
      m'.frames = [⟨t.id', t.script', ip + t.ahead, 0⟩] := by
  have hcalls := h.frames
  generalize hf : m.frames = frames, m'.frames = frames' at hcalls
  cases hcalls with
  | outer houter => exact houter
  | call _ hcallers =>
    cases hf.symm.trans hframes
    cases hcallers with
    | outer houter =>
      obtain ⟨ip, -, hnil, -⟩ := houter
      cases hnil

/-- Scripts that are at a good place are paired. -/
theorem paired (t : Tandem) (M : Matching) (ip : Nat) :
    Paired M 1 t.floor t.Good t.ahead ⟨t.id, t.script, ip, 0⟩ ⟨t.id', t.script', ip + t.ahead, 0⟩ [] [] where
  slots := rfl
  ip := rfl
  moved ip hgood := .outer ⟨ip, hgood, rfl, rfl⟩
  left := .inl ⟨rfl, rfl⟩

theorem Matches.spares {ip : Nat} {item : Item} (h : t.Matches M ip item) (hsize : m.stack.size = item.height) :
    Spares 1 t.Good t.ahead m ⟨t.id, t.script, ip + item.size, 0⟩ item.instruction where
  takes distance hdistance _ := by
    have htakes := h.takes
    omega
  place slot hslot := by
    have hne : slot.toNat ≠ 0 := fun hzero => h.slot slot hslot (UInt8.toNat_inj.mp hzero)
    dsimp only
    omega
  jump distance hjump := by
    have hthree : item.size = 3 := by rcases hjump with hjump | hjump <;> exact congrArg Instruction.size hjump
    refine h.leads _ ?_
    dsimp only
    rw [hthree]
    rcases hjump with hjump | hjump <;> rw [hjump]
    · exact List.mem_singleton_self _
    · exact List.mem_cons_of_mem _ (List.mem_singleton_self _)
  loop distance hloop := by
    have hthree : item.size = 3 := congrArg Instruction.size hloop
    have hback := h.back distance hloop
    dsimp only
    rw [hthree]
    refine ⟨h.leads _ ?_, .inr hback⟩
    rw [hloop]
    exact List.mem_singleton_self _

/-- A step of the scripts. -/
theorem step_outer (hhosts : hosts.Steady M) (h : m.Like M 1 t.floor m') {ip : Nat} {item : Item}
    (hframes : m.frames = [⟨t.id, t.script, ip, 0⟩])
    (hframes' : m'.frames = [⟨t.id', t.script', ip + t.ahead, 0⟩])
    (hsize : m.stack.size = item.height) (hmatches : t.Matches M ip item) :
    Step.Like M 1 t.floor (Machine.step hosts m) (Machine.step hosts m') := by
  obtain ⟨i', hread', hsize', hcorresponds⟩ := hmatches.read'
  rw [step_eq hframes hmatches.read, step_eq hframes' hread', h.filter_eq]
  split
  · exact .fault h _
  · have hreads := h.reads (t.paired M ip) hmatches.next
    have hpaired := t.paired M (ip + item.size)
    dsimp only at hreads
    rw [Nat.add_right_comm] at hpaired
    rw [hsize']
    exact hreads.perform (hhosts _ _) rfl rfl hpaired (hcorresponds _ _) (hmatches.spares hsize)

/-- A step of machines that run the scripts and what they have called. -/
theorem step (hfamily : Function.Family S depth) (hhosts : hosts.Steady M) (hm : Disciplined S depth m)
    (h : m.Like M 1 t.floor m') (hplace : ∀ ip height, m.frames = [⟨t.id, t.script, ip, 0⟩] → t.Good ip →
      depth t.script ip = some height → ∃ item, item.height = height ∧ t.Matches M ip item) :
    Step.Like M 1 t.floor (Machine.step hosts m) (Machine.step hosts m') := by
  have hframes := h.frames
  have hstacked := hm.stacked
  generalize hf : m.frames = frames, hf' : m'.frames = frames' at hframes hstacked
  cases hframes with
  | outer houter =>
    obtain ⟨ip, hgood, rfl, rfl⟩ := houter
    obtain ⟨⟨-, height, hdepth, hsize⟩, -⟩ := hstacked
    obtain ⟨item, rfl, hmatches⟩ := hplace ip height hf hgood hdepth
    exact step_outer hhosts h hf hf' (hsize.trans (Nat.zero_add _)) hmatches
  | call hframe hcallers =>
    obtain ⟨⟨hfunction, height, hdepth, hsize⟩, -⟩ := hstacked
    obtain ⟨i, hread, hflows⟩ := (hfamily.flows hfunction).inside hdepth
    have htakes := hflows.takes
    have hbase := hframe.base
    refine Like.step (hhosts _ _) h hf hf' hframe hcallers fun j hread' => ?_
    cases hread.symm.trans hread'
    exact ⟨fun distance hdistance _ => by omega, fun slot _ => Nat.le_add_right_of_le hbase, fun _ _ => trivial,
      fun _ _ => ⟨trivial, .inl rfl⟩⟩

/-- If the first run ends, its script comes to the end of what it has in common with the second, which comes
    to the same place in as many steps. -/
theorem reaches (hfamily : Function.Family S depth) (hhosts : hosts.Steady M) (hkeeps : hosts.Keeps S)
    {size : Nat} (hgood : ∀ ip, t.Good ip → ip ≤ size)
    (hinside : ∀ ip height, ip < size → depth t.script ip = some height →
      ∃ item, item.height = height ∧ t.Matches M ip item ∧ item.instruction ≠ .ret)
    (hm : Disciplined S depth m) (h : m.Like M 1 t.floor m') {fuel : Nat} {last : Machine}
    (hdone : advance hosts m fuel = .done last) : ∃ n rest m₁ m₁', advance hosts m n = .running m₁ ∧
      advance hosts m' n = .running m₁' ∧ Disciplined S depth m₁ ∧ m₁.Like M 1 t.floor m₁' ∧
      m₁.frames = [⟨t.id, t.script, size, 0⟩] ∧ advance hosts m₁ rest = .done last := by
  induction fuel using Nat.strongRecOn generalizing m m' with
  | ind fuel ih =>
    by_cases hend : m.frames = [⟨t.id, t.script, size, 0⟩]
    · exact ⟨0, fuel, m, m', rfl, rfl, hm, h, hend, hdone⟩
    · have hlt {ip : Nat} (hframes : m.frames = [⟨t.id, t.script, ip, 0⟩]) (hip : t.Good ip) : ip < size := by
        refine Nat.lt_of_le_of_ne (hgood ip hip) fun heq => hend ?_
        rw [hframes, heq]
      have hlike := step hfamily hhosts hm h fun ip height hframes hip hdepth => by
        obtain ⟨item, hheight, hmatches, -⟩ := hinside ip height (hlt hframes hip) hdepth
        exact ⟨item, hheight, hmatches⟩
      rcases cases_of_done hdone with hstep | ⟨m₁, rest, hrest, hstep, hdone⟩
      · -- Only a return from the script ends the run, and it does not stand where the two scripts agree.
        have hreturn := retains_step hosts m
        rw [hstep] at hreturn
        obtain ⟨-, frame, hframe, hread⟩ := hreturn
        obtain ⟨ip, hip, hframes, -⟩ := only h hframe
        cases hframe.symm.trans hframes
        have hstacked := hm.stacked
        rw [hframe] at hstacked
        obtain ⟨⟨-, height, hdepth, -⟩, -⟩ := hstacked
        obtain ⟨item, -, hmatches, hne⟩ := hinside ip height (hlt hframe hip) hdepth
        exact absurd (Instruction.Reading.instruction.inj (hmatches.read.symm.trans hread)) hne
      · rw [hstep] at hlike
        have hnext := hm.step hfamily hkeeps
        rw [hstep] at hnext
        generalize hstep' : Machine.step hosts m' = s' at hlike
        cases hlike with
        | next hlike =>
          obtain ⟨n, rest', m₂, m₂', hrun, hrun', hgoal⟩ := ih rest hrest hnext hlike hdone
          refine ⟨n + 1, rest', m₂, m₂', ?_, ?_, hgoal⟩
          · rw [advance, hstep]
            exact hrun
          · rw [advance, hstep']
            exact hrun'

end Tandem

end Lox.Machine
