import Mathlib.Algebra.Order.BigOperators.Group.List
import Mathlib.Algebra.Order.Group.Nat
import Lox.Proofs.Machine.Calls
import Lox.Proofs.Machine.Limits
import Lox.Proofs.Verification.Reading

/-! # Runs without loops

A machine that runs verified functions in which no instruction goes back comes to an end, however they call
each other and themselves. Each call goes forward in its code, and as there is a limit on the active calls,
all that a call can still do weighs less than one byte of the code of its caller. -/

namespace Lox

/-- Only a loop goes back. -/
theorem Instruction.le_of_mem_leads {i : Instruction} (hloop : i.opcode ≠ .loop) {offset place : Nat}
    (h : place ∈ i.leads offset) : offset + i.size ≤ place := by
  cases i with
  | ret => cases h
  | loop distance => exact absurd rfl hloop
  | jump distance =>
    rw [List.mem_singleton.mp h]
    exact Nat.le_add_right _ _
  | jumpIfFalse distance =>
    rcases List.mem_cons.mp h with rfl | h
    · exact Nat.le_refl _
    · rw [List.mem_singleton.mp h]
      exact Nat.le_add_right _ _
  | _ => exact Nat.le_of_eq (List.mem_singleton.mp h).symm

/-- No instruction that the verifier reads in the chunk goes back. -/
def Chunk.Forward (chunk : Chunk) : Prop :=
  ∀ found, chunk.instructions = .ok found → ∀ entry ∈ found, entry.2.opcode ≠ .loop

namespace Function

/-- No instruction of the function, or of a function inside, goes back. -/
def Forward (f : Function) : Prop := ∀ g ∈ f.all, g.chunk.Forward

/-- A verified function that only goes forward, with a bound on the code of all functions inside. -/
structure ForwardWithin (bound : Nat) (f : Function) : Prop where
  verified : f.Verified
  forward : f.Forward
  size_le : ∀ g ∈ f.all, g.chunk.size ≤ bound

variable {f : Function} {bound : Nat}

/-- Verified functions that only go forward, with the starts of their instructions and the end of their code. -/
theorem closed_forwardWithin (bound : Nat) :
    Closed (ForwardWithin bound) fun f place => f.chunk.IsStart place ∨ place = f.chunk.size where
  entry h := closed_verified.entry h.verified
  constant h hg :=
    ⟨h.verified.constant hg, fun k hk => h.forward k (mem_all.mpr (Or.inr ⟨_, hg, hk⟩)),
      fun k hk => h.size_le k (mem_all.mpr (Or.inr ⟨_, hg, hk⟩))⟩
  inside h hplace := closed_verified.inside h.verified hplace

/-- What is read at one of the places does not go back. -/
theorem ForwardWithin.opcode_ne_loop (h : f.ForwardWithin bound) {place : Nat}
    (hplace : f.chunk.IsStart place ∨ place = f.chunk.size) {i : Instruction}
    (hread : Instruction.read f.chunk.code place = .instruction i) : i.opcode ≠ .loop := by
  rcases hplace with ⟨found, hfound, j, hj⟩ | rfl
  · have hstart := (Chunk.instructions_eq_ok.mp hfound).mem (Array.mem_def.mp hj)
    cases hread.symm.trans hstart.1
    exact h.forward f f.mem_all_self found hfound (place, i) hj
  · cases hread.symm.trans (Instruction.read_eq_pastEnd (Nat.le_refl f.chunk.code.size))

end Function

namespace Machine

variable {host : Host} {hosts : Hosts} {m m' : Machine} {frame : Frame} {callers : List Frame}
    {bound room : Nat}

/-! ### Weights -/

/-- What active calls can still do, if no code is longer than `bound` and no more than `room` calls can be
    active. A byte that a call has before it weighs more than all that a function called from there can do. -/
def weight (bound room : Nat) : List Frame → Nat
  | [] => 0
  | frame :: callers => (bound - frame.ip) * (bound + 1) ^ (room - callers.length) + weight bound room callers

/-- A call that goes forward gets lighter. -/
theorem weight_lt_of_ip_lt {ip : Nat} (hip : frame.ip < ip) (hbound : frame.ip < bound) (callers : List Frame) :
    weight bound room ({ frame with ip } :: callers) < weight bound room (frame :: callers) := by
  have hleft : bound - ip < bound - frame.ip := by omega
  exact Nat.add_lt_add_right (Nat.mul_lt_mul_of_pos_right hleft (Nat.pow_pos (Nat.succ_pos bound))) _

/-- A call that has gone forward and calls a function gets lighter, with the new call. -/
theorem weight_enter_lt {ip : Nat} (hip : frame.ip < ip) (hbound : frame.ip < bound) {callee : Frame}
    (hroom : callers.length + 1 < room) :
    weight bound room (callee :: { frame with ip } :: callers) < weight bound room (frame :: callers) := by
  obtain ⟨spare, hspare⟩ : ∃ spare, room - callers.length = spare + 1 := ⟨room - callers.length - 1, by omega⟩
  have hcallee : (bound - callee.ip) * (bound + 1) ^ spare < (bound + 1) ^ (spare + 1) := by
    rw [Nat.pow_succ, Nat.mul_comm _ (bound + 1)]
    exact Nat.mul_lt_mul_of_pos_right (by omega) (Nat.pow_pos (Nat.succ_pos bound))
  have hcaller : (bound - ip) * (bound + 1) ^ (spare + 1) + (bound + 1) ^ (spare + 1) ≤
      (bound - frame.ip) * (bound + 1) ^ (spare + 1) := by
    rw [← Nat.succ_mul]
    exact Nat.mul_le_mul_right _ (by omega)
  have hlength : room - (callers.length + 1) = spare := by omega
  simp only [weight, List.length_cons, hspare, hlength]
  omega

/-- A call that returns takes its weight along. -/
theorem weight_leave_lt (hbound : frame.ip < bound) (callers : List Frame) :
    weight bound room callers < weight bound room (frame :: callers) :=
  Nat.lt_add_of_pos_left (Nat.mul_pos (Nat.sub_pos_of_lt hbound) (Nat.pow_pos (Nat.succ_pos bound)))

/-- A step that does not go back makes the active calls lighter. -/
theorem weight_step_lt (hframes : m.frames = frame :: callers) (hbound : frame.function.chunk.size ≤ bound)
    (hforward : ∀ i, Instruction.read frame.function.chunk.code frame.ip = .instruction i → i.opcode ≠ .loop)
    (hstep : step hosts m = .next m') :
    weight bound m.limits.maxFrames m'.frames < weight bound m.limits.maxFrames m.frames := by
  obtain ⟨i, hread, hmoves⟩ := moves_step hframes hstep
  have hpos := i.size_pos
  have hip : frame.ip < bound := by
    have hwithin := Instruction.read_within hread
    have hsize : frame.function.chunk.size = frame.function.chunk.code.size := rfl
    omega
  rw [hframes]
  cases hmoves with
  | stay ip hleads hframes' =>
    rw [hframes']
    have hle := Instruction.le_of_mem_leads (hforward i hread) (hleads frame.ip rfl)
    have hlt : frame.ip < ip := Nat.lt_of_lt_of_le (Nat.lt_add_of_pos_right hpos) hle
    exact weight_lt_of_ip_lt hlt hip callers
  | enter count callee _ _ hroom _ hframes' _ =>
    rw [hframes']
    exact weight_enter_lt (Nat.lt_add_of_pos_right hpos) hip hroom
  | leave result _ hframes' _ =>
    rw [hframes']
    exact weight_leave_lt hip callers

/-! ### Runs -/

/-- The calls of a machine at its places get lighter with every step, so no more steps can
    follow than they weigh. -/
theorem Placed.advance_ends (hhosts : hosts.Faithful) {fuel : Nat}
    (h : Placed (Function.ForwardWithin bound) (fun f place => f.chunk.IsStart place ∨ place = f.chunk.size) m)
    (hfuel : weight bound m.limits.maxFrames m.frames < fuel) :
    ∃ o, (Machine.advance hosts m fuel).outcome? = some o := by
  induction fuel generalizing m with
  | zero => exact absurd hfuel (Nat.not_lt_zero _)
  | succ fuel ih =>
    have hplaced := h.step (Function.closed_forwardWithin bound) (hhosts.keeps _)
    have hkeeps := step_keeps hosts m
    rw [Machine.advance]
    cases hstep : Machine.step hosts m with
    | next m' =>
      rw [hstep] at hplaced hkeeps
      refine ih hplaced ?_
      rw [hkeeps.1]
      cases hframes : m.frames with
      | nil => exact absurd hframes h.running
      | cons frame callers =>
        obtain ⟨hfunction, hplace⟩ := h.frames frame (by rw [hframes]; exact List.mem_cons_self)
        have hlt := weight_step_lt hframes (hfunction.size_le _ (Function.mem_all_self _))
          (fun i hread => hfunction.opcode_ne_loop hplace hread) hstep
        omega
    | done m' => exact ⟨_, rfl⟩
    | fault m' reason => exact ⟨_, rfl⟩

/-- Runs of verified functions in which no instruction goes back come to an end. -/
theorem forward_ends (hhosts : hosts.Faithful) (hglobals : m.globals.In fun f => f.Verified ∧ f.Forward)
    {script : Function}
    (hverified : script.Verified) (hforward : script.Forward) : ∃ fuel o, m.run hosts fuel script = some o := by
  let functions := script.all ++ m.globals.entries.flatMap fun entry => entry.2.plain.functions
  let bound := (functions.map (·.chunk.size)).sum
  have hbound : ∀ g ∈ functions, g.chunk.size ≤ bound := fun g hg =>
    List.le_sum_of_mem (List.mem_map_of_mem hg)
  have hscript : script.ForwardWithin bound :=
    ⟨hverified, hforward, fun g hg => hbound g (List.mem_append_left _ hg)⟩
  have hin : m.globals.In (Function.ForwardWithin bound) := by
    intro entry hentry id f hvalue
    obtain ⟨hf, hf'⟩ := hglobals entry hentry id f hvalue
    refine ⟨hf, hf', fun g hg => hbound g (List.mem_append_right _ (List.mem_flatMap.mpr ⟨entry, hentry, ?_⟩))⟩
    rw [hvalue]
    exact hg
  cases hstart : m.start script with
  | running m₀ =>
    have hplaced := Reaches.placed (Function.closed_forwardWithin bound) (hhosts.keeps _) hin hscript ⟨m₀, 0,
      hstart, rfl⟩
    obtain ⟨o, ho⟩ := hplaced.advance_ends hhosts (Nat.lt_succ_self _)
    exact ⟨_, o, by rw [run_eq, progress, hstart]; exact ho⟩
  | done m₀ => exact ⟨0, _, by rw [run_eq, progress, hstart]; rfl⟩
  | failed m₀ fault => exact ⟨0, _, by rw [run_eq, progress, hstart]; rfl⟩

end Machine

end Lox
