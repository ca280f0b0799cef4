import Mathlib.Logic.Equiv.Basic
import Lox.Proofs.Image.RoundTrip
import Lox.Proofs.Machine.Discipline
import Lox.Proofs.Machine.Likeness
import Lox.Proofs.Machine.Limits

/-! # Running what was loaded

A script that is loaded from an image is a new object with the code of the one that was written. Its run does
what a run of that one does: it ends with the same result and the same output, and the globals are the same up
to a renaming of the functions that it brought in. -/

namespace Lox

/-! ### Renamed objects -/

/-- The renaming that exchanges two origins. -/
def ObjectId.exchange (a b : Nat) : Equiv.Perm ObjectId where
  toFun id := { id with origin := Equiv.swap a b id.origin }
  invFun id := { id with origin := Equiv.swap a b id.origin }
  left_inv id := by simp
  right_inv id := by simp

/-- A value in which functions have other names. -/
def Value.renamed (π : Equiv.Perm ObjectId) : Value → Value
  | .function id f => .function (π id) f
  | value => value

/-- The globals with other names for functions. -/
def Globals.renamed (π : Equiv.Perm ObjectId) (globals : Globals) : Globals :=
  ⟨globals.entries.map fun entry => (entry.1, entry.2.renamed π)⟩

/-- No function among the globals has this origin. -/
def Globals.Foreign (origin : Nat) (globals : Globals) : Prop :=
  ∀ entry ∈ globals.entries, ∀ id f, entry.2 = .function id f → id.origin ≠ origin

/-- The functions inside a script have the origin `b` in place of `a`, and all else is the same. -/
def Matching.exchange (a b : Nat) : Matching where
  Holds i f j g := f = g ∧ ((i.origin ≠ a ∧ i.origin ≠ b ∧ j = i) ∨ i.origin = a ∧ j = ⟨b, i.path⟩ ∧
      ¬f.HoldsNative)
  unlined h := by rw [h.1]
  inside := by
    rintro i f j g k f' g' ⟨rfl, h⟩ hf hg
    cases hf.symm.trans hg
    refine ⟨rfl, ?_⟩
    rcases h with ⟨ha, hb, rfl⟩ | ⟨ha, rfl, hnative⟩
    · exact .inl ⟨ha, hb, rfl⟩
    · refine .inr ⟨ha, rfl, fun hinside => hnative ?_⟩
      exact f.holdsNative_iff.mpr (.inr ⟨f', List.mem_of_getElem? hf, hinside⟩)
  native := by
    rintro i f j g n ⟨rfl, h⟩ hn
    rcases h with ⟨-, -, rfl⟩ | ⟨-, -, hnative⟩
    · rfl
    · exact absurd (f.holdsNative_iff.mpr (.inl ⟨n, hn⟩)) hnative
  injective := by
    rintro ⟨o, p⟩ f j g ⟨o', p'⟩ f' j' g' ⟨-, h⟩ ⟨-, h'⟩
    rcases h with ⟨ha, hb, rfl⟩ | ⟨ha, rfl, -⟩ <;> rcases h' with ⟨ha', hb', rfl⟩ | ⟨ha', rfl, -⟩ <;>
      simp only [ObjectId.mk.injEq] at *
    · exact iff_of_false (fun h => ha (h.1.trans ha')) fun h => hb h.1
    · exact iff_of_false (fun h => ha' (h.1.symm.trans ha)) fun h => hb' h.1.symm
    · simp [ha, ha']

section

variable {a b : Nat} {i j : ObjectId} {f g : Function} {v w : Value}

theorem Matching.exchange_eq (h : (Matching.exchange a b).Holds i f j g) :
    j = ObjectId.exchange a b i ∧ f = g := by
  obtain ⟨rfl, ⟨ha, hb, rfl⟩ | ⟨rfl, rfl, -⟩⟩ := h
  · refine ⟨?_, rfl⟩
    show j = { j with origin := Equiv.swap a b j.origin }
    rw [Equiv.swap_apply_of_ne_of_ne ha hb]
  · refine ⟨?_, rfl⟩
    show _ = { i with origin := Equiv.swap i.origin b i.origin }
    rw [Equiv.swap_apply_left]

theorem Value.Like.eq_renamed (h : v.Like (Matching.exchange a b) w) :
    w = v.renamed (ObjectId.exchange a b) := by
  cases h with
  | same hv =>
    cases v with
    | function id f => exact absurd rfl (hv id f)
    | nil | bool | number | string | native => rfl
  | function h =>
    obtain ⟨rfl, rfl⟩ := Matching.exchange_eq h
    rfl

theorem Globals.Like.eq_renamed {globals globals' : Globals}
    (h : globals.Like (Matching.exchange a b) globals') :
    globals' = globals.renamed (ObjectId.exchange a b) := by
  obtain ⟨entries⟩ := globals
  obtain ⟨entries'⟩ := globals'
  refine congrArg Globals.mk ?_
  change List.Forall₂ _ entries entries' at h
  show entries' = entries.map _
  induction h with
  | nil => rfl
  | cons hentry _ ih =>
    rw [List.map_cons, ← ih, ← hentry.2.eq_renamed, hentry.1]

/-- Globals without functions of either origin are like themselves. -/
theorem Globals.like_exchange {globals : Globals} (ha : globals.Foreign a) (hb : globals.Foreign b) :
    globals.Like (Matching.exchange a b) globals := by
  refine List.forall₂_same.mpr fun entry hentry => ⟨rfl, ?_⟩
  cases hvalue : entry.2 with
  | function id f => exact .function ⟨rfl, .inl ⟨ha entry hentry id f hvalue, hb entry hentry id f hvalue, rfl⟩⟩
  | nil | bool | number | string | native => exact .same fun _ _ heq => by cases heq

end

/-! ### Runs -/

namespace Machine

variable {M : Matching} {hosts : Hosts} {m m' : Machine} {a b : Nat}

/-- No calls are left to the occasion. -/
def noFloor : Frame.Floor where
  Holds outer outer' := outer = [] ∧ outer' = []
  length := by
    rintro _ _ ⟨rfl, rfl⟩
    rfl

/-- Machines all of whose calls and values are alike. -/
abbrev Alike (M : Matching) (m m' : Machine) : Prop := m.Like M 0 noFloor m'

theorem Alike.step (hhosts : hosts.Respects M) (hsteps : m'.steps = m.steps) (h : m.Alike M m') :
    Step.Like M 0 noFloor (step hosts m) (step hosts m') := by
  have hhost := hhosts m.steps
  nth_rewrite 2 [← hsteps] at hhost
  have hframes := h.frames
  generalize hf : m.frames = frames, hf' : m'.frames = frames' at hframes
  cases hframes with
  | outer houter =>
    obtain ⟨rfl, rfl⟩ := houter
    unfold Machine.step
    rw [h.filter_eq, hf, hf']
    split
    · exact .fault h _
    · exact .fault h _
  | call hframe hcallers => exact Like.step hhost h hf hf' hframe hcallers fun i _ => spares_zero _ _ i

theorem Alike.advance (hhosts : hosts.Respects M) (hsteps : m'.steps = m.steps) (h : m.Alike M m')
    (fuel : Nat) :
    Progress.Like M 0 noFloor (advance hosts m fuel) (advance hosts m' fuel) := by
  refine @Like.advance M 0 noFloor hosts m m' (fun m m' => m'.steps = m.steps)
    (fun hsteps h => Alike.step hhosts hsteps h) (fun {m m' next next'} hsteps hnext hnext' => ?_) hsteps h fuel
  have hkept := step_keeps hosts m
  have hkept' := step_keeps hosts m'
  rw [hnext] at hkept
  rw [hnext'] at hkept'
  rw [hkept.2.1, hkept'.2.1, hsteps]

/-- A run of a script as an object with another origin. -/
def fromOrigin (m : Machine) (origin : Nat) : Machine := { m with nextOrigin := origin }

theorem start_loaded (m : Machine) (script : Function) :
    m.start script = match (m.loaded script).callFunction ⟨m.nextOrigin, []⟩ script 0 with
      | .next m => .running m
      | .done m => .done m
      | .fault m fault => .failed m fault := rfl

theorem start_exchange {script : Function} (hnative : ¬script.HoldsNative) (ha : m.globals.Foreign m.nextOrigin)
    (hb : m.globals.Foreign b) :
    Progress.Like (Matching.exchange m.nextOrigin b) 0 noFloor (m.start script)
      ((m.fromOrigin b).start script) := by
  have hholds : (Matching.exchange m.nextOrigin b).Holds ⟨m.nextOrigin, []⟩ script ⟨b, []⟩ script :=
    ⟨rfl, .inr ⟨rfl, rfl, hnative⟩⟩
  have hloaded : (m.loaded script).Alike (Matching.exchange m.nextOrigin b) ((m.fromOrigin b).loaded script) :=
    ⟨.single (.function hholds), .outer ⟨rfl, rfl⟩, Globals.like_exchange ha hb, rfl, .inr rfl, rfl⟩
  have hcall : Step.Like _ 0 noFloor ((m.loaded script).callFunction ⟨m.nextOrigin, []⟩ script 0)
      (((m.fromOrigin b).loaded script).callFunction ⟨b, []⟩ script 0) :=
    hloaded.callFunction hholds fun h => by rwa [Nat.zero_add]
  rw [start_loaded, start_loaded]
  have horigin : (m.fromOrigin b).nextOrigin = b := rfl
  rw [horigin]
  generalize (m.loaded script).callFunction ⟨m.nextOrigin, []⟩ script 0 = s,
    ((m.fromOrigin b).loaded script).callFunction ⟨b, []⟩ script 0 = s' at hcall ⊢
  cases hcall with
  | next h => exact .running h
  | done hglobals hsink => exact .done hglobals hsink
  | fault h fault => exact .failed h fault

/-- Runs that end alike: with the same result, the same notes and the same output, and with renamed globals. -/
structure Outcome.Renames (π : Equiv.Perm ObjectId) (o o' : Outcome) : Prop where
  result : o'.result = o.result
  log : o'.log = o.log
  sink : o'.machine.sink = o.machine.sink
  globals : o'.machine.globals = o.machine.globals.renamed π

/-- Calls of the same functions at the same places are shown in the same way. -/
theorem Alike.trace_eq (h : m.Alike (Matching.exchange a b) m') : m'.trace = m.trace := by
  have hframes := h.frames
  unfold Machine.trace
  generalize m.frames = frames, m'.frames = frames' at hframes
  induction hframes with
  | outer houter =>
    obtain ⟨rfl, rfl⟩ := houter
    rfl
  | call hframe _ ih =>
    have hfunction := (Matching.exchange_eq hframe.holds).2
    rw [List.map_cons, List.map_cons, ih, Frame.entry, Frame.entry, ← hfunction, hframe.ip]

theorem Alike.fail (h : m.Alike (Matching.exchange a b) m') (fault : Fault) :
    (m.fail fault).Renames (ObjectId.exchange a b) (m'.fail fault) := by
  unfold Machine.fail report
  rw [h.trace_eq, h.sink]
  exact ⟨rfl, rfl, rfl, h.globals.eq_renamed⟩

theorem outcome_exchange {progress progress' : Progress}
    (h : Progress.Like (Matching.exchange a b) 0 noFloor progress progress') :
    Option.Rel (Outcome.Renames (ObjectId.exchange a b)) progress.outcome? progress'.outcome? := by
  cases h with
  | running h => exact .none
  | done hglobals hsink => exact .some ⟨rfl, rfl, hsink, hglobals.eq_renamed⟩
  | failed h fault => exact .some (Alike.fail h fault)

/-- A script without routines of the host that runs as another object ends alike, or neither run ends. -/
theorem run_exchange (hhosts : hosts.Respects (Matching.exchange m.nextOrigin b)) {script : Function}
    (hnative : ¬script.HoldsNative) (ha : m.globals.Foreign m.nextOrigin) (hb : m.globals.Foreign b)
    (fuel : Nat) :
    Option.Rel (Outcome.Renames (ObjectId.exchange m.nextOrigin b)) (m.run hosts fuel script)
      ((m.fromOrigin b).run hosts fuel script) := by
  have hstart := start_exchange hnative ha hb
  unfold Machine.run
  generalize hs : m.start script = progress, hs' : (m.fromOrigin b).start script = progress' at hstart
  cases hstart with
  | running h =>
    have hsteps := (of_start_running hs').2.trans (of_start_running hs).2.symm
    exact outcome_exchange (Alike.advance hhosts hsteps h fuel)
  | done hglobals hsink => exact outcome_exchange (.done hglobals hsink)
  | failed h fault => exact outcome_exchange (.failed h fault)

end Machine

end Lox
