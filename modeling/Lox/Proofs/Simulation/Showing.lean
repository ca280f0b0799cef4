import Lox.Proofs.Machine.Locality
import Lox.Proofs.Simulation.Follows
import Lox.Proofs.Simulation.Library

/-! # Machines that show evaluations

A machine shows the state of an evaluation if its globals and its output are those of the state, and its
innermost call has the locals of the state on the stack, with the values that are being computed above them.
This module says how the operations of the machine keep it so. -/

namespace Lox

open Lox.Tree (State Library)

/-! ### Stacks -/

namespace Tree.Library

/-- Values on top of a stack, the topmost first. -/
def stack (L : Library) (low : Array Lox.Value) (values : List Value) : Array Lox.Value :=
  low ++ (values.map (·.compiled L)).reverse.toArray

variable {L : Library} {low : Array Lox.Value} {v w : Value} {xs ys values : List Value}

theorem stack_append : L.stack low (xs ++ ys) = L.stack (L.stack low ys) xs := by
  simp [stack, Array.append_assoc]

@[simp] theorem stack_nil : L.stack low [] = low := by
  simp [stack]

theorem stack_cons : L.stack low (v :: values) = (L.stack low values).push (v.compiled L) := by
  simp [stack]

@[simp] theorem size_stack : (L.stack low values).size = low.size + values.length := by
  simp [stack]

@[simp] theorem pop_stack : (L.stack low (v :: values)).pop = L.stack low values := by
  rw [stack_cons, Array.pop_push]

theorem get_stack (L : Library) (low : Array Lox.Value) (xs : List Value) (v : Value) (ys : List Value) :
    (L.stack low (xs ++ v :: ys))[low.size + ys.length]? = some (v.compiled L) := by
  rw [stack_append, stack_cons, stack, Array.getElem?_append_left (by simp), ← size_stack,
    Array.getElem?_push_size]

theorem peek_stack (xs : List Value) {m : Machine} (h : m.stack = L.stack low (xs ++ v :: ys)) :
    m.peek? xs.length = some (v.compiled L) := by
  have hindex : m.stack.size - 1 - xs.length = low.size + ys.length := by
    rw [h, size_stack, List.length_append, List.length_cons]
    omega
  rw [Machine.peek?, if_pos (by rw [h, size_stack, List.length_append, List.length_cons]; omega), hindex, h,
    get_stack]

theorem set_stack (L : Library) (low : Array Lox.Value) (xs : List Value) (v w : Value) (ys : List Value) :
    (L.stack low (xs ++ v :: ys)).setIfInBounds (low.size + ys.length) (w.compiled L) =
      L.stack low (xs ++ w :: ys) := by
  have hset : ∀ (stack : Array Lox.Value) (a b : Lox.Value), (stack.push a).setIfInBounds stack.size b =
      stack.push b := by
    intro stack a b
    apply Array.toList_inj.mp
    simp
  rw [stack_append, stack_append, stack, Array.setIfInBounds_append_left (by simp), stack_cons, stack_cons,
    ← size_stack (L := L), hset]
  rfl

theorem shrink_stack : (L.stack low values).shrink low.size = low := by
  have h := Machine.shrink_append low (values.map (·.compiled L)).reverse.toArray 0
  rw [Nat.add_zero] at h
  rw [stack, h]
  simp

end Tree.Library

/-! ### Showing -/

/-- What stays the same during a run. The routines of the host do the same with the values of trees as with
    those of the machine, and give only functions that are in the library. -/
structure Stage where
  library : Library
  host : Host
  natives : Tree.Host
  agree : ∀ routine arguments, (∀ v ∈ arguments, v.Known library) →
    host routine (arguments.map (·.compiled library)).toArray = (natives routine arguments).map
      (·.compiled library)
  faithful : ∀ routine arguments value, (∀ v ∈ arguments, v.Known library) →
    natives routine arguments = .ok value → value.Known library
  maxFrames : Nat
  /-- What the sink had before the run. -/
  before : ByteArray

/-- A call: its function, the values below it, and its callers. -/
structure Site where
  id : ObjectId
  function : Function
  low : Array Value
  callers : List Frame

/-- The frame of a call at a place in its code. -/
def Site.frame (site : Site) (place : Nat) : Frame := ⟨site.id, site.function, place, site.low.size⟩

namespace Stage

/-- The globals and the output of a machine are those of a state. -/
structure Fits (E : Stage) (s : State) (m : Machine) : Prop where
  globals : m.globals.entries = s.globals.map fun entry => (entry.1, entry.2.compiled E.library)
  known : ∀ entry ∈ s.globals, entry.2.Known E.library
  sink : m.sink = ⟨E.before ++ s.output.toUTF8, none⟩
  limits : m.limits = ⟨E.maxFrames, none⟩

/-- A machine shows a state at a place of the code, with the values that are being computed,
    the topmost first. -/
structure Shows (E : Stage) (site : Site) (names : List String) (place : Nat) (temps : List Tree.Value)
    (s : State) (m : Machine) : Prop where
  fits : E.Fits s m
  frames : m.frames = site.frame place :: site.callers
  stack : m.stack = E.library.stack site.low (temps ++ s.locals.map Prod.snd)
  names : s.locals.map Prod.fst = names
  values : ∀ v ∈ temps ++ s.locals.map Prod.snd, v.Known E.library

namespace Shows

variable {E : Stage} {site : Site} {names : List String} {place : Nat} {temps : List Tree.Value} {s : State}
    {m : Machine}
  {v w : Tree.Value}

/-- A step reads the instruction at its place and performs it with the place moved on. -/
theorem fetch (h : E.Shows site names place temps s m) {i : Instruction}
    (hread : Instruction.read site.function.chunk.code place = .instruction i) :
    ∃ m₁, Machine.step E.host m = Machine.perform E.host m₁ (site.frame (place + i.size)) i ∧
      E.Shows site names (place + i.size) temps s m₁ := by
  refine ⟨{ m with steps := m.steps + 1, frames := site.frame (place + i.size) :: site.callers }, ?_,
    ⟨h.fits.globals, h.fits.known, h.fits.sink, h.fits.limits⟩, rfl, h.stack, h.names, h.values⟩
  rw [Machine.step_eq h.frames hread, h.fits.limits]
  rfl

theorem congr (h : E.Shows site names place temps s m) {place' : Nat} (heq : place = place') :
    E.Shows site names place' temps s m := heq ▸ h

/-- A change of the stack. -/
theorem restack (h : E.Shows site names place temps s m) {stack : Array Value} {temps' : List Tree.Value}
    (hstack : stack = E.library.stack site.low (temps' ++ s.locals.map Prod.snd))
    (hvalues : ∀ v ∈ temps', v.Known E.library) : E.Shows site names place temps' s { m with stack } where
  fits := ⟨h.fits.globals, h.fits.known, h.fits.sink, h.fits.limits⟩
  frames := h.frames
  stack := hstack
  names := h.names
  values := by
    intro v hv
    rcases List.mem_append.mp hv with hv | hv
    · exact hvalues v hv
    · exact h.values v (List.mem_append_right _ hv)

theorem temp (h : E.Shows site names place temps s m) (hv : v ∈ temps) : v.Known E.library :=
  h.values v (List.mem_append_left _ hv)

theorem push (h : E.Shows site names place temps s m) (hv : v.Known E.library) :
    E.Shows site names place (v :: temps) s (m.push (v.compiled E.library)) := by
  refine h.restack ?_ (List.forall_mem_cons.mpr ⟨hv, fun w hw => h.temp hw⟩)
  rw [h.stack, List.cons_append, Library.stack_cons]

theorem pop (h : E.Shows site names place (v :: temps) s m) :
    E.Shows site names place temps s { m with stack := m.stack.pop } := by
  refine h.restack ?_ fun w hw => h.temp (List.mem_cons_of_mem _ hw)
  rw [h.stack, List.cons_append, Library.pop_stack]

theorem replace (h : E.Shows site names place (v :: temps) s m) (hw : w.Known E.library) :
    E.Shows site names place (w :: temps) s { m with stack := m.stack.pop.push (w.compiled E.library) } :=
  h.pop.push hw

theorem combine {u : Tree.Value} (h : E.Shows site names place (v :: u :: temps) s m) (hw : w.Known E.library) :
    E.Shows site names place (w :: temps) s { m with stack := m.stack.pop.pop.push (w.compiled E.library) } :=
  h.pop.pop.push hw

theorem goTo (h : E.Shows site names place temps s m) (place' : Nat) :
    E.Shows site names place' temps s (m.goTo (site.frame place) place') where
  fits := ⟨h.fits.globals, h.fits.known, h.fits.sink, h.fits.limits⟩
  frames := by
    rw [Machine.goTo, h.frames]
    rfl
  stack := h.stack
  names := h.names
  values := h.values

theorem peek (h : E.Shows site names place (v :: temps) s m) : m.peek? 0 = some (v.compiled E.library) :=
  Library.peek_stack [] h.stack

theorem peekSecond {u : Tree.Value} (h : E.Shows site names place (v :: u :: temps) s m) :
    m.peek? 1 = some (u.compiled E.library) :=
  Library.peek_stack [v] h.stack

end Shows

end Stage

/-! ### Variables -/

namespace Tree

variable {name : String} {v w : Value} {xs ys : List (String × Value)}

theorem lookup_split (hxs : name ∉ xs.map Prod.fst) : (xs ++ (name, v) :: ys).lookup name = some v := by
  induction xs with
  | nil => simp
  | cons x xs ih =>
    rw [List.map_cons, List.mem_cons, not_or] at hxs
    rw [List.cons_append, List.lookup_cons, beq_false_of_ne hxs.1]
    exact ih hxs.2

theorem lookup_absent (hxs : name ∉ xs.map Prod.fst) : xs.lookup name = none := by
  induction xs with
  | nil => rfl
  | cons x xs ih =>
    rw [List.map_cons, List.mem_cons, not_or] at hxs
    rw [List.lookup_cons, beq_false_of_ne hxs.1]
    exact ih hxs.2

theorem setLocal_split (hxs : name ∉ xs.map Prod.fst) :
    setLocal name w (xs ++ (name, v) :: ys) = xs ++ (name, w) :: ys := by
  induction xs with
  | nil => simp [setLocal]
  | cons x xs ih =>
    rw [List.map_cons, List.mem_cons, not_or] at hxs
    rw [List.cons_append, setLocal, if_neg (Ne.symm hxs.1), ih hxs.2]
    rfl

theorem lookup_compiled (L : Library) (name : String) (globals : List (String × Value)) :
    (globals.map fun entry => (entry.1, entry.2.compiled L)).lookup name =
      (globals.lookup name).map (·.compiled L) := by
  induction globals with
  | nil => rfl
  | cons entry globals ih =>
    rw [List.map_cons, List.lookup_cons, List.lookup_cons]
    split
    · rfl
    · exact ih

theorem setGlobal_compiled (L : Library) (name : String) (w : Value) (globals : List (String × Value)) :
    ((globals.map fun entry => (entry.1, entry.2.compiled L)).map fun entry =>
      if entry.1 == name then (name, w.compiled L) else entry) =
    (setGlobal name w globals).map fun entry => (entry.1, entry.2.compiled L) := by
  rw [setGlobal, List.map_map, List.map_map]
  apply List.map_congr_left
  intro entry _
  by_cases h : entry.1 = name
  · simp [h]
  · simp [h]

theorem mem_of_lookup {globals : List (String × Value)} (h : globals.lookup name = some v) :
    (name, v) ∈ globals := by
  obtain ⟨before, after, heq, -⟩ := List.lookup_eq_some_iff.mp h
  rw [heq]
  simp

theorem known_setGlobal {L : Library} {globals : List (String × Value)} (h : ∀ entry ∈ globals, entry.2.Known L)
    (hw : w.Known L) : ∀ entry ∈ setGlobal name w globals, entry.2.Known L := by
  intro entry hentry
  obtain ⟨old, hold, rfl⟩ := List.mem_map.mp hentry
  split
  · exact hw
  · exact h old hold

end Tree

namespace Stage

variable {E : Stage} {s : State} {m : Machine} {name : String} {v w : Tree.Value}

theorem Fits.get? (h : E.Fits s m) (name : String) :
    m.globals.get? name = (s.globals.lookup name).map (·.compiled E.library) := by
  rw [Globals.get?, h.globals, Tree.lookup_compiled]

/-- To give a defined global a value. -/
theorem Fits.assign (h : E.Fits s m) (hname : (s.globals.lookup name).isSome) (hw : w.Known E.library) :
    ∃ globals, m.globals.assign? name (w.compiled E.library) = some globals ∧
      E.Fits { s with globals := Tree.setGlobal name w s.globals } { m with globals } := by
  have hcontains : m.globals.contains name = true := by
    rw [Globals.contains, h.get?, Option.isSome_map]
    exact hname
  refine ⟨m.globals.overwrite name (w.compiled E.library), ?_, ?_, Tree.known_setGlobal h.known hw, h.sink,
    h.limits⟩
  · rw [Globals.assign?, if_pos hcontains]
  · rw [Globals.overwrite, h.globals, Tree.setGlobal_compiled]

theorem Fits.unassigned (h : E.Fits s m) (hname : s.globals.lookup name = none) (value : Value) :
    m.globals.assign? name value = none := by
  rw [Globals.assign?, if_neg]
  rw [Globals.contains, h.get?, hname]
  exact Bool.false_ne_true

theorem Fits.define (h : E.Fits s m) (name : String) (hw : w.Known E.library) :
    E.Fits { s with globals := Tree.putGlobal name w s.globals }
      { m with globals := m.globals.define name (w.compiled E.library) } := by
  have hcontains : m.globals.contains name = (s.globals.lookup name).isSome := by
    rw [Globals.contains, h.get?, Option.isSome_map]
  by_cases hname : (s.globals.lookup name).isSome = true
  · refine ⟨?_, ?_, h.sink, h.limits⟩
    · simp only [Tree.putGlobal, if_pos hname, Globals.define, hcontains, Globals.overwrite, h.globals,
        Tree.setGlobal_compiled]
    · simp only [Tree.putGlobal, if_pos hname]
      exact Tree.known_setGlobal h.known hw
  · refine ⟨?_, ?_, h.sink, h.limits⟩
    · simp only [Tree.putGlobal, if_neg hname, Globals.define, hcontains, h.globals, List.map_append,
        List.map_cons, List.map_nil]
    · simp only [Tree.putGlobal, if_neg hname, List.forall_mem_append, List.forall_mem_singleton]
      exact ⟨h.known, hw⟩

/-- To print a line. -/
theorem Fits.print (h : E.Fits s m) (text : String) : ∃ sink, m.sink.write (text ++ "\n") = (true, sink) ∧
    E.Fits { s with output := s.output ++ (text ++ "\n") } { m with sink } := by
  refine ⟨⟨E.before ++ s.output.toUTF8 ++ (text ++ "\n").toUTF8, none⟩, ?_, h.globals, h.known, ?_, h.limits⟩
  · rw [h.sink]
    simp [Sink.write]
  · simp [ByteArray.append_assoc]

/-! ### Locals -/

namespace Shows

variable {site : Site} {names : List String} {place : Nat} {temps : List Tree.Value}

/-- The entry of a local, by the names of all locals. -/
theorem split (h : E.Shows site names place temps s m) {above below : List String}
    (hnames : names = above ++ name :: below) :
    ∃ xs v ys, s.locals = xs ++ (name, v) :: ys ∧ xs.map Prod.fst = above ∧ ys.map Prod.fst = below := by
  have heq := h.names
  rw [hnames] at heq
  obtain ⟨xs, rest, hlocals, hxs, hrest⟩ := List.map_eq_append_iff.mp heq
  obtain ⟨⟨name', v⟩, ys, rfl, rfl, hys⟩ := List.map_eq_cons_iff.mp hrest
  exact ⟨xs, v, ys, hlocals, hxs, hys⟩

theorem getLocal (h : E.Shows site names place temps s m) {above below : List String}
    (hnames : names = above ++ name :: below) (habove : name ∉ above) : ∃ v, s.locals.lookup name = some v ∧
      v.Known E.library ∧ m.stack[site.low.size + below.length]? = some (v.compiled E.library) := by
  obtain ⟨xs, v, ys, hlocals, hxs, hys⟩ := h.split hnames
  refine ⟨v, ?_, h.values v ?_, ?_⟩
  · rw [hlocals, Tree.lookup_split (by rw [hxs]; exact habove)]
  · rw [hlocals]
    simp
  · have hget := E.library.get_stack site.low (temps ++ xs.map Prod.snd) v (ys.map Prod.snd)
    rw [h.stack, hlocals, ← hys]
    simpa using hget

theorem setLocal (h : E.Shows site names place (w :: temps) s m) {above below : List String}
    (hnames : names = above ++ name :: below) (habove : name ∉ above) :
    (s.locals.lookup name).isSome ∧ site.low.size + below.length < m.stack.size ∧
      E.Shows site names place (w :: temps) { s with locals := Tree.setLocal name w s.locals }
        { m with stack := m.stack.setIfInBounds (site.low.size + below.length) (w.compiled E.library) } := by
  obtain ⟨xs, v, ys, hlocals, hxs, hys⟩ := h.split hnames
  have hlookup : s.locals.lookup name = some v := by rw [hlocals, Tree.lookup_split (by rw [hxs]; exact habove)]
  have hset : Tree.setLocal name w s.locals = xs ++ (name, w) :: ys := by
    rw [hlocals, Tree.setLocal_split (by rw [hxs]; exact habove)]
  refine ⟨by rw [hlookup]; rfl, ?_, ⟨h.fits.globals, h.fits.known, h.fits.sink, h.fits.limits⟩, h.frames,
    ?_, ?_, ?_⟩
  · rw [h.stack, hlocals, Library.size_stack, ← hys]
    simp
    omega
  · have hstack := E.library.set_stack site.low (w :: temps ++ xs.map Prod.snd) v w (ys.map Prod.snd)
    dsimp only
    rw [hset, h.stack, hlocals, ← hys]
    simpa using hstack
  · dsimp only
    rw [hset, hnames, ← hxs, ← hys]
    simp
  · intro u hu
    dsimp only at hu
    rw [hset] at hu
    have hw := h.temp List.mem_cons_self
    simp only [List.map_append, List.map_cons, List.mem_append, List.mem_cons] at hu
    rcases hu with (rfl | hu) | hu | rfl | hu
    · exact hw
    · exact h.temp (List.mem_cons_of_mem _ hu)
    · exact h.values u (by rw [hlocals]; simp [hu])
    · exact hw
    · exact h.values u (by rw [hlocals]; simp [hu])

end Shows

end Stage

end Lox
