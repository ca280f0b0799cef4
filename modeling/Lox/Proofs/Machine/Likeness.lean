import Lox.Machine.Run
import Lox.Proofs.Flow
import Lox.Proofs.Likeness

/-! # Machines that are alike

Two machines are alike if they have like values on the stack and in the globals, the same output, and calls of
matched functions at the same places. The values below some height and the outermost calls are left to the
occasion. Steps of machines that are alike leave them alike, or end both runs in the same way. -/

namespace Lox

variable {M : Matching} {base d : Nat}

/-! ### Stacks -/

/-- Stacks of the same height, with like values from `base` up. -/
structure Value.LikeStack (M : Matching) (base : Nat) (a b : Array Value) : Prop where
  size : b.size = a.size
  values : ∀ k, base ≤ k → LikeOption M a[k]? b[k]?

namespace Value.LikeStack

variable {a b : Array Value} {v w : Value}

theorem single (h : v.Like M w) : LikeStack M 0 #[v] #[w] where
  size := rfl
  values k _ := by
    cases k with
    | zero => exact .some h
    | succ k => exact .none

theorem push (h : LikeStack M base a b) (hvalue : v.Like M w) : LikeStack M base (a.push v) (b.push w) where
  size := by rw [Array.size_push, Array.size_push, h.size]
  values k hk := by
    rw [Array.getElem?_push, Array.getElem?_push, h.size]
    split
    · exact .some hvalue
    · exact h.values k hk

theorem pop (h : LikeStack M base a b) : LikeStack M base a.pop b.pop where
  size := by rw [Array.size_pop, Array.size_pop, h.size]
  values k hk := by
    rw [Array.getElem?_pop, Array.getElem?_pop, h.size]
    split
    · exact h.values k hk
    · exact .none

theorem shrink (h : LikeStack M base a b) (size : Nat) : LikeStack M base (a.shrink size) (b.shrink size) where
  size := by rw [Array.size_shrink, Array.size_shrink, h.size]
  values k hk := by
    rw [Array.shrink_eq_take, Array.shrink_eq_take, Array.take_eq_extract, Array.take_eq_extract,
      Array.getElem?_extract, Array.getElem?_extract, h.size, Nat.zero_add]
    split
    · exact h.values k hk
    · exact .none

theorem set (h : LikeStack M base a b) (place : Nat) (hvalue : v.Like M w) :
    LikeStack M base (a.setIfInBounds place v) (b.setIfInBounds place w) where
  size := by rw [Array.size_setIfInBounds, Array.size_setIfInBounds, h.size]
  values k hk := by
    rw [Array.getElem?_setIfInBounds, Array.getElem?_setIfInBounds, h.size]
    split
    · split
      · exact .some hvalue
      · exact .none
    · exact h.values k hk

theorem extract (h : LikeStack M base a b) {first : Nat} (hfirst : base ≤ first) :
    List.Forall₂ (Value.Like M) (a.extract first a.size).toList (b.extract first a.size).toList := by
  rw [List.forall₂_iff_get]
  refine ⟨by simp [h.size], fun i hi hi' => ?_⟩
  have hvalue := h.values (first + i) (Nat.le_add_right_of_le hfirst)
  simp only [Array.length_toList, Array.size_extract, Nat.min_self, h.size] at hi hi'
  rw [Array.getElem?_eq_getElem (by omega), Array.getElem?_eq_getElem (by rw [h.size]; omega)] at hvalue
  cases hvalue with
  | some hvalue => simpa using hvalue

end Value.LikeStack

/-! ### Machines -/

/-- Calls of matched functions at the same place, with their values above `base`. -/
structure Frame.Like (M : Matching) (base : Nat) (a b : Frame) : Prop where
  holds : M.Holds a.id a.function b.id b.function
  ip : b.ip = a.ip
  slots : b.slots = a.slots
  base : base ≤ a.slots

/-- How the outermost calls of two machines are related. There are as many of one as of the other. -/
structure Frame.Floor where
  Holds : List Frame → List Frame → Prop
  length : ∀ {outer outer' : List Frame}, Holds outer outer' → outer'.length = outer.length

/-- Calls of matched functions, one by one, down to the outermost ones. -/
inductive Frame.LikeCalls (M : Matching) (base : Nat) (floor : Floor) : List Frame → List Frame → Prop
  | outer {outer outer' : List Frame} (h : floor.Holds outer outer') : LikeCalls M base floor outer outer'
  | call {a b : Frame} {callers callers' : List Frame} (h : a.Like M base b)
    (hcallers : LikeCalls M base floor callers callers') : LikeCalls M base floor (a :: callers) (b :: callers')

theorem Frame.LikeCalls.length_eq {floor : Floor} {calls calls' : List Frame}
    (h : LikeCalls M base floor calls calls') :
    calls'.length = calls.length := by
  induction h with
  | outer h => exact floor.length h
  | call _ _ ih => rw [List.length_cons, List.length_cons, ih]

/-- Instructions that do the same in their calls: they are equal, or their operands lead to like
    constants or one name. -/
inductive Instruction.Corresponds (M : Matching) (frame frame' : Frame) : Instruction → Instruction → Prop
  | constant {index index' : UInt8} {v w : Value} (hv : frame.constant? index = some v)
      (hw : frame'.constant? index' = some w)
    (h : v.Like M w) : Corresponds M frame frame' (.constant index) (.constant index')
  | missing {index : UInt8} (hv : frame.constant? index = none) (hw : frame'.constant? index = none) :
    Corresponds M frame frame' (.constant index) (.constant index)
  | getGlobal {index index' : UInt8} (h : frame.name index = frame'.name index') :
    Corresponds M frame frame' (.getGlobal index) (.getGlobal index')
  | defineGlobal {index index' : UInt8} (h : frame.name index = frame'.name index') :
    Corresponds M frame frame' (.defineGlobal index) (.defineGlobal index')
  | setGlobal {index index' : UInt8} (h : frame.name index = frame'.name index') :
    Corresponds M frame frame' (.setGlobal index) (.setGlobal index')
  | same {i : Instruction} (h : i.index? = none) : Corresponds M frame frame' i i

namespace Machine

/-- Machines that are alike. The values below `base` can differ. -/
structure Like (M : Matching) (base : Nat) (floor : Frame.Floor) (m m' : Machine) : Prop where
  stack : Value.LikeStack M base m.stack m'.stack
  frames : Frame.LikeCalls M base floor m.frames m'.frames
  globals : m.globals.Like M m'.globals
  limits : m'.limits = m.limits
  steps : m.limits.maxSteps = none ∨ m'.steps = m.steps
  sink : m'.sink = m.sink

/-- Steps that are alike: what comes of them is. Of a run that has ended, the globals and
    the output are left. -/
inductive Step.Like (M : Matching) (base : Nat) (floor : Frame.Floor) : Step → Step → Prop
  | next {m m' : Machine} (h : m.Like M base floor m') : Like M base floor (.next m) (.next m')
  | done {m m' : Machine} (hglobals : m.globals.Like M m'.globals) (hsink : m'.sink = m.sink) :
    Like M base floor (.done m) (.done m')
  | fault {m m' : Machine} (h : m.Like M base floor m') (fault : Fault) :
      Like M base floor (.fault m fault) (.fault m' fault)

variable {floor : Frame.Floor} {Good : Nat → Prop} {host host' : Host} {hosts : Hosts} {m m' : Machine}
  {frame frame' : Frame} {callers callers' : List Frame} {i i' : Instruction}

/-- The innermost calls of two machines, `d` bytes apart. All calls stay related while these go
    together to good places. -/
structure Paired (M : Matching) (base : Nat) (floor : Frame.Floor) (Good : Nat → Prop) (d : Nat)
    (frame frame' : Frame) (callers callers' : List Frame) : Prop where
  slots : frame'.slots = frame.slots
  ip : frame'.ip = frame.ip + d
  moved : ∀ ip, Good ip →
    Frame.LikeCalls M base floor ({ frame with ip } :: callers) ({ frame' with ip := ip + d } :: callers')
  left : (callers = [] ∧ callers' = []) ∨ Frame.LikeCalls M base floor callers callers'

/-- An instruction that does not come near the values below `base`, and goes only to good places. -/
structure Spares (base : Nat) (Good : Nat → Prop) (d : Nat) (m : Machine) (frame : Frame)
    (i : Instruction) : Prop where
  takes : ∀ distance < i.takes, distance < m.stack.size → base + distance < m.stack.size
  place : ∀ slot, i = .getLocal slot ∨ i = .setLocal slot → base ≤ frame.slots + slot.toNat
  jump : ∀ distance, i = .jump distance ∨ i = .jumpIfFalse distance → Good (frame.ip + distance.toNat)
  loop : ∀ distance, i = .loop distance → Good (frame.ip - distance.toNat) ∧ (d = 0 ∨ distance.toNat ≤ frame.ip)

/-- Every place is good. -/
abbrev anywhere (_ : Nat) : Prop := True

theorem spares_zero (m : Machine) (frame : Frame) (i : Instruction) : Spares 0 anywhere 0 m frame i where
  takes distance _ hsize := by rwa [Nat.zero_add]
  place slot _ := Nat.zero_le _
  jump distance _ := trivial
  loop distance _ := ⟨trivial, .inl rfl⟩

/-! ### Instructions -/

theorem Like.push (h : m.Like M base floor m') {v w : Value} (hvalue : v.Like M w) :
    (m.push v).Like M base floor (m'.push w) :=
  ⟨h.stack.push hvalue, h.frames, h.globals, h.limits, h.steps, h.sink⟩

theorem Like.restack (h : m.Like M base floor m') {a b : Array Value} (hstack : Value.LikeStack M base a b) :
    { m with stack := a }.Like M base floor { m' with stack := b } :=
  ⟨hstack, h.frames, h.globals, h.limits, h.steps, h.sink⟩

theorem Like.peek (h : m.Like M base floor m') {distance : Nat}
    (hspares : distance < m.stack.size → base + distance < m.stack.size) :
    Value.LikeOption M (m.peek? distance) (m'.peek? distance) := by
  unfold peek?
  rw [h.stack.size]
  split
  · rename_i hsize
    exact h.stack.values _ (by have := hspares hsize; omega)
  · exact .none

theorem Like.goTo (h : m.Like M base floor m') (hframes : m.frames = frame :: callers)
    (hframes' : m'.frames = frame' :: callers')
    (hpaired : Paired M base floor Good d frame frame' callers callers') {ip : Nat} (hgood : Good ip) :
    (m.goTo frame ip).Like M base floor (m'.goTo frame' (ip + d)) := by
  refine ⟨h.stack, ?_, h.globals, h.limits, h.steps, h.sink⟩
  rw [Machine.goTo, Machine.goTo, hframes, hframes']
  exact hpaired.moved ip hgood

theorem Like.unary (h : m.Like M base floor m') {f : Value → Except Fault Value}
    (hspares : 0 < m.stack.size → base + 0 < m.stack.size)
    (hf : ∀ v w, v.Like M w → Value.LikeResult M (f v) (f w)) :
    Step.Like M base floor (m.unary f) (m'.unary f) := by
  have hpeek := h.peek hspares
  unfold Machine.unary
  generalize m.peek? 0 = x, m'.peek? 0 = y at hpeek
  cases hpeek with
  | none => exact .fault h _
  | @some v w hvalue =>
    have hresult := hf v w hvalue
    dsimp only
    generalize f v = r, f w = s at hresult
    cases hresult with
    | ok hresult => exact .next (h.restack (h.stack.pop.push hresult))
    | error fault => exact .fault h fault

theorem Like.binary (h : m.Like M base floor m') {f : Value → Value → Except Fault Value}
    (hspares : ∀ distance < 2, distance < m.stack.size → base + distance < m.stack.size)
    (hf : ∀ v w v' w', v.Like M w → v'.Like M w' → Value.LikeResult M (f v v') (f w w')) :
    Step.Like M base floor (m.binary f) (m'.binary f) := by
  have hpeek := h.peek (hspares 1 (by decide))
  have hpeek' := h.peek (hspares 0 (by decide))
  unfold Machine.binary
  generalize m.peek? 1 = x, m'.peek? 1 = y at hpeek
  generalize m.peek? 0 = x', m'.peek? 0 = y' at hpeek'
  cases hpeek with
  | none => exact .fault h _
  | @some v w hvalue =>
    cases hpeek' with
    | none => exact .fault h _
    | @some v' w' hvalue' =>
      have hresult := hf v w v' w' hvalue hvalue'
      dsimp only
      generalize f v v' = r, f w w' = s at hresult
      cases hresult with
      | ok hresult => exact .next (h.restack (h.stack.pop.pop.push hresult))
      | error fault => exact .fault h fault

theorem likeResult_numeric {f : Float → Float → Value} (hf : ∀ x y, (f x y).Like M (f x y)) (v w v' w' : Value)
    (h : v.Like M w) (h' : v'.Like M w') : Value.LikeResult M (numeric f v v') (numeric f w w') := by
  cases h with
  | function => exact .error _
  | same hv =>
    cases h' with
    | function => cases v <;> exact .error _
    | same hv' => cases v <;> cases v' <;> first | exact .ok (hf _ _) | exact .error _

theorem likeResult_add (v w v' w' : Value) (h : v.Like M w) (h' : v'.Like M w') :
    Value.LikeResult M (add v v') (add w w') := by
  cases h with
  | function => exact .error _
  | same hv =>
    cases h' with
    | function => cases v <;> exact .error _
    | same hv' =>
      cases v <;> cases v' <;> first
        | exact .ok (Value.like_number _)
        | exact .ok (Value.like_string _)
        | exact .error _

theorem likeResult_negate (v w : Value) (h : v.Like M w) : Value.LikeResult M (negate v) (negate w) := by
  cases h with
  | function => exact .error _
  | same hv => cases v <;> first | exact .ok (Value.like_number _) | exact .error _

theorem Like.callFunction (h : m.Like M base floor m') {id id' : ObjectId} {f g : Function}
    (hholds : M.Holds id f id' g)
    {count : UInt8} (hspares : count.toNat < m.stack.size → base + count.toNat < m.stack.size) :
    Step.Like M base floor (m.callFunction id f count) (m'.callFunction id' g count) := by
  have harity := (Function.unlined_eq_iff.mp (M.unlined hholds)).1
  unfold Machine.callFunction
  rw [harity, h.limits, h.frames.length_eq, h.stack.size]
  split
  · exact .fault h _
  · split
    · exact .fault h _
    · split
      · exact .fault h _
      · rename_i hsize
        refine .next ⟨h.stack, .call ⟨hholds, rfl, rfl, ?_⟩ h.frames, h.globals, rfl, h.steps, h.sink⟩
        dsimp only
        omega

theorem Like.callNative (hhost : host.Like M host') (h : m.Like M base floor m') (native : Native)
    {count : UInt8} (hspares : count.toNat < m.stack.size → base + count.toNat < m.stack.size)
    (hsize : count.toNat < m.stack.size) :
    Step.Like M base floor (callNative host m native count) (callNative host' m' native count) := by
  have hfirst : base ≤ m.stack.size - count.toNat := by
    have := hspares hsize
    omega
  have hresult := hhost native.routine _ _ (h.stack.extract hfirst)
  unfold Machine.callNative
  rw [h.stack.size, if_neg (by omega), if_neg (by omega)]
  dsimp only
  generalize host native.routine (m.stack.extract (m.stack.size - count.toNat) m.stack.size) = r,
    host' native.routine (m'.stack.extract (m.stack.size - count.toNat) m.stack.size) = s at hresult
  cases hresult with
  | ok hvalue => exact .next (h.restack ((h.stack.shrink _).push hvalue))
  | error complaint => exact .fault h _

theorem Like.call (hhost : host.Like M host') (h : m.Like M base floor m') {count : UInt8}
    (hspares : count.toNat < m.stack.size → base + count.toNat < m.stack.size) :
    Step.Like M base floor (call host m count) (call host' m' count) := by
  have hpeek := h.peek hspares
  unfold Machine.call
  by_cases hsize : count.toNat < m.stack.size
  · generalize m.peek? count.toNat = x, m'.peek? count.toNat = y at hpeek
    cases hpeek with
    | none => exact .fault h _
    | some hvalue =>
      cases hvalue with
      | function hholds => exact h.callFunction hholds hspares
      | same hv =>
        rename_i v
        cases v with
        | function id f => exact absurd rfl (hv id f)
        | native id native => exact h.callNative hhost native hspares hsize
        | nil | bool | number | string => exact .fault h _
  · have hnone : m.peek? count.toNat = none := if_neg hsize
    have hnone' : m'.peek? count.toNat = none := if_neg (by rwa [h.stack.size])
    rw [hnone, hnone']
    exact .fault h _

theorem Like.leave (h : m.Like M base floor m') (hframes : m.frames = frame :: callers)
    (hframes' : m'.frames = frame' :: callers')
    (hpaired : Paired M base floor Good d frame frame' callers callers')
    (hspares : 0 < m.stack.size → base + 0 < m.stack.size) : Step.Like M base floor m.leave m'.leave := by
  have hpeek := h.peek hspares
  have hlength : callers'.length = callers.length := by
    have hframes'' := h.frames.length_eq
    rw [hframes, hframes'] at hframes''
    exact Nat.succ.inj hframes''
  unfold Machine.leave
  rw [hframes, hframes']
  generalize m.peek? 0 = x, m'.peek? 0 = y at hpeek
  cases hpeek with
  | none => exact .fault h _
  | some hvalue =>
    cases callers with
    | nil =>
      rw [List.eq_nil_of_length_eq_zero hlength]
      exact .done h.globals h.sink
    | cons caller callers =>
      obtain ⟨caller', callers', rfl⟩ := List.exists_cons_of_length_eq_add_one hlength
      rcases hpaired.left with ⟨hnil, -⟩ | hleft
      · cases hnil
      · dsimp only
        rw [hpaired.slots]
        exact .next ⟨(h.stack.pop.shrink _).push hvalue, hleft, h.globals, h.limits, h.steps, h.sink⟩

theorem Like.getGlobal (h : m.Like M base floor m') {index index' : UInt8}
    (hname : frame.name index = frame'.name index') :
    Step.Like M base floor (perform host m frame (.getGlobal index))
      (perform host' m' frame' (.getGlobal index')) := by
  rw [Machine.perform, Machine.perform, ← hname]
  cases frame.name index with
  | error fault => exact .fault h _
  | ok name =>
    have hget := h.globals.get? name
    dsimp only
    generalize m.globals.get? name = x, m'.globals.get? name = y at hget
    cases hget with
    | none => exact .fault h _
    | some hvalue => exact .next (h.push hvalue)

theorem Like.defineGlobal (h : m.Like M base floor m') {index index' : UInt8}
    (hname : frame.name index = frame'.name index') (hspares : 0 < m.stack.size → base + 0 < m.stack.size) :
    Step.Like M base floor (perform host m frame (.defineGlobal index))
      (perform host' m' frame' (.defineGlobal index')) := by
  have hpeek := h.peek hspares
  rw [Machine.perform, Machine.perform, ← hname]
  generalize m.peek? 0 = x, m'.peek? 0 = y at hpeek
  cases frame.name index with
  | error fault => exact .fault h _
  | ok name =>
    cases hpeek with
    | none => exact .fault h _
    | some hvalue =>
      exact .next ⟨h.stack.pop, h.frames, h.globals.define name hvalue, h.limits, h.steps, h.sink⟩

theorem Like.setGlobal (h : m.Like M base floor m') {index index' : UInt8}
    (hname : frame.name index = frame'.name index') (hspares : 0 < m.stack.size → base + 0 < m.stack.size) :
    Step.Like M base floor (perform host m frame (.setGlobal index))
      (perform host' m' frame' (.setGlobal index')) := by
  have hpeek := h.peek hspares
  rw [Machine.perform, Machine.perform, ← hname]
  generalize m.peek? 0 = x, m'.peek? 0 = y at hpeek
  cases frame.name index with
  | error fault => exact .fault h _
  | ok name =>
    cases hpeek with
    | none => exact .fault h _
    | some hvalue =>
      dsimp only
      rcases h.globals.assign? name hvalue with ⟨hnone, hnone'⟩ | ⟨a, b, ha, hb, hlike⟩
      · rw [hnone, hnone']
        exact .fault h _
      · rw [ha, hb]
        exact .next ⟨h.stack, h.frames, hlike, h.limits, h.steps, h.sink⟩

theorem Like.print (h : m.Like M base floor m') (hspares : 0 < m.stack.size → base + 0 < m.stack.size) :
    Step.Like M base floor (perform host m frame .print) (perform host' m' frame' .print) := by
  have hpeek := h.peek hspares
  rw [Machine.perform, Machine.perform, h.sink]
  generalize m.peek? 0 = x, m'.peek? 0 = y at hpeek
  cases hpeek with
  | none => exact .fault h _
  | some hvalue =>
    dsimp only
    rw [hvalue.text_eq]
    split
    · exact .next ⟨h.stack.pop, h.frames, h.globals, h.limits, h.steps, rfl⟩
    · rename_i sink _
      have hfull : { m with sink }.Like M base floor { m' with sink } :=
        ⟨h.stack, h.frames, h.globals, h.limits, h.steps, rfl⟩
      exact .fault hfull _

/-- Corresponding instructions leave machines alike that were alike. -/
theorem Like.perform (hhost : host.Like M host') (h : m.Like M base floor m')
    (hframes : m.frames = frame :: callers) (hframes' : m'.frames = frame' :: callers')
    (hpaired : Paired M base floor Good d frame frame' callers callers')
    (hi : i.Corresponds M frame frame' i') (hspares : Spares base Good d m frame i) :
    Step.Like M base floor (perform host m frame i) (perform host' m' frame' i') := by
  have htakes := hspares.takes
  cases hi with
  | constant hv hw hvalue =>
    rw [Machine.perform, Machine.perform, hv, hw]
    exact .next (h.push hvalue)
  | missing hv hw =>
    rw [Machine.perform, Machine.perform, hv, hw]
    exact .fault h _
  | getGlobal hname => exact h.getGlobal hname
  | defineGlobal hname => exact h.defineGlobal hname (htakes 0 (Nat.lt_succ_self _))
  | setGlobal hname => exact h.setGlobal hname (htakes 0 (Nat.lt_succ_self _))
  | same hindex =>
    cases i with
    | constant | getGlobal | defineGlobal | setGlobal => cases hindex
    | nil => exact .next (h.push Value.like_nil)
    | trueValue | falseValue => exact .next (h.push (Value.like_bool _))
    | pop =>
      rw [Machine.perform, Machine.perform, Array.isEmpty, Array.isEmpty, h.stack.size]
      split
      · exact .fault h _
      · exact .next (h.restack h.stack.pop)
    | getLocal slot =>
      have hvalue := h.stack.values (frame.slots + slot.toNat) (hspares.place slot (.inl rfl))
      rw [Machine.perform, Machine.perform, hpaired.slots]
      generalize m.stack[frame.slots + slot.toNat]? = x, m'.stack[frame.slots + slot.toNat]? = y at hvalue
      cases hvalue with
      | none => exact .fault h _
      | some hvalue => exact .next (h.push hvalue)
    | setLocal slot =>
      have hpeek := h.peek (htakes 0 (Nat.lt_succ_self _))
      rw [Machine.perform, Machine.perform, hpaired.slots, h.stack.size]
      split
      · generalize m.peek? 0 = x, m'.peek? 0 = y at hpeek
        cases hpeek with
        | none => exact .fault h _
        | some hvalue => exact .next (h.restack (h.stack.set _ hvalue))
      · exact .fault h _
    | equal =>
      rw [Machine.perform, Machine.perform]
      refine h.binary htakes fun v w v' w' hv hv' => ?_
      rw [hv.equal_eq hv']
      exact .ok (Value.like_bool _)
    | greater | less =>
      rw [Machine.perform, Machine.perform]
      exact h.binary htakes (likeResult_numeric fun _ _ => Value.like_bool _)
    | subtract | multiply | divide =>
      rw [Machine.perform, Machine.perform]
      exact h.binary htakes (likeResult_numeric fun _ _ => Value.like_number _)
    | add => exact h.binary htakes likeResult_add
    | logicalNot =>
      rw [Machine.perform, Machine.perform]
      refine h.unary (htakes 0 (Nat.lt_succ_self _)) fun v w hv => ?_
      rw [hv.isFalsy_eq]
      exact .ok (Value.like_bool _)
    | negate => exact h.unary (htakes 0 (Nat.lt_succ_self _)) likeResult_negate
    | print => exact h.print (htakes 0 (Nat.lt_succ_self _))
    | jump distance =>
      rw [Machine.perform, Machine.perform, hpaired.ip, Nat.add_right_comm]
      exact .next (h.goTo hframes hframes' hpaired (hspares.jump distance (.inl rfl)))
    | jumpIfFalse distance =>
      have hpeek := h.peek (htakes 0 (Nat.lt_succ_self _))
      rw [Machine.perform, Machine.perform]
      generalize m.peek? 0 = x, m'.peek? 0 = y at hpeek
      cases hpeek with
      | none => exact .fault h _
      | some hvalue =>
        dsimp only
        rw [hvalue.isFalsy_eq, hpaired.ip, Nat.add_right_comm]
        split
        · exact .next (h.goTo hframes hframes' hpaired (hspares.jump distance (.inr rfl)))
        · exact .next h
    | loop distance =>
      rw [Machine.perform, Machine.perform, hpaired.ip]
      obtain ⟨hgood, rfl | hle⟩ := hspares.loop distance rfl
      · rw [Nat.add_zero]
        split
        · exact .next (h.goTo hframes hframes' hpaired hgood)
        · exact .fault h _
      · rw [if_pos hle, if_pos (Nat.le_add_right_of_le hle), Nat.sub_add_comm hle]
        exact .next (h.goTo hframes hframes' hpaired hgood)
    | call count => exact h.call hhost (htakes count.toNat (Nat.lt_succ_self _))
    | ret => exact h.leave hframes hframes' hpaired (htakes 0 (Nat.lt_succ_self _))

/-! ### Steps -/

/-- The calls of matched functions are paired wherever they are. -/
theorem paired_of_like (h : frame.Like M base frame')
    (hcallers : Frame.LikeCalls M base floor callers callers') :
    Paired M base floor anywhere 0 frame frame' callers callers' where
  slots := h.slots
  ip := h.ip
  moved _ _ := .call ⟨h.holds, rfl, h.slots, h.base⟩ hcallers
  left := .inr hcallers

/-- Equal instructions in calls of matched functions do the same. -/
theorem corresponds_of_like (h : frame.Like M base frame') (i : Instruction) :
    i.Corresponds M frame frame' i := by
  have hname (index : UInt8) : frame.name index = frame'.name index := M.name h.holds index _ _ _ _
  cases i with
  | constant index =>
    have hvalue : Value.LikeOption M (frame.constant? index) (frame'.constant? index) :=
      M.constant? h.holds index _ _ _ _
    generalize hv : frame.constant? index = x, hw : frame'.constant? index = y at hvalue
    cases hvalue with
    | none => exact .missing hv hw
    | some hvalue => exact .constant hv hw hvalue
  | getGlobal index => exact .getGlobal (hname index)
  | defineGlobal index => exact .defineGlobal (hname index)
  | setGlobal index => exact .setGlobal (hname index)
  | _ => exact .same rfl

/-- The limit of steps stops both machines or neither. -/
theorem Like.filter_eq (h : m.Like M base floor m') :
    m'.limits.maxSteps.filter (· ≤ m'.steps) = m.limits.maxSteps.filter (· ≤ m.steps) := by
  rw [h.limits]
  rcases h.steps with hnone | hsteps
  · rw [hnone]
    rfl
  · rw [hsteps]

/-- Machines that are alike after each has read an instruction of its innermost call. -/
theorem Like.reads (h : m.Like M base floor m')
    (hpaired : Paired M base floor Good d frame frame' callers callers')
    {size : Nat} (hgood : Good (frame.ip + size)) :
    Like M base floor { m with steps := m.steps + 1, frames := { frame with ip := frame.ip + size } :: callers }
      { m' with steps := m'.steps + 1, frames := { frame' with ip := frame'.ip + size } :: callers' } := by
  have hmoved := hpaired.moved (frame.ip + size) hgood
  rw [Nat.add_right_comm, ← hpaired.ip] at hmoved
  exact ⟨h.stack, hmoved, h.globals, h.limits, h.steps.imp_right (congrArg (· + 1)), h.sink⟩

/-- A step in calls of matched functions, if it spares what lies below `base`. -/
theorem Like.step (hhost : (hosts.during m.steps).Like M (hosts.during m'.steps)) (h : m.Like M base floor m')
    (hframes : m.frames = frame :: callers)
    (hframes' : m'.frames = frame' :: callers') (hlike : frame.Like M base frame')
    (hcallers : Frame.LikeCalls M base floor callers callers')
    (hspares : ∀ i, Instruction.read frame.function.chunk.code frame.ip = .instruction i →
      Spares base anywhere 0 m { frame with ip := frame.ip + i.size } i) :
    Step.Like M base floor (step hosts m) (step hosts m') := by
  have hcode : frame'.function.chunk.code = frame.function.chunk.code :=
    ((Function.unlined_eq_iff.mp (M.unlined hlike.holds)).2.2.1).symm
  have hpaired : Paired M base floor anywhere 0 frame frame' callers callers' := paired_of_like hlike hcallers
  unfold Machine.step
  rw [h.filter_eq, hframes, hframes']
  split
  · exact .fault h _
  · dsimp only
    rw [hcode, hlike.ip]
    cases hread : Instruction.read frame.function.chunk.code frame.ip with
    | instruction i =>
      have hmoved : Frame.Like M base { frame with ip := frame.ip + i.size }
          { frame' with ip := frame.ip + i.size } :=
        ⟨hlike.holds, rfl, hlike.slots, hlike.base⟩
      have hgood : anywhere (frame.ip + i.size) := trivial
      have hreads := h.reads hpaired hgood
      rw [hlike.ip] at hreads
      obtain ⟨htakes, hplace, hjump, hloop⟩ := hspares i hread
      exact hreads.perform hhost rfl rfl (paired_of_like hmoved hcallers) (corresponds_of_like hmoved i)
        ⟨htakes, hplace, hjump, hloop⟩
    | unknown byte => exact .fault (h.goTo hframes hframes' hpaired trivial) _
    | truncated op =>
      have hsize : frame'.function.chunk.size = frame.function.chunk.size := congrArg Array.size hcode
      dsimp only
      rw [hsize]
      exact .fault (h.goTo hframes hframes' hpaired trivial) _
    | pastEnd => exact .fault (h.goTo hframes hframes' hpaired trivial) _

/-! ### Runs -/

/-- Progress of machines that are alike. -/
inductive Progress.Like (M : Matching) (base : Nat) (floor : Frame.Floor) : Progress → Progress → Prop
  | running {m m' : Machine} (h : m.Like M base floor m') : Like M base floor (.running m) (.running m')
  | done {m m' : Machine} (hglobals : m.globals.Like M m'.globals) (hsink : m'.sink = m.sink) :
    Like M base floor (.done m) (.done m')
  | failed {m m' : Machine} (h : m.Like M base floor m') (fault : Fault) :
    Like M base floor (.failed m fault) (.failed m' fault)

/-- Runs stay alike if steps do, as long as an invariant of the two holds. -/
theorem Like.advance {P : Machine → Machine → Prop}
    (hstep : ∀ {m m' : Machine}, P m m' → m.Like M base floor m' →
      Step.Like M base floor (Machine.step hosts m) (Machine.step hosts m'))
    (hkept : ∀ {m m' next next' : Machine}, P m m' → Machine.step hosts m = .next next →
      Machine.step hosts m' = .next next' → P next next')
    (hm : P m m') (h : m.Like M base floor m') (fuel : Nat) :
    Progress.Like M base floor (advance hosts m fuel) (advance hosts m' fuel) := by
  induction fuel generalizing m m' with
  | zero => exact .running h
  | succ fuel ih =>
    have hlike := hstep hm h
    unfold Machine.advance
    generalize hs : Machine.step hosts m = s, hs' : Machine.step hosts m' = s' at hlike
    cases hlike with
    | next h => exact ih (hkept hm hs hs') h
    | done hglobals hsink => exact .done hglobals hsink
    | fault h fault => exact .failed h fault

end Machine

end Lox
