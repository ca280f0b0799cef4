import Lox.Machine.Run
import Lox.Proofs.Meaning

/-! # Machines that follow evaluations

A machine follows an evaluation if it comes to a state that fits the result, fails if the evaluation fails,
and goes on for as many steps as there was fuel if the evaluation used it up. -/

namespace Lox.Machine

open Lox.Tree (State Run)

variable {α β : Type} {hosts : Hosts} {m m' : Machine} {fuel n k : Nat}

/-! ### Steps -/

theorem advance_add (hosts : Hosts) (m : Machine) (n k : Nat) : advance hosts m (n + k) =
    match advance hosts m n with
    | .running m' => advance hosts m' k
    | ended => ended := by
  induction n generalizing m with
  | zero =>
    rw [Nat.zero_add]
    rfl
  | succ n ih =>
    rw [Nat.succ_add, advance, advance]
    cases step hosts m with
    | next m' => exact ih m'
    | done m' => rfl
    | fault m' reason => rfl

theorem advance_of_running (h : advance hosts m n = .running m') :
    advance hosts m (n + k) = advance hosts m' k := by
  rw [advance_add, h]

/-- A run that goes on for some steps goes on for fewer. -/
theorem running_of_le (h : advance hosts m n = .running m') (hle : k ≤ n) :
    ∃ m₁, advance hosts m k = .running m₁ := by
  obtain ⟨rest, rfl⟩ := Nat.exists_eq_add_of_le hle
  rw [advance_add] at h
  cases hk : advance hosts m k with
  | running m₁ => exact ⟨m₁, rfl⟩
  | done m₁ =>
    rw [hk] at h
    cases h
  | failed m₁ reason =>
    rw [hk] at h
    cases h

theorem advance_one (h : step hosts m = .next m') : advance hosts m 1 = .running m' := by
  rw [advance, h]
  rfl

/-! ### Following -/

/-- The machine `m` follows an evaluation that has come to `x`. If that has a result, the machine comes to a
    state in which `post` holds of it; if it is a fault, the machine fails with it in a state that fits; and
    if fuel was used up, the machine makes so many steps. -/
def Follows (hosts : Hosts) (fits : State → Machine → Prop) (fuel : Nat) (m : Machine)
    (x : Option (Except Fault α × State)) (post : α → State → Machine → Prop) : Prop :=
  match x with
  | none => ∃ m', advance hosts m fuel = .running m'
  | some (.ok a, s) => ∃ n m', advance hosts m n = .running m' ∧ post a s m'
  | some (.error fault, s) => ∃ n m', advance hosts m n = .failed m' fault ∧ fits s m'

namespace Follows

variable {fits : State → Machine → Prop} {s : State} {post post₁ : α → State → Machine → Prop}
  {post' : β → State → Machine → Prop}

theorem ok {a : α} (h : post a s m) : Follows hosts fits fuel m (some (.ok a, s)) post := ⟨0, m, rfl, h⟩

theorem fault {reason : Fault} (hstep : step hosts m = .fault m' reason) (hfits : fits s m') :
    Follows hosts fits fuel m (some (.error reason, s)) post := by
  refine ⟨1, m', ?_, hfits⟩
  rw [advance, hstep]

/-- What is followed after some steps is followed before them. -/
theorem after {x : Option (Except Fault α × State)} (hrun : advance hosts m n = .running m')
    (h : Follows hosts fits fuel m' x post) : Follows hosts fits fuel m x post := by
  rcases x with _ | ⟨_ | a, s⟩
  · obtain ⟨m₁, h₁⟩ := h
    exact running_of_le ((advance_of_running hrun).trans h₁) (Nat.le_add_left fuel n)
  · obtain ⟨k, m₁, h₁, hfits⟩ := h
    exact ⟨n + k, m₁, (advance_of_running hrun).trans h₁, hfits⟩
  · obtain ⟨k, m₁, h₁, hpost⟩ := h
    exact ⟨n + k, m₁, (advance_of_running hrun).trans h₁, hpost⟩

theorem next {x : Option (Except Fault α × State)} (hstep : step hosts m = .next m')
    (h : Follows hosts fits fuel m' x post) :
    Follows hosts fits fuel m x post :=
  after (advance_one hstep) h

/-- A step makes up for one unit of fuel. -/
theorem succ {x : Option (Except Fault α × State)} (hstep : step hosts m = .next m')
    (h : Follows hosts fits fuel m' x post) :
    Follows hosts fits (fuel + 1) m x post := by
  rcases x with _ | ⟨_ | a, s⟩
  · obtain ⟨m₁, h₁⟩ := h
    refine ⟨m₁, ?_⟩
    rw [advance, hstep]
    exact h₁
  · exact next hstep h
  · exact next hstep h

theorem mono {x : Option (Except Fault α × State)} (h : Follows hosts fits fuel m x post) (hle : k ≤ fuel) :
    Follows hosts fits k m x post := by
  rcases x with _ | ⟨_ | a, s⟩
  · obtain ⟨m₁, h₁⟩ := h
    exact running_of_le h₁ hle
  · exact h
  · exact h

/-- The machine goes on after the evaluation. -/
theorem trans {x : Option (Except Fault α × State)}
    (h : Follows hosts fits fuel m x post)
    (hpost : ∀ a s m', post a s m' → Follows hosts fits fuel m' (some (.ok a, s)) post₁) :
    Follows hosts fits fuel m x post₁ := by
  rcases x with _ | ⟨_ | a, s⟩
  · exact h
  · exact h
  · obtain ⟨n, m₁, h₁, hpost'⟩ := h
    exact after h₁ (hpost a s m₁ hpost')

/-- A change of the result. -/
theorem map {x : Except Fault α} {g : α → β} (h : Follows hosts fits fuel m (some (x, s)) post)
    (hg : ∀ a m', post a s m' → Follows hosts fits fuel m' (some (.ok (g a), s)) post') :
    Follows hosts fits fuel m (some (x.map g, s)) post' := by
  cases x with
  | error reason => exact h
  | ok a =>
    obtain ⟨n, m₁, h₁, hpost⟩ := h
    exact after h₁ (hg a m₁ hpost)

/-- One evaluation after another. -/
theorem bind {x : Run α} {f : α → Run β} (h : Follows hosts fits fuel m (x s) post)
    (hf : ∀ a s' m', post a s' m' → Follows hosts fits fuel m' (f a s') post') :
    Follows hosts fits fuel m ((x >>= f) s) post' := by
  have hbind : (x >>= f) s = match x s with
      | none => none
      | some (.ok a, s') => f a s'
      | some (.error reason, s') => some (.error reason, s') := by
    show Option.bind (x s) _ = _
    rcases x s with _ | ⟨_ | a, s'⟩ <;> rfl
  rw [hbind]
  rcases hx : x s with _ | ⟨reason | a, s'⟩ <;> rw [hx] at h
  · exact h
  · exact h
  · obtain ⟨n, m₁, h₁, hpost⟩ := h
    exact after h₁ (hf a s' m₁ hpost)

/-- An evaluation with other locals. -/
theorem withLocals {x : Run α} {locals : List (String × Tree.Value)}
    (h : Follows hosts fits fuel m (x { s with locals }) post) (hpost : ∀ a s' m', post a s' m' →
      Follows hosts fits fuel m' (some (.ok a, { s' with locals := s.locals })) post₁) :
    Follows hosts fits fuel m (Tree.withLocals locals x s) post₁ := by
  rw [Tree.withLocals_eq]
  rcases hx : x { s with locals } with _ | ⟨reason | a, s'⟩ <;> rw [hx] at h
  · exact h
  · exact h
  · obtain ⟨n, m₁, h₁, hresult⟩ := h
    exact after h₁ (hpost a s' m₁ hresult)

end Follows

end Lox.Machine
