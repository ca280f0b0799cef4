import Lox.Proofs.Machine.Discipline

/-! # The wording of faults

The faults of corrupt code are worded as no other fault is, except the complaints of routines of the host,
which may be any texts. -/

namespace Lox.Fault

/-- How the wording of a fault begins; that of a routine of the host may begin in any way. -/
def opening : Fault → List Char
  | stepLimit _ => ['E', 'x', 'e']
  | stackUnderflow | stackOverflow => ['S', 't', 'a']
  | noFrame => ['N', 'o', ' ']
  | pastEnd => ['R', 'a', 'n']
  | unknownOpcode _ => ['U', 'n', 'k']
  | constantRange _ => ['C', 'o', 'n']
  | nameExpected _ | arity _ _ => ['E', 'x', 'p']
  | localRange _ => ['L', 'o', 'c']
  | loopBeforeStart => ['L', 'o', 'o']
  | undefinedVariable _ => ['U', 'n', 'd']
  | operandNotNumber | operandsNotNumbers | operandsNotAddable => ['O', 'p', 'e']
  | notCallable => ['C', 'a', 'n']
  | native complaint => complaint.toList.take 3
  | output _ => ['F', 'a', 'i']

theorem take_append {s : String} {a b c : Char} (h : s.toList.take 3 = [a, b, c]) (t : String) :
    (s ++ t).toList.take 3 = [a, b, c] := by
  have hlength : 3 ≤ s.toList.length := by
    have hthree := congrArg List.length h
    rw [List.length_take] at hthree
    simp only [List.length_cons, List.length_nil] at hthree
    omega
  rw [String.toList_append, List.take_append_of_le_length hlength, h]

theorem take_message (fault : Fault) : fault.message.toList.take 3 = fault.opening := by
  cases fault with
  | native complaint => rfl
  | stackUnderflow | stackOverflow | noFrame | pastEnd | loopBeforeStart | operandNotNumber | operandsNotNumbers
  | operandsNotAddable | notCallable => decide +kernel
  | stepLimit limit =>
    have h : "Execution step limit exceeded (".toList.take 3 = ['E', 'x', 'e'] := by decide +kernel
    exact take_append (take_append h _) _
  | unknownOpcode byte =>
    have h : "Unknown opcode ".toList.take 3 = ['U', 'n', 'k'] := by decide +kernel
    exact take_append (take_append h _) _
  | constantRange index =>
    have h : "Constant ".toList.take 3 = ['C', 'o', 'n'] := by decide +kernel
    exact take_append (take_append h _) _
  | nameExpected name =>
    have h : "Expected a variable name but found ".toList.take 3 = ['E', 'x', 'p'] := by decide +kernel
    exact take_append (take_append h _) _
  | localRange slot =>
    have h : "Local slot ".toList.take 3 = ['L', 'o', 'c'] := by decide +kernel
    exact take_append (take_append h _) _
  | undefinedVariable name =>
    have h : "Undefined variable '".toList.take 3 = ['U', 'n', 'd'] := by decide +kernel
    exact take_append (take_append h _) _
  | arity expected given =>
    have h : "Expected ".toList.take 3 = ['E', 'x', 'p'] := by decide +kernel
    exact take_append (take_append (take_append (take_append h _) _) _) _
  | output complaint =>
    have h : "Failed to write output: ".toList.take 3 = ['F', 'a', 'i'] := by decide +kernel
    exact take_append (take_append h _) _

theorem exists_digit (n : Nat) : ∃ digit rest, (toString n).toList = digit :: rest ∧ digit ≠ 'a' := by
  have hdigits : (toString n).toList = Nat.toDigits 10 n := by
    show (Nat.repr n).toList = _
    simp
  cases h : Nat.toDigits 10 n with
  | nil => simp at h
  | cons digit rest =>
    refine ⟨digit, rest, by rw [hdigits, h], fun heq => ?_⟩
    have hdigit : digit.isDigit := Nat.isDigit_of_mem_toDigits (by decide) (by decide) (h ▸ List.mem_cons_self)
    rw [heq] at hdigit
    exact absurd hdigit (by decide)

theorem message_arity_ne (expected given : UInt8) (typeName : String) :
    (Fault.arity expected given).message ≠ (Fault.nameExpected typeName).message := by
  intro h
  obtain ⟨digit, rest, hdigit, hne⟩ := exists_digit expected.toNat
  have hname : "Expected a variable name but found ".toList =
      "Expected ".toList ++ 'a' :: " variable name but found ".toList := by
    decide +kernel
  have hlists : ("Expected " ++ toString expected.toNat ++ " arguments but got " ++ toString given.toNat ++
        ".").toList =
    ("Expected a variable name but found " ++ typeName ++ ".").toList := congrArg String.toList h
  rw [String.toList_append, String.toList_append, String.toList_append, String.toList_append,
    String.toList_append, String.toList_append, hdigit, hname] at hlists
  simp only [List.append_assoc, List.append_cancel_left_eq, List.cons_append] at hlists
  exact hne (List.cons.inj hlists).1

/-- A fault that is worded as one of corrupt code is such a fault, or a complaint of the host. -/
theorem isCorruption_of_message {fault corrupt : Fault} (hcorrupt : corrupt.IsCorruption)
    (h : fault.message = corrupt.message) : fault.IsCorruption ∨ ∃ complaint, fault = .native complaint := by
  have hopening : fault.opening = corrupt.opening := by rw [← take_message, ← take_message, h]
  cases fault with
  | stackUnderflow | noFrame | pastEnd | unknownOpcode | constantRange | nameExpected | localRange
  | loopBeforeStart =>
    exact Or.inl trivial
  | native complaint => exact Or.inr ⟨complaint, rfl⟩
  | stackOverflow =>
    cases corrupt with
    | stackUnderflow => exact absurd h (by decide +kernel)
    | noFrame | pastEnd | unknownOpcode | constantRange | nameExpected | localRange | loopBeforeStart =>
      simp [opening] at hopening
    | _ => exact absurd hcorrupt id
  | arity expected given =>
    cases corrupt with
    | nameExpected typeName => exact absurd h (message_arity_ne expected given typeName)
    | stackUnderflow | noFrame | pastEnd | unknownOpcode | constantRange | localRange | loopBeforeStart =>
      simp [opening] at hopening
    | _ => exact absurd hcorrupt id
  | stepLimit | undefinedVariable | operandNotNumber | operandsNotNumbers | operandsNotAddable | notCallable
  | output =>
    cases corrupt with
    | stackUnderflow | noFrame | pastEnd | unknownOpcode | constantRange | nameExpected | localRange
    | loopBeforeStart =>
      simp [opening] at hopening
    | _ => exact absurd hcorrupt id

end Lox.Fault
