import Lox.Proofs.Flow.Function
import Lox.Proofs.Image

/-! # The round trip through an image

Every function without routines of the host can be written to an image. Loading the image gives the function
back if it verifies, and the defect that the verifier finds in it otherwise. -/

namespace Lox

/-! ### Routines of the host -/

/-- A routine of the host is among the constants of a function or of a function inside it. -/
def Function.HoldsNative (f : Function) : Prop := ∃ g ∈ f.all, ∃ native, .native native ∈ g.chunk.constants

/-- A routine of the host is among some constants, or inside a function among them. -/
def Constant.AnyHoldsNative (constants : List Constant) : Prop :=
  (∃ native, .native native ∈ constants) ∨ ∃ g : Function, .function g ∈ constants ∧ g.HoldsNative

theorem Function.holdsNative_iff (f : Function) :
    f.HoldsNative ↔ Constant.AnyHoldsNative f.chunk.constants := by
  constructor
  · rintro ⟨g, hg, hnative⟩
    rcases Function.mem_all.mp hg with rfl | ⟨h, hh, hg⟩
    · exact Or.inl hnative
    · exact Or.inr ⟨h, hh, g, hg, hnative⟩
  · rintro (hnative | ⟨h, hh, g, hg, hnative⟩)
    · exact ⟨f, f.mem_all_self, hnative⟩
    · exact ⟨g, Function.mem_all.mpr (Or.inr ⟨h, hh, hg⟩), hnative⟩

theorem Constant.anyHoldsNative_cons (constant : Constant) (constants : List Constant) :
    AnyHoldsNative (constant :: constants) ↔ AnyHoldsNative [constant] ∨ AnyHoldsNative constants := by
  unfold AnyHoldsNative
  simp only [List.mem_cons, List.not_mem_nil, or_false, or_and_right, exists_or]
  exact or_or_or_comm

/-! ### What cannot be written -/

mutual

theorem Function.encode?_eq_none : ∀ f : Function, f.encode? = none ↔ f.HoldsNative
  | ⟨arity, ⟨code, lines, constants⟩, name⟩ => by
    rw [Function.holdsNative_iff, ← Constant.encodeAll?_eq_none constants, Function.encode?, Chunk.encode?]
    cases Constant.encodeAll? constants with
    | none => exact iff_of_true rfl rfl
    | some pool => exact iff_of_false (fun h => by cases h) (fun h => by cases h)

theorem Constant.encodeAll?_eq_none : ∀ constants : List Constant,
    Constant.encodeAll? constants = none ↔ Constant.AnyHoldsNative constants
  | [] => by simp [Constant.encodeAll?, Constant.AnyHoldsNative]
  | constant :: constants => by
    rw [Constant.anyHoldsNative_cons, ← Constant.encode?_eq_none constant,
      ← Constant.encodeAll?_eq_none constants, Constant.encodeAll?]
    cases constant.encode? with
    | none => exact iff_of_true rfl (Or.inl rfl)
    | some first =>
      cases Constant.encodeAll? constants with
      | none => exact iff_of_true rfl (Or.inr rfl)
      | some rest => exact iff_of_false (fun h => by cases h) (by simp)

theorem Constant.encode?_eq_none : ∀ constant : Constant, constant.encode? = none ↔
    Constant.AnyHoldsNative [constant]
  | .nil | .bool _ | .number _ | .string _ => by simp [Constant.encode?, Constant.AnyHoldsNative]
  | .native native => by simp [Constant.encode?, Constant.AnyHoldsNative]
  | .function f => by
    have hf : Constant.AnyHoldsNative [.function f] ↔ f.HoldsNative := by simp [Constant.AnyHoldsNative]
    rw [hf, ← Function.encode?_eq_none f, Constant.encode?]
    cases f.encode? with
    | none => exact iff_of_true rfl rfl
    | some body => exact iff_of_false (fun h => by cases h) (fun h => by cases h)

end

namespace Image

theorem encode_fails_iff (f : Function) : (∃ error, encode f = .error error) ↔ f.HoldsNative := by
  rw [← Function.encode?_eq_none, encode]
  cases f.encode? with
  | none => exact iff_of_true ⟨.encode, rfl⟩ rfl
  | some body => exact iff_of_false (by rintro ⟨_, h⟩; cases h) (fun h => by cases h)

/-- Writing a function to an image fails exactly if a routine of the host is inside it. What was written is
    loaded as the same function if it verifies, and refused with the defect of the function otherwise. Lengths
    are numbers of 64 bits. -/
theorem decode_encode_eq (f : Function) (hsized : f.Sized) :
    ((∃ error, encode f = .error error) ↔ f.HoldsNative) ∧
    ∀ image, encode f = .ok image →
      (f.verify = .ok () → decode image = .ok f) ∧
      ∀ defect, f.verify = .error defect → decode image = .error (.verify defect) := by
  refine ⟨encode_fails_iff f, fun image hencode => ?_⟩
  rcases decode_of_encode hencode with ⟨-, hdecode⟩ | ⟨hlong, -⟩
  · refine ⟨fun hverify => ?_, fun defect hverify => ?_⟩
    · rw [hdecode, hverify]
      rfl
    · rw [hdecode, hverify]
      rfl
  · exact absurd hsized hlong

/-- A script with a function inside it whose code does not return: it can be written, but not loaded. -/
theorem decode_encode_eq_unfinished : ∃ f image, f.Sized ∧ encode f = .ok image ∧
    decode image = .error (.verify ⟨"f", .missingReturn⟩) := by
  let inner : Function := { chunk := { code := #[1], lines := #[300] }, name := some "f" }
  let constants : List Constant := [.function inner, .number 0x7ff8000000000001, .string "text"]
  let f : Function := { chunk := { code := #[0, 0, 24], lines := #[1, 1, 300], constants } }
  have hsized : f.Sized := by
    simp only [f, constants, inner, Function.Sized, Chunk.Sized, Constant.AllSized, Constant.Sized, TextSized]
    decide +kernel
  have hverify : f.verify = .error ⟨"f", .missingReturn⟩ := by decide +kernel
  obtain ⟨image, hencode, -⟩ :=
    exists_ok_of_any (show (encode f).toOption.any (fun _ => true) = true by decide +kernel)
  exact ⟨f, image, hsized, hencode, ((decode_encode_eq f hsized).2 image hencode).2 _ hverify⟩

end Image

end Lox
