import Lox.Proofs.Image.Reading
import Lox.Proofs.Image.RoundTrip

/-! # The canonical image

Of the images that load as a script, the one that is written for it is the shortest, and the only one in which
every number is spelled in the shortest way. -/

namespace Lox

namespace Image

variable {f : Function} {image : List UInt8} {words others : List Word}

/-- A script that has pieces holds no routine of the host. -/
theorem Renders.not_holdsNative (h : Renders words f image) : ¬f.HoldsNative := by
  intro hnative
  have hnone := f.encode?_eq_none.mpr hnative
  rw [f.encode?_eq, h.1] at hnone
  cases hnone

/-- An image of a script is cut into words in one way. -/
theorem Renders.unique (h : Renders words f image) (hothers : Renders others f image) : others = words := by
  have hpieces := Option.some.inj (hothers.1.symm.trans h.1)
  exact bytesOf_inj hpieces (List.append_cancel_left (hothers.2.symm.trans h.2))

/-- The image that is written is that of the words of some other image, with each number in the shortest way. -/
theorem Renders.exists_encode (h : Renders words f image) : ∃ canonical others, encode f = .ok canonical ∧
    Renders others f canonical ∧ canonical.length ≤ image.length ∧ (canonical = image ↔ InShortest words) := by
  obtain ⟨others, hpieces, hbytes⟩ := exists_written words
  obtain ⟨hf, rfl⟩ := h
  refine ⟨header ++ bytesOf others, others, ?_, ⟨hf.trans (congrArg some hpieces.symm), rfl⟩, ?_, ?_⟩
  · exact encode_eq_ok_iff.mpr ⟨_, hf, congrArg (header ++ ·) hbytes⟩
  · rw [hbytes, List.length_append, List.length_append]
    exact Nat.add_le_add_left (length_written_le words) _
  · rw [hbytes, List.append_right_inj, eq_written_iff]

/-- A script that is loaded verifies, holds no routine of the host, and can be written again. What is then
    written is loaded as the same script and is no longer than the image; it is the image exactly if each of
    its numbers, in the one way to cut it into words, is spelled in the shortest way. So two such images of a
    script are the same. -/
theorem decode_canonical (h : decode image = .ok f) : f.verify = .ok () ∧ ¬f.HoldsNative ∧
    ∃ words canonical, Renders words f image ∧ (∀ others, Renders others f image → others = words) ∧
      encode f = .ok canonical ∧ decode canonical = .ok f ∧ canonical.length ≤ image.length ∧
      (canonical = image ↔ InShortest words) ∧
      ∀ image' words', decode image' = .ok f → Renders words' f image' → InShortest words → InShortest words' →
        image' = image := by
  obtain ⟨hverify, words, hwords⟩ := decode_eq_ok_iff.mp h
  obtain ⟨canonical, others, hencode, hothers, hlength, hshortest⟩ := hwords.exists_encode
  refine ⟨hverify, hwords.not_holdsNative, words, canonical, hwords, fun _ => hwords.unique, hencode,
    decode_eq_ok_iff.mpr ⟨hverify, others, hothers⟩, hlength, hshortest, ?_⟩
  intro image' words' _ hwords' hall hall'
  obtain ⟨canonical', -, hencode', -, -, hshortest'⟩ := hwords'.exists_encode
  obtain rfl := Except.ok.inj (hencode.symm.trans hencode')
  exact (hshortest'.mpr hall').symm.trans (hshortest.mpr hall)

/-- An image with a length and a line that are spelled in more bytes than they take. -/
theorem decode_canonical_long : ∃ f image words canonical, decode image = .ok f ∧ Renders words f image ∧
    ¬InShortest words ∧ encode f = .ok canonical ∧ decode canonical = .ok f ∧
      canonical.length + 3 = image.length := by
  let f : Function := { chunk := { code := #[1, 24], lines := #[1, 1] } }
  let image : List UInt8 := header ++ [0, 0x82, 0x00, 1, 24, 2, 0x81, 0x80, 0x00, 1, 0, 0]
  let canonical : List UInt8 := header ++ [0, 2, 1, 24, 2, 1, 1, 0, 0]
  have hdecode : decode image = .ok f := by rfl
  have hencode : encode f = .ok canonical := by rfl
  obtain ⟨-, -, words, written, hwords, -, hwritten, hagain, -, hshortest, -⟩ := decode_canonical hdecode
  obtain rfl := Except.ok.inj (hencode.symm.trans hwritten)
  have hne : canonical ≠ image := by decide
  exact ⟨f, image, words, canonical, hdecode, hwords, fun h => hne (hshortest.mpr h), hencode, hagain, rfl⟩

end Image

end Lox
