import Lox.Proofs.Image.Canonical

/-! # Cut and extended images

An image ends where its words end: what is cut off is missed, and what follows is too much. So no image is the
beginning of another. -/

namespace Lox

namespace Image

variable {f g : Function} {image other start missing more : List UInt8} {words words' : List Word}

/-- What is written for a function whose lengths fit in 64 bits is made up of words. -/
theorem exists_renders (hsized : f.Sized) (hencode : encode f = .ok image) :
    ∃ words, Renders words f image := by
  obtain ⟨pieces, hpieces, rfl⟩ := encode_eq_ok_iff.mp hencode
  have hbody : f.encode? = some (written pieces) := by rw [f.encode?_eq, hpieces, Option.map_some]
  rcases f.restores hbody (Nat.le_refl _) [] with ⟨-, hread⟩ | ⟨hlong, -⟩
  · obtain ⟨words, hwords, hbytes⟩ := (reads_function _).sound hread
    rw [List.append_nil, List.append_nil] at hbytes
    exact ⟨words, hwords, congrArg (header ++ ·) hbytes⟩
  · exact absurd hsized hlong

/-- Fewer bytes than the mark and the version take are no image. -/
theorem decode_short (h : start.length < 6) : decode start = .error .badMagic := by
  unfold decode
  split
  · simp only [List.length_cons] at h
    omega
  · rfl

/-- An image that is cut off after the version misses its end. -/
theorem Renders.decode_cut (h : Renders words f image) (hcut : image = start ++ missing)
    (hmissing : missing ≠ [])
    (hlength : 6 ≤ start.length) : decode start = .error (.decode .endOfBuffer) := by
  obtain ⟨hpieces, rfl⟩ := h
  obtain ⟨body, rfl, hbody⟩ : ∃ body, start = header ++ body ∧ bytesOf words = body ++ missing := by
    rcases List.append_eq_append_iff.mp hcut with ⟨body, hstart, hbody⟩ | ⟨behind, hheader, hmissing⟩
    · exact ⟨body, hstart, hbody⟩
    · have hnil : behind = [] := by
        have hsize : header.length = start.length + behind.length := by rw [hheader, List.length_append]
        have hsix : header.length = 6 := rfl
        exact List.length_eq_zero_iff.mp (by omega)
      subst hnil
      rw [List.append_nil] at hheader
      exact ⟨[], by rw [hheader, List.append_nil], hmissing.symm⟩
  rw [decode_header, (reads_function _).cut hpieces hbody hmissing (Nat.le_succ _)]

/-- Bytes after the words of an image are too many. -/
theorem Renders.decode_append (h : Renders words f image) (hmore : more ≠ []) :
    decode (image ++ more) = .error (.trailingBytes more.length) := by
  obtain ⟨hpieces, rfl⟩ := h
  have hlength : (bytesOf words).length ≤ (bytesOf words ++ more).length + 1 := by
    rw [List.length_append]
    omega
  rw [List.append_assoc, decode_header, (reads_function _).complete hpieces hlength more]
  cases more with
  | nil => exact absurd rfl hmore
  | cons b more => rfl

/-- An image is no proper beginning of another. -/
theorem Renders.eq_of_prefix (h : Renders words f image) (hother : Renders words' g other)
    (hbegins : image <+: other) :
    other = image := by
  obtain ⟨more, rfl⟩ := hbegins
  by_contra hne
  have hmore : more ≠ [] := by
    rintro rfl
    exact hne (List.append_nil _)
  have hdecode := hother.decode_eq
  rw [h.decode_append hmore] at hdecode
  cases hverify : g.verify <;> rw [hverify] at hdecode <;> cases hdecode

/-- A function without routines of the host is written to an image of which no beginning is an image: if not
    even the mark and the version are left, the beginning is none at all, and otherwise it misses its end.
    Bytes after an image are counted as too many, and so no image is a proper beginning of another. Lengths
    are numbers of 64 bits. -/
theorem decode_cut_or_extended (f : Function) (hsized : f.Sized) (hnative : ¬f.HoldsNative) :
    ∃ image, encode f = .ok image ∧
      (∀ start missing, image = start ++ missing → missing ≠ [] →
        (start.length < 6 → decode start = .error .badMagic) ∧
        (6 ≤ start.length → decode start = .error (.decode .endOfBuffer))) ∧
      Problem.endOfBuffer.message = "Hit the end of buffer, expected more data" ∧
      (∀ more, more ≠ [] → decode (image ++ more) = .error (.trailingBytes more.length)) ∧
      ∀ g other, g.Sized → encode g = .ok other → image <+: other → other = image := by
  obtain ⟨image, hencode⟩ : ∃ image, encode f = .ok image := by
    cases hencode : encode f with
    | ok image => exact ⟨image, rfl⟩
    | error error => exact absurd ((encode_fails_iff f).mp ⟨error, hencode⟩) hnative
  obtain ⟨words, hwords⟩ := exists_renders hsized hencode
  refine ⟨image, hencode, fun start missing hcut hmissing => ⟨decode_short, hwords.decode_cut hcut hmissing⟩,
    rfl,
    fun more hmore => hwords.decode_append hmore, fun g other hg hother hbegins => ?_⟩
  obtain ⟨words', hwords'⟩ := exists_renders hg hother
  exact hwords.eq_of_prefix hwords' hbegins

/-- The image of a script that does not verify: cut off inside a text of the function in it, or inside the
    version, or with two bytes after it. -/
theorem decode_cut_or_extended_nested : ∃ f image, f.Sized ∧ ¬f.HoldsNative ∧ encode f = .ok image ∧
    decode (image.take 28) = .error (.decode .endOfBuffer) ∧ decode (image.take 5) = .error .badMagic ∧
    decode (image ++ [0, 7]) = .error (.trailingBytes 2) := by
  let inner : Function :=
    { chunk := { code := #[24], lines := #[300], constants := [.string "text"] }, name := some "f" }
  let f : Function := { chunk := { code := #[0, 0], lines := #[1, 1], constants := [.function inner] } }
  let bytes : List UInt8 := header ++ [0, 2, 0, 0, 2, 1, 1, 1, 3, 1, 0, 1, 24, 1, 172, 2, 1, 3, 0, 4, 116,
    101, 120, 116, 1, 1, 102, 0]
  have hsized : f.Sized := by decide +kernel
  have hnative : ¬f.HoldsNative := by
    rw [← f.encode?_eq_none]
    decide +kernel
  have hbytes : encode f = .ok bytes := by decide +kernel
  obtain ⟨image, hencode, hcut, -, hextended, -⟩ := decode_cut_or_extended f hsized hnative
  obtain rfl := Except.ok.inj (hbytes.symm.trans hencode)
  have hend := (hcut _ _ (List.take_append_drop 28 bytes).symm (by decide)).2 (by decide)
  have hversion := (hcut _ _ (List.take_append_drop 5 bytes).symm (by decide)).1 (by decide)
  exact ⟨f, bytes, hsized, hnative, hencode, hend, hversion, hextended [0, 7] (List.cons_ne_nil _ _)⟩

end Image

end Lox
