import Refit.Proofs.Text.Place

namespace Refit.Text

open String.Pos (Raw)

variable {cs before inside after : List Char} {s : String} {span : Span} {n : Nat}

/-- A span in a text whose ends are boundaries of characters, the first no later than the second. -/
structure Span.Fits (span : Span) (s : String) : Prop where
  ordered : span.start ≤ span.stop
  inside : span.stop ≤ s.utf8ByteSize
  starts : Raw.IsValid s ⟨span.start⟩
  stops : Raw.IsValid s ⟨span.stop⟩

theorem Span.not_fits_iff : ¬ span.Fits s ↔
    span.stop < span.start ∨ s.utf8ByteSize < span.stop ∨
      ¬ Raw.IsValid s ⟨span.start⟩ ∨ ¬ Raw.IsValid s ⟨span.stop⟩ := by
  constructor
  · intro h
    by_contra hn
    simp only [not_or, not_lt, not_not] at hn
    exact h ⟨hn.1, hn.2.1, hn.2.2.1, hn.2.2.2⟩
  · rintro (h | h | h | h) hf
    · exact absurd hf.ordered (by omega)
    · exact absurd hf.inside (by omega)
    · exact h hf.starts
    · exact h hf.stops

/-- The bytes of a text that a span covers. -/
def Span.bytes (span : Span) (s : String) : ByteArray := s.toUTF8.extract span.start span.stop

theorem size_utf8Encode (cs : List Char) : cs.utf8Encode.size = byteSize cs := by
  induction cs with
  | nil => rfl
  | cons c cs ih =>
    rw [List.utf8Encode_cons, ByteArray.size_append, ih, List.utf8Encode_singleton,
      List.size_toByteArray, String.length_utf8EncodeChar]
    rfl

theorem utf8ByteSize_ofList (cs : List Char) : (String.ofList cs).utf8ByteSize = byteSize cs := by
  rw [← String.size_toByteArray, String.toByteArray_ofList, size_utf8Encode]

theorem byteSize_toList (s : String) : byteSize s.toList = s.utf8ByteSize := by
  rw [← utf8ByteSize_ofList, String.ofList_toList]

theorem isValid_iff :
    Raw.IsValid s ⟨n⟩ ↔ ∃ before after, before ++ after = s.toList ∧ byteSize before = n := by
  rw [Raw.isValid_iff_exists_append]
  constructor
  · rintro ⟨a, b, rfl, hn⟩
    exact ⟨a.toList, b.toList, String.toList_append.symm,
      (byteSize_toList a).trans (congrArg Raw.byteIdx hn).symm⟩
  · rintro ⟨before, after, hs, rfl⟩
    refine ⟨String.ofList before, String.ofList after, ?_, ?_⟩
    · rw [← String.ofList_append, hs, String.ofList_toList]
    · rw [String.Pos.Raw.ext_iff]
      exact (utf8ByteSize_ofList before).symm

theorem Span.exists_split?_iff :
    (∃ before inside after, span.split? s.toList = some (before, inside, after)) ↔ span.Fits s := by
  simp only [Span.split?_eq_some]
  constructor
  · rintro ⟨before, inside, after, hs, hstart, hstop⟩
    have hsize : byteSize s.toList = byteSize before + (byteSize inside + byteSize after) := by
      rw [← hs, byteSize_append, byteSize_append]
    rw [byteSize_toList] at hsize
    refine ⟨by omega, by omega, ?_, ?_⟩
    · exact isValid_iff.mpr ⟨before, inside ++ after, hs, hstart.symm⟩
    · refine isValid_iff.mpr ⟨before ++ inside, after, by rw [List.append_assoc, hs], ?_⟩
      rw [byteSize_append, hstop]
  · intro h
    obtain ⟨before, rest, hs, hstart⟩ := isValid_iff.mp h.starts
    obtain ⟨upTo, after, hs', hstop⟩ := isValid_iff.mp h.stops
    have hle : byteSize before ≤ byteSize upTo := by
      rw [hstart, hstop]
      exact h.ordered
    obtain ⟨inside, rfl⟩ := prefix_of_byteSize_le ⟨rest, hs⟩ ⟨after, hs'⟩ hle
    refine ⟨before, inside, after, by rw [← List.append_assoc, hs'], hstart.symm, ?_⟩
    rw [← hstop, byteSize_append]

theorem Span.fits_of_split? (h : span.split? s.toList = some (before, inside, after)) :
    span.Fits s :=
  Span.exists_split?_iff.mp ⟨before, inside, after, h⟩

/-- The parts of a text hold the bytes before the span, in it and after it. -/
theorem Span.bytes_of_split? (h : span.split? s.toList = some (before, inside, after)) :
    s.toUTF8.extract 0 span.start = before.utf8Encode ∧ span.bytes s = inside.utf8Encode ∧
      s.toUTF8.extract span.stop s.utf8ByteSize = after.utf8Encode := by
  obtain ⟨hs, hstart, hstop⟩ := Span.split?_eq_some.mp h
  have hbytes : s.toUTF8 = before.utf8Encode ++ (inside.utf8Encode ++ after.utf8Encode) := by
    rw [← List.utf8Encode_append, ← List.utf8Encode_append, hs, ← String.toByteArray_ofList,
      String.ofList_toList]
    rfl
  have hsize : s.utf8ByteSize = byteSize before + (byteSize inside + byteSize after) := by
    rw [← byteSize_toList, ← hs, byteSize_append, byteSize_append]
  rw [Span.bytes, hbytes, hstart, hstop, hsize]
  simp only [← size_utf8Encode]
  refine ⟨ByteArray.extract_append_eq_left rfl, ?_, ?_⟩
  · have hrest := @ByteArray.extract_append_size_add before.utf8Encode
      (inside.utf8Encode ++ after.utf8Encode) 0 inside.utf8Encode.size
    rw [Nat.add_zero] at hrest
    exact hrest.trans (ByteArray.extract_append_eq_left rfl)
  · exact ByteArray.extract_append_size_add.trans (ByteArray.extract_append_eq_right rfl rfl)

end Refit.Text
