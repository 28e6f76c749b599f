import Refit.Draft
import Refit.Proofs.Text.Bytes

/-!
Spans replaced in a draft. The new text stands in the span that is returned (`split?_replaced`), the
old text put there brings the old draft back (`replaceSpan_same`), and of two texts that are put at
one place the second one stays (`replaceSpan_replaceSpan`). So the last text of a whole row of them
stays, with all around it as it was (`replaceSpan_exact`).
-/

namespace Refit.Draft

open Text
open String.Pos (Raw)

variable {d d' : Draft} {span placed : Span} {text first last : String}
  {before inside after : List Char} {texts : List String}

def replaceEach (d : Draft) (span : Span) (texts : List String) : Option (Draft × Span) :=
  texts.foldlM (fun standing text => standing.1.replaceSpan standing.2 text) (d, span)

/-- A draft in which a text has taken the place of a span, and the span in which it stands. -/
structure Replaced (d : Draft) (span : Span) (text : String) (d' : Draft) (placed : Span) :
    Prop where
  path : d'.path = d.path
  opened : d'.opened = d.opened
  content : d'.content.toUTF8 = d.content.toUTF8.extract 0 span.start ++ text.toUTF8 ++
    d.content.toUTF8.extract span.stop d.content.utf8ByteSize
  place : placed = ⟨span.start, span.start + text.utf8ByteSize⟩
  fits : placed.Fits d'.content
  selects : placed.bytes d'.content = text.toUTF8
  restores : ∃ old : String, old.toUTF8 = span.bytes d.content ∧
    d'.replaceSpan placed old = some (d, span)

theorem replaceSpan_parts (h : span.split? d.content.toList = some (before, inside, after))
    (text : String) : d.replaceSpan span text =
      some ({ d with content := String.ofList (before ++ (text.toList ++ after)) },
        ⟨span.start, span.start + byteSize text.toList⟩) := by
  rw [replaceSpan, h]
  rfl

theorem exists_split? (h : d.replaceSpan span text = some (d', placed)) :
    ∃ before inside after, span.split? d.content.toList = some (before, inside, after) := by
  obtain ⟨⟨before, inside, after⟩, hs, -⟩ := Option.map_eq_some_iff.mp h
  exact ⟨before, inside, after, hs⟩

theorem replaceSpan_eq_none : d.replaceSpan span text = none ↔ ¬ span.Fits d.content := by
  rw [replaceSpan, Option.map_eq_none_iff, ← Span.exists_split?_iff,
    Option.eq_none_iff_forall_ne_some]
  simp

/-- The new text stands between what stood around the old one. -/
theorem split?_replaced (h : span.split? d.content.toList = some (before, inside, after))
    (hr : d.replaceSpan span text = some (d', placed)) :
    placed.split? d'.content.toList = some (before, text.toList, after) := by
  rw [replaceSpan_parts h] at hr
  cases hr
  rw [String.toList_ofList, Span.start_of_split? h]
  exact Span.split?_between before text.toList after

theorem replaceSpan_same (h : span.split? d.content.toList = some (before, inside, after)) :
    d.replaceSpan span (String.ofList inside) = some (d, span) := by
  obtain ⟨hcontent, hstart, hstop⟩ := Span.split?_eq_some.mp h
  rw [replaceSpan_parts h, String.toList_ofList, hcontent, String.ofList_toList, hstart, ← hstop,
    ← hstart]

/-- The second of two texts that are put at one place stays. -/
theorem replaceSpan_replaceSpan (h : d.replaceSpan span first = some (d', placed))
    (second : String) : d'.replaceSpan placed second = d.replaceSpan span second := by
  obtain ⟨before, inside, after, hs⟩ := exists_split? h
  rw [replaceSpan_parts hs, replaceSpan_parts (split?_replaced hs h)]
  rw [replaceSpan_parts hs] at h
  cases h
  rfl

theorem replaceEach_cons (h : d.replaceSpan span text = some (d', placed)) (rest : List String) :
    d.replaceEach span (text :: rest) = d'.replaceEach placed rest := by
  rw [replaceEach, List.foldlM_cons, h]
  rfl

theorem replaceEach_eq (hr : d.replaceSpan span first = some (d', placed))
    (rest : List String) : d.replaceEach span (first :: rest) =
      d.replaceSpan span ((first :: rest).getLast (List.cons_ne_nil first rest)) := by
  induction rest generalizing d span first d' placed with
  | nil => exact (replaceEach_cons hr []).trans hr.symm
  | cons next rest ih =>
    have hnext := replaceSpan_replaceSpan hr next
    obtain ⟨before, inside, after, hs⟩ := exists_split? hr
    rw [replaceSpan_parts hs next] at hnext
    rw [replaceEach_cons hr, ih hnext, List.getLast_cons (List.cons_ne_nil next rest),
      replaceSpan_replaceSpan hr]

theorem replaced_of_replaceSpan (h : d.replaceSpan span text = some (d', placed)) :
    d.Replaced span text d' placed := by
  obtain ⟨before, inside, after, hs⟩ := exists_split? h
  have hs' := split?_replaced hs h
  obtain ⟨hbefore, hinside, hafter⟩ := Span.bytes_of_split? hs
  obtain ⟨-, hselects, -⟩ := Span.bytes_of_split? hs'
  have hold := (replaceSpan_replaceSpan h (String.ofList inside)).trans (replaceSpan_same hs)
  have htext : text.toList.utf8Encode = text.toUTF8 := by
    rw [← String.toByteArray_ofList, String.ofList_toList]
    rfl
  rw [htext] at hselects
  rw [replaceSpan_parts hs] at h
  cases h
  refine ⟨rfl, rfl, ?_, by rw [byteSize_toList], Span.fits_of_split? hs', hselects,
    String.ofList inside, ?_, hold⟩
  · rw [hbefore, hafter, ← htext, ← List.utf8Encode_append, ← List.utf8Encode_append,
      List.append_assoc, ← String.toByteArray_ofList]
    rfl
  · rw [hinside, ← String.toByteArray_ofList]
    rfl

/-- A span is replaced exactly where it fits the text, and the draft stays where it does not. The
text stands in the span that is returned, and the old one can be put back there. Texts put one after
the other, each where the one before it stands, leave the last one. -/
theorem replaceSpan_exact (d : Draft) (span : Span) :
    (∀ text, d.replaceSpan span text = none ↔
      span.stop < span.start ∨ d.content.utf8ByteSize < span.stop ∨
        ¬ Raw.IsValid d.content ⟨span.start⟩ ∨ ¬ Raw.IsValid d.content ⟨span.stop⟩) ∧
    (∀ text, d.replaceSpan span text = none →
      ((d.replaceSpan span text).map Prod.fst).getD d = d) ∧
    (∀ text d' placed, d.replaceSpan span text = some (d', placed) →
      d.Replaced span text d' placed) ∧
    ∀ texts last, span.Fits d.content → texts.getLast? = some last →
      ∃ d' placed, d.replaceEach span texts = some (d', placed) ∧
        d.Replaced span last d' placed := by
  refine ⟨fun text => ?_, fun text hn => ?_, fun _ _ _ => replaced_of_replaceSpan,
    fun texts last hf hl => ?_⟩
  · rw [replaceSpan_eq_none, Span.not_fits_iff]
  · rw [hn]
    rfl
  · obtain ⟨before, inside, after, hs⟩ := Span.exists_split?_iff.mpr hf
    cases texts with
    | nil => cases hl
    | cons text rest =>
      rw [List.getLast?_eq_some_getLast (List.cons_ne_nil text rest)] at hl
      have heach := replaceEach_eq (replaceSpan_parts hs text) rest
      rw [Option.some.inj hl, replaceSpan_parts hs last] at heach
      exact ⟨_, _, heach, replaced_of_replaceSpan (replaceSpan_parts hs last)⟩

theorem replaceSpan_exact_twice :
    let d := ofSource "A.java" "aéz"
    Span.Fits ⟨1, 3⟩ d.content ∧ ["", "☃"].getLast? = some "☃" ∧
      ∃ d' placed, d.replaceEach ⟨1, 3⟩ ["", "☃"] = some (d', placed) ∧
        d.Replaced ⟨1, 3⟩ "☃" d' placed := by
  have hf : Span.Fits ⟨1, 3⟩ (ofSource "A.java" "aéz").content :=
    Span.exists_split?_iff.mp ⟨['a'], ['é'], ['z'], by decide⟩
  exact ⟨hf, rfl, (replaceSpan_exact _ ⟨1, 3⟩).2.2.2 ["", "☃"] "☃" hf rfl⟩

end Refit.Draft
