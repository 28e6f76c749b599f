import Refit.Diff.Unified
import Refit.Proofs.Diff.Patch

namespace Refit.Diff

open Refit.Text

/-- Nothing in it ends a line. -/
def Bare (x : List Char) : Prop := ∀ c ∈ x, c ≠ '\n' ∧ c ≠ '\r'

theorem bare_nil : Bare [] := by simp [Bare]

def IsLine (x : List Char) : Prop :=
  ∃ body ending, x = body ++ ending ∧ Bare body ∧ ending ∈ [['\n'], ['\r', '\n'], ['\r']]

variable {x y rest cs : List Char} {c : Char}

theorem bare_of_all (h : (x.all fun c => c != '\n' && c != '\r') = true) : Bare x := by
  simpa [Bare] using h

theorem IsLine.cons (h : IsLine x) (hc : c ≠ '\n' ∧ c ≠ '\r') : IsLine (c :: x) := by
  obtain ⟨body, ending, rfl, hbody, hending⟩ := h
  refine ⟨c :: body, ending, rfl, fun d hd => ?_, hending⟩
  obtain rfl | hd := List.mem_cons.mp hd
  · exact hc
  · exact hbody d hd

theorem Bare.isLine (h : Bare x) : IsLine (x ++ ['\n']) :=
  ⟨x, ['\n'], rfl, h, by decide⟩

theorem pieces_bare {line : List Char} {more : List (List Char)} (hc : c ≠ '\n' ∧ c ≠ '\r')
    (h : pieces rest = line :: more) : pieces (c :: rest) = (c :: line) :: more := by
  rw [pieces, if_neg (not_or.mpr hc), h]
  rintro rest' rfl
  exact absurd rfl hc.2

theorem pieces_line (h : IsLine x) (hrest : rest.head? ≠ some '\n') :
    pieces (x ++ rest) = x :: pieces rest := by
  obtain ⟨body, ending, rfl, hbody, hending⟩ := h
  induction body with
  | nil =>
    simp only [List.mem_cons, List.not_mem_nil, or_false] at hending
    obtain rfl | rfl | rfl := hending
    · simp [pieces]
    · rfl
    · -- The next line does not begin with a line feed that would belong to this end.
      cases rest with
      | nil => rfl
      | cons d rest =>
        have hd : d ≠ '\n' := fun hd => hrest (congrArg some hd)
        simp [pieces, hd]
  | cons c body ih =>
    exact pieces_bare (hbody c List.mem_cons_self)
      (ih fun d hd => hbody d (List.mem_cons_of_mem _ hd))

theorem IsLine.ne_nil (h : IsLine x) : x ≠ [] := by
  rintro rfl
  obtain ⟨body, ending, hx, -, hending⟩ := h
  obtain ⟨-, rfl⟩ := List.append_eq_nil_iff.mp hx.symm
  revert hending
  decide

/-- Lines put together are cut into the same lines. -/
theorem pieces_lines {lines : List (List Char)}
    (h : ∀ x ∈ lines, IsLine x ∧ x.head? ≠ some '\n') : pieces lines.flatten = lines := by
  induction lines with
  | nil => rfl
  | cons x lines ih =>
    have hrest := ih fun y hy => h y (List.mem_cons_of_mem _ hy)
    obtain ⟨hx, -⟩ := h x List.mem_cons_self
    rw [List.flatten_cons, pieces_line hx, hrest]
    cases lines with
    | nil => exact nofun
    | cons y lines =>
      obtain ⟨hy, hhead⟩ := h y (by simp)
      rw [List.flatten_cons, List.head?_append_of_ne_nil _ hy.ne_nil]
      exact hhead

theorem isLine_or_bare (hx : x ∈ pieces cs) : IsLine x ∨ Bare x := by
  fun_induction pieces cs generalizing x with
  | case1 => cases hx
  | case2 rest ih =>
    obtain rfl | hx := List.mem_cons.mp hx
    · exact .inl ⟨[], _, rfl, bare_nil, by decide⟩
    · exact ih hx
  | case3 c rest _ hc ih =>
    obtain rfl | hx := List.mem_cons.mp hx
    · refine .inl ⟨[], [c], rfl, bare_nil, ?_⟩
      obtain rfl | rfl := hc <;> decide
    · exact ih hx
  | case4 c rest _ hc hnil ih =>
    obtain rfl := List.mem_singleton.mp hx
    refine .inr fun d hd => ?_
    obtain rfl := List.mem_singleton.mp hd
    exact not_or.mp hc
  | case5 c rest _ hc line more hrest ih =>
    obtain rfl | hx := List.mem_cons.mp hx
    · obtain hline | hline := ih (hrest ▸ List.mem_cons_self)
      · exact .inl (hline.cons (not_or.mp hc))
      · refine .inr fun d hd => ?_
        obtain rfl | hd := List.mem_cons.mp hd
        · exact not_or.mp hc
        · exact hline d hd
    · exact ih (hrest ▸ List.mem_cons_of_mem _ hx)

/-- What follows a given beginning. -/
def strip (start cs : List Char) : Option (List Char) :=
  if start <+: cs then some (cs.drop start.length) else none

def readNumber (cs : List Char) : Option (Nat × List Char) :=
  let digits := cs.takeWhile Char.isDigit
  if digits = [] then none
  else some (Nat.ofDigitChars 10 digits 0, cs.dropWhile Char.isDigit)

def Range.at? (line len : Nat) : Option Range :=
  if len = 0 then some ⟨line, 0⟩ else if line = 0 then none else some ⟨line - 1, len⟩

def readLength : List Char → Option (Nat × List Char)
  | ',' :: rest => readNumber rest
  | rest => some (1, rest)

def readRange (cs : List Char) : Option (Range × List Char) := do
  let (line, rest) ← readNumber cs
  let (len, rest) ← readLength rest
  let range ← Range.at? line len
  return (range, rest)

def readHeader (line : List Char) : Option (Range × Range) := do
  let rest ← strip "@@ -".toList line
  let (old, rest) ← readRange rest
  let rest ← strip " +".toList rest
  let (new, rest) ← readRange rest
  if rest = " @@\n".toList then some (old, new) else none

theorem strip_append (start cs : List Char) : strip start (start ++ cs) = some cs := by
  rw [strip, if_pos (List.prefix_append _ _), List.drop_left]

theorem readNumber_toString (n : Nat) (hrest : ∀ c ∈ rest.head?, c.isDigit = false) :
    readNumber ((toString n).toList ++ rest) = some (n, rest) := by
  have hdigits : (toString n).toList = Nat.toDigits 10 n := by simp
  have hall : ∀ c ∈ Nat.toDigits 10 n, c.isDigit = true :=
    fun c hc => Nat.isDigit_of_mem_toDigits (by decide) (by decide) hc
  have htake : rest.takeWhile Char.isDigit = [] ∧ rest.dropWhile Char.isDigit = rest := by
    cases rest with
    | nil => exact ⟨rfl, rfl⟩
    | cons c rest => simp [hrest c rfl]
  simp only [hdigits, readNumber, List.takeWhile_append_of_pos hall,
    List.dropWhile_append_of_pos hall, htake, List.append_nil, Nat.ofDigitChars_ten_toDigits]
  rw [if_neg Nat.toDigits_ne_nil]

theorem readRange_eq {line len : Nat} {range : Range} {afterLine afterLength : List Char}
    (hline : readNumber cs = some (line, afterLine))
    (hlength : readLength afterLine = some (len, afterLength))
    (hrange : Range.at? line len = some range) : readRange cs = some (range, afterLength) := by
  simp [readRange, hline, hlength, hrange]

theorem readLength_toString (n : Nat) (hrest : ∀ c ∈ rest.head?, c.isDigit = false) :
    readLength (',' :: ((toString n).toList ++ rest)) = some (n, rest) :=
  readNumber_toString n hrest

theorem readRange_rangeText (start stop : Nat) :
    readRange ((rangeText start stop).toList ++ ' ' :: rest) =
      some (⟨start, stop - start⟩, ' ' :: rest) := by
  have hspace : ∀ c ∈ (' ' :: rest).head?, c.isDigit = false := by simp
  have hcomma (cs : List Char) : ∀ c ∈ (',' :: cs).head?, c.isDigit = false := by simp
  unfold rangeText
  dsimp only
  split
  · rename_i hlen
    exact readRange_eq (readNumber_toString _ hspace) rfl (by simp [Range.at?, hlen])
  split
  · rename_i hlen
    have htext : ((toString start ++ ",0").toList ++ ' ' :: rest) =
        (toString start).toList ++ ',' :: ((toString 0).toList ++ ' ' :: rest) := by
      rw [String.toList_append, List.append_assoc]
      rfl
    rw [htext]
    exact readRange_eq (readNumber_toString _ (hcomma _)) (readLength_toString 0 hspace)
      (by simp [Range.at?, hlen])
  · rename_i hlen
    have htext : ((toString (start + 1) ++ "," ++ toString (stop - start)).toList ++ ' ' :: rest) =
        (toString (start + 1)).toList ++
          ',' :: ((toString (stop - start)).toList ++ ' ' :: rest) := by
      simp
    rw [htext]
    exact readRange_eq (readNumber_toString _ (hcomma _)) (readLength_toString _ hspace)
      (by simp [Range.at?, hlen])

variable {hunk : List Block} {first last : Block}

theorem hunkHeader_eq (hfirst : hunk.head? = some first) (hlast : hunk.getLast? = some last) :
    (hunkHeader hunk).toList = "@@ -".toList ++
      ((rangeText first.oldStart (last.oldStart + last.oldLen)).toList ++ ' ' ::
        (['+'] ++ ((rangeText first.newStart (last.newStart + last.newLen)).toList ++ ' ' ::
          "@@\n".toList))) := by
  unfold hunkHeader
  rw [hfirst, hlast]
  simp only [String.toList_append, List.append_assoc]
  rfl

def headerOf (hunk : List Block) : Range × Range :=
  match hunk.head?, hunk.getLast? with
  | some first, some last =>
    (⟨first.oldStart, last.oldStart + last.oldLen - first.oldStart⟩,
      ⟨first.newStart, last.newStart + last.newLen - first.newStart⟩)
  | _, _ => (⟨0, 0⟩, ⟨0, 0⟩)

theorem headerOf_eq (hfirst : hunk.head? = some first) (hlast : hunk.getLast? = some last) :
    headerOf hunk = (⟨first.oldStart, last.oldStart + last.oldLen - first.oldStart⟩,
      ⟨first.newStart, last.newStart + last.newLen - first.newStart⟩) := by
  rw [headerOf, hfirst, hlast]

theorem readHeader_hunkHeader (hfirst : hunk.head? = some first)
    (hlast : hunk.getLast? = some last) :
    readHeader (hunkHeader hunk).toList = some (headerOf hunk) := by
  rw [hunkHeader_eq hfirst hlast, headerOf_eq hfirst hlast, readHeader, strip_append]
  simp only [bind, Option.bind_some, readRange_rangeText]
  have hplus (cs : List Char) : strip " +".toList (' ' :: (['+'] ++ cs)) = some cs :=
    strip_append " +".toList cs
  simp only [hplus, Option.bind_some, readRange_rangeText]
  rfl

theorem bare_toString (n : Nat) : Bare (toString n).toList := by
  intro c hc
  have hdigit : c.isDigit = true := by
    refine Nat.isDigit_of_mem_toDigits (b := 10) (n := n) (by decide) (by decide) ?_
    simpa using hc
  constructor <;> rintro rfl <;> revert hdigit <;> decide

theorem Bare.append (hx : Bare x) (hy : Bare y) : Bare (x ++ y) := by
  intro c hc
  obtain hc | hc := List.mem_append.mp hc
  · exact hx c hc
  · exact hy c hc

theorem bare_rangeText (start stop : Nat) : Bare (rangeText start stop).toList := by
  unfold rangeText
  dsimp only
  split
  · exact bare_toString _
  split
  · rw [String.toList_append]
    exact (bare_toString _).append (bare_of_all (by decide))
  · rw [String.toList_append, String.toList_append]
    exact ((bare_toString _).append (bare_of_all (by decide))).append (bare_toString _)

theorem isLine_hunkHeader (hfirst : hunk.head? = some first) (hlast : hunk.getLast? = some last) :
    IsLine (hunkHeader hunk).toList := by
  have hbare : Bare ("@@ -".toList ++
      (rangeText first.oldStart (last.oldStart + last.oldLen)).toList ++ " +".toList ++
        (rangeText first.newStart (last.newStart + last.newLen)).toList ++ " @@".toList) := by
    have hconst : Bare "@@ -".toList ∧ Bare " +".toList ∧ Bare " @@".toList :=
      ⟨bare_of_all (by decide), bare_of_all (by decide), bare_of_all (by decide)⟩
    exact (((hconst.1.append (bare_rangeText _ _)).append hconst.2.1).append
      (bare_rangeText _ _)).append hconst.2.2
  have hline := hbare.isLine
  rw [hunkHeader_eq hfirst hlast]
  simp only [List.append_assoc] at hline
  exact hline

theorem head_hunkHeader (hfirst : hunk.head? = some first) (hlast : hunk.getLast? = some last) :
    (hunkHeader hunk).toList.head? = some '@' := by
  rw [hunkHeader_eq hfirst hlast]
  rfl

def noEnd : List Char := "\\ No newline at end of file\n".toList

/-- What has been read of a patch from its end: whether the next line is said to have no end, the
lines under the next header, and the hunks after those. -/
structure Reading where
  unended : Bool
  body : List (Kind × List Char)
  hunks : List Hunk
  deriving DecidableEq, Repr

def Reading.addLine (kind : Kind) (text : List Char) (r : Reading) : Option Reading :=
  if r.unended then
    if text.getLast? = some '\n' then some ⟨false, (kind, text.dropLast) :: r.body, r.hunks⟩
    else none
  else some ⟨false, (kind, text) :: r.body, r.hunks⟩

/-- Reads the line before what has been read. -/
def Reading.add (line : List Char) (r : Reading) : Option Reading :=
  match line with
  | ' ' :: text => r.addLine .keep text
  | '-' :: text => r.addLine .remove text
  | '+' :: text => r.addLine .insert text
  | '@' :: _ =>
    if r.unended then none
    else (readHeader line).map fun header => ⟨false, [], ⟨header.1, header.2, r.body⟩ :: r.hunks⟩
  | _ => if line = noEnd ∧ r.unended = false then some { r with unended := true } else none

def readLines : List (List Char) → Option Reading
  | [] => some ⟨false, [], []⟩
  | line :: rest => (readLines rest).bind (Reading.add line)

def readLabel (start : String) (line : List Char) : Option (List Char) :=
  (strip start.toList line).bind fun label =>
    if label.getLast? = some '\n' then some label.dropLast else none

def readPatch (text : List Char) : Option Patch :=
  match pieces text with
  | fromLine :: toLine :: rest => do
    let fromLabel ← readLabel "--- " fromLine
    let toLabel ← readLabel "+++ " toLine
    let r ← readLines rest
    if r.unended = false ∧ r.body = [] then some ⟨fromLabel, toLabel, r.hunks⟩ else none
  | _ => none

/-- The mark of a line. -/
def Kind.mark : Kind → Char
  | keep => ' '
  | remove => '-'
  | insert => '+'

def shownLine (line : Kind × List Char) : List (List Char) :=
  if line.2.getLast? = some '\n' ∨ line.2.getLast? = some '\r' then [line.1.mark :: line.2]
  else [line.1.mark :: (line.2 ++ ['\n']), noEnd]

theorem shownLine_flatten (kind : Kind) (text : List Char) :
    (shownLine (kind, text)).flatten = markedLine kind.mark text := by
  have hnoEnd : "\n\\ No newline at end of file\n".toList = '\n' :: noEnd := by decide
  rw [shownLine, markedLine, hnoEnd]
  dsimp only
  split
  · simp
  · simp

theorem Kind.mark_ne (kind : Kind) : kind.mark ≠ '\n' ∧ kind.mark ≠ '\r' := by
  cases kind <;> decide

theorem IsLine.ended (h : IsLine x) : x.getLast? = some '\n' ∨ x.getLast? = some '\r' := by
  obtain ⟨body, ending, rfl, -, hending⟩ := h
  simp only [List.mem_cons, List.not_mem_nil, or_false] at hending
  obtain rfl | rfl | rfl := hending <;> simp

theorem Bare.not_ended (h : Bare x) : ¬ (x.getLast? = some '\n' ∨ x.getLast? = some '\r') := by
  rintro (hx | hx)
  · exact (h _ (List.mem_of_getLast? hx)).1 rfl
  · exact (h _ (List.mem_of_getLast? hx)).2 rfl

theorem head_noEnd : noEnd.head? = some '\\' := by
  decide

theorem isLine_noEnd : IsLine noEnd := by
  have hnoEnd : noEnd = "\\ No newline at end of file".toList ++ ['\n'] := by decide
  have hbare : Bare "\\ No newline at end of file".toList := bare_of_all (by decide)
  rw [hnoEnd]
  exact hbare.isLine

theorem isLine_shownLine {line : Kind × List Char} (h : IsLine line.2 ∨ Bare line.2) :
    ∀ x ∈ shownLine line, IsLine x ∧ x.head? ≠ some '\n' := by
  have hmark := line.1.mark_ne
  have hhead (cs : List Char) : (line.1.mark :: cs).head? ≠ some '\n' :=
    fun he => hmark.1 (Option.some.inj he)
  unfold shownLine
  intro x hx
  obtain hline | hbare := h
  · rw [if_pos hline.ended] at hx
    obtain rfl := List.mem_singleton.mp hx
    exact ⟨hline.cons hmark, hhead _⟩
  · rw [if_neg hbare.not_ended] at hx
    obtain rfl | hx := List.mem_cons.mp hx
    · exact ⟨hbare.isLine.cons hmark, hhead _⟩
    · obtain rfl := List.mem_singleton.mp hx
      refine ⟨isLine_noEnd, ?_⟩
      rw [head_noEnd]
      decide

theorem Reading.add_mark (kind : Kind) (text : List Char) (r : Reading) :
    r.add (kind.mark :: text) = r.addLine kind text := by
  cases kind <;> rfl

theorem Reading.add_noEnd {r : Reading} (hr : r.unended = false) :
    r.add noEnd = some ⟨true, r.body, r.hunks⟩ := by
  have hne {c : Char} {text : List Char} (hc : c ≠ '\\') : noEnd ≠ c :: text := by
    intro h
    have hhead := head_noEnd
    rw [h] at hhead
    exact hc (Option.some.inj hhead)
  unfold add
  split
  · exact absurd ‹_› (hne (by decide))
  · exact absurd ‹_› (hne (by decide))
  · exact absurd ‹_› (hne (by decide))
  · exact absurd ‹_› (hne (by decide))
  · rw [if_pos ⟨rfl, hr⟩]

theorem readLines_shownLine (line : Kind × List Char) {lines : List (List Char)} {r : Reading}
    (h : readLines lines = some r) (hr : r.unended = false) :
    readLines (shownLine line ++ lines) = some ⟨false, line :: r.body, r.hunks⟩ := by
  unfold shownLine
  split
  · simp only [List.cons_append, List.nil_append, readLines, h, Option.bind_some, Reading.add_mark,
      Reading.addLine, hr, Bool.false_eq_true, if_false]
  · simp only [List.cons_append, List.nil_append, readLines, h, Option.bind_some,
      Reading.add_noEnd hr, Reading.add_mark, Reading.addLine, if_true, List.getLast?_concat,
      List.dropLast_concat]

theorem readLines_body (body : List (Kind × List Char)) {lines : List (List Char)} {r : Reading}
    (h : readLines lines = some r) (hr : r.unended = false) :
    readLines (body.flatMap shownLine ++ lines) = some ⟨false, body ++ r.body, r.hunks⟩ := by
  induction body with
  | nil =>
    rw [List.flatMap_nil, List.nil_append, h, List.nil_append, ← hr]
  | cons line body ih =>
    rw [List.flatMap_cons, List.append_assoc, readLines_shownLine line ih rfl]
    rfl

theorem Reading.add_hunkHeader (hhunk : hunk ≠ []) (body : List (Kind × List Char))
    (hs : List Hunk) : Reading.add (hunkHeader hunk).toList ⟨false, body, hs⟩ =
      some ⟨false, [], ⟨(headerOf hunk).1, (headerOf hunk).2, body⟩ :: hs⟩ := by
  have hfirst := List.head?_eq_some_head hhunk
  have hlast := List.getLast?_eq_some_getLast hhunk
  obtain ⟨text, htext⟩ := List.head?_eq_some_iff.mp (head_hunkHeader hfirst hlast)
  have hheader := readHeader_hunkHeader hfirst hlast
  rw [htext] at hheader ⊢
  simp only [add, hheader, Bool.false_eq_true, if_false, Option.map_some]

theorem readLabel_append (start label : String) :
    readLabel start (start ++ label ++ "\n").toList = some label.toList := by
  have htext : (start ++ label ++ "\n").toList = start.toList ++ (label.toList ++ ['\n']) := by
    simp
  rw [readLabel, htext, strip_append, Option.bind_some, List.getLast?_concat, if_pos rfl,
    List.dropLast_concat]

end Refit.Diff
