import Refit.Text.Lines

namespace Refit.Text

variable {cs xs ys line last rest : List Char} {ls : List (List Char)}

/-- The lines of a text. A line ends with LF or CR LF, which is not part of it, and the last one may
have no end. -/
inductive HasLines : List Char → List (List Char) → Prop
  | none : HasLines [] []
  | last {line : List Char} (filled : line ≠ []) (plain : '\n' ∉ line) : HasLines line [line]
  | feed {line rest : List Char} {ls : List (List Char)} (plain : '\n' ∉ line)
      (noReturn : line.getLast? ≠ some '\r') (more : HasLines rest ls) :
      HasLines (line ++ '\n' :: rest) (line :: ls)
  | returnFeed {line rest : List Char} {ls : List (List Char)} (plain : '\n' ∉ line)
      (more : HasLines rest ls) : HasLines (line ++ '\r' :: '\n' :: rest) (line :: ls)

theorem splitFeeds_eq (cs : List Char) : splitFeeds cs = cs.splitOn '\n' := by
  fun_induction splitFeeds cs with
  | case1 => exact (List.splitOn_nil '\n').symm
  | case2 rest ih => simp [List.splitOn_cons_eq_if_modifyHead, ih]
  | case3 c rest _ h ih =>
    rw [h] at ih
    exact absurd ih.symm (List.splitOn_ne_nil '\n' rest)
  | case4 c rest hc line more h ih =>
    have hne : (c == '\n') = false := by simpa using hc
    rw [List.splitOn_cons_eq_if_modifyHead, hne, ← ih, h]
    rfl

theorem line_induction {motive : List Char → Prop} (last : ∀ line, '\n' ∉ line → motive line)
    (feed : ∀ line rest, '\n' ∉ line → motive rest → motive (line ++ '\n' :: rest))
    (cs : List Char) : motive cs := by
  by_cases h : '\n' ∈ cs
  · obtain ⟨line, rest, hcs, hline⟩ := List.eq_append_cons_of_mem h
    have hlt : rest.length < cs.length := by
      rw [hcs, List.length_append, List.length_cons]
      omega
    rw [hcs]
    exact feed line rest hline (line_induction last feed rest)
  · exact last cs h
termination_by cs.length

theorem lines_feed (h : '\n' ∉ line) (rest : List Char) :
    lines (line ++ '\n' :: rest) = dropReturn line :: lines rest := by
  unfold lines
  rw [splitFeeds_eq, splitFeeds_eq, List.splitOn_append_cons_self_of_not_mem h]
  obtain ⟨part, parts, hparts⟩ := List.exists_cons_of_ne_nil (List.splitOn_ne_nil '\n' rest)
  rw [hparts]
  rfl

theorem lines_of_not_mem (h : '\n' ∉ cs) (hne : cs ≠ []) : lines cs = [cs] := by
  unfold lines
  rw [splitFeeds_eq, List.splitOn_eq_singleton h]
  cases cs with
  | nil => exact absurd rfl hne
  | cons c cs => rfl

theorem dropReturn_of_ne (h : line.getLast? ≠ some '\r') : dropReturn line = line := if_neg h

theorem dropReturn_concat (line : List Char) : dropReturn (line ++ ['\r']) = line := by
  rw [dropReturn, if_pos List.getLast?_concat, List.dropLast_concat]

theorem dropReturn_append (xs : List Char) (h : ys ≠ []) :
    dropReturn (xs ++ ys) = xs ++ dropReturn ys := by
  obtain ⟨before, c, rfl⟩ := (List.eq_nil_or_concat ys).resolve_left h
  rw [List.concat_eq_append, ← List.append_assoc]
  by_cases hc : c = '\r'
  · rw [hc, dropReturn_concat, dropReturn_concat]
  · rw [dropReturn_of_ne (by simpa using hc), dropReturn_of_ne (by simpa using hc),
      List.append_assoc]

theorem hasLines_lines (cs : List Char) : HasLines cs (lines cs) := by
  induction cs using line_induction with
  | last line h =>
    by_cases hne : line = []
    · rw [hne]
      exact .none
    · rw [lines_of_not_mem h hne]
      exact .last hne h
  | feed line rest h ih =>
    rw [lines_feed h]
    by_cases hr : line.getLast? = some '\r'
    · obtain ⟨before, rfl⟩ := List.getLast?_eq_some_iff.mp hr
      rw [dropReturn_concat, List.append_assoc]
      exact .returnFeed (fun hm => h (List.mem_append_left _ hm)) ih
    · rw [dropReturn_of_ne hr]
      exact .feed h hr ih

theorem HasLines.eq (h : HasLines cs ls) : lines cs = ls := by
  induction h with
  | none => rfl
  | last filled plain => exact lines_of_not_mem plain filled
  | feed plain noReturn _ ih => rw [lines_feed plain, dropReturn_of_ne noReturn, ih]
  | @returnFeed line rest ls plain _ ih =>
    have hline : '\n' ∉ line ++ ['\r'] := by simpa using plain
    have h := lines_feed hline rest
    rw [dropReturn_concat, ih, List.append_assoc] at h
    exact h

theorem hasLines_iff : HasLines cs ls ↔ lines cs = ls :=
  ⟨HasLines.eq, fun h => h ▸ hasLines_lines cs⟩

theorem not_mem_of_hasLines (h : HasLines cs ls) : ∀ line ∈ ls, '\n' ∉ line := by
  induction h with
  | none => exact nofun
  | last _ plain => exact fun line hl => List.mem_singleton.mp hl ▸ plain
  | feed plain _ _ ih | returnFeed plain _ ih => exact List.forall_mem_cons.mpr ⟨plain, ih⟩

theorem not_mem_of_mem_lines (h : line ∈ lines cs) : '\n' ∉ line :=
  not_mem_of_hasLines (hasLines_lines cs) line h

/-- A text that does not break off in a line. -/
def Ended (cs : List Char) : Prop := ∀ c ∈ cs.getLast?, c = '\n'

instance : DecidablePred Ended := fun cs =>
  decidable_of_iff (cs.getLast?.all (· == '\n') = true) (by
    unfold Ended
    cases cs.getLast? <;> simp)

theorem ended_feed : Ended (line ++ '\n' :: rest) ↔ Ended rest := by
  unfold Ended
  rw [List.getLast?_append, List.getLast?_cons]
  cases rest.getLast? <;> simp

theorem Ended.eq_nil (h : Ended cs) (hfeed : '\n' ∉ cs) : cs = [] := by
  cases hc : cs.getLast? with
  | none => exact List.getLast?_eq_none_iff.mp hc
  | some c =>
    rw [← h c hc] at hfeed
    exact absurd (List.mem_of_getLast? hc) hfeed

theorem lines_append (h : Ended xs) (ys : List Char) : lines (xs ++ ys) = lines xs ++ lines ys := by
  induction xs using line_induction with
  | last line hline =>
    rw [h.eq_nil hline]
    rfl
  | feed line rest hline ih =>
    rw [List.append_assoc, List.cons_append, lines_feed hline, lines_feed hline,
      ih (ended_feed.mp h)]
    rfl

theorem exists_last (h : ¬ Ended cs) :
    ∃ xs last, cs = xs ++ last ∧ Ended xs ∧ last ≠ [] ∧ '\n' ∉ last := by
  induction cs using line_induction with
  | last line hline =>
    refine ⟨[], line, rfl, nofun, ?_, hline⟩
    rintro rfl
    exact h nofun
  | feed line rest hline ih =>
    obtain ⟨xs, last, rfl, hxs, hlast⟩ := ih (mt ended_feed.mpr h)
    exact ⟨line ++ '\n' :: xs, last, by simp, ended_feed.mpr hxs, hlast⟩

/-- The line in which two texts meet of which the first breaks off in a line: its last line and the
first line of the second. A return at the end of the one and a feed at the start of the other are one
line end. -/
def seam (xs ys : List Char) : List Char :=
  let last := (lines xs).getLast?.getD []
  let first := (lines ys).head?.getD []
  (if ys.head? = some '\n' then dropReturn last else last) ++ first

theorem lines_append_open (hxs : ¬ Ended xs) (hys : ys ≠ []) :
    lines (xs ++ ys) = (lines xs).dropLast ++ seam xs ys :: (lines ys).tail := by
  obtain ⟨xs, last, rfl, hended, hne, hlast⟩ := exists_last hxs
  have hlines : lines (xs ++ last) = lines xs ++ [last] := by
    rw [lines_append hended, lines_of_not_mem hlast hne]
  rw [List.append_assoc, lines_append hended, hlines, List.dropLast_concat, seam, hlines,
    List.getLast?_concat, Option.getD_some]
  congr 1
  by_cases h : '\n' ∈ ys
  · obtain ⟨first, rest, rfl, hfirst⟩ := List.eq_append_cons_of_mem h
    have hmeet : '\n' ∉ last ++ first := List.not_mem_append hlast hfirst
    rw [← List.append_assoc, lines_feed hmeet, lines_feed hfirst]
    congr 1
    -- only where the second text starts with a feed does it end the line of the first
    cases first with
    | nil => simp [dropReturn]
    | cons c first =>
      have hc : c ≠ '\n' := fun hc => hfirst (hc ▸ List.mem_cons_self)
      rw [dropReturn_append last (List.cons_ne_nil c first)]
      simp [hc]
  · have hmeet : '\n' ∉ last ++ ys := List.not_mem_append hlast h
    have hhead : ys.head? ≠ some '\n' := fun hc => h (List.mem_of_mem_head? hc)
    rw [lines_of_not_mem hmeet (by simp [hne]), lines_of_not_mem h hys, if_neg hhead]
    rfl

end Refit.Text
