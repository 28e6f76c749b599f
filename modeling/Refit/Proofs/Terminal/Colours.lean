import Refit.Proofs.Diff.Faithful
import Refit.Proofs.Text.Lines
import Refit.Terminal.Transcript

/-!
The colours of a diff. A line is coloured by what it starts with, after the diff has become a text.
That tells its kind, unless it is a removed line that starts with two hyphens itself, or an added one
that starts with two plus signs: such a line passes for a line of the header (`showDiff_styled`,
`showDiff_passing`).
-/

namespace Refit.Terminal

open Diff Text

variable {line text : List Char} {xs : List (List Char)} {change : Kind × List Char}
  {a b : Array (List Char)} {hunk : List Block} {d : Display}

def Fed (cs : List Char) : Prop := ∀ line ∈ pieces cs, line.getLast? = some '\n'

instance : DecidablePred Fed := fun cs =>
  inferInstanceAs (Decidable (∀ line ∈ pieces cs, line.getLast? = some '\n'))

def IsFed (x : List Char) : Prop := ∃ line, x = line ++ ['\n'] ∧ '\n' ∉ line

/-- A line without its end. -/
def unended (x : List Char) : List Char := dropReturn x.dropLast

theorem isFed_of_mem (hmem : text ∈ pieces line) (h : text.getLast? = some '\n') : IsFed text := by
  obtain hline | hbare := isLine_or_bare hmem
  · obtain ⟨body, ending, rfl, hbody, hending⟩ := hline
    have hplain : '\n' ∉ body := fun hm => (hbody _ hm).1 rfl
    simp only [List.mem_cons, List.not_mem_nil, or_false] at hending
    obtain rfl | rfl | rfl := hending
    · exact ⟨body, rfl, hplain⟩
    · exact ⟨body ++ ['\r'], by simp, by simpa using hplain⟩
    · simp at h
  · exact absurd (.inl h) hbare.not_ended

theorem isFed_of_bare (h : Bare line) : IsFed (line ++ ['\n']) :=
  ⟨line, rfl, fun hm => (h _ hm).1 rfl⟩

theorem lines_flatten (h : ∀ x ∈ xs, IsFed x) : lines xs.flatten = xs.map unended := by
  induction xs with
  | nil => rfl
  | cons x xs ih =>
    obtain ⟨⟨line, rfl, hline⟩, hrest⟩ := List.forall_mem_cons.mp h
    rw [List.flatten_cons, List.append_assoc, List.singleton_append, lines_feed hline, ih hrest,
      List.map_cons, unended, List.dropLast_concat]

def kindStyle : Kind → Option Style
  | .keep => none
  | .remove => some .red
  | .insert => some .green

def Passes (change : Kind × List Char) : Prop :=
  (change.1 = .remove ∧ ['-', '-'] <+: unended change.2) ∨
    (change.1 = .insert ∧ ['+', '+'] <+: unended change.2)

instance (change : Kind × List Char) : Decidable (Passes change) :=
  inferInstanceAs (Decidable ((change.1 = .remove ∧ ['-', '-'] <+: unended change.2) ∨
    (change.1 = .insert ∧ ['+', '+'] <+: unended change.2)))

def inStyle (style : Option Style) (text : String) : String :=
  style.elim text fun style => styled true style text

def shownChange (change : Kind × List Char) : String :=
  inStyle (if Passes change then some .bold else kindStyle change.1)
    (String.ofList (change.1.mark :: unended change.2))

def headerText (h : Hunk) : String :=
  "@@ -" ++ rangeText h.old.start (h.old.start + h.old.len) ++ " +" ++
    rangeText h.new.start (h.new.start + h.new.len) ++ " @@"

def shownHunk (h : Hunk) : List String :=
  inStyle (some .cyan) (headerText h) :: h.body.map shownChange

theorem rangeText_add (start stop : Nat) :
    rangeText start (start + (stop - start)) = rangeText start stop := by
  unfold rangeText
  rw [Nat.add_sub_cancel_left]

theorem hunkHeader_text (hhunk : hunk ≠ []) :
    hunkHeader hunk = headerText (printed a b hunk) ++ "\n" := by
  have hfirst := List.head?_eq_some_head hhunk
  have hlast := List.getLast?_eq_some_getLast hhunk
  unfold hunkHeader headerText printed
  rw [headerOf_eq hfirst hlast, hfirst, hlast]
  simp only [rangeText_add, String.append_assoc]
  rfl

theorem bare_headerText (h : Hunk) : Bare (headerText h).toList := by
  unfold headerText
  simp only [String.toList_append]
  exact (((Bare.append (bare_of_all (by decide)) (bare_rangeText _ _)).append
    (bare_of_all (by decide))).append (bare_rangeText _ _)).append (bare_of_all (by decide))

theorem hunkLines_fed (ha : ∀ x ∈ a, IsFed x) (hb : ∀ x ∈ b, IsFed x) (hhunk : hunk ≠ []) :
    hunkLines a b hunk = ((headerText (printed a b hunk)).toList ++ ['\n']) ::
      (hunkBody a b hunk).map fun change => change.1.mark :: change.2 := by
  have hbody : ∀ change ∈ hunkBody a b hunk, shownLine change = [change.1.mark :: change.2] := by
    intro change hm
    obtain ⟨line, hline, -⟩ := (mem_hunkBody hm).elim (ha _) (hb _)
    unfold shownLine
    rw [if_pos (.inl (by rw [hline, List.getLast?_concat]))]
  rw [hunkLines, hunkHeader_text hhunk, String.toList_append, List.flatMap_congr hbody,
    List.map_eq_flatMap]
  rfl

theorem diffStyle_mark (kind : Kind) (text : List Char) (h : line = unended text) :
    Display.diffStyle (kind.mark :: line) =
      if Passes (kind, text) then some .bold else kindStyle kind := by
  subst h
  cases kind with
  | keep => rfl
  | remove =>
    have hpasses : Passes (.remove, text) ↔ ['-', '-'] <+: unended text := by simp [Passes]
    simp [Display.diffStyle, Kind.mark, hpasses, kindStyle]
  | insert =>
    have hpasses : Passes (.insert, text) ↔ ['+', '+'] <+: unended text := by simp [Passes]
    simp [Display.diffStyle, Kind.mark, hpasses, kindStyle]

theorem showDiffLine_eq (hcolor : d.color = true) (line : List Char) :
    d.showDiffLine line = inStyle (Display.diffStyle line) (String.ofList line) := by
  unfold Display.showDiffLine Display.paint inStyle
  rw [hcolor]
  cases Display.diffStyle line <;> rfl

theorem unended_concat (h : line.getLast? ≠ some '\r') : unended (line ++ ['\n']) = line := by
  rw [unended, List.dropLast_concat, dropReturn_of_ne h]

theorem unended_mark (kind : Kind) (h : IsFed text) :
    unended (kind.mark :: text) = kind.mark :: unended text := by
  obtain ⟨line, rfl, -⟩ := h
  rw [← List.cons_append, unended, unended, List.dropLast_concat, List.dropLast_concat]
  by_cases hline : line = []
  · rw [hline]
    exact dropReturn_of_ne (by simpa using kind.mark_ne.2)
  · exact dropReturn_append [kind.mark] hline

theorem showDiffLine_header (hcolor : d.color = true) (h : Hunk) :
    d.showDiffLine (unended ((headerText h).toList ++ ['\n'])) =
      inStyle (some .cyan) (headerText h) := by
  have hbare := bare_headerText h
  have hstyle : Display.diffStyle (headerText h).toList = some .cyan := by
    unfold headerText
    simp only [String.toList_append, List.append_assoc]
    rfl
  rw [unended_concat fun he => (hbare _ (List.mem_of_getLast? he)).2 rfl, showDiffLine_eq hcolor,
    String.ofList_toList, hstyle]

theorem showDiffLine_change (hcolor : d.color = true) (h : IsFed change.2) :
    d.showDiffLine (unended (change.1.mark :: change.2)) = shownChange change := by
  rw [unended_mark _ h, showDiffLine_eq hcolor, diffStyle_mark _ _ rfl, shownChange]

theorem map_hunkLines (hcolor : d.color = true) (ha : ∀ x ∈ a, IsFed x) (hb : ∀ x ∈ b, IsFed x)
    (hhunk : hunk ≠ []) : (hunkLines a b hunk).map (fun x => d.showDiffLine (unended x)) =
      shownHunk (printed a b hunk) := by
  have hbody : ∀ change ∈ hunkBody a b hunk,
      d.showDiffLine (unended (change.1.mark :: change.2)) = shownChange change :=
    fun change hm => showDiffLine_change hcolor ((mem_hunkBody hm).elim (ha _) (hb _))
  rw [hunkLines_fed ha hb hhunk, List.map_cons, List.map_map, showDiffLine_header hcolor, shownHunk]
  exact congrArg _ (List.map_congr_left hbody)

theorem isFed_hunkLines (ha : ∀ x ∈ a, IsFed x) (hb : ∀ x ∈ b, IsFed x) (hhunk : hunk ≠ []) :
    ∀ x ∈ hunkLines a b hunk, IsFed x := by
  rw [hunkLines_fed ha hb hhunk]
  refine List.forall_mem_cons.mpr ⟨isFed_of_bare (bare_headerText _), fun x hx => ?_⟩
  obtain ⟨change, hm, rfl⟩ := List.mem_map.mp hx
  obtain ⟨line, hline, hplain⟩ := (mem_hunkBody hm).elim (ha _) (hb _)
  refine ⟨change.1.mark :: line, by rw [hline]; rfl, ?_⟩
  simpa [hplain] using change.1.mark_ne.1.symm

theorem shownLabel_eq (hcolor : d.color = true) {start label : String} (hlabel : Bare label.toList)
    (hstart : start = "--- " ∨ start = "+++ ") :
    IsFed (start ++ label ++ "\n").toList ∧
      d.showDiffLine (unended (start ++ label ++ "\n").toList) =
        inStyle (some .bold) (start ++ label) := by
  have hbare : Bare (start ++ label).toList := by
    rw [String.toList_append]
    refine Bare.append (bare_of_all ?_) hlabel
    obtain rfl | rfl := hstart <;> decide
  have hline : (start ++ label ++ "\n").toList = (start ++ label).toList ++ ['\n'] :=
    String.toList_append
  rw [hline, unended_concat fun he => (hbare _ (List.mem_of_getLast? he)).2 rfl,
    showDiffLine_eq hcolor, String.ofList_toList]
  refine ⟨isFed_of_bare hbare, ?_⟩
  have hstyle : Display.diffStyle (start ++ label).toList = some .bold := by
    obtain rfl | rfl := hstart <;> simp [Display.diffStyle]
  rw [hstyle]

theorem map_hunks (hcolor : d.color = true) (ha : ∀ x ∈ a, IsFed x) (hb : ∀ x ∈ b, IsFed x)
    {hs : List (List Block)} (hhs : ∀ hunk ∈ hs, hunk ≠ []) :
    (hs.flatMap (hunkLines a b)).map (fun x => d.showDiffLine (unended x)) =
      (hs.map (printed a b)).flatMap shownHunk := by
  rw [List.map_flatMap, List.flatMap_map]
  exact List.flatMap_congr fun hunk hm => map_hunkLines hcolor ha hb (hhs hunk hm)

/-- A diff in colours: the title and the two lines of the header are bold, the headers of the hunks
cyan, kept lines plain, added lines green and removed ones red, but for those that pass for lines of
the header, which are bold, too. -/
theorem showDiff_styled (hcolor : d.color = true) (draft : Draft)
    (reference fromLabel toLabel file : String) (hold : Fed reference.toList)
    (hnew : Fed draft.content.toList) (hfrom : Bare fromLabel.toList) (hto : Bare toLabel.toList)
    (hchanged : draft.changedFrom reference = true) :
    ∃ patch, readPatch (draft.diff reference fromLabel toLabel).toList = some patch ∧
      patch.Leads reference.toList draft.content.toList ∧
      d.showDiff file (draft.diff reference fromLabel toLabel) =
        "" :: inStyle (some .bold) ("Changes for " ++ file) ::
          inStyle (some .bold) ("--- " ++ fromLabel) :: inStyle (some .bold) ("+++ " ++ toLabel) ::
            patch.hunks.flatMap shownHunk := by
  have htext : (draft.diff reference fromLabel toLabel).toList =
      unified reference.toList draft.content.toList fromLabel toLabel := String.toList_ofList
  have hne := mt Draft.changedFrom_eq_false.mpr (Bool.eq_false_iff.not_left.mpr hchanged)
  have hhunks : ∀ hunk ∈ hunksBetween (pieces reference.toList).toArray
      (pieces draft.content.toList).toArray, hunk ≠ [] := by
    rintro hunk hm rfl
    obtain ⟨x, hx, -⟩ := (hunksBetween_trim _ _ [] hm).changed
    cases hx
  have ha : ∀ x ∈ (pieces reference.toList).toArray, IsFed x := fun x hx =>
    isFed_of_mem (List.mem_toArray.mp hx) (hold x (List.mem_toArray.mp hx))
  have hb : ∀ x ∈ (pieces draft.content.toList).toArray, IsFed x := fun x hx =>
    isFed_of_mem (List.mem_toArray.mp hx) (hnew x (List.mem_toArray.mp hx))
  obtain ⟨hfromFed, hfromShown⟩ := shownLabel_eq hcolor hfrom (.inl rfl)
  obtain ⟨htoFed, htoShown⟩ := shownLabel_eq hcolor hto (.inr rfl)
  refine ⟨_, htext ▸ readPatch_unified hfrom hto rfl hne hhunks,
    printed_leads hne fromLabel.toList toLabel.toList, ?_⟩
  have hfed : ∀ x ∈ ("--- " ++ fromLabel ++ "\n").toList :: ("+++ " ++ toLabel ++ "\n").toList ::
      (hunksBetween (pieces reference.toList).toArray (pieces draft.content.toList).toArray).flatMap
        (hunkLines (pieces reference.toList).toArray (pieces draft.content.toList).toArray),
      IsFed x := by
    refine List.forall_mem_cons.mpr ⟨hfromFed, List.forall_mem_cons.mpr ⟨htoFed, fun x hx => ?_⟩⟩
    obtain ⟨hunk, hm, hx⟩ := List.mem_flatMap.mp hx
    exact isFed_hunkLines ha hb (hhunks hunk hm) x hx
  have htitle : d.paint .bold ("Changes for " ++ file) =
      inStyle (some .bold) ("Changes for " ++ file) := by
    unfold Display.paint inStyle
    rw [hcolor]
    rfl
  unfold Display.showDiff
  rw [htitle, htext, unified_eq _ _ _ _ rfl hne, lines_flatten hfed, List.map_map,
    Function.comp_def, List.map_cons, List.map_cons]
  dsimp only
  rw [hfromShown, htoShown, map_hunks hcolor ha hb hhunks]

def coloured : Display := ⟨true, true, {}, ""⟩

theorem showDiff_styled_exchange :
    coloured.showDiff "A.java" ((Draft.ofSource "A.java" "a\nc\n").diff "a\nb\n" "old" "new") =
      ["", inStyle (some .bold) "Changes for A.java", inStyle (some .bold) "--- old",
        inStyle (some .bold) "+++ new", inStyle (some .cyan) "@@ -1,2 +1,2 @@", " a",
        inStyle (some .red) "-b", inStyle (some .green) "+c"] := by
  have htext : (Draft.ofSource "A.java" "a\nc\n").diff "a\nb\n" "old" "new" =
      "--- old\n+++ new\n@@ -1,2 +1,2 @@\n a\n-b\n+c\n" := by
    cbv
  have hread : readPatch "--- old\n+++ new\n@@ -1,2 +1,2 @@\n a\n-b\n+c\n".toList =
      some ⟨"old".toList, "new".toList, [⟨⟨0, 2⟩, ⟨0, 2⟩,
        [(.keep, ['a', '\n']), (.remove, ['b', '\n']), (.insert, ['c', '\n'])]⟩]⟩ := by
    decide +kernel
  obtain ⟨patch, hpatch, -, hshown⟩ := showDiff_styled (d := coloured) rfl
    (Draft.ofSource "A.java" "a\nc\n") "a\nb\n" "old" "new" "A.java" (by decide) (by decide)
    (bare_of_all (by decide)) (bare_of_all (by decide)) (by decide)
  rw [htext, hread] at hpatch
  obtain rfl := Option.some.inj hpatch
  rw [hshown]
  decide +kernel

/-- A removed line that starts with two hyphens is bold instead of red, and an added one that starts
with two plus signs is bold instead of green. -/
theorem showDiff_passing :
    coloured.showDiff "A.java" ((Draft.ofSource "A.java" "++count;\n").diff "--count;\n" "old" "new") =
      ["", inStyle (some .bold) "Changes for A.java", inStyle (some .bold) "--- old",
        inStyle (some .bold) "+++ new", inStyle (some .cyan) "@@ -1 +1 @@",
        inStyle (some .bold) "---count;", inStyle (some .bold) "+++count;"] ∧
    inStyle (some .bold) "---count;" ≠ inStyle (some .red) "---count;" ∧
    inStyle (some .bold) "+++count;" ≠ inStyle (some .green) "+++count;" := by
  have htext : (Draft.ofSource "A.java" "++count;\n").diff "--count;\n" "old" "new" =
      "--- old\n+++ new\n@@ -1 +1 @@\n---count;\n+++count;\n" := by
    cbv
  rw [htext]
  decide +kernel

end Refit.Terminal
