import Mathlib
import Refit.Draft
import Refit.Proofs.Diff.Shown
import Refit.Proofs.Diff.Slide

namespace Refit.Diff

open Text

variable {a b : Array (List Char)} {hunk : List Block} {hs : List (List Block)}
  {old new : List Char}

def hunkLines (a b : Array (List Char)) (hunk : List Block) : List (List Char) :=
  (hunkHeader hunk).toList :: (hunkBody a b hunk).flatMap shownLine

theorem markedLines_eq (kind : Kind) (lines : Array (List Char)) (start len : Nat) :
    markedLines kind.mark lines start len =
      ((markLines kind lines start len).flatMap shownLine).flatten := by
  rw [markedLines, markLines]
  induction (lines.extract start (start + len)).toList with
  | nil => rfl
  | cons line lines ih =>
    rw [List.map_cons, List.map_cons, List.flatten_cons, List.flatMap_cons, List.flatten_append,
      shownLine_flatten, ih]

theorem blockText_eq (a b : Array (List Char)) (x : Block) :
    blockText a b x = ((blockLines a b x).flatMap shownLine).flatten := by
  cases x with
  | keep r => exact markedLines_eq .keep _ _ _
  | change removed added =>
    rw [blockText, blockLines, List.flatMap_append, List.flatten_append]
    congr 1
    · cases removed with
      | none => rfl
      | some r => exact markedLines_eq .remove _ _ _
    · cases added with
      | none => rfl
      | some r => exact markedLines_eq .insert _ _ _

theorem hunkText_eq (a b : Array (List Char)) (hunk : List Block) :
    hunkText a b hunk = (hunkLines a b hunk).flatten := by
  have hbody : (hunk.map (blockText a b)).flatten =
      ((hunkBody a b hunk).flatMap shownLine).flatten := by
    induction hunk with
    | nil => rfl
    | cons x hunk ih =>
      rw [List.map_cons, List.flatten_cons, hunkBody_cons, List.flatMap_append,
        List.flatten_append, blockText_eq, ih]
  rw [hunkText, hbody, hunkLines, List.flatten_cons]

theorem unified_eq (old new : List Char) (fromLabel toLabel : String)
    (hhs : hunksBetween (pieces old).toArray (pieces new).toArray = hs) (hne : hs ≠ []) :
    unified old new fromLabel toLabel =
      (("--- " ++ fromLabel ++ "\n").toList :: ("+++ " ++ toLabel ++ "\n").toList ::
        hs.flatMap (hunkLines (pieces old).toArray (pieces new).toArray)).flatten := by
  have hhunks : (hs.map (hunkText (pieces old).toArray (pieces new).toArray)).flatten =
      (hs.flatMap (hunkLines (pieces old).toArray (pieces new).toArray)).flatten := by
    clear hhs hne
    induction hs with
    | nil => rfl
    | cons hunk hs ih =>
      rw [List.map_cons, List.flatten_cons, List.flatMap_cons, List.flatten_append, hunkText_eq, ih]
  rw [unified]
  simp only [hhs]
  rw [hhunks, List.flatten_cons, List.flatten_cons, ← List.append_assoc]
  simp

theorem mem_hunkBody {line : Kind × List Char} (h : line ∈ hunkBody a b hunk) :
    line.2 ∈ a ∨ line.2 ∈ b := by
  have hmark {kind : Kind} {lines : Array (List Char)} {start len : Nat}
      (hline : line ∈ markLines kind lines start len) : line.2 ∈ lines := by
    obtain ⟨text, htext, rfl⟩ := List.mem_map.mp hline
    rw [Array.toList_extract] at htext
    exact Array.mem_toList_iff.mp (List.mem_of_mem_drop (List.mem_of_mem_take htext))
  obtain ⟨x, -, hx⟩ := List.mem_flatMap.mp h
  cases x with
  | keep r => exact .inl (hmark hx)
  | change removed added =>
    obtain hx | hx := List.mem_append.mp hx
    · cases removed with
      | none => cases hx
      | some r => exact .inl (hmark hx)
    · cases added with
      | none => cases hx
      | some r => exact .inr (hmark hx)

theorem isLine_hunkLines (ha : ∀ x ∈ a, IsLine x ∨ Bare x) (hb : ∀ x ∈ b, IsLine x ∨ Bare x)
    (hhunk : hunk ≠ []) : ∀ x ∈ hunkLines a b hunk, IsLine x ∧ x.head? ≠ some '\n' := by
  intro x hx
  obtain rfl | hx := List.mem_cons.mp hx
  · have hfirst := List.head?_eq_some_head hhunk
    have hlast := List.getLast?_eq_some_getLast hhunk
    refine ⟨isLine_hunkHeader hfirst hlast, ?_⟩
    rw [head_hunkHeader hfirst hlast]
    decide
  · obtain ⟨line, hline, hx⟩ := List.mem_flatMap.mp hx
    exact isLine_shownLine ((mem_hunkBody hline).elim (ha _) (hb _)) x hx

theorem readLines_hunks (a b : Array (List Char)) (hhs : ∀ hunk ∈ hs, hunk ≠ []) :
    readLines (hs.flatMap (hunkLines a b)) = some ⟨false, [], hs.map (printed a b)⟩ := by
  induction hs with
  | nil => rfl
  | cons hunk hs ih =>
    have hrest := ih fun hunk' hh => hhs hunk' (List.mem_cons_of_mem _ hh)
    rw [List.flatMap_cons, hunkLines, List.cons_append, readLines,
      readLines_body _ hrest rfl, Option.bind_some, List.append_nil,
      Reading.add_hunkHeader (hhs hunk List.mem_cons_self), List.map_cons, printed]

theorem readPatch_unified {fromLabel toLabel : String} (hfrom : Bare fromLabel.toList)
    (hto : Bare toLabel.toList)
    (hhs : hunksBetween (pieces old).toArray (pieces new).toArray = hs) (hne : hs ≠ [])
    (hhunks : ∀ hunk ∈ hs, hunk ≠ []) :
    readPatch (unified old new fromLabel toLabel) = some ⟨fromLabel.toList, toLabel.toList,
      hs.map (printed (pieces old).toArray (pieces new).toArray)⟩ := by
  have hlabel {start label : String} (hstart : Bare start.toList) (hlabel : Bare label.toList) :
      IsLine (start ++ label ++ "\n").toList := by
    have hline := (hstart.append hlabel).isLine
    simpa using hline
  have hlines : ∀ x ∈ ("--- " ++ fromLabel ++ "\n").toList ::
      ("+++ " ++ toLabel ++ "\n").toList ::
        hs.flatMap (hunkLines (pieces old).toArray (pieces new).toArray),
      IsLine x ∧ x.head? ≠ some '\n' := by
    intro x hx
    obtain rfl | hx := List.mem_cons.mp hx
    · refine ⟨hlabel (bare_of_all (by decide)) hfrom, ?_⟩
      simp
    obtain rfl | hx := List.mem_cons.mp hx
    · refine ⟨hlabel (bare_of_all (by decide)) hto, ?_⟩
      simp
    obtain ⟨hunk, hhunk, hx⟩ := List.mem_flatMap.mp hx
    exact isLine_hunkLines (fun y hy => isLine_or_bare (by simpa using hy))
      (fun y hy => isLine_or_bare (by simpa using hy)) (hhunks hunk hhunk) x hx
  rw [unified_eq old new fromLabel toLabel hhs hne, readPatch, pieces_lines hlines]
  simp only [readLabel_append, readLines_hunks _ _ hhunks]
  rfl

section Same

variable {α : Type} [DecidableEq α] {kind : Kind} {edits before : List Edit}

theorem agreeing_self (a : Array α) (i limit : Nat) : agreeing a a i i limit = limit := by
  induction limit generalizing i with
  | zero => rfl
  | succ limit ih => rw [agreeing, if_pos rfl, ih]

theorem script_self (a : Array α) : script a a = keepRun 0 0 a.size := by
  rw [script, window]
  simp [Window.sharedStart, Window.sharedEnd, agreeing_self, agreeingBack, keepRun]

theorem settle_keep (a b : Array α) (hk : kind ≠ .keep) (he : ∀ e ∈ edits, e.kind = .keep) :
    settle a b hk before edits = before.reverse ++ edits := by
  induction edits generalizing before with
  | nil => rw [settle, List.append_nil]
  | cons e edits ih =>
    have hkeep := he e List.mem_cons_self
    rw [settle, if_neg (hkeep ▸ hk.symm), ih fun e' he' => he e' (List.mem_cons_of_mem _ he')]
    simp

theorem hunks_keep (r : Run) : hunks [.keep r] = [] := by
  have hshort : ¬ 2 * radius < ((r.takeLast radius).takeFirst radius).len := by
    have := takeFirst_le (r.takeLast radius) radius
    simp only [radius] at this ⊢
    omega
  rw [hunks, trimFirst, trimLast, cutHunks, if_neg hshort]
  rfl

theorem hunksBetween_self (a : Array (List Char)) : hunksBetween a a = [] := by
  have hkeep : ∀ e ∈ keepRun 0 0 a.size, e.kind = .keep := by
    unfold keepRun
    split
    · exact nofun
    · intro e he
      rw [List.mem_singleton.mp he]
      rfl
  rw [hunksBetween, script_self, compact, settle_keep a a _ hkeep, List.reverse_nil,
    List.nil_append, settle_keep a a _ hkeep, List.reverse_nil, List.nil_append, keepRun]
  split
  · rfl
  · exact hunks_keep _

end Same

theorem hunksBetween_spaced (a b : Array (List Char)) :
    Spaced a b 0 0 (hunksBetween a b) a.size b.size :=
  hunks_spaced (blocks_laid (compact_firm (script_firm a b)))

theorem hunksBetween_trim (a b : Array (List Char)) : ∀ hunk ∈ hunksBetween a b, Trim hunk :=
  hunks_trim (blocks_laid (compact_firm (script_firm a b))) (blocks_alternate _)

theorem hunksBetween_eq_nil : hunksBetween a b = [] ↔ a = b := by
  constructor
  · intro h
    have hspaced := hunksBetween_spaced a b
    rw [h] at hspaced
    generalize hi : a.size = i', hj : b.size = j' at hspaced
    cases hspaced with
    | done hgap =>
      have hall := hgap.extract
      have hsize : a.size = b.size := hi.trans hj.symm
      rwa [← hi, Array.extract_size, hsize, Array.extract_size] at hall
  · rintro rfl
    exact hunksBetween_self a

/-- A patch leads from one text to another. Its hunks stand where their headers say, but for the
sides that a change at an end of a hunk leaves without lines; with headers that are counted anew it
applies, and so does its reverse. -/
structure Patch.Leads (p : Patch) (old new : List Char) : Prop where
  hunks : p.hunks ≠ []
  close : ∀ h ∈ p.hunks, h.Close
  headed : List.Forall₂ Hunk.Headed p.hunks p.recounted.hunks
  apply : p.recounted.apply old = some new
  reversed : p.recounted.reversed.apply new = some old

theorem printed_close {h : Hunk} (hh : h ∈ (hunksBetween a b).map (printed a b)) : h.Close := by
  obtain ⟨hunk, hhunk, rfl⟩ := List.mem_map.mp hh
  obtain ⟨i, j, m, n, hlaid, hm, hn⟩ := (hunksBetween_spaced a b).laid hhunk
  intro before after heq
  refine (hunksBetween_trim a b hunk hhunk).close (laid_solid hlaid) ?_
  rw [← heq]
  exact (hunkBody_kinds hlaid hm hn).symm

theorem printed_leads (hne : hunksBetween (pieces old).toArray (pieces new).toArray ≠ [])
    (fromLabel toLabel : List Char) : Patch.Leads ⟨fromLabel, toLabel,
      (hunksBetween (pieces old).toArray (pieces new).toArray).map
        (printed (pieces old).toArray (pieces new).toArray)⟩ old new := by
  obtain ⟨placed, haligned, hheaded⟩ :=
    (hunksBetween_spaced (pieces old).toArray (pieces new).toArray).aligned rfl rfl
      (hunksBetween_trim _ _)
  rw [List.drop_zero, List.drop_zero] at haligned
  have hrecount := recount_of_aligned haligned hheaded
  refine ⟨fun hnil => hne (List.map_eq_nil_iff.mp hnil), fun h => printed_close, ?_, ?_, ?_⟩
  · rwa [Patch.recounted, hrecount]
  · refine apply_of_aligned ?_
    rwa [Patch.recounted, hrecount]
  · refine reversed_apply_of_aligned ?_
    rwa [Patch.recounted, hrecount]

theorem Patch.Leads.strictly {p : Patch} (h : p.Leads old new) (hplain : ∀ h ∈ p.hunks, h.Plain) :
    p.apply old = some new ∧ p.reversed.apply new = some old := by
  have hhunks : recount 0 0 p.hunks = p.hunks := (eq_of_headed h.headed hplain).symm
  have hrecounted : p.recounted = p := by
    rw [Patch.recounted, hhunks]
  have happly := h.apply
  have hreversed := h.reversed
  rw [hrecounted] at happly hreversed
  exact ⟨happly, hreversed⟩

end Refit.Diff

namespace Refit.Draft

open Diff Text

theorem changedFrom_eq_false {d : Draft} {reference : String} :
    d.changedFrom reference = false ↔
      hunksBetween (pieces reference.toList).toArray (pieces d.content.toList).toArray = [] := by
  rw [hunksBetween_eq_nil, changedFrom, bne_eq_false_iff_eq]
  constructor
  · intro h
    rw [h]
  · intro h
    have hflat := congrArg (fun lines => lines.toList.flatten) h
    simp only [pieces_flatten] at hflat
    exact (String.toList_inj.mp hflat).symm

/-- A diff is empty where nothing changed. Otherwise it can be read, and what is read leads from the
reference to the content. -/
theorem diff_leads (d : Draft) (reference fromLabel toLabel : String)
    (hfrom : Bare fromLabel.toList) (hto : Bare toLabel.toList) :
    (d.diff reference fromLabel toLabel = "" ↔ d.changedFrom reference = false) ∧
      (d.changedFrom reference = true → ∃ patch,
        readPatch (d.diff reference fromLabel toLabel).toList = some patch ∧
          patch.fromLabel = fromLabel.toList ∧ patch.toLabel = toLabel.toList ∧
            patch.Leads reference.toList d.content.toList ∧
              ((∀ h ∈ patch.hunks, h.Plain) →
                patch.apply reference.toList = some d.content.toList ∧
                  patch.reversed.apply d.content.toList = some reference.toList)) := by
  have htext : (d.diff reference fromLabel toLabel).toList =
      unified reference.toList d.content.toList fromLabel toLabel := String.toList_ofList
  have hread (hne : hunksBetween (pieces reference.toList).toArray
      (pieces d.content.toList).toArray ≠ []) := readPatch_unified hfrom hto rfl hne
    fun hunk hhunk hnil => by
      obtain ⟨x, hx, -⟩ := (hunksBetween_trim _ _ hunk hhunk).changed
      rw [hnil] at hx
      cases hx
  refine ⟨⟨fun hempty => ?_, fun hsame => ?_⟩, fun hchanged => ?_⟩
  · refine changedFrom_eq_false.mpr (by_contra fun hne => ?_)
    have hsome := hread hne
    rw [← htext, hempty] at hsome
    cases hsome
  · rw [diff, unified]
    simp only [changedFrom_eq_false.mp hsame]
  · have hne := mt changedFrom_eq_false.mpr (Bool.eq_false_iff.not_left.mpr hchanged)
    have hleads := printed_leads hne fromLabel.toList toLabel.toList
    exact ⟨_, htext ▸ hread hne, rfl, rfl, hleads, hleads.strictly⟩

theorem diff_leads_exchange : ∃ patch,
    readPatch ((ofSource "b" "b\n").diff "a\n" "a" "b").toList = some patch ∧
      patch.apply "a\n".toList = some "b\n".toList ∧
        patch.reversed.apply "b\n".toList = some "a\n".toList := by
  have htext : (ofSource "b" "b\n").diff "a\n" "a" "b" = "--- a\n+++ b\n@@ -1 +1 @@\n-a\n+b\n" := by
    cbv
  have hread : readPatch "--- a\n+++ b\n@@ -1 +1 @@\n-a\n+b\n".toList = some ⟨['a'], ['b'],
      [⟨⟨0, 1⟩, ⟨0, 1⟩, [(.remove, ['a', '\n']), (.insert, ['b', '\n'])]⟩]⟩ := by
    decide +kernel
  obtain ⟨patch, hpatch, -, -, -, hstrict⟩ := (diff_leads (ofSource "b" "b\n") "a\n" "a" "b"
    (bare_of_all (by decide)) (bare_of_all (by decide))).2 (by decide)
  refine ⟨patch, hpatch, hstrict ?_⟩
  rw [htext, hread] at hpatch
  obtain rfl := Option.some.inj hpatch
  decide

/-- The header of a hunk can be wrong where a change at its end leaves one side without lines: this
one says that two old lines lie under it, and there are three. -/
theorem diff_misplaced : ∃ patch,
    readPatch ((ofSource "b" "x\nx\nx\n").diff "x\na\nx\n" "a" "b").toList = some patch ∧
      patch.apply "x\na\nx\n".toList = none := by
  have htext : (ofSource "b" "x\nx\nx\n").diff "x\na\nx\n" "a" "b" =
      "--- a\n+++ b\n@@ -1,2 +1,3 @@\n x\n-a\n x\n+x\n" := by
    cbv
  have hread : readPatch "--- a\n+++ b\n@@ -1,2 +1,3 @@\n x\n-a\n x\n+x\n".toList =
      some ⟨['a'], ['b'], [⟨⟨0, 2⟩, ⟨0, 3⟩, [(.keep, ['x', '\n']), (.remove, ['a', '\n']),
        (.keep, ['x', '\n']), (.insert, ['x', '\n'])]⟩]⟩ := by
    decide +kernel
  refine ⟨_, htext ▸ hread, ?_⟩
  decide +kernel

end Refit.Draft
