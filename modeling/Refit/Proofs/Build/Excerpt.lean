import Refit.Build.Check
import Refit.Proofs.Text.Lines
import Refit.Proofs.Text.Place

/-!
The excerpt of a failed build's output. It is bounded, and where some lines tell of an error, only the
first of these decide about it (`excerpt_bounded`). Its lines are lines of the two streams, but for the
one in which the streams may meet (`excerpt_streams`).
-/

namespace Refit.Build

open Text

variable {marker line : List Char} {log kept : List (List Char)} {text : String}

/-- A line tells of an error if the marker or `FAILED` is a part of it. -/
def Tells (marker line : List Char) : Prop := marker <:+: line ∨ "FAILED".toList <:+: line

instance (marker line : List Char) : Decidable (Tells marker line) :=
  inferInstanceAs (Decidable (_ ∨ _))

/-- The lines of a log that tell of an error. -/
def errors (marker : List Char) (log : List (List Char)) : List (List Char) :=
  log.filter fun line => Tells marker line

/-- What an excerpt keeps of a log: the first lines that tell of an error, and the last lines where
none does. -/
structure Keeps (marker : List Char) (log kept : List (List Char)) : Prop where
  bounded : kept.length ≤ 20
  inOrder : kept.Sublist log
  first : (∃ line ∈ log, Tells marker line) → (∀ line ∈ kept, Tells marker line) ∧
    kept <+: errors marker log ∧ kept.length = min 15 (errors marker log).length
  last : (∀ line ∈ log, ¬ Tells marker line) → kept <:+ log ∧ kept.length = min 20 log.length

/-- A text that is made of lines with line feeds between them, and that is cut into the same lines. -/
structure Joins (text : String) (kept : List (List Char)) : Prop where
  joined : text.toList = ['\n'].intercalate kept
  parts : kept ≠ [] → text.toList.splitOn '\n' = kept

theorem tellsError_iff : tellsError marker line = true ↔ Tells marker line := by
  rw [tellsError, Bool.or_eq_true, occurs_iff, occurs_iff]
  rfl

theorem filter_tellsError (marker : List Char) (log : List (List Char)) :
    log.filter (tellsError marker) = errors marker log := by
  refine List.filter_congr fun line _ => ?_
  rw [Bool.eq_iff_iff, tellsError_iff, decide_eq_true_iff]

theorem errors_ne_nil : errors marker log ≠ [] ↔ ∃ line ∈ log, Tells marker line := by
  simp [errors]

theorem excerptLines_errors (h : ∃ line ∈ log, Tells marker line) :
    excerptLines marker log = (errors marker log).take 15 := by
  unfold excerptLines
  rw [filter_tellsError]
  split
  · rename_i hnone
    have hempty : errors marker log = [] := by simpa [errorLines] using hnone
    exact absurd hempty (errors_ne_nil.mpr h)
  · rfl

theorem excerptLines_tail (h : ∀ line ∈ log, ¬ Tells marker line) :
    excerptLines marker log = log.drop (log.length - 20) := by
  have hnone : errors marker log = [] := by simpa [errors] using h
  unfold excerptLines
  rw [filter_tellsError, hnone]
  rfl

theorem keeps_excerptLines (marker : List Char) (log : List (List Char)) :
    Keeps marker log (excerptLines marker log) := by
  by_cases h : ∃ line ∈ log, Tells marker line
  · have hno : ¬ ∀ line ∈ log, ¬ Tells marker line := by simpa using h
    have hfirst : (errors marker log).take 15 <+: errors marker log := List.take_prefix _ _
    rw [excerptLines_errors h]
    refine ⟨?_, hfirst.sublist.trans List.filter_sublist, fun _ => ⟨?_, hfirst, ?_⟩, fun hnone =>
      absurd hnone hno⟩
    · rw [List.length_take]
      omega
    · intro line hline
      have hmem := (List.mem_filter.mp (hfirst.subset hline)).2
      exact of_decide_eq_true hmem
    · exact List.length_take
  · have hnone : ∀ line ∈ log, ¬ Tells marker line := by simpa using h
    have hsuffix : log.drop (log.length - 20) <:+ log := List.drop_suffix _ _
    rw [excerptLines_tail hnone]
    refine ⟨?_, hsuffix.sublist, fun hsome => absurd hsome h, fun _ => ⟨hsuffix, ?_⟩⟩
    · rw [List.length_drop]
      omega
    · rw [List.length_drop]
      omega

def logOf (stdout stderr : String) : List (List Char) := lines (stdout.toList ++ stderr.toList)

theorem excerpt_eq (stdout stderr marker : String) : (excerpt stdout stderr marker).toList =
    ['\n'].intercalate (excerptLines marker.toList (logOf stdout stderr)) :=
  String.toList_ofList

theorem joins_excerpt (stdout stderr marker : String) :
    Joins (excerpt stdout stderr marker) (excerptLines marker.toList (logOf stdout stderr)) := by
  refine ⟨excerpt_eq stdout stderr marker, fun hne => ?_⟩
  rw [excerpt_eq]
  refine List.splitOn_intercalate '\n' (fun line hline => ?_) hne
  exact not_mem_of_mem_lines ((keeps_excerptLines marker.toList _).inOrder.subset hline)

/-- An excerpt is made of what is kept of the log. Where lines tell of an error, logs with the same
first fifteen of them have the same excerpt, and where none does, logs with the same last twenty lines
have. -/
theorem excerpt_bounded (marker : String) :
    (∀ stdout stderr : String,
      (∀ log, HasLines (stdout.toList ++ stderr.toList) log ↔ logOf stdout stderr = log) ∧
      ∃ kept, Joins (excerpt stdout stderr marker) kept ∧
        Keeps marker.toList (logOf stdout stderr) kept) ∧
    (∀ out err out' err' : String, (∃ line ∈ logOf out err, Tells marker.toList line) →
      (errors marker.toList (logOf out err)).take 15 =
        (errors marker.toList (logOf out' err')).take 15 →
      excerpt out err marker = excerpt out' err' marker) ∧
    ∀ out err out' err' : String, (∀ line ∈ logOf out err, ¬ Tells marker.toList line) →
      (∀ line ∈ logOf out' err', ¬ Tells marker.toList line) →
      (logOf out err).drop ((logOf out err).length - 20) =
        (logOf out' err').drop ((logOf out' err').length - 20) →
      excerpt out err marker = excerpt out' err' marker := by
  refine ⟨fun stdout stderr => ?_, ?_, ?_⟩
  · exact ⟨fun log => hasLines_iff, _, joins_excerpt stdout stderr marker, keeps_excerptLines _ _⟩
  · intro out err out' err' hsome hsame
    -- the other log has the same first line, so it is not its tail that is kept
    have hsome' : ∃ line ∈ logOf out' err', Tells marker.toList line := by
      rw [← errors_ne_nil] at hsome ⊢
      intro hnone
      rw [hnone] at hsame
      simp [hsome] at hsame
    rw [← String.toList_inj, excerpt_eq, excerpt_eq, excerptLines_errors hsome,
      excerptLines_errors hsome', hsame]
  · intro out err out' err' hnone hnone' hsame
    rw [← String.toList_inj, excerpt_eq, excerpt_eq, excerptLines_tail hnone,
      excerptLines_tail hnone', hsame]

theorem excerpt_bounded_noisy :
    excerpt "> Task\r\nerror: a\nwarning\n" "1 FAILED" "error:" =
        excerpt "error: a" "\n1 FAILED\r\nBUILD" "error:" ∧
      excerpt (String.join ("a\n" :: List.replicate 20 "c\n")) "" "error:" =
        excerpt (String.join ("b\nb\n" :: List.replicate 19 "c\n")) "c" "error:" := by
  obtain ⟨-, hfirst, hlast⟩ := excerpt_bounded "error:"
  exact ⟨hfirst _ _ _ _ (by decide +kernel) (by decide +kernel),
    hlast _ _ _ _ (by decide +kernel) (by decide +kernel) (by decide +kernel)⟩

theorem logOf_ended {stdout stderr : String} (h : Ended stdout.toList ∨ stderr.toList = []) :
    logOf stdout stderr = lines stdout.toList ++ lines stderr.toList := by
  unfold logOf
  obtain h | h := h
  · exact lines_append h _
  · rw [h, List.append_nil]
    exact (List.append_nil _).symm

theorem check_ran {b : Builder} {tools : Tools} {history : Journal} {t : Tree}
    {diagnostic program directory : String} {arguments : List String}
    (h : (b.check tools history t).1 = .failed diagnostic)
    (hran : Event.tool program directory arguments ∈ (b.check tools history t).2.1) :
    diagnostic = excerpt (decodeLossy (tools history t program directory arguments).stdout)
      (decodeLossy (tools history t program directory arguments).stderr) b.system.errorMarker := by
  unfold Builder.check at h hran
  cases hp : b.program t with
  | error why =>
    rw [hp] at hran
    cases hran
  | ok found =>
    rw [hp] at h hran
    dsimp only at h hran
    by_cases hr : isRunnable t found = true
    · rw [if_pos hr] at h hran
      split at h
      · cases h
      · rename_i hexit
        rw [if_neg hexit] at hran
        simp only [List.cons_append, List.nil_append, List.mem_cons, reduceCtorEq, false_or,
          List.not_mem_nil, or_false, Event.tool.injEq] at hran
        obtain ⟨rfl, rfl, rfl⟩ := hran
        exact (Outcome.failed.inj h).symm
    · rw [if_neg hr] at hran
      simp at hran

/-- The lines of an excerpt are lines of the streams, and it keeps of them what it keeps of any log,
unless the first stream breaks off in a line and the second goes on. The streams then meet in one
line, which stands for the last line of the first and the first line of the second. A build whose tool
ran and failed is reported by the excerpt of what the tool wrote. -/
theorem excerpt_streams (stdout stderr marker : String) :
    (∃ kept, Joins (excerpt stdout stderr marker) kept ∧
      (Ended stdout.toList ∨ stderr.toList = [] →
        (∀ line ∈ kept, line ∈ lines stdout.toList ∨ line ∈ lines stderr.toList) ∧
        Keeps marker.toList (lines stdout.toList ++ lines stderr.toList) kept) ∧
      (¬ Ended stdout.toList → stderr.toList ≠ [] →
        (∀ line ∈ kept, line ∈ (lines stdout.toList).dropLast ∨
          line = seam stdout.toList stderr.toList ∨ line ∈ (lines stderr.toList).tail) ∧
        Keeps marker.toList ((lines stdout.toList).dropLast ++
          seam stdout.toList stderr.toList :: (lines stderr.toList).tail) kept)) ∧
    ∀ (b : Builder) tools history t diagnostic program directory arguments,
      (b.check tools history t).1 = .failed diagnostic →
      Event.tool program directory arguments ∈ (b.check tools history t).2.1 →
      let run := tools history t program directory arguments
      diagnostic =
        excerpt (decodeLossy run.stdout) (decodeLossy run.stderr) b.system.errorMarker := by
  have hkeeps := keeps_excerptLines marker.toList (logOf stdout stderr)
  refine ⟨⟨_, joins_excerpt stdout stderr marker, fun h => ?_, fun hopen hsome => ?_⟩,
    fun _ _ _ _ _ _ _ _ h hran => check_ran h hran⟩
  · rw [logOf_ended h] at hkeeps ⊢
    exact ⟨fun line hline => List.mem_append.mp (hkeeps.inOrder.subset hline), hkeeps⟩
  · rw [logOf, lines_append_open hopen hsome] at hkeeps ⊢
    refine ⟨fun line hline => ?_, hkeeps⟩
    have hmem := hkeeps.inOrder.subset hline
    rwa [List.mem_append, List.mem_cons] at hmem

/-- A tool that always writes the same and fails. -/
def failing (stdout stderr : String) : Tools := fun _ t _ _ _ =>
  ⟨.code 1, stdout.toUTF8, stderr.toUTF8, t⟩

def wrappedTree : Tree := ⟨[(["gradlew"], .file ⟨#[]⟩ true)]⟩

theorem excerpt_streams_met :
    (∃ kept, Joins (excerpt "a\nb\r" "\n[ERROR] c" "error:") kept ∧
      Keeps "error:".toList ["a".toList, "b".toList, "[ERROR] c".toList] kept) ∧
    (∃ kept, Joins (excerpt "a\r\n" "[ERROR] c" "[ERROR]") kept ∧
      ∀ line ∈ kept, line ∈ lines "a\r\n".toList ∨ line ∈ lines "[ERROR] c".toList) ∧
    "error: c" = excerpt (decodeLossy "a\n".toUTF8) (decodeLossy "error: c".toUTF8) "error:" := by
  obtain ⟨⟨kept, hjoins, -, hopen⟩, -⟩ := excerpt_streams "a\nb\r" "\n[ERROR] c" "error:"
  obtain ⟨⟨kept', hjoins', hended, -⟩, hcheck⟩ := excerpt_streams "a\r\n" "[ERROR] c" "[ERROR]"
  refine ⟨⟨kept, hjoins, ?_⟩, ⟨kept', hjoins', (hended (.inl (by decide +kernel))).1⟩, ?_⟩
  · have hlines : (lines "a\nb\r".toList).dropLast ++
        seam "a\nb\r".toList "\n[ERROR] c".toList :: (lines "\n[ERROR] c".toList).tail =
        ["a".toList, "b".toList, "[ERROR] c".toList] := by decide +kernel
    rw [← hlines]
    exact (hopen (by decide +kernel) (by decide +kernel)).2
  · exact hcheck ⟨"/", .gradle, none⟩ (failing "a\n" "error: c") [] wrappedTree "error: c" "/gradlew"
      "/" System.gradle.arguments (by decide +kernel) (by decide +kernel)

/-- Behind a stream that breaks off, a line is not reported as it was printed. -/
theorem excerpt_merged :
    let line := "[INFO] Scanning[ERROR] App.java:[3,1] cannot find symbol".toList
    Joins (excerpt "[INFO] Scanning" "[ERROR] App.java:[3,1] cannot find symbol\n" "[ERROR]") [line] ∧
      line ∉ lines "[INFO] Scanning".toList ∧
      line ∉ lines "[ERROR] App.java:[3,1] cannot find symbol\n".toList := by
  refine ⟨⟨?_, fun _ => ?_⟩, ?_, ?_⟩ <;> decide +kernel

end Refit.Build
