import Refit.Proofs.Run.Counterpart
import Refit.Proofs.Sources.Faulty
import Refit.Proofs.Sources.Listed
import Refit.Proofs.Sources.Unruled

/-!
What is collected below a start, for any start and any way of writing it. A path below the start
leads on from where the start leads (`spot_pathBelow`), so a file is found by what stands on the way
down to it (`exists_found?`). Where no ignore rule says anything below the start, hidden names are
the only other ones that are passed over (`collect_exact`).
-/

namespace Refit.Sources

open Refit.Path Refit.Tree

variable {t : Tree} {start : Place} {path file : String} {names : List String}

/-- A source below a start. Its names lead down from the start through directories, none of which is
excluded, to an entry, and its path leads to a regular file with the name of a source. -/
structure Reached (t : Tree) (path : String) (start : Place) (names : List String) : Prop where
  below : names ≠ []
  stands : t.get? (start ++ names) ≠ none
  through : ∀ above, above <+: names → above ≠ names → t.get? (start ++ above) = some .directory
  admitted : ∀ s ∈ names.dropLast, Workspace.isExcluded s = false
  leads : t.isFile (pathBelow path names) = true
  source : ∃ stem, stem ≠ "" ∧ names.getLast? = some (stem ++ ".java")

/-- The sources that are collected below a start. -/
structure Collected (t : Tree) (path : String) (start : Place) (files : List String) : Prop where
  ordered : files.Pairwise fun a b => (ofText a).names < (ofText b).names
  sound : ∀ file ∈ files, ∃ names, Reached t path start names ∧ file = pathBelow path names
  complete : Unruled t start → ∀ file, file ∈ files ↔ ∃ names, Reached t path start names ∧
    (∀ s ∈ names, s.toList.head? ≠ some '.') ∧ file = pathBelow path names

/-- A path below a start leads where its names lead from the start. -/
theorem spot_pathBelow (hs : t.spot path = .ok (.found start .directory)) (hne : names ≠ [])
    (hn : ∀ s ∈ names, IsName s) :
    ∃ n, t.spot (pathBelow path names) = t.follow false n start names := by
  obtain ⟨hp, hf⟩ := spot_eq_ok.mp hs
  obtain ⟨n, -, hm⟩ := follow_append hf
  obtain ⟨above, hj, ha⟩ := segments_joinPath hp (not_rooted_text_names hn)
  rw [segments_names hne hn] at hj
  have hfollow : t.follow false linkLimit [] (above ++ names) = t.follow false n start names := by
    rw [← (hm names).1]
    obtain ha | ha := ha
    · rw [ha]
    · -- the slash at the end of the start is not written again
      have hsome : names.all (· == "") = false := by
        obtain ⟨s, rest, rfl⟩ := List.exists_cons_of_ne_nil hne
        simp [(hn s List.mem_cons_self).ne_empty]
      rw [ha, List.append_assoc, List.singleton_append, follow_filler rfl hsome]
  refine ⟨n, ?_⟩
  unfold Tree.spot spotFrom
  have hjne : pathBelow path names ≠ "" := by
    intro he
    have hnames := names_pathBelow path hn
    rw [he] at hnames
    exact hne (List.append_eq_nil_iff.mp hnames.symm).2
  simp only [if_neg hjne, ite_self]
  rw [pathBelow, hj, hfollow]

theorem isSource_pathBelow (hne : names ≠ []) (hn : ∀ s ∈ names, IsName s) :
    isSource t (pathBelow path names) = true ↔ t.isFile (pathBelow path names) = true ∧
      ∃ stem, stem ≠ "" ∧ names.getLast? = some (stem ++ ".java") := by
  have hlast := List.getLast?_eq_some_getLast hne
  have hname : (ofText (pathBelow path names)).fileName? = some (names.getLast hne) := by
    have hup := (hn _ (List.getLast_mem hne)).not_up
    unfold fileName?
    rw [names_pathBelow path hn, List.getLast?_append, hlast]
    split
    · exact absurd (Option.some.inj ‹_›) hup
    · cases ‹_ = none›
    · exact ‹_ = some _›.symm
  have hfree : '.' ∉ sourceExtension.toList := by decide
  unfold isSource
  rw [Bool.and_eq_true, beq_iff_eq, extension?_eq_some hname, hlast]
  refine and_congr_right fun _ => exists_congr fun stem => and_congr_right fun _ => ?_
  rw [Option.some.injEq, String.append_assoc]
  exact and_iff_left hfree

theorem not_isFile_directory (hs : t.spot path = .ok (.found start .directory)) (hne : names ≠ [])
    (hn : ∀ s ∈ names, IsName s)
    (hd : ∀ above, above <+: names → t.get? (start ++ above) = some .directory) :
    t.isFile (pathBelow path names) = false := by
  obtain ⟨n, hspot⟩ := spot_pathBelow hs hne hn
  have hfollow : t.follow false n start names = .ok (.found (start ++ names) .directory) :=
    follow_eq_ok.mpr (.inl (advance_names hne hn (fun p hp _ _ => hd p hp)
      (hd names (List.prefix_refl _)) (.inr nofun)))
  unfold Tree.isFile
  rw [entryAt_eq_ok.mpr (hspot.trans hfollow)]

/-- What is found is what is reached on a way on which nothing is passed over. -/
theorem exists_found? (ht : t.Sound) (hs : t.entryAt path = .ok (start, .directory)) :
    (∃ x ∈ t.entries, found? t path start x = some names) ↔
      Reached t path start names ∧ isOpen t start names false = true := by
  have hspot := entryAt_eq_ok.mp hs
  constructor
  · rintro ⟨x, hx, hfound⟩
    obtain ⟨he, hne, -, hopen, hsource⟩ := found?_eq_some.mp hfound
    have hstands : t.get? (start ++ names) ≠ none := he ▸ get?_of_mem_entries hx
    have hn : ∀ s ∈ names, IsName s := fun s hm =>
      named_of_get? ht hstands s (List.mem_append_right _ hm)
    obtain ⟨hfile, hstem⟩ := (isSource_pathBelow hne hn).mp hsource
    refine ⟨⟨hne, hstands, fun above hp hnames => ?_, ?_, hfile, hstem⟩, hopen⟩
    · exact ht.above hstands ((List.prefix_append_right_inj start).mpr hp) fun heq =>
        hnames (List.append_cancel_left heq)
    · intro s hm
      simpa using List.all_eq_true.mp (shown_of_isOpen hopen) s hm
  · rintro ⟨h, hopen⟩
    have hn : ∀ s ∈ names, IsName s := fun s hm =>
      named_of_get? ht h.stands s (List.mem_append_right _ hm)
    obtain ⟨entry, he⟩ := Option.ne_none_iff_exists'.mp h.stands
    have hsource := (isSource_pathBelow h.below hn).mpr ⟨h.leads, h.source⟩
    refine ⟨(start ++ names, entry), mem_entries_of_get? (by simp [h.below]) he,
      found?_eq_some.mpr ⟨rfl, h.below, ?_, hopen, hsource⟩⟩
    rintro rfl
    have hd : ∀ above, above <+: names → t.get? (start ++ above) = some .directory := by
      intro above hp
      by_cases ha : above = names
      · rwa [ha]
      · exact h.through above hp ha
    have hfile := h.leads
    rw [not_isFile_directory hspot h.below hn hd] at hfile
    cases hfile

theorem mem_below : file ∈ below t path start ↔ ∃ names,
    (∃ x ∈ t.entries, found? t path start x = some names) ∧ file = pathBelow path names := by
  unfold below
  have hperm (found : List (List String)) : (sorted found).Perm found := List.mergeSort_perm _ _
  simp only [List.mem_map, (hperm _).mem_iff, List.mem_filterMap, eq_comm]

theorem below_collected (ht : t.Sound) (ho : t.Single)
    (hs : t.entryAt path = .ok (start, .directory)) :
    Collected t path start (below t path start) where
  ordered := below_ordered ht ho
  sound file hf := by
    obtain ⟨names, hfound, he⟩ := mem_below.mp hf
    exact ⟨names, ((exists_found? ht hs).mp hfound).1, he⟩
  complete hu file := by
    rw [mem_below]
    refine exists_congr fun names => ?_
    rw [exists_found? ht hs, isOpen_unruled hu]
    constructor
    · rintro ⟨⟨h, hhidden, -⟩, he⟩
      exact ⟨h, hhidden, he⟩
    · rintro ⟨h, hhidden, he⟩
      exact ⟨⟨h, hhidden, h.admitted⟩, he⟩

/-- What is collected below a start, in whatever order directories list their entries: the sources
that are reached, in the order of their names, and no list if an ignore file above is faulty. -/
theorem collect_exact (ht : t.Sound) (ho : t.Single)
    (hs : t.entryAt path = .ok (start, .directory)) :
    (∀ u : Tree, u.entries.Perm t.entries → collect u path = collect t path) ∧
    ((∃ faults, collect t path = .error (.patterns faults) ∧ faults ≠ [] ∧
        ∀ file fault, (file, fault) ∈ faults ↔ FaultyAbove t start file fault) ∨
      (∀ file fault, ¬ FaultyAbove t start file fault) ∧
        ∃ files, collect t path = .ok files ∧ Collected t path start files) := by
  refine ⟨fun u hu => collect_of_perm ho hu path, ?_⟩
  unfold collect
  rw [hs]
  dsimp only
  cases hf : faultsAbove t start with
  | nil =>
    refine .inr ⟨fun file fault h => ?_, below t path start, rfl, below_collected ht ho hs⟩
    have hm := mem_faultsAbove.mpr h
    rw [hf] at hm
    cases hm
  | cons first rest =>
    refine .inl ⟨first :: rest, rfl, List.cons_ne_nil _ _, fun file fault => ?_⟩
    rw [← hf]
    exact mem_faultsAbove

def mixedTree : Tree := ⟨[
  ([".idea"], .directory),
  ([".idea", "Dir.java"], .directory),
  ([".idea", "Dir.java", "A.java"], .file "".toUTF8 false),
  ([".idea", "Link.java"], .link "src/a/B.java"),
  ([".idea", ".Hidden.java"], .file "".toUTF8 false),
  ([".idea", ".gitignore"], .file "*.java\n".toUTF8 false),
  ([".idea", "src"], .directory),
  ([".idea", "src", "a"], .directory),
  ([".idea", "src", "a", "B.java"], .file "".toUTF8 false),
  ([".idea", "src", "a-b"], .directory),
  ([".idea", "src", "a-b", "C.java"], .file "".toUTF8 false),
  ([".idea", "src", "linked"], .link "a"),
  ([".idea", "target"], .directory),
  ([".idea", "target", "D.java"], .file "".toUTF8 false)]⟩

theorem mixedTree_sound : mixedTree.Sound := sound_of_listed (by decide +kernel)

theorem mixedTree_single : mixedTree.Single := by
  unfold Single
  decide +kernel

theorem mixedTree_unruled : Unruled mixedTree [".idea"] :=
  unruled_of_lacks (lacks_of_listed (by decide +kernel)) (lacks_of_listed (by decide +kernel)) _

theorem collect_exact_mixed :
    ∃ files, collect ⟨mixedTree.entries.reverse⟩ "/.idea/" = .ok files ∧
      Collected mixedTree "/.idea/" [".idea"] files ∧ Unruled mixedTree [".idea"] ∧
      files = ["/.idea/Dir.java/A.java", "/.idea/Link.java", "/.idea/src/a/B.java",
        "/.idea/src/a-b/C.java"] := by
  have hs : mixedTree.entryAt "/.idea/" = .ok ([".idea"], .directory) := by decide +kernel
  have hfound : collect mixedTree "/.idea/" = .ok _ :=
    @collect_listed mixedTree "/.idea/" [".idea"] [["Dir.java", "A.java"], ["Link.java"],
      ["src", "a", "B.java"], ["src", "a-b", "C.java"]] hs (by decide +kernel) (by decide +kernel)
      (by decide +kernel)
  obtain ⟨horder, ⟨_, he, -⟩ | ⟨-, files, hfiles, hcollected⟩⟩ :=
    collect_exact mixedTree_sound mixedTree_single hs
  · rw [hfound] at he
    cases he
  · refine ⟨files, ?_, hcollected, mixedTree_unruled, ?_⟩
    · exact (horder ⟨mixedTree.entries.reverse⟩ (List.reverse_perm _)).trans hfiles
    · rw [hfound] at hfiles
      cases hfiles
      decide +kernel

def faultyTree : Tree := ⟨[
  ([".ignore"], .file "[z-a]\n".toUTF8 false),
  (["sub"], .directory),
  (["sub", "A.java"], .file "".toUTF8 false)]⟩

theorem collect_faulty : faultyTree.Sound ∧ faultyTree.Single ∧
    faultyTree.entryAt "/sub" = .ok (["sub"], .directory) ∧
    ∀ files, collect faultyTree "/sub" ≠ .ok files := by
  have hsound : faultyTree.Sound := sound_of_listed (by decide +kernel)
  have hsingle : faultyTree.Single := by
    unfold Single
    decide +kernel
  have hfaulty : collect faultyTree "/sub" =
      .error (.patterns [("/.ignore", ⟨1, "[z-a]", .invalidRange 'z' 'a'⟩)]) := by decide +kernel
  refine ⟨hsound, hsingle, by decide +kernel, fun files h => ?_⟩
  rw [hfaulty] at h
  cases h

end Refit.Sources
