import Refit.Proofs.ProjectRoot.Ancestors
import Refit.Proofs.Tree.Fillers

/-!
The root that is found for a path is the nearest directory with a build descriptor, of those on the
way up from where the search starts, and the start itself if none of them has one (`find_nearest`).
-/

namespace Refit.ProjectRoot

open Refit.Path Refit.Tree

variable {t : Tree} {path root : String} {names : List String} {place : Place}

def Opens (t : Tree) (names : List String) (place : Place) : Prop :=
  t.follow false linkLimit [] names = .ok (.found place .directory)

def Yields (t : Tree) (names : List String) : Prop :=
  ∃ place bytes runnable,
    t.follow false linkLimit [] names = .ok (.found place (.file bytes runnable))

def HasDescriptor (t : Tree) (names : List String) : Prop :=
  ∃ place, Opens t names place ∧ ∃ name ∈ descriptors,
    (∃ bytes runnable, t.get? (place ++ [name]) = some (.file bytes runnable)) ∨
    ∃ target, t.get? (place ++ [name]) = some (.link target) ∧ Yields t (names ++ [name])

/-- Where the search for a root starts: at a directory itself, and else at the parent. -/
structure IsStart (t : Tree) (path start : String) : Prop where
  directory : t.isDirectory path = true → start = path
  parent : t.isDirectory path = false → (ofText start).rooted = (ofText path).rooted ∧
    (ofText start).names = (ofText path).names.dropLast

/-- The nearest directory with a descriptor on the way up from a start, or the start. The empty
path, which is above relative ones only, stands for the directory where these are looked for. -/
structure IsNearest (t : Tree) (start root : String) : Prop where
  rooted : (ofText root).rooted = (ofText start).rooted
  above : (ofText root).names <+: (ofText start).names
  directory : root ≠ "" → t.isDirectory root = true
  descriptor : (∃ names, names <+: (ofText start).names ∧ HasDescriptor t names) →
    HasDescriptor t (ofText root).names
  nearest : ∀ names, names <+: (ofText start).names → (ofText root).names <+: names →
    names ≠ (ofText root).names → ¬ HasDescriptor t names
  fallback : (∀ names, names <+: (ofText start).names → ¬ HasDescriptor t names) → root = start

theorem isName_descriptor : ∀ name ∈ descriptors, IsName name := by decide

theorem yields_iff {name : String} (h : Opens t names place) (hn : IsName name) :
    Yields t (names ++ [name]) ↔
      (∃ bytes runnable, t.get? (place ++ [name]) = some (.file bytes runnable)) ∨
      ∃ target, t.get? (place ++ [name]) = some (.link target) ∧ Yields t (names ++ [name]) := by
  obtain ⟨n, -, hfollow⟩ := follow_append h
  have hname := (hfollow [name]).1
  rw [follow_name ⟨hn.not_filler, hn.not_up⟩] at hname
  unfold Yields
  cases hg : t.get? (place ++ [name]) with
  | none => simp [hname, hg]
  | some entry => cases entry <;> simp [hname, hg]

theorem isBuildable_iff (h : Opens t (ofText path).names place) :
    isBuildable t path = true ↔ HasDescriptor t (ofText path).names := by
  rw [isBuildable, List.any_eq_true]
  constructor
  · rintro ⟨name, hm, hf⟩
    have hn := isName_descriptor name hm
    exact ⟨place, h, name, hm, (yields_iff h hn).mp ((isFile_joinPath_iff hn).mp hf)⟩
  · rintro ⟨place, h, name, hm, hf⟩
    have hn := isName_descriptor name hm
    exact ⟨name, hm, (isFile_joinPath_iff hn).mpr ((yields_iff h hn).mpr hf)⟩

theorem opens_above (h : Opens t (ofText path).names place)
    (hn : names <+: (ofText path).names) : ∃ place, Opens t names place := by
  obtain ⟨more, hmore⟩ := hn
  unfold Opens at h
  rw [← hmore] at h
  refine follow_above (fun s hs => ?_) h
  have hm : s ∈ (ofText path).names := hmore ▸ List.mem_append_right names hs
  simpa using (List.mem_filter.mp hm).2

theorem start_exact (h : t.exists? path = true) :
    IsStart t path (start t path) ∧ ∃ place, Opens t (ofText (start t path)).names place := by
  unfold start
  by_cases hd : t.isDirectory path = true
  · rw [if_pos hd]
    exact ⟨⟨fun _ => rfl, fun hn => absurd hd (by simp [hn])⟩, (isDirectory_iff.mp hd).2⟩
  · rw [if_neg hd]
    obtain ⟨p, entry, he⟩ := exists?_eq_true.mp h
    have hentry : entry ≠ .directory := by
      rintro rfl
      exact hd (isDirectory_eq_true.mpr ⟨p, he⟩)
    obtain ⟨-, hf⟩ := spot_eq_ok.mp (entryAt_eq_ok.mp he)
    obtain ⟨above, s, hsegments, hs⟩ := follow_other_last hentry hf
    rw [hsegments] at hf
    obtain ⟨place, hplace⟩ := follow_init hs hf
    have hnames : (ofText path).names = (above.filter fun a => !isFiller a) ++ [s] := by
      rw [names, hsegments, List.filter_append, List.filter_cons_of_pos (by simp [hs]),
        List.filter_nil]
    cases hparent : (ofText path).parent? with
    | none =>
      rw [parent?_eq_none hparent] at hnames
      exact absurd hnames.symm (by simp)
    | some q =>
      obtain ⟨hrooted, hparentNames⟩ := ofText_parent? hparent
      rw [Option.map_some, Option.getD_some, hparentNames, hnames, List.dropLast_concat]
      exact ⟨⟨fun hn => absurd hn hd, fun _ => ⟨hrooted, hparentNames⟩⟩, place,
        follow_names_directory.mp hplace⟩

theorem find_isNearest (h : Opens t (ofText (start t path)).names place) :
    IsNearest t (start t path) (find t path) := by
  obtain ⟨habove, hpair, hall⟩ := ancestors_exact (start t path)
  have hbuildable : ∀ a ∈ ancestors (start t path),
      (isBuildable t a = true ↔ HasDescriptor t (ofText a).names) := by
    intro a ha
    obtain ⟨place, ho⟩ := opens_above h (habove a ha).2
    exact isBuildable_iff ho
  have hdirectory : ∀ a ∈ ancestors (start t path), a ≠ "" → t.isDirectory a = true :=
    fun a ha hne => isDirectory_iff.mpr ⟨hne, opens_above h (habove a ha).2⟩
  unfold find
  cases hf : (ancestors (start t path)).find? (isBuildable t) with
  | none =>
    have hnone : ∀ names, names <+: (ofText (start t path)).names → ¬ HasDescriptor t names := by
      intro names hn hdesc
      obtain ⟨a, ha, rfl⟩ := hall names hn
      exact List.find?_eq_none.mp hf a ha ((hbuildable a ha).mpr hdesc)
    exact ⟨rfl, List.prefix_refl _, hdirectory _ List.mem_cons_self,
      fun ⟨names, hn, hdesc⟩ => absurd hdesc (hnone names hn), fun names hn _ _ => hnone names hn,
      fun _ => rfl⟩
  | some root =>
    have hroot := List.mem_of_find?_eq_some hf
    obtain ⟨hr, hn⟩ := habove root hroot
    obtain ⟨hb, nearer, farther, hsplit, hfirst⟩ := List.find?_eq_some_iff_append.mp hf
    have hdesc := (hbuildable root hroot).mp hb
    refine ⟨hr, hn, hdirectory root hroot, fun _ => hdesc, fun names hnames hbelow hne hd => ?_,
      fun hnone => absurd hdesc (hnone _ hn)⟩
    obtain ⟨a, ha, rfl⟩ := hall names hnames
    have hbuild := (hbuildable a ha).mpr hd
    rw [hsplit] at ha hpair
    obtain ha | ha := List.mem_append.mp ha
    · have hnot := hfirst a ha
      rw [hbuild] at hnot
      cases hnot
    · -- what comes later is no nearer
      have hle : (ofText a).names <+: (ofText root).names := by
        obtain rfl | ha := List.mem_cons.mp ha
        · exact List.prefix_refl _
        · exact (List.pairwise_cons.mp (List.pairwise_append.mp hpair).2.1).1 a ha
      exact hne (hle.eq_of_length (Nat.le_antisymm hle.length_le hbelow.length_le))

/-- The root of a project is the nearest directory with a build descriptor, from the start of the
search on upwards, and the start if no directory has one. All the directories on the way are
there. -/
theorem find_nearest (h : t.exists? path = true) :
    ∃ start, IsStart t path start ∧ IsNearest t start (find t path) ∧
      ∀ names, names <+: (ofText start).names → ∃ place, Opens t names place := by
  obtain ⟨hs, place, ho⟩ := start_exact h
  exact ⟨start t path, hs, find_isNearest ho, fun names hn => opens_above ho hn⟩

def linkedDescriptor : Tree := ⟨[
  (["shared.xml"], .file "<project/>".toUTF8 false),
  (["p"], .directory),
  (["p", "pom.xml"], .link "../shared.xml"),
  (["p", "src"], .directory),
  (["p", "src", "pom.xml"], .directory),
  (["p", "src", "A.java"], .file "class A {}".toUTF8 false)]⟩

theorem find_nearest_linked : linkedDescriptor.exists? "/p/src//A.java" = true ∧
    find linkedDescriptor "/p/src//A.java" = "/p" ∧
    ∃ start, IsStart linkedDescriptor "/p/src//A.java" start ∧
      IsNearest linkedDescriptor start "/p" := by
  have hexists : linkedDescriptor.exists? "/p/src//A.java" = true := by rfl
  have hroot : find linkedDescriptor "/p/src//A.java" = "/p" := by rfl
  obtain ⟨start, hstart, hnearest, -⟩ := find_nearest hexists
  rw [hroot] at hnearest
  exact ⟨hexists, hroot, start, hstart, hnearest⟩

end Refit.ProjectRoot
