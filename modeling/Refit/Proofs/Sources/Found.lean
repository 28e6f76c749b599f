import Refit.Proofs.Tree.Listing
import Refit.Proofs.Workspace.Sandbox
import Refit.Sources

namespace Refit

open Refit.Path Refit.Tree

variable {t : Tree} {p q r place : Place} {path : String} {files : List String}

namespace Sources

theorem found?_eq_some {start : Place} {x : Place × Entry} {names : List String} :
    found? t path start x = some names ↔ x.1 = start ++ names ∧ names ≠ [] ∧ x.2 ≠ .directory ∧
      isOpen t start names false = true ∧ isSource t (pathBelow path names) = true := by
  unfold found?
  dsimp only
  constructor
  · intro h
    split at h
    · rename_i hc
      simp only [Bool.and_eq_true, List.isPrefixOf_iff_prefix, decide_eq_true_eq, bne_iff_ne] at hc
      obtain ⟨⟨⟨⟨hp, hlen⟩, hentry⟩, hopen⟩, hsource⟩ := hc
      cases h
      obtain ⟨rest, hx⟩ := hp
      rw [← hx, List.drop_left] at hopen hsource ⊢
      refine ⟨rfl, ?_, hentry, hopen, hsource⟩
      rintro rfl
      rw [← hx] at hlen
      simp at hlen
    · cases h
  · rintro ⟨hx, hne, hentry, hopen, hsource⟩
    simp [hx, hne, hentry, hopen, hsource, List.length_pos_iff]

theorem text_inj (hp : ∀ s ∈ p, IsName s) (hq : ∀ s ∈ q, IsName s) (h : p.text = q.text) : p = q := by
  rw [← (spells_text hp).names, h, (spells_text hq).names]

theorem nodup_found {start : Place} (ho : t.Single) :
    (t.entries.filterMap (found? t path start)).Nodup := by
  refine List.Pairwise.filterMap _ ?_ (List.pairwise_map.mp ho)
  intro x y hxy names hx names' hy he
  rw [(found?_eq_some.mp hx).1, (found?_eq_some.mp hy).1, he] at hxy
  exact hxy rfl

theorem not_isDirectory (h : t.isFile path = true) : t.isDirectory path = false := by
  unfold isFile at h
  unfold isDirectory
  split at h
  · rw [‹t.entryAt path = _›]
  · cases h

theorem isSource_eq_true (h : isSource t path = true) :
    t.isFile path = true ∧ (Path.ofText path).extension? = some sourceExtension := by
  simpa [isSource] using h

theorem sorted_found {start : Place} {names : List String}
    (ht : ∀ x ∈ t.entries, ∀ s ∈ x.1, IsName s) (hp : ∀ s ∈ place, IsName s)
    (hm : names ∈ sorted (t.entries.filterMap (found? t place.text start))) :
    names ≠ [] ∧ (∀ s ∈ place ++ names, IsName s) ∧
      pathBelow place.text names = Place.text (place ++ names) ∧
      isSource t (Place.text (place ++ names)) = true := by
  obtain ⟨x, hx, hf⟩ := List.mem_filterMap.mp ((List.mergeSort_perm _ _).subset hm)
  obtain ⟨he, hne, -, -, hsource⟩ := found?_eq_some.mp hf
  have hn : ∀ s ∈ names, IsName s := fun s hs => ht x hx s (he ▸ List.mem_append_right _ hs)
  have hb : pathBelow place.text names = Place.text (place ++ names) := joinPath_text hp hne hn
  exact ⟨hne, Workspace.named_append hp hn, hb, hb ▸ hsource⟩

theorem collect_cases (h : collect t place.text = .ok files) :
    (t.isDirectory place.text = false ∧ files = [place.text]) ∨
    ∃ start, t.entryAt place.text = .ok (start, .directory) ∧
      files = (sorted (t.entries.filterMap (found? t place.text start))).map
        (pathBelow place.text) := by
  unfold collect at h
  split at h
  · cases h
  · rename_i start hs
    split at h
    · cases h
      exact .inr ⟨start, hs, rfl⟩
    · cases h
  · rename_i entry hne he
    cases h
    refine .inl ⟨?_, rfl⟩
    rw [← Bool.not_eq_true, isDirectory_eq_true]
    rintro ⟨start, hs⟩
    exact hne start (Except.ok.inj (he.symm.trans hs))

/-- What is found is named by the path of a place. -/
theorem collect_eq_ok (ht : ∀ x ∈ t.entries, ∀ s ∈ x.1, IsName s) (hp : ∀ s ∈ place, IsName s)
    (h : collect t place.text = .ok files) :
    ∀ file ∈ files, ∃ q : Place, (∀ s ∈ q, IsName s) ∧ file = q.text := by
  intro file hf
  obtain ⟨-, rfl⟩ | ⟨start, -, rfl⟩ := collect_cases h
  · exact ⟨place, hp, List.mem_singleton.mp hf⟩
  · obtain ⟨names, hm, rfl⟩ := List.mem_map.mp hf
    obtain ⟨-, hn, hb, -⟩ := sorted_found ht hp hm
    exact ⟨_, hn, hb⟩

theorem inOrder_iff {a b : List String} : inOrder a b = true ↔ ¬ b < a := by
  unfold inOrder
  rw [Bool.not_eq_true', List.lex_eq_false_iff_ge]
  exact Iff.rfl

theorem inOrder_trans {a b c : List String} (h : inOrder a b = true) (h' : inOrder b c = true) :
    inOrder a c = true :=
  inOrder_iff.mpr (List.le_trans (inOrder_iff.mp h) (inOrder_iff.mp h'))

theorem inOrder_total (a b : List String) : (inOrder a b || inOrder b a) = true := by
  rw [Bool.or_eq_true, inOrder_iff, inOrder_iff]
  exact List.le_total a b

theorem inOrder_antisymm {a b : List String} (h : inOrder a b = true) (h' : inOrder b a = true) :
    a = b :=
  List.le_antisymm (inOrder_iff.mp h) (inOrder_iff.mp h')

theorem lt_of_inOrder {a b : List String} (h : inOrder a b = true) (hne : a ≠ b) : a < b := by
  by_contra hlt
  exact hne (inOrder_antisymm h (inOrder_iff.mpr hlt))

theorem pairwise_sorted (found : List (List String)) :
    (sorted found).Pairwise fun a b => inOrder a b = true :=
  @List.pairwise_mergeSort _ inOrder (fun _ _ _ => inOrder_trans) inOrder_total found

theorem collect_listed {start : Place} {found : List (List String)}
    (hs : t.entryAt path = .ok (start, .directory)) (hfaults : faultsAbove t start = [])
    (hfound : t.entries.filterMap (found? t path start) = found)
    (hsorted : found.Pairwise fun a b => inOrder a b = true) :
    collect t path = .ok (found.map (pathBelow path)) := by
  have hsame : sorted found = found := List.mergeSort_of_pairwise hsorted
  unfold collect below
  simp only [hs, hfaults, hfound, hsame]

/-- The source files at the top of a tree, as they are listed there. -/
theorem collect_top {found : List (List String)}
    (hfound : t.entries.filterMap (found? t (Place.text []) []) = found)
    (hsorted : found.Pairwise fun a b => inOrder a b = true) :
    collect t (Place.text []) = .ok (found.map (pathBelow (Place.text []))) :=
  collect_listed rfl rfl hfound hsorted

/-- The source files below a place are named once each, and none is a directory. -/
theorem collect_found (ht : t.Sound) (ho : t.Single) (hp : ∀ s ∈ place, IsName s)
    (h : collect t place.text = .ok files) :
    files.Nodup ∧ ∀ file ∈ files, t.isDirectory file = false ∧
      ∃ q : Place, (∀ s ∈ q, IsName s) ∧ place <+: q ∧ file = q.text := by
  obtain ⟨hd, rfl⟩ | ⟨start, -, rfl⟩ := collect_cases h
  · refine ⟨by simp, fun file hf => ?_⟩
    rw [List.mem_singleton.mp hf]
    exact ⟨hd, place, hp, List.prefix_refl _, rfl⟩
  · refine ⟨List.pairwise_map.mpr ?_, fun file hf => ?_⟩
    · have hnodup : (sorted (t.entries.filterMap (found? t place.text start))).Nodup :=
        (List.mergeSort_perm _ _).nodup_iff.mpr (nodup_found ho)
      refine hnodup.imp_of_mem fun ha hb hne he => hne ?_
      obtain ⟨-, hna, hba, -⟩ := sorted_found ht.named hp ha
      obtain ⟨-, hnb, hbb, -⟩ := sorted_found ht.named hp hb
      rw [hba, hbb] at he
      exact List.append_cancel_left (text_inj hna hnb he)
    · obtain ⟨names, hm, rfl⟩ := List.mem_map.mp hf
      obtain ⟨-, hn, hb, hsource⟩ := sorted_found ht.named hp hm
      rw [hb]
      exact ⟨not_isDirectory (isSource_eq_true hsource).1, _, hn, List.prefix_append _ _, rfl⟩

theorem names_pathBelow (path : String) {names : List String} (hn : ∀ s ∈ names, IsName s) :
    (ofText (pathBelow path names)).names = (ofText path).names ++ names := by
  unfold pathBelow
  rw [names_joinPath _ (not_rooted_text_names hn), names_text fun s hs => (hn s hs).not_slashed]
  congr 1
  exact List.filter_eq_self.mpr fun s hs => by simp [(hn s hs).not_filler]

theorem below_ordered {start : Place} (ht : t.Sound) (ho : t.Single) :
    (below t path start).Pairwise fun a b => (ofText a).names < (ofText b).names := by
  have hperm := List.mergeSort_perm (t.entries.filterMap (found? t path start)) inOrder
  have hnodup := hperm.nodup_iff.mpr (nodup_found ho)
  have hnamed : ∀ names ∈ sorted (t.entries.filterMap (found? t path start)),
      ∀ s ∈ names, IsName s := by
    intro names hm s hs
    obtain ⟨x, hx, hf⟩ := List.mem_filterMap.mp (hperm.subset hm)
    exact ht.named x hx s ((found?_eq_some.mp hf).1 ▸ List.mem_append_right _ hs)
  refine List.pairwise_map.mpr (((pairwise_sorted _).and hnodup).imp_of_mem fun ha hb hab => ?_)
  rw [names_pathBelow path (hnamed _ ha), names_pathBelow path (hnamed _ hb)]
  exact List.append_left_lt (lt_of_inOrder hab.1 hab.2)

/-- The source files are ordered by the names on their paths. -/
theorem collect_sorted (ht : t.Sound) (ho : t.Single) (h : collect t place.text = .ok files) :
    files.Pairwise fun a b => (Path.ofText a).names < (Path.ofText b).names := by
  obtain ⟨-, rfl⟩ | ⟨start, -, rfl⟩ := collect_cases h
  · exact List.pairwise_singleton _ _
  · exact below_ordered ht ho

/-- What is found below a place is below the root of the project too. -/
theorem exists_rels (hr : r <+: place)
    (hd : t.isDirectory r.text = true)
    (hfound : ∀ file ∈ files, t.isDirectory file = false ∧
      ∃ q : Place, (∀ s ∈ q, IsName s) ∧ place <+: q ∧ file = q.text) :
    ∃ rels : List Place, files = rels.map (fun names => Place.text (r ++ names)) ∧
      ∀ names ∈ rels, names ≠ [] ∧ ∀ s ∈ names, IsName s := by
  induction files with
  | nil => exact ⟨[], rfl, nofun⟩
  | cons file files ih =>
    obtain ⟨rels, rfl, hrels⟩ := ih fun file hm => hfound file (List.mem_cons_of_mem _ hm)
    obtain ⟨hdir, q, hq, hp, rfl⟩ := hfound _ List.mem_cons_self
    obtain ⟨names, rfl⟩ := hr.trans hp
    refine ⟨names :: rels, rfl, fun other hm => ?_⟩
    obtain rfl | hm := List.mem_cons.mp hm
    · refine ⟨?_, fun s hs => hq s (List.mem_append_right _ hs)⟩
      rintro rfl
      rw [List.append_nil, hd] at hdir
      cases hdir
    · exact hrels other hm

end Sources

end Refit
