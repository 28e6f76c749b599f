import Refit.Proofs.ProjectRoot.Ancestors
import Refit.Proofs.Tree.Listing

namespace Refit

open Refit.Path Refit.Tree

variable {t : Tree} {p q r place : Place}

namespace ProjectRoot

theorem above_place {count : Nat} {a : Path} (ha : a ∈ above count (Path.mk true q)) :
    ∃ p : Place, p <+: q ∧ a = Path.mk true p := by
  obtain ⟨hr, -, hs⟩ := mem_above ha
  obtain ⟨rooted, segments⟩ := a
  obtain rfl : rooted = true := hr
  exact ⟨segments, hs, rfl⟩

theorem ofText_text (hq : ∀ s ∈ q, IsName s) (hne : q ≠ []) :
    Path.ofText q.text = Path.mk true q := by
  have hs := segments_text hne hq
  have hr := (spells_text hq).rooted
  cases h : Path.ofText q.text with
  | mk rooted segments =>
    rw [h] at hs hr
    dsimp only at hs hr
    rw [hs, hr]

theorem exists_parent (hq : ∀ s ∈ q, IsName s) (hne : q ≠ []) :
    ∃ p : Place, p <+: q ∧ p ≠ q ∧ (Path.ofText q.text).parent? = some (Path.mk true p) := by
  cases hp : (Path.ofText q.text).parent? with
  | none => exact absurd ((spells_text hq).names.symm.trans (parent?_eq_none hp)) hne
  | some p =>
    obtain ⟨hr, -, hs, hlen⟩ := parent?_eq_some hp
    rw [ofText_text hq hne] at hr hs hlen
    obtain ⟨rooted, segments⟩ := p
    obtain rfl : rooted = true := hr
    refine ⟨segments, hs, ?_, rfl⟩
    rintro rfl
    exact Nat.lt_irrefl _ hlen

theorem ancestors_names (hq : ∀ s ∈ q, IsName s) :
    ∀ a ∈ ancestors q.text, ∃ p : Place, p <+: q ∧ a = p.text := by
  intro a ha
  obtain rfl | ha := List.mem_cons.mp ha
  · exact ⟨q, List.prefix_refl q, rfl⟩
  · obtain ⟨b, hb, rfl⟩ := List.mem_map.mp ha
    by_cases hne : q = []
    · subst hne
      have hnone : above (Path.ofText (Place.text [])).segments.length
          (Path.ofText (Place.text [])) = [] := by decide
      rw [hnone] at hb
      cases hb
    · rw [ofText_text hq hne] at hb
      obtain ⟨p, hp, rfl⟩ := above_place hb
      exact ⟨p, hp, rfl⟩

theorem start_names (hq : ∀ s ∈ q, IsName s) : ∃ p : Place, p <+: q ∧ start t q.text = p.text := by
  unfold start
  split
  · exact ⟨q, List.prefix_refl q, rfl⟩
  · by_cases hne : q = []
    · subst hne
      have hnone : (Path.ofText (Place.text [])).parent? = none := by decide
      rw [hnone]
      exact ⟨[], List.prefix_refl _, rfl⟩
    · obtain ⟨p, hp, -, hparent⟩ := exists_parent hq hne
      rw [hparent]
      exact ⟨p, hp, rfl⟩

theorem find_above {base : Place} (hn : ∀ s ∈ base, IsName s)
    (he : start t q.text = base.text) : ∃ p : Place, p <+: base ∧ find t q.text = p.text := by
  unfold find
  rw [he]
  cases hf : (ancestors base.text).find? (isBuildable t) with
  | none => exact ⟨base, List.prefix_refl _, rfl⟩
  | some a => exact ancestors_names hn a (List.mem_of_find?_eq_some hf)

/-- The root is one of the directories above a path. -/
theorem find_names (hq : ∀ s ∈ q, IsName s) : ∃ p : Place, p <+: q ∧ find t q.text = p.text := by
  obtain ⟨base, hs, he⟩ := start_names (t := t) hq
  obtain ⟨p, hp, hf⟩ := find_above (fun s hm => hq s (hs.subset hm)) he
  exact ⟨p, hp.trans hs, hf⟩

theorem canonical_text (hp : ∀ s ∈ p, IsName s) (hl : ∀ o, o <+: p → ¬ t.LinkAt o)
    (h : t.canonical [] p.text = .ok r) : r = p := by
  obtain ⟨entry, hspot⟩ := canonical_eq_ok.mp h
  exact spot_straight (spells_text hp) hl hspot rfl

theorem canonical_find (hp : ∀ s ∈ place, IsName s) (hs : t.Solid place)
    (h : t.canonical [] (find t place.text) = .ok r) : r <+: place := by
  obtain ⟨p, hpp, he⟩ := find_names (t := t) hp
  rw [he] at h
  rw [canonical_text (fun s hm => hp s (hpp.subset hm)) (fun o ho => (hs o (ho.trans hpp)).2) h]
  exact hpp

theorem start_directory (ht : t.Sound) (hq : ∀ s ∈ q, IsName s) (hs : t.Solid q) :
    ∃ p : Place, p <+: q ∧ start t q.text = p.text ∧ t.get? p = some .directory := by
  have hspot := @spot_text_directory t q q ht hq fun p hp => (hs p hp).2
  unfold start
  by_cases hd : t.isDirectory q.text = true
  · rw [if_pos hd]
    obtain ⟨place, hplace⟩ := isDirectory_eq_true.mp hd
    obtain ⟨rfl, hg⟩ := (spot_text_directory ht hq fun p hp => (hs p hp).2).mp
      (entryAt_eq_ok.mp hplace)
    exact ⟨place, List.prefix_refl _, rfl, hg⟩
  · have hne : q ≠ [] := by
      rintro rfl
      exact hd (isDirectory_eq_true.mpr ⟨[], entryAt_eq_ok.mpr (hspot.mpr ⟨rfl, rfl⟩)⟩)
    obtain ⟨p, hp, hpne, hparent⟩ := exists_parent hq hne
    rw [if_neg hd, hparent]
    exact ⟨p, hp, rfl, ht.above (hs q (List.prefix_refl _)).1 hp hpne⟩

theorem find_directory (ht : t.Sound) (hp : ∀ s ∈ place, IsName s) (hs : t.Solid place) :
    ∃ p : Place, p <+: place ∧ find t place.text = p.text ∧ t.get? p = some .directory := by
  obtain ⟨base, hstart, he, hd⟩ := start_directory ht hp hs
  obtain ⟨p, hps, hfind⟩ := find_above (fun s hm => hp s (hstart.subset hm)) he
  refine ⟨p, hps.trans hstart, hfind, ?_⟩
  by_cases hpe : p = base
  · rw [hpe]
    exact hd
  · exact ht.above (by rw [hd]; exact nofun) hps hpe

/-- The root of a project is a directory. -/
theorem canonical_find_directory (ht : t.Sound) (hp : ∀ s ∈ place, IsName s) (hs : t.Solid place)
    (h : t.canonical [] (find t place.text) = .ok r) : t.get? r = some .directory := by
  obtain ⟨p, hpp, hfind, hd⟩ := find_directory ht hp hs
  rw [hfind] at h
  rw [canonical_text (fun s hm => hp s (hpp.subset hm)) (fun o ho => (hs o (ho.trans hpp)).2) h]
  exact hd

theorem exists_canonical_find (ht : t.Sound) (hp : ∀ s ∈ place, IsName s) (hs : t.Solid place) :
    ∃ r, t.canonical [] (find t place.text) = .ok r := by
  obtain ⟨p, hpp, hfind, hd⟩ := find_directory ht hp hs
  have hspot : t.spotFrom false [] p.text = .ok (.found p .directory) :=
    (spot_text_directory ht (fun s hm => hp s (hpp.subset hm))
      fun o ho => (hs o (ho.trans hpp)).2).mpr ⟨rfl, hd⟩
  rw [hfind]
  exact ⟨p, canonical_eq_ok.mpr ⟨.directory, hspot⟩⟩

end ProjectRoot

end Refit
