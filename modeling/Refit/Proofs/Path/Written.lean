import Mathlib.Data.List.DropRight
import Refit.Proofs.Path.Names

namespace Refit.Path

variable {names segments : List String} {base p rest : Path} {r : Place}

theorem exists_afterNames_iff (hb : ∀ s ∈ names, isFiller s = false) :
    (∃ rest, afterNames names segments = some rest) ↔
      names <+: segments.filter fun s => !isFiller s := by
  constructor
  · rintro ⟨rest, h⟩
    exact ⟨_, (afterNames_eq_some hb h).1.symm⟩
  · intro h
    fun_induction afterNames names segments with
    | case1 segments => exact ⟨segments, rfl⟩
    | case2 name names => simp at h
    | case3 name names s segments hs ih =>
      rw [List.filter_cons_of_neg (by simp [hs])] at h
      exact ih hb h
    | case4 names s segments hs ih =>
      rw [List.filter_cons_of_pos (by simp [hs])] at h
      exact ih (fun a ha => hb a (List.mem_cons_of_mem _ ha)) (List.cons_prefix_cons.mp h).2
    | case5 name names s segments hs hne =>
      rw [List.filter_cons_of_pos (by simp [hs])] at h
      exact absurd (List.cons_prefix_cons.mp h).1.symm hne

/-- A base can be taken off a path where its names begin the names of the path. -/
theorem exists_stripPrefix?_iff (hr : base.rooted = p.rooted) :
    (∃ rest, stripPrefix? base p = some rest) ↔ base.names <+: p.names := by
  have hb : ∀ s ∈ base.names, isFiller s = false := fun s hs => by
    simpa using (List.mem_filter.mp hs).2
  refine Iff.trans ?_ (exists_afterNames_iff hb)
  unfold stripPrefix?
  rw [if_neg (by simp [hr])]
  simp [Option.map_eq_some_iff]

theorem dropFillers_eq (segments : List String) :
    dropFillers true segments = segments.dropWhile isFiller := by
  induction segments with
  | nil => rfl
  | cons s segments ih =>
    rw [dropFillers, ih]
    by_cases hs : isFiller s = true
    · rw [if_pos (by simpa [isFiller] using hs), List.dropWhile_cons_of_pos hs]
    · rw [if_neg (by simpa [isFiller] using hs), List.dropWhile_cons_of_neg hs]

theorem stripPrefix?_eq (hr : base.rooted = p.rooted) :
    stripPrefix? base p = (afterNames base.names p.segments).map fun rest =>
      ⟨false, (rest.dropWhile isFiller).rdropWhile isFiller⟩ := by
  simp only [stripPrefix?, hr, ne_eq, not_true_eq_false, if_false, dropFillers_eq, List.rdropWhile]

theorem rooted_of_stripPrefix? (h : stripPrefix? base p = some rest) : base.rooted = p.rooted := by
  by_contra hne
  rw [stripPrefix?, if_pos hne] at h
  cases h

theorem trimmed_of_stripPrefix? (h : stripPrefix? base p = some rest) :
    (rest.segments.dropWhile isFiller).rdropWhile isFiller = rest.segments := by
  obtain ⟨-, -, -, hhead⟩ := stripPrefix?_eq_some h
  have hfront : rest.segments.dropWhile isFiller = rest.segments := by
    cases hs : rest.segments with
    | nil => rfl
    | cons s segments => simp [hhead s (by simp [hs])]
  rw [hfront]
  rw [stripPrefix?_eq (rooted_of_stripPrefix? h)] at h
  obtain ⟨after, -, rfl⟩ := Option.map_eq_some_iff.mp h
  exact List.rdropWhile_idempotent isFiller _

/-- What follows a base follows every other place after it has been put there. -/
theorem stripPrefix?_below (hr : ∀ s ∈ r, IsName s) (hne : r ≠ [])
    (hp : ∀ s ∈ p.segments, '/' ∉ s.toList) (h : stripPrefix? base p = some rest) :
    stripPrefix? (ofText r.text) (ofText (joinPath r.text rest.text)) = some rest := by
  have htrim := trimmed_of_stripPrefix? h
  obtain ⟨hrel, -, hsub, hhead⟩ := stripPrefix?_eq_some h
  obtain ⟨rooted, segments⟩ := rest
  cases hrel
  dsimp only at htrim hsub hhead
  have hslash : ∀ s ∈ segments, '/' ∉ s.toList := fun s hs => hp s (hsub s hs)
  have hrooted : (ofText (mk false segments).text).rooted = false := by
    refine not_rooted_text fun s hs => ⟨?_, hslash s (List.mem_of_head? hs)⟩
    rintro rfl
    exact absurd (hhead "" hs) (by decide)
  -- an empty remainder is read back as one empty segment
  have hwritten : ((ofText (mk false segments).text).segments.dropWhile isFiller).rdropWhile
      isFiller = segments := by
    by_cases hempty : segments = []
    · subst hempty
      decide
    · rw [segments_written hempty hslash hrooted]
      exact htrim
  obtain ⟨above, hsegments, habove⟩ := segments_joinPath (spells_text hr).ne_empty hrooted
  have hplace : above = r := by
    rw [segments_text hne hr] at habove
    obtain rfl | rfl := habove
    · rfl
    · exact absurd rfl (hr "" (by simp)).ne_empty
  have hafter : afterNames r (ofText (joinPath r.text (mk false segments).text)).segments =
      some (ofText (mk false segments).text).segments := by
    rw [hsegments, hplace]
    exact afterNames_append fun s hs => (hr s hs).not_filler
  rw [stripPrefix?_eq (by rw [(spells_text hr).rooted, rooted_joinPath (spells_text hr).rooted]),
    (spells_text hr).names, hafter, Option.map_some, hwritten]

end Refit.Path
