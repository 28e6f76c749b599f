import Refit.ProjectRoot
import Refit.Proofs.Path.Names

namespace Refit

open Refit.Path

variable {p q a : Path} {path : String} {names segments rest : List String} {rooted : Bool}
  {s : String} {n : Nat}

namespace Path

theorem dropFillers_eq_cons (h : dropFillers rooted segments = s :: rest) (hs : isFiller s = true) :
    rest = [] := by
  fun_induction dropFillers rooted segments with
  | case1 => cases h
  | case2 a more _ ih => exact ih h
  | case3 a more hn =>
    cases h
    by_contra hne
    exact hn (by simpa [isFiller, hne] using hs)

theorem parent?_eq_none (h : p.parent? = none) : p.names = [] := by
  unfold parent? at h
  have hf := filter_dropFillers p.rooted p.segments.reverse
  split at h
  · rename_i he
    rw [he, List.filter_reverse] at hf
    exact List.reverse_eq_nil_iff.mp hf.symm
  · cases h

theorem parent?_eq_some (h : p.parent? = some q) :
    q.rooted = p.rooted ∧ q.names = p.names.dropLast ∧ q.segments <+: p.segments ∧
      q.segments.length < p.segments.length := by
  unfold parent? at h
  split at h
  · cases h
  · rename_i s rest he
    cases h
    have hp := dropFillers_suffix p.rooted p.segments.reverse
    have hq := dropFillers_suffix p.rooted rest
    have hf := filter_dropFillers p.rooted p.segments.reverse
    rw [he] at hp hf
    refine ⟨rfl, ?_, ?_, ?_⟩
    · have hnames : p.names = ((s :: rest).filter fun s => !isFiller s).reverse := by
        rw [hf, List.filter_reverse, List.reverse_reverse, names]
      rw [hnames, names, List.filter_reverse, filter_dropFillers]
      by_cases hs : isFiller s = true
      · rw [dropFillers_eq_cons he hs, List.filter_cons_of_neg (by simp [hs])]
        rfl
      · rw [List.filter_cons_of_pos (by simp [hs]), List.reverse_cons, List.dropLast_concat]
    · have hsub := List.reverse_prefix.mpr (hq.trans ((List.suffix_cons s rest).trans hp))
      rwa [List.reverse_reverse] at hsub
    · have hlen := hp.length_le
      have hlen' := hq.length_le
      rw [List.length_cons, List.length_reverse] at hlen
      rw [List.length_reverse]
      omega

theorem splitSlashes_cons {c : Char} (hc : c ≠ '/') (cs : List Char) :
    ∃ word more, splitSlashes (c :: cs) = (c :: word) :: more := by
  cases hs : splitSlashes cs with
  | nil => exact absurd hs (splitSlashes_ne_nil cs)
  | cons word more =>
    refine ⟨word, more, ?_⟩
    rw [splitSlashes, hs]
    exact hc

theorem head_ne_empty (hr : (ofText path).rooted = false) (hne : path ≠ "") :
    ∀ s ∈ (ofText path).segments.head?, s ≠ "" := by
  rw [← Bool.not_eq_true, rooted_ofText] at hr
  rw [segments_ofText, unrooted_of_head hr]
  obtain ⟨c, cs, hs⟩ := List.exists_cons_of_ne_nil fun h => hne (String.toList_eq_nil_iff.mp h)
  have hc : c ≠ '/' := by
    rintro rfl
    exact hr (by rw [hs]; rfl)
  obtain ⟨word, more, hsplit⟩ := splitSlashes_cons hc cs
  rw [hs, hsplit]
  rintro s ⟨⟩
  simp

end Path

namespace ProjectRoot

theorem mem_above (h : a ∈ above n p) :
    a.rooted = p.rooted ∧ a.names <+: p.names ∧ a.segments <+: p.segments := by
  induction n generalizing p with
  | zero => cases h
  | succ n ih =>
    rw [above] at h
    split at h
    · cases h
    · rename_i q hq
      obtain ⟨hr, hn, hs, -⟩ := parent?_eq_some hq
      have hn : q.names <+: p.names := hn ▸ List.dropLast_prefix p.names
      obtain rfl | h := List.mem_cons.mp h
      · exact ⟨hr, hn, hs⟩
      · obtain ⟨hr', hn', hs'⟩ := ih h
        exact ⟨hr'.trans hr, hn'.trans hn, hs'.trans hs⟩

theorem pairwise_above (n : Nat) (p : Path) :
    (above n p).Pairwise fun a b => b.names <+: a.names := by
  induction n generalizing p with
  | zero => exact .nil
  | succ n ih =>
    rw [above]
    split
    · exact .nil
    · exact .cons (fun b hb => (mem_above hb).2.1) (ih _)

theorem exists_above (hn : p.segments.length ≤ n) (h : names <+: p.names) (hne : names ≠ p.names) :
    ∃ a ∈ above n p, a.names = names := by
  induction n generalizing p with
  | zero =>
    have hnil : p.names = [] := by
      rw [Path.names, List.eq_nil_of_length_eq_zero (Nat.le_zero.mp hn)]
      rfl
    rw [hnil] at h hne
    exact absurd (List.prefix_nil.mp h) hne
  | succ n ih =>
    cases hq : p.parent? with
    | none =>
      rw [parent?_eq_none hq] at h hne
      exact absurd (List.prefix_nil.mp h) hne
    | some q =>
      obtain ⟨-, hnames, -, hlen⟩ := parent?_eq_some hq
      have hmem : ∀ b, b = q ∨ b ∈ above n q → b ∈ above (n + 1) p := by
        intro b hb
        rw [above, hq]
        exact List.mem_cons.mpr hb
      by_cases he : names = q.names
      · exact ⟨q, hmem q (.inl rfl), he.symm⟩
      · obtain ⟨more, hmore⟩ := h
        have hle : names <+: q.names := by
          rw [hnames, ← hmore, List.dropLast_append_of_ne_nil]
          · exact List.prefix_append names _
          · rintro rfl
            exact hne (by rw [← hmore, List.append_nil])
        obtain ⟨b, hb, hbn⟩ := ih (by omega) hle he
        exact ⟨b, hmem b (.inr hb), hbn⟩

theorem ofText_above (ha : a ∈ above n (ofText path)) :
    (ofText a.text).rooted = (ofText path).rooted ∧ (ofText a.text).names = a.names := by
  obtain ⟨hr, -, hs⟩ := mem_above ha
  obtain ⟨rooted, segments⟩ := a
  have hslash : ∀ s ∈ segments, '/' ∉ s.toList :=
    fun s hm => not_mem_of_mem_segments (hs.subset hm)
  refine ⟨?_, names_text hslash⟩
  obtain rfl : rooted = (ofText path).rooted := hr
  cases hp : (ofText path).rooted with
  | true => exact rooted_text segments
  | false =>
    refine not_rooted_text fun s hm => ⟨?_, hslash s (List.mem_of_head? hm)⟩
    have hne : path ≠ "" := by
      rintro rfl
      have hnone : (ofText "").parent? = none := by decide
      cases n with
      | zero => cases ha
      | succ n => simp [above, hnone] at ha
    cases segments with
    | nil => cases hm
    | cons b rest =>
      cases hm
      obtain ⟨more, hmore⟩ := hs
      exact head_ne_empty hp hne s (by simp [← hmore])

theorem ofText_parent? (h : (ofText path).parent? = some q) :
    (ofText q.text).rooted = (ofText path).rooted ∧
      (ofText q.text).names = (ofText path).names.dropLast := by
  have hnext : q ∈ above 1 (ofText path) := by
    rw [above, h]
    exact List.mem_cons_self
  obtain ⟨hr, hn⟩ := ofText_above hnext
  exact ⟨hr, hn.trans (parent?_eq_some h).2.1⟩

/-- The ancestors of a path are its beginnings name by name, the nearest first. -/
theorem ancestors_exact (path : String) :
    (∀ a ∈ ancestors path, (ofText a).rooted = (ofText path).rooted ∧
      (ofText a).names <+: (ofText path).names) ∧
    (ancestors path).Pairwise (fun a b => (ofText b).names <+: (ofText a).names) ∧
    ∀ names, names <+: (ofText path).names → ∃ a ∈ ancestors path, (ofText a).names = names := by
  have hp : ∀ a ∈ (above (ofText path).segments.length (ofText path)).map Path.text,
      (ofText a).rooted = (ofText path).rooted ∧ (ofText a).names <+: (ofText path).names := by
    intro a ha
    obtain ⟨b, hb, rfl⟩ := List.mem_map.mp ha
    obtain ⟨hr, hn⟩ := ofText_above hb
    exact ⟨hr, hn ▸ (mem_above hb).2.1⟩
  refine ⟨fun a ha => ?_, .cons (fun a ha => (hp a ha).2) ?_, fun names hn => ?_⟩
  · obtain rfl | ha := List.mem_cons.mp ha
    · exact ⟨rfl, List.prefix_refl _⟩
    · exact hp a ha
  · refine List.pairwise_map.mpr ((pairwise_above _ _).imp_of_mem fun ha hb hab => ?_)
    rwa [(ofText_above ha).2, (ofText_above hb).2]
  · by_cases he : names = (ofText path).names
    · exact ⟨path, List.mem_cons_self, he.symm⟩
    · obtain ⟨a, ha, hnames⟩ := exists_above (Nat.le_refl _) hn he
      exact ⟨a.text, List.mem_cons_of_mem _ (List.mem_map.mpr ⟨a, ha, rfl⟩),
        (ofText_above ha).2.trans hnames⟩

end ProjectRoot

end Refit
